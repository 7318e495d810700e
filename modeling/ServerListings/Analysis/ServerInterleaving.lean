import ServerListings.Interface.Arrivals
import ServerListings.Interface.StatementSteps
import ServerListings.Lib.Simulation

/-!
# Calls of `process` can be taken as one step

Between the statements of a worker's call of `process`, `main` and the other workers go on.
None of them uses the object of the connection meanwhile, because `EPOLLONESHOT` leaves the
connection to the worker until it calls `modfd` or `close_conn`. So a run of the statements is
a run of the server in which each call is one step, taken where the statements call `modfd`, or
`close_conn` for a request for an empty file. Behind `close_conn` the descriptor is free while the
worker still has its call of `modfd` on the object to come: if `accept` returns the descriptor
before that, the call arms the new connection. This is left aside. Both kinds of runs stop where
the behaviour of a call is undefined.
-/

set_option autoImplicit false

namespace ServerListings.Analysis.ServerInterleaving

open Lib.CMem Lib.Custody Lib.Transition ServerListings.Model ServerListings.Model.Http
  ServerListings.Model.WebServer ServerListings.Interface ServerListings.Interface.ServerFrames
  ServerListings.Interface.StatementSteps

variable {W : Type} {f f' : Interleaved W} {s s' : Server W} {owner : Int → Option (Place W)}
  {fd : Int}

/-- `accept` does not return the descriptor of a connection that a worker has closed in its call
of `process` and whose `modfd` is still to come. -/
def Unreused (f : Interleaved W) : Statement W → Prop
  | .outside (.handle d input) => d.fd = f.server.listenfd →
      ∀ w fd, f.point w = .closed → f.server.working w = some fd → input.accepted ≠ some fd
  | _ => True

/-- No worker is inside a call for a descriptor that `accept` returns. -/
theorem untouched_accepted {input : Server.Input} {d : Delivered} (h : Refines f s)
    (ho : Owned s owner) (hcond : Unreused f (.outside (.handle d input)))
    (hd : d.fd = f.server.listenfd)
    (hnew : ∀ connfd, input.accepted = some connfd → s.descriptors connfd = none) :
    ∀ fd, input.accepted = some fd → Untouched f fd := by
  intro fd hfd w hw
  by_cases hp : f.point w = .closed
  · exact absurd hfd (hcond hd w fd hp hw)
  · have hopen := h.open_of ho hw hp
    rw [Open, hnew fd hfd] at hopen
    cases hopen

section Workers

variable [DecidableEq W]

/-- A step that is not a call of `process` is taken by both servers. -/
theorem outside_answered {a : Action W} {t : Server W} (h : Refines f s) (ho : Owned s owner)
    (hne : ∀ w fs, a ≠ .process w fs) (hs : Step f.server a t) (hcond : Unreused f (.outside a)) :
    ∃ s', Step s a s' ∧ Refines ⟨t, f.point⟩ s' := by
  have hpending : s.pending = f.server.pending := by
    rw [h.same]
    rfl
  have hepoll : s.epoll = f.server.epoll := by
    rw [h.same]
    rfl
  have hlisten : s.listenfd = f.server.listenfd := by
    rw [h.same]
    rfl
  have hqueue : s.queue = f.server.queue := by
    rw [h.same]
    rfl
  have hfree : s.descriptors = f.server.descriptors := by
    rw [h.same]
    rfl
  cases hs with
  | wait batch hempty hlen hnodup hrep =>
    refine ⟨s.deliver batch, .wait batch (hpending.trans hempty) hlen hnodup fun d hd => ?_, h.deliver batch⟩
    rw [Server.Reported, hepoll]
    exact hrep d hd
  | handle d rest input hp hnew hok =>
    have hrest := h.rest rest
    have hp' : s.pending = d :: rest := hpending.trans hp
    have hnew' : ∀ connfd, input.accepted = some connfd →
        0 ≤ connfd ∧ s.descriptors connfd = none := hfree ▸ hnew
    by_cases hd : d.fd = f.server.listenfd
    · have hok' := hok
      rw [Server.handleEvent, if_pos hd] at hok'
      have hnobody := untouched_accepted h ho hcond hd fun fd hfd => (hnew' fd hfd).2
      obtain ⟨s', hok'', hrefines⟩ := hrest.acceptClient hnobody hok'
      refine ⟨s', .handle d rest input hp' hnew' ?_, hrefines⟩
      rw [Server.handleEvent, if_pos (hd.trans hlisten.symm)]
      exact hok''
    · obtain ⟨hopen, hnext⟩ := ho.nextEvent hp' (fun heq => hd (heq.trans hlisten))
      have hfd := hrest.untouched_of_none hnext hopen (Function.update_self ..)
      obtain ⟨s', hok', hrefines⟩ := hrest.handleEvent hfd hd hok
      exact ⟨s', .handle d rest input hp' hnew' hok', hrefines⟩
  | take w fd rest hidle hq =>
    have hidle' : s.working w = none := by rw [h.working, hidle, ite_self]
    exact ⟨_, .take w fd rest hidle' (hqueue.trans hq), h.take hidle fd rest⟩
  | process w fd fs hw hok => exact absurd rfl (hne w fs)

/-- Each statement is answered by no step, by the same step, or by the whole call. -/
theorem statement_answered {l : Statement W} (h : Refines f s) (ho : Owned s owner)
    (hs : StatementStep f l f') (hcond : Unreused f l) :
    ∃ s', Run Step (fun _ _ => True) s s' ∧ Refines f' s' := by
  cases hs with
  | outside a hne hs =>
    obtain ⟨s', hstep, hrefines⟩ := outside_answered h ho hne hs hcond
    exact ⟨s', Run.refl.step hstep trivial, hrefines⟩
  | processRead w fd fs readRet c hw hp hread =>
    have hnot : f.point w ≠ .closed := by
      rw [hp]
      simp
    have hsettled : Settled f fd := by
      intro v hv hbusy
      obtain rfl := h.one_worker ho hv hbusy.2 hw hnot
      exact hbusy.1 hp
    rw [← h.settled fd hsettled] at hread
    refine ⟨s, .refl, h.progress ho hw hnot ?_ (midway_processRead hread)⟩
    split <;> exact ⟨by simp, by simp⟩
  | processWrite w fd readRet writeRet c hw hp hwrite =>
    have hnot : f.point w ≠ .closed := by
      rw [hp]
      simp
    have hmid := h.midway w fd hw ⟨by rw [hp]; simp, hnot⟩
    rw [hp] at hmid
    refine ⟨s, .refl, h.progress ho hw hnot ?_ (midway_processWrite hmid hwrite)⟩
    split <;> exact ⟨by simp, by simp⟩
  | closeConn w fd hw hp =>
    obtain ⟨fs, s', hstep, hrefines⟩ := h.closeConn ho hw hp
    exact ⟨s', Run.refl.step hstep trivial, hrefines⟩
  | modfd w fd ev hw hp =>
    obtain ⟨fs, s', hstep, hrefines⟩ := h.finish ho hw hp
    exact ⟨s', Run.refl.step hstep trivial, hrefines⟩
  | modfdClosed w fd hw hp => exact ⟨s, .refl, h.finishClosed ho hw hp⟩

/-! ## A call in one piece -/

/-- Of two changes of the object and of the place the second one is left. -/
theorem progress_progress (f : Interleaved W) (w : W) (fd : Int) (c c' : HttpConn)
    (effects : List Effect) (p p' : Point) :
    (f.progress w fd c [] p).progress w fd c' effects p' = f.progress w fd c' effects p' := by
  have husers : Function.update (Function.update f.server.users fd c) fd c' =
      Function.update f.server.users fd c' := Function.update_idem ..
  have hpoint : Function.update (Function.update f.point w p) w p' = Function.update f.point w p' :=
    Function.update_idem ..
  have hserver : (f.server.setUser fd c []).setUser fd c' effects = f.server.setUser fd c' effects :=
    congrArg (fun users => Server.applyEffects { f.server with users := users } effects) husers
  exact congrArg₂ Interleaved.mk hserver hpoint

/-- The last statement leaves no worker inside a call, and what the whole call leaves. -/
theorem finish_progress (s : Server W) (w : W) (fd : Int) (c : HttpConn) (effects : List Effect)
    (p : Point) (ev : Interest) :
    ((between s).progress w fd c effects p).finish w fd ev =
      between (Server.setUser { s with working := Function.update s.working w none } fd c
        (effects ++ modfd c.mSockfd ev)) := by
  obtain ⟨husers, hworking⟩ := applyEffects_frame effects
    { s with users := Function.update s.users fd c }
  have huser : ((between s).progress w fd c effects p).server.users fd = c := by
    refine (congrFun husers fd).trans ?_
    exact Function.update_self ..
  have hidle := applyEffects_withWorkers effects { s with users := Function.update s.users fd c }
    (Function.update s.users fd c) (Function.update s.working w none)
  have hkept : Function.update (s.setUser fd c effects).working w none =
      Function.update s.working w none := by rw [Server.setUser, hworking]
  have hserver : withWorkers (s.setUser fd c effects) (s.setUser fd c effects).users
      (Function.update (s.setUser fd c effects).working w none) =
        Server.setUser { s with working := Function.update s.working w none } fd c effects :=
    (congrArg₂ (withWorkers (s.setUser fd c effects)) husers hkept).trans hidle.symm
  have hpoint : Function.update (Function.update (fun _ => Point.outside) w p) w .outside =
      fun _ => Point.outside := by
    rw [Function.update_idem, Function.update_eq_self]
  rw [Interleaved.finish, huser]
  refine congrArg₂ Interleaved.mk ?_ hpoint
  refine (congrArg (fun t => Server.applyEffects t (modfd c.mSockfd ev)) hserver).trans ?_
  exact List.foldl_append.symm

/-- The statements of a call one after the other. -/
theorem run_call {w : W} {fs : FileSystem} (hw : s.working w = some fd)
    (hok : s.work w fd fs = .ok s') : Run StatementStep Unreused (between s) (between s') := by
  obtain ⟨⟨c', effects⟩, hprocess, hok⟩ := bind_eq_ok.mp hok
  obtain rfl := Except.ok.inj hok
  obtain ⟨⟨readRet, c⟩, hread, hrest⟩ := bind_eq_ok.mp hprocess
  have hparse : Run StatementStep Unreused (between s) _ :=
    Run.refl.step (StatementStep.processRead w fd fs readRet c hw rfl hread) trivial
  by_cases hmore : readRet = .noRequest
  · rw [if_pos hmore] at hparse
    simp only [if_pos hmore] at hrest
    obtain ⟨rfl, rfl⟩ := Prod.mk.inj (Except.ok.inj hrest)
    have hfinish := hparse.step (.modfd w fd .epollin hw (Function.update_self ..)) trivial
    rw [finish_progress] at hfinish
    exact hfinish
  · rw [if_neg hmore] at hparse
    simp only [if_neg hmore] at hrest
    obtain ⟨⟨writeRet, c₂⟩, hwrite, hrest⟩ := bind_eq_ok.mp hrest
    have huser : ((between s).progress w fd c [] (.parsed readRet)).server.users fd = c :=
      Function.update_self ..
    rw [← huser] at hwrite
    have hrespond := hparse.step
      (.processWrite w fd readRet writeRet c₂ hw (Function.update_self ..) hwrite) trivial
    rw [progress_progress] at hrespond
    cases writeRet with
    | true =>
      obtain ⟨rfl, rfl⟩ := Prod.mk.inj (Except.ok.inj hrest)
      have hfinish := hrespond.step (.modfd w fd .epollout hw (Function.update_self ..)) trivial
      rw [finish_progress] at hfinish
      exact hfinish
    | false =>
      obtain ⟨rfl, rfl⟩ := Prod.mk.inj (Except.ok.inj hrest)
      have hobject : ((between s).progress w fd c₂ [] .unwritten).server.users fd = c₂ :=
        Function.update_self ..
      have hclose := hrespond.step (.closeConn w fd hw (Function.update_self ..)) trivial
      simp only [Bool.false_eq_true, if_false, hobject, progress_progress] at hclose
      have hkept : ((between s).progress w fd c₂.closeConn.1 c₂.closeConn.2
          .closed).server.working w = some fd := by
        refine (congrFun (applyEffects_frame c₂.closeConn.2
          { s with users := Function.update s.users fd c₂.closeConn.1 }).2 w).trans hw
      have hfinish := hclose.step (.modfdClosed w fd hkept (Function.update_self ..)) trivial
      rw [finish_progress] at hfinish
      exact hfinish

/-- A step is one statement, or the statements of a call. -/
theorem run_step {a : Action W} (hs : Step s a s') :
    Run StatementStep Unreused (between s) (between s') := by
  cases hs with
  | process w fd fs hw hok => exact run_call hw hok
  | wait batch hempty hlen hnodup hrep =>
    exact Run.refl.step (.outside _ (by rintro w fs ⟨⟩) (.wait batch hempty hlen hnodup hrep)) trivial
  | handle d rest input hp hnew hok =>
    refine Run.refl.step (.outside _ (by rintro w fs ⟨⟩) (.handle d rest input hp hnew hok)) ?_
    intro _ w fd hclosed
    cases hclosed
  | take w fd rest hidle hq =>
    exact Run.refl.step (.outside _ (by rintro w fs ⟨⟩) (.take w fd rest hidle hq)) trivial

/-! ## Runs -/

/-- A run of the statements is one of the steps, but for the objects of unfinished calls, and
a run of the steps is one of the statements. -/
theorem run_statements (hinit : Initial s) :
    (∀ f, Run StatementStep Unreused (between s) f →
      ∃ s', Run Step (fun _ _ => True) s s' ∧ Refines f s') ∧
    ∀ s', Run Step (fun _ _ => True) s s' → Run StatementStep Unreused (between s) (between s') := by
  constructor
  · intro f hrun
    refine hrun.simulate (refines_between s) fun g t l g' hs hrel hstep hcond => ?_
    obtain ⟨owner, howned⟩ := run_owned ⟨_, owned_initial hinit⟩ hs
    exact statement_answered hrel howned hstep hcond
  · intro s' hrun
    induction hrun with
    | refl => exact .refl
    | step _ hstep _ ih => exact ih.trans (run_step hstep)

/-- `epoll_wait` reports the first client to the server as `main` sets it up. -/
theorem run_statements_start :
    Run StatementStep Unreused (between (Server.start fun _ => default))
      (between ((Server.start fun _ => default).deliver [readable 3])) := by
  have hwait : Step (Server.start fun _ => default) (.wait [readable 3]) _ := wait_readable rfl rfl
  exact (run_statements (initial_start _)).2 _ (Run.refl.step hwait trivial)

end Workers

end ServerListings.Analysis.ServerInterleaving
