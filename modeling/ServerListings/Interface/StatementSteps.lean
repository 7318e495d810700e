import ServerListings.Interface.ServerFrames
import ServerListings.Interface.ServerSteps
import ServerListings.Model.ServerInterleaving

/-!
# The statements of a call against the whole call

`Refines f s` relates the server whose workers are between statements of `process` to the one in
which a call is one step. A call counts where the statements come to `modfd`, or to `close_conn`
if they do: from there on its descriptor is free, and what is left is a call of `modfd` on the
descriptor -1. Until then nobody but the worker uses the object of the connection, because
`EPOLLONESHOT` leaves the connection to it.
-/

set_option autoImplicit false

namespace ServerListings.Interface.StatementSteps

open Lib.CMem Lib.Custody ServerListings.Model ServerListings.Model.Http
  ServerListings.Model.WebServer ServerListings.Interface ServerListings.Interface.ServerFrames

/-- The worker is inside a call that has not come to its last effect. -/
def Busy (p : Point) : Prop := p ≠ .outside ∧ p ≠ .closed

variable {W : Type} {f f' : Interleaved W} {s s' : Server W} {owner : Int → Option (Place W)}
  {fd : Int}

/-- No worker is inside a call for the connection. -/
def Untouched (f : Interleaved W) (fd : Int) : Prop :=
  ∀ w, f.server.working w = some fd → f.point w = .outside

/-- No worker is going to change the object of the connection in its call. -/
def Settled (f : Interleaved W) (fd : Int) : Prop :=
  ∀ w, f.server.working w = some fd → ¬ Busy (f.point w)

/-- What a worker inside a call has made of the object `c` so far. -/
inductive Midway (c : HttpConn) : Point → HttpConn → Prop
  | parsed {readRet : HttpCode} {c' : HttpConn} (fs : FileSystem) (hret : readRet ≠ .noRequest)
      (hread : c.processRead fs = .ok (readRet, c')) : Midway c (.parsed readRet) c'
  | unwritten {readRet : HttpCode} {c₁ c' : HttpConn} (fs : FileSystem) (hret : readRet ≠ .noRequest)
      (hread : c.processRead fs = .ok (readRet, c₁))
      (hwrite : c₁.processWrite readRet = .ok (false, c')) : Midway c .unwritten c'
  | arming {ev : Interest} {c' : HttpConn} (fs : FileSystem)
      (hprocess : c.process fs = .ok (c', modfd c'.mSockfd ev)) : Midway c (.arming ev) c'

/-- The server of the steps is that of the statements, but for the objects that workers are using
and for the workers that are behind `close_conn`. -/
structure Refines (f : Interleaved W) (s : Server W) : Prop where
  same : s = withWorkers f.server s.users s.working
  working : ∀ w, s.working w = if f.point w = .closed then none else f.server.working w
  settled : ∀ fd, Settled f fd → s.users fd = f.server.users fd
  midway : ∀ w fd, f.server.working w = some fd → Busy (f.point w) →
    Midway (s.users fd) (f.point w) (f.server.users fd)
  closed : ∀ w fd, f.server.working w = some fd → f.point w = .closed → (s.users fd).mSockfd = -1
  taken : ∀ w, f.point w ≠ .outside → ∃ fd, f.server.working w = some fd

/-- The server with no worker inside a call. -/
def between (s : Server W) : Interleaved W := ⟨s, fun _ => .outside⟩

/-- Between calls the two servers are the same. -/
theorem refines_between (s : Server W) : Refines (between s) s where
  same := rfl
  working := fun _ => (if_neg (by simp [between])).symm
  settled := fun _ _ => rfl
  midway := fun _ _ _ h => absurd rfl h.1
  closed := by
    intro _ _ _ h
    cases h
  taken := fun _ h => absurd rfl h

/-- A worker in front of `close_conn` has its request in both servers. -/
theorem Refines.working_of (h : Refines f s) {w : W} (hp : f.point w ≠ .closed) :
    s.working w = f.server.working w := by rw [h.working, if_neg hp]

/-- A worker that is behind `close_conn` has a descriptor that is not open. -/
theorem Refines.not_open (h : Refines f s) (ht : Tables s) {w : W} (hw : f.server.working w = some fd)
    (hp : f.point w = .closed) : ¬ Open s fd := by
  intro ho
  exact ht.ne_negative ho ((ht.socket fd ho).1.symm.trans (h.closed w fd hw hp))

/-- A worker in front of `close_conn` has an open connection. -/
theorem Refines.open_of (h : Refines f s) (ho : Owned s owner) {w : W}
    (hw : f.server.working w = some fd) (hp : f.point w ≠ .closed) : Open s fd :=
  ho.open_of_at fd (.taken w) ((h.working_of hp).trans hw)

/-- Two workers in front of `close_conn` have different connections. -/
theorem Refines.one_worker (h : Refines f s) (ho : Owned s owner) {v w : W}
    (hv : f.server.working v = some fd) (hvp : f.point v ≠ .closed) (hw : f.server.working w = some fd)
    (hwp : f.point w ≠ .closed) : v = w := by
  have hplace : Place.taken v = .taken w :=
    ho.places.unique (show IsAt s fd (.taken v) from (h.working_of hvp).trans hv)
      (show IsAt s fd (.taken w) from (h.working_of hwp).trans hw)
  exact Place.taken.inj hplace

/-- No worker has an open connection that is at no place. -/
theorem Refines.untouched_of_none (h : Refines f s) (ho : Owned s owner) (hopen : Open s fd)
    (hnone : owner fd = none) : Untouched f fd := by
  intro w hw
  by_cases hp : f.point w = .closed
  · exact absurd hopen (h.not_open ho.toTables hw hp)
  · exact absurd ((h.working_of hp).trans hw) (ho.places.not_rel hnone (.taken w))

/-- Both servers handle an event of a connection that no worker uses. -/
theorem Refines.follow {t : Server W} (h : Refines f s) (hfd : Untouched f fd)
    (hf : Follows fd f.server s t s') : Refines ⟨t, f.point⟩ s' := by
  have hworking := hf.working
  have hold : ∀ w x, t.working w = some x → f.server.working w = some x := fun w x hw => hworking ▸ hw
  refine ⟨hf.same, fun w => ?_, fun x hx => ?_, fun w x hw hp => ?_, fun w x hw hp => ?_, fun w hp => ?_⟩
  · show s'.working w = if f.point w = .closed then none else t.working w
    rw [hf.working', hworking]
    exact h.working w
  · show s'.users x = t.users x
    by_cases hxf : x = fd
    · rw [hxf, hf.right, Function.update_self]
    · rw [hf.right, hf.left, Function.update_of_ne hxf, Function.update_of_ne hxf]
      exact h.settled x fun w hw => hx w (show t.working w = some x from hworking ▸ hw)
  · have hxf : x ≠ fd := by
      rintro rfl
      exact hp.1 (hfd w (hold w x hw))
    show Midway (s'.users x) (f.point w) (t.users x)
    rw [hf.right, hf.left, Function.update_of_ne hxf, Function.update_of_ne hxf]
    exact h.midway w x (hold w x hw) hp
  · have hxf : x ≠ fd := by
      rintro rfl
      have houtside := hfd w (hold w x hw)
      exact absurd (hp.symm.trans houtside) (by simp)
    show (s'.users x).mSockfd = -1
    rw [hf.right, Function.update_of_ne hxf]
    exact h.closed w x (hold w x hw) hp
  · show ∃ fd, t.working w = some fd
    rw [hworking]
    exact h.taken w hp

/-! ## The steps of `main` and of idle workers -/

/-- `epoll_wait` returns. -/
theorem Refines.deliver (h : Refines f s) (batch : List Delivered) :
    Refines ⟨f.server.deliver batch, f.point⟩ (s.deliver batch) where
  same := by
    conv_lhs => rw [h.same]
    rfl
  working := h.working
  settled := h.settled
  midway := h.midway
  closed := h.closed
  taken := h.taken

/-- An event is taken from the batch. -/
theorem Refines.rest (h : Refines f s) (rest : List Delivered) :
    Refines ⟨{ f.server with pending := rest }, f.point⟩ { s with pending := rest } where
  same := by
    conv_lhs => rw [h.same]
    rfl
  working := h.working
  settled := h.settled
  midway := h.midway
  closed := h.closed
  taken := h.taken

/-- The object of a connection that no worker uses is the same in both servers. -/
theorem Refines.alike (h : Refines f s) (hfd : Untouched f fd) : Alike fd f.server s :=
  ⟨h.same, h.settled fd fun w hw hp => hp.1 (hfd w hw)⟩

/-- An event is handled, of a connection that is at no place then. -/
theorem Refines.handleEvent {input : Server.Input} {d : Delivered} {t : Server W} (h : Refines f s)
    (hfd : Untouched f d.fd) (hne : d.fd ≠ f.server.listenfd)
    (hok : f.server.handleEvent input d = .ok t) :
    ∃ s', s.handleEvent input d = .ok s' ∧ Refines ⟨t, f.point⟩ s' := by
  obtain ⟨s', hok', hf⟩ := (h.alike hfd).handleEvent input d rfl hne t hok
  exact ⟨s', hok', h.follow hfd hf⟩

/-- A client is accepted. -/
theorem Refines.acceptClient {connfd : Option Int} {t : Server W} (h : Refines f s)
    (hfd : ∀ fd, connfd = some fd → Untouched f fd) (hok : f.server.acceptClient connfd = .ok t) :
    ∃ s', s.acceptClient connfd = .ok s' ∧ Refines ⟨t, f.point⟩ s' := by
  cases connfd with
  | none =>
    obtain rfl := Except.ok.inj hok
    exact ⟨s, rfl, h⟩
  | some fd =>
    obtain ⟨s', hok', hf⟩ := (h.alike (hfd fd rfl)).acceptClient t hok
    exact ⟨s', hok', h.follow (hfd fd rfl) hf⟩

section Workers

variable [DecidableEq W] {w : W}

/-- An idle worker takes a request. -/
theorem Refines.take (h : Refines f s) (hidle : f.server.working w = none) (fd : Int)
    (rest : List Int) :
    Refines
      ⟨{ f.server with queue := rest, working := Function.update f.server.working w (some fd) }, f.point⟩
      { s with queue := rest, working := Function.update s.working w (some fd) } := by
  have houtside : f.point w = .outside := by
    by_contra hp
    obtain ⟨x, hx⟩ := h.taken w hp
    rw [hidle] at hx
    cases hx
  have hother : ∀ v, v ≠ w → Function.update f.server.working w (some fd) v = f.server.working v :=
    fun v hv => Function.update_of_ne hv ..
  have hne : ∀ v, f.point v ≠ .outside → v ≠ w := by
    rintro v hp rfl
    exact hp houtside
  refine ⟨?_, fun v => ?_, fun x hx => h.settled x fun v hv => ?_, fun v x hv hp => ?_,
    fun v x hv hp => ?_, fun v hp => ?_⟩
  · conv_lhs => rw [h.same]
    rfl
  · by_cases hvw : v = w
    · subst hvw
      show Function.update s.working v (some fd) v = if f.point v = .closed then none
        else Function.update f.server.working v (some fd) v
      rw [houtside, if_neg (by simp), Function.update_self, Function.update_self]
    · show Function.update s.working w (some fd) v = if f.point v = .closed then none
        else Function.update f.server.working w (some fd) v
      rw [Function.update_of_ne hvw, Function.update_of_ne hvw]
      exact h.working v
  · by_cases hvw : v = w
    · exact fun hp => hp.1 (hvw ▸ houtside)
    · exact hx v ((hother v hvw).trans hv)
  · exact h.midway v x ((hother v (hne v hp.1)).symm.trans hv) hp
  · have hinside : f.point v ≠ .outside := by
      rw [show f.point v = .closed from hp]
      simp
    exact h.closed v x ((hother v (hne v hinside)).symm.trans hv) hp
  · obtain ⟨x, hx⟩ := h.taken v hp
    exact ⟨x, (hother v (hne v hp)).trans hx⟩

/-! ## The statements of a call -/

/-- The worker goes on, or has finished its call: what is left to show when only the object of its
connection and its own place have changed. -/
theorem Refines.moved {g : Server W} {p : Point} (h : Refines f s) (ho : Owned s owner)
    (hw : f.server.working w = some fd) (hp : f.point w ≠ .closed)
    (hsame : s' = withWorkers g s'.users s'.working)
    (hworkers : ∀ v, v ≠ w → g.working v = f.server.working v ∧ s'.working v = s.working v)
    (husers : ∀ x, x ≠ fd → g.users x = f.server.users x ∧ s'.users x = s.users x)
    (hself : s'.working w = if p = .closed then none else g.working w)
    (hkept : p ≠ .outside → g.working w = some fd)
    (hleft : p = .outside → g.working w = none)
    (hobject : ¬ Busy p → s'.users fd = g.users fd)
    (hmidway : Busy p → Midway (s'.users fd) p (g.users fd))
    (hclosed : p = .closed → (s'.users fd).mSockfd = -1) :
    Refines ⟨g, Function.update f.point w p⟩ s' := by
  have hat : Function.update f.point w p w = p := Function.update_self ..
  have hpoint : ∀ v, v ≠ w → Function.update f.point w p v = f.point v :=
    fun v hv => Function.update_of_ne hv ..
  have hopen := h.open_of ho hw hp
  -- another worker that is not outside has another connection
  have hapart : ∀ v x, v ≠ w → f.server.working v = some x → f.point v ≠ .outside → x ≠ fd := by
    rintro v x hvw hv hpv rfl
    by_cases hpc : f.point v = .closed
    · exact h.not_open ho.toTables hv hpc hopen
    · exact hvw (h.one_worker ho hv hpc hw hp)
  refine ⟨hsame, fun v => ?_, fun x hx => ?_, fun v x hv hpv => ?_, fun v x hv hpv => ?_, fun v hpv => ?_⟩
  · by_cases hvw : v = w
    · subst hvw
      show s'.working v = if Function.update f.point v p v = .closed then none else g.working v
      rw [hat]
      exact hself
    · show s'.working v = if Function.update f.point w p v = .closed then none else g.working v
      rw [hpoint v hvw, (hworkers v hvw).1, (hworkers v hvw).2]
      exact h.working v
  · show s'.users x = g.users x
    by_cases hxf : x = fd
    · subst hxf
      apply hobject
      intro hbusy
      refine hx w (hkept hbusy.1) ?_
      show Busy (Function.update f.point w p w)
      rw [hat]
      exact hbusy
    · rw [(husers x hxf).1, (husers x hxf).2]
      refine h.settled x fun v hv => ?_
      have hvw : v ≠ w := by
        rintro rfl
        exact hxf (Option.some.inj (hv.symm.trans hw))
      rw [← hpoint v hvw]
      exact hx v ((hworkers v hvw).1.trans hv)
  · by_cases hvw : v = w
    · subst hvw
      change Busy (Function.update f.point v p v) at hpv
      rw [hat] at hpv
      obtain rfl : x = fd := Option.some.inj ((show g.working v = some x from hv).symm.trans (hkept hpv.1))
      show Midway (s'.users x) (Function.update f.point v p v) (g.users x)
      rw [hat]
      exact hmidway hpv
    · change Busy (Function.update f.point w p v) at hpv
      rw [hpoint v hvw] at hpv
      have hv' : f.server.working v = some x := (hworkers v hvw).1.symm.trans hv
      have hxf := hapart v x hvw hv' hpv.1
      show Midway (s'.users x) (Function.update f.point w p v) (g.users x)
      rw [hpoint v hvw, (husers x hxf).1, (husers x hxf).2]
      exact h.midway v x hv' hpv
  · by_cases hvw : v = w
    · subst hvw
      change Function.update f.point v p v = .closed at hpv
      rw [hat] at hpv
      have hkept' := hkept (by rw [hpv]; simp)
      obtain rfl : x = fd := Option.some.inj ((show g.working v = some x from hv).symm.trans hkept')
      exact hclosed hpv
    · change Function.update f.point w p v = .closed at hpv
      rw [hpoint v hvw] at hpv
      have hv' : f.server.working v = some x := (hworkers v hvw).1.symm.trans hv
      have hxf := hapart v x hvw hv' (by rw [hpv]; simp)
      rw [(husers x hxf).2]
      exact h.closed v x hv' hpv
  · by_cases hvw : v = w
    · subst hvw
      change Function.update f.point v p v ≠ .outside at hpv
      rw [hat] at hpv
      exact ⟨fd, hkept hpv⟩
    · change Function.update f.point w p v ≠ .outside at hpv
      rw [hpoint v hvw] at hpv
      obtain ⟨x, hx⟩ := h.taken v hpv
      exact ⟨x, (hworkers v hvw).1.trans hx⟩

/-- A statement that only changes the object of the connection. -/
theorem Refines.progress {c : HttpConn} {p : Point} (h : Refines f s) (ho : Owned s owner)
    (hw : f.server.working w = some fd) (hp : f.point w ≠ .closed) (hbusy : Busy p)
    (hc : Midway (s.users fd) p c) : Refines (f.progress w fd c [] p) s := by
  refine h.moved ho hw hp h.same (fun v _ => ⟨rfl, rfl⟩)
    (fun x hx => ⟨Function.update_of_ne hx .., rfl⟩) ?_ (fun _ => hw) (fun hout => absurd hout hbusy.1)
    (fun hnot => absurd hbusy hnot) (fun _ => ?_) (fun hclosed => absurd hclosed hbusy.2)
  · rw [if_neg hbusy.2]
    exact (h.working_of hp).trans hw |>.trans hw.symm
  · show Midway (s.users fd) p (Function.update f.server.users fd c fd)
    rw [Function.update_self]
    exact hc

/-- What the whole call does, where the statements come to `modfd`. -/
theorem Refines.work {ev : Interest} {fs : FileSystem} (h : Refines f s)
    (hprocess : (s.users fd).process fs =
      .ok (f.server.users fd, modfd (f.server.users fd).mSockfd ev)) :
    s.work w fd fs = .ok (withWorkers (f.finish w fd ev).server
      (Function.update s.users fd (f.server.users fd)) (Function.update s.working w none)) := by
  rw [Server.work, hprocess]
  have hsame : ({ s with
      working := Function.update s.working w none
      users := Function.update s.users fd (f.server.users fd) } : Server W) =
        withWorkers { f.server with working := Function.update f.server.working w none }
          (Function.update s.users fd (f.server.users fd)) (Function.update s.working w none) := by
    conv_lhs => rw [h.same]
    rfl
  have heffects := applyEffects_withWorkers (modfd (f.server.users fd).mSockfd ev)
    { f.server with working := Function.update f.server.working w none }
    (Function.update s.users fd (f.server.users fd)) (Function.update s.working w none)
  rw [← hsame] at heffects
  exact congrArg Except.ok heffects

/-- The call of `modfd` is answered by the whole call. -/
theorem Refines.finish {ev : Interest} (h : Refines f s) (ho : Owned s owner)
    (hw : f.server.working w = some fd) (hp : f.point w = .arming ev) :
    ∃ fs s', Step s (.process w fs) s' ∧ Refines (f.finish w fd ev) s' := by
  have hnot : f.point w ≠ .closed := by
    rw [hp]
    simp
  have hmid := h.midway w fd hw ⟨by rw [hp]; simp, hnot⟩
  rw [hp] at hmid
  cases hmid with
  | arming fs hprocess =>
    refine ⟨fs, _, .process w fd fs ((h.working_of hnot).trans hw) (h.work hprocess), ?_⟩
    obtain ⟨husers, hworking⟩ := applyEffects_frame (modfd (f.server.users fd).mSockfd ev)
      { f.server with working := Function.update f.server.working w none }
    have hnone : (f.finish w fd ev).server.working w = none := by
      refine (congrFun hworking w).trans ?_
      exact Function.update_self ..
    refine h.moved ho hw hnot rfl (fun v hv => ⟨?_, Function.update_of_ne hv ..⟩)
      (fun x hx => ⟨congrFun husers x, Function.update_of_ne hx ..⟩) ?_ (fun hout => absurd rfl hout)
      (fun _ => hnone) (fun _ => ?_) (fun hbusy => absurd rfl hbusy.1) (fun hclosed => by cases hclosed)
    · refine (congrFun hworking v).trans ?_
      exact Function.update_of_ne hv ..
    · rw [if_neg (by simp)]
      exact (Function.update_self ..).trans hnone.symm
    · refine Eq.trans ?_ (congrFun husers fd).symm
      exact Function.update_self ..

/-- The call of `close_conn` is answered by the whole call. -/
theorem Refines.closeConn (h : Refines f s) (ho : Owned s owner)
    (hw : f.server.working w = some fd) (hp : f.point w = .unwritten) :
    ∃ fs s', Step s (.process w fs) s' ∧ Refines (f.progress w fd (f.server.users fd).closeConn.1
      (f.server.users fd).closeConn.2 .closed) s' := by
  have hnot : f.point w ≠ .closed := by
    rw [hp]
    simp
  have hmid := h.midway w fd hw ⟨by rw [hp]; simp, hnot⟩
  rw [hp] at hmid
  have hat : s.working w = some fd := (h.working_of hnot).trans hw
  obtain ⟨hopen, hback⟩ := ho.giveBack hat
  have hneg := ho.ne_negative hopen
  cases hmid with
  | @unwritten readRet c₁ _ fs hret hread hwrite =>
    have hsock : (f.server.users fd).mSockfd = fd :=
      processWrite_socket readRet (processRead_socket fs (ho.socket fd hopen).1 _ hread) _ hwrite
    have hclose : (f.server.users fd).closeConn =
        ({ f.server.users fd with mSockfd := -1 }, removefd fd ++ [.userCount (-1)]) := by
      rw [HttpConn.closeConn, hsock, if_pos hneg]
    have hprocess : (s.users fd).process fs = .ok ({ f.server.users fd with mSockfd := -1 },
        removefd fd ++ [.userCount (-1)] ++ modfd (-1) .epollout) := by
      rw [HttpConn.process, hread]
      simp only [ok_bind, if_neg hret, hwrite, Bool.not_false, if_true, hclose]
      rfl
    have hwork : s.work w fd fs = .ok (Interface.closed
        { s with working := Function.update s.working w none } fd
        { f.server.users fd with mSockfd := -1 }) := by
      rw [Server.work, hprocess]
      exact congrArg Except.ok (setUser_closed hback.toTables hopen _)
    refine ⟨fs, _, .process w fd fs hat hwork, ?_⟩
    rw [hclose]
    have hserver := setUser_removed f.server fd { f.server.users fd with mSockfd := -1 }
    have hself : ∀ (t : Server W) {c : HttpConn}, (Interface.closed t fd c).users fd = c :=
      fun t c => Function.update_self ..
    rw [Interleaved.progress, hserver]
    refine h.moved ho hw hnot ?_ (fun v hv => ⟨rfl, Function.update_of_ne hv ..⟩)
      (fun x hx => ⟨Function.update_of_ne hx .., Function.update_of_ne hx ..⟩) ?_ (fun _ => hw)
      (fun hout => by cases hout) (fun _ => ?_) (fun hbusy => absurd rfl hbusy.2) (fun _ => ?_)
    · conv_lhs => rw [h.same]
      rfl
    · rw [if_pos rfl]
      exact Function.update_self ..
    · exact (hself _).trans (hself _).symm
    · rw [hself]

omit [DecidableEq W] in
/-- The descriptor -1 is not registered, so `modfd` does nothing for it. -/
theorem Refines.modfd_negative (h : Refines f s) (ho : Owned s owner) (working : W → Option Int) :
    Server.applyEffects { f.server with working := working } (modfd (-1) .epollout) =
      { f.server with working := working } := by
  have hs := applyEffect_negative ho.toTables .epollout
  have hswap := applyEffect_withWorkers s f.server.users working (.epollMod (-1) .epollout)
  have hserver : withWorkers s f.server.users working = { f.server with working := working } := by
    rw [h.same]
    rfl
  rw [hs, hserver] at hswap
  exact hswap

/-- The call of `modfd` behind `close_conn` does nothing. -/
theorem Refines.finishClosed (h : Refines f s) (ho : Owned s owner)
    (hw : f.server.working w = some fd) (hp : f.point w = .closed) :
    Refines (f.finish w fd .epollout) s := by
  have hnotOpen := h.not_open ho.toTables hw hp
  have hsettled : s.users fd = f.server.users fd := by
    refine h.settled fd fun v hv hbusy => ?_
    exact hnotOpen (h.open_of ho hv hbusy.2)
  have hsock : (f.server.users fd).mSockfd = -1 := hsettled ▸ h.closed w fd hw hp
  have hidle := h.modfd_negative ho (Function.update f.server.working w none)
  have hat : ∀ v, v ≠ w → Function.update f.server.working w none v = f.server.working v :=
    fun v hv => Function.update_of_ne hv ..
  have hpoint : ∀ v, v ≠ w → Function.update f.point w Point.outside v = f.point v :=
    fun v hv => Function.update_of_ne hv ..
  have hne : ∀ v, Function.update f.point w Point.outside v ≠ .outside → v ≠ w := by
    rintro v hv rfl
    exact hv (Function.update_self ..)
  rw [Interleaved.finish, hsock, hidle]
  refine ⟨h.same, fun v => ?_, fun x hx => h.settled x fun v hv => ?_, fun v x hv hpv => ?_,
    fun v x hv hpv => ?_, fun v hpv => ?_⟩
  · show s.working v = if Function.update f.point w Point.outside v = .closed then none
      else Function.update f.server.working w none v
    by_cases hvw : v = w
    · subst hvw
      rw [Function.update_self, if_neg (by simp), Function.update_self, h.working, if_pos hp]
    · rw [hpoint v hvw, hat v hvw]
      exact h.working v
  · by_cases hvw : v = w
    · exact fun hbusy => hbusy.2 (hvw ▸ hp)
    · rw [← hpoint v hvw]
      exact hx v ((hat v hvw).trans hv)
  · have hvw := hne v hpv.1
    change Busy (Function.update f.point w Point.outside v) at hpv
    show Midway (s.users x) (Function.update f.point w Point.outside v) (f.server.users x)
    rw [hpoint v hvw] at hpv ⊢
    exact h.midway v x ((hat v hvw).symm.trans hv) hpv
  · change Function.update f.point w Point.outside v = .closed at hpv
    have hvw := hne v (by rw [hpv]; simp)
    rw [hpoint v hvw] at hpv
    exact h.closed v x ((hat v hvw).symm.trans hv) hpv
  · have hvw := hne v hpv
    change Function.update f.point w Point.outside v ≠ .outside at hpv
    rw [hpoint v hvw] at hpv
    obtain ⟨x, hx⟩ := h.taken v hpv
    exact ⟨x, (hat v hvw).trans hx⟩

/-- `process_read` begins the call. -/
theorem midway_processRead {c c' : HttpConn} {fs : FileSystem} {readRet : HttpCode}
    (hread : c.processRead fs = .ok (readRet, c')) :
    Midway c (if readRet = .noRequest then .arming .epollin else .parsed readRet) c' := by
  by_cases hmore : readRet = .noRequest
  · rw [if_pos hmore]
    refine .arming fs ?_
    rw [HttpConn.process, hread]
    simp only [ok_bind, if_pos hmore]
    rfl
  · rw [if_neg hmore]
    exact .parsed fs hmore hread

/-- `process_write` has a response, or the connection is going to be closed. -/
theorem midway_processWrite {c c₁ c' : HttpConn} {readRet : HttpCode} {writeRet : Bool}
    (hmid : Midway c (.parsed readRet) c₁) (hwrite : c₁.processWrite readRet = .ok (writeRet, c')) :
    Midway c (if writeRet then .arming .epollout else .unwritten) c' := by
  cases hmid with
  | parsed fs hmore hread =>
    cases writeRet with
    | false => exact .unwritten fs hmore hread hwrite
    | true =>
      refine .arming fs ?_
      rw [HttpConn.process, hread]
      simp only [ok_bind, if_neg hmore, hwrite]
      rfl

end Workers

end ServerListings.Interface.StatementSteps
