import ServerListings.Lib.Transition
import ServerListings.Model.PoolChild

/-!
# What a child of the pool has still to handle

A connection that can be read is in the ready list or in the batch, and so is the signal pipe
when a byte is in it. A program that has ended is waited for after a `SIGCHLD` that is pending
or in the pipe. So nothing is left when neither the ready list nor the batch has anything.
-/

set_option autoImplicit false

namespace ServerListings.Interface.PoolChild

open Lib.CMem Lib.Readiness Lib.Transition ServerListings.Model ServerListings.Model.PoolChild
open ServerListings.Model.ProcessPool (Signal)

section Sources

variable {s s' : Child} {a : Action} {d : Report Int} {rest : List (Report Int)} {fd : Int} {g : Signal}

/-- The descriptors of the child that are not of a connection. -/
def Special (s : Child) (x : Int) : Prop := x = s.pipefd ∨ x = s.sigfd

/-- No connection is forgotten that can be read. -/
structure Sources (s : Child) : Prop where
  watched : Watched (Special s) s.table s.batch (Due s.batch)
  ne : s.pipefd ≠ s.sigfd

/-- A call of `process` succeeds for an open connection. If it does not remove the connection, it
has received everything. -/
def Serves (s : Child) : Prop :=
  ∀ fd sys input, s.table.Open fd → s.Fits fd input → ∃ r, (s.users fd).process sys input = .ok r ∧
    (r.removed = false → input.last = .again)

/-- The sources are apart at the start. -/
theorem sources_start (epollfd pipefd sigfd : Int) (users : Int → CgiConn) (h : pipefd ≠ sigfd) :
    Sources (start epollfd pipefd sigfd users) := ⟨watched_empty, h⟩

/-- Delivering a batch keeps the sources apart. -/
theorem Sources.deliver (h : Sources s) {batch : List (Report Int)} (hempty : s.batch = [])
    (hnodup : (batch.map Report.fd).Nodup) (hrep : ∀ d ∈ batch, s.Reported d) :
    Sources (s.deliver batch) := by
  have hwatched := h.watched
  rw [hempty] at hwatched
  have hfound : ∀ d ∈ batch, Special s d.fd ∨
      ∃ k, s.table.streams d.fd = some k ∧ d.readable = k.readable := by
    intro d hd
    rcases hrep d hd with hp | ⟨hs, -⟩ | ⟨e, -, k, hk, hin, -⟩
    · exact .inl (.inl hp)
    · exact .inl (.inr hs)
    · exact .inr ⟨k, hk, hin⟩
  exact ⟨hwatched.report (edge_report hwatched hfound) rfl hnodup hfound, h.ne⟩

/-- The next event is of no connection, or of one that cannot be read. -/
theorem Sources.next (h : Sources s) (hb : s.batch = d :: rest)
    (hd : s.table.Open d.fd → d.readable = false) : Sources { s with batch := rest } := by
  have hwatched := h.watched
  rw [hb] at hwatched
  exact ⟨hwatched.next hd fun _ => due_rest, h.ne⟩

/-- Accepting a client keeps the sources apart. -/
theorem Sources.accept (h : Sources s) {accepted : Option (Int × Stream)}
    (hnew : ∀ a ∈ accepted, a.1 ≠ s.pipefd ∧ a.1 ≠ s.sigfd ∧ s.table.streams a.1 = none) :
    Sources (s.accept accepted).1 := by
  cases accepted with
  | none => exact h
  | some a =>
    obtain ⟨hp, hs, hnone⟩ := hnew a rfl
    exact ⟨h.watched.add (fun hx => hx.elim hp hs) hnone a.2, h.ne⟩

/-- A connection was handled. -/
theorem Sources.processed (h : Sources s) (hb : s.batch = d :: rest) {r : CgiCall}
    (hread : r.removed = false → ∀ k, s.table.streams d.fd = some k → k.closed = false) :
    Sources ({ s with batch := rest }.processed d.fd r) := by
  have hwatched := h.watched
  rw [hb] at hwatched
  have hrest : ∀ y, y ≠ d.fd → Due (d :: rest) y → Due rest y :=
    fun y hy => due_rest fun heq => absurd heq hy
  cases hrem : r.removed with
  | true =>
    have htable : ({ s with batch := rest }.processed d.fd r).table = s.table.remove d.fd := by
      simp only [Child.processed, hrem, if_true]
    refine ⟨?_, h.ne⟩
    rw [htable]
    exact hwatched.finish (hwatched.edge.remove hrest) (fun _ => Table.streams_set_of_ne)
      fun ho => absurd ho Table.not_open_remove
  | false =>
    have htable : ({ s with batch := rest }.processed d.fd r).table = s.table.drain d.fd := by
      simp only [Child.processed, hrem, Bool.false_eq_true, if_false]
    refine ⟨?_, h.ne⟩
    rw [htable]
    exact hwatched.finish (hwatched.edge.drain (hread hrem) hrest) (fun _ => Table.streams_set_of_ne)
      (Table.open_set_map _).mp

/-! ## Signals -/

/-- The number of signals that were not read stays below the size of the array, so that a `recv`
gets all of them, and `send` never fails. -/
def Careful (s : Child) : Action → Prop
  | .signal _ => s.signals.length < signalsSize
  | _ => True

/-- The signals that end the child. -/
def Ends (g : Signal) : Prop := g = .sigterm ∨ g = .sigint

/-- A byte in the signal pipe is noticed, a program that has ended is going to be waited for, and
a signal that ends the child is going to. -/
structure Alarmed (log : List Happening) (s : Child) : Prop where
  armed : s.sigEntry.armed = true
  noticed : s.signals ≠ [] → s.sigEntry.ready = true ∨ Due s.batch s.sigfd
  short : s.signals.length ≤ signalsSize
  reaped : s.zombies ≠ 0 → s.pending .sigchld = true ∨ .sigchld ∈ s.signals
  ends : ∀ g, Ends g → .raised g ∈ log → s.pending g = true ∨ g ∈ s.signals ∨ s.mStop = true
  raised : ∀ g, Ends g → s.pending g = true ∨ g ∈ s.signals → .raised g ∈ log
  stopped : s.mStop = true → ∃ g, Ends g ∧ .raised g ∈ log

/-- No signal waits at the start. -/
theorem alarmed_start (epollfd pipefd sigfd : Int) (users : Int → CgiConn) :
    Alarmed [] (start epollfd pipefd sigfd users) where
  armed := rfl
  noticed := fun hne => absurd rfl hne
  short := Nat.zero_le _
  reaped := fun hne => absurd rfl hne
  ends := nofun
  raised := by
    rintro g - (hg | hg)
    · cases hg
    · cases hg
  stopped := nofun

/-- What is changed by the loop over the signals. -/
theorem handleSignals_eq (gs : List Signal) (s : Child) : s.handleSignals gs = { s with
    zombies := if .sigchld ∈ gs then 0 else s.zombies
    mStop := s.mStop || decide (.sigterm ∈ gs ∨ .sigint ∈ gs) } := by
  induction gs generalizing s with
  | nil => simp [Child.handleSignals]
  | cons g gs ih => cases g <;> simp [Child.handleSignals, ih]

/-- A step that has nothing to do with signals. -/
theorem Alarmed.congr {log es : List Happening} (h : Alarmed log s) (hentry : s'.sigEntry = s.sigEntry)
    (hsignals : s'.signals = s.signals) (hz : s'.zombies = s.zombies) (hp : s'.pending = s.pending)
    (hstop : s'.mStop = s.mStop) (hes : ∀ g, Happening.raised g ∉ es)
    (hdue : Due s.batch s.sigfd → Due s'.batch s'.sigfd) : Alarmed (log ++ es) s' where
  armed := by rw [hentry]; exact h.armed
  noticed := by rw [hsignals, hentry]; exact fun hne => (h.noticed hne).imp_right hdue
  short := by rw [hsignals]; exact h.short
  reaped := by rw [hsignals, hz, hp]; exact h.reaped
  ends := by
    intro g hg hraised
    rw [hsignals, hp, hstop]
    exact h.ends g hg ((List.mem_append.mp hraised).resolve_right (hes g))
  raised := by
    intro g hg hbefore
    rw [hsignals, hp] at hbefore
    exact List.mem_append_left _ (h.raised g hg hbefore)
  stopped := by
    rw [hstop]
    intro hst
    obtain ⟨g, hg, hraised⟩ := h.stopped hst
    exact ⟨g, hg, List.mem_append_left _ hraised⟩

/-- A program ends. -/
theorem Alarmed.exit {log : List Happening} (h : Alarmed log s) : Alarmed log (s.perform .exit).1 where
  armed := h.armed
  noticed := h.noticed
  short := h.short
  reaped := by
    intro _
    show Function.update s.pending .sigchld true .sigchld = true ∨ _
    exact .inl (Function.update_self ..)
  ends := by
    intro g hg hraised
    refine (h.ends g hg hraised).imp_left fun hp => ?_
    have hne : g ≠ .sigchld := by rcases hg with rfl | rfl <;> nofun
    exact (Function.update_of_ne hne ..).trans hp
  raised := by
    intro g hg hbefore
    have hne : g ≠ .sigchld := by rcases hg with rfl | rfl <;> nofun
    refine h.raised g hg (hbefore.imp_left fun hp => ?_)
    exact (Function.update_of_ne hne ..).symm.trans hp
  stopped := h.stopped

/-- A signal is raised. -/
theorem Alarmed.raise {log : List Happening} (h : Alarmed log s) (g : Signal) :
    Alarmed (log ++ [.raised g]) (s.perform (.raise g)).1 where
  armed := h.armed
  noticed := h.noticed
  short := h.short
  reaped := by
    intro hz
    refine (h.reaped hz).imp_left fun hp => ?_
    show Function.update s.pending g true .sigchld = true
    by_cases hg : Signal.sigchld = g
    · rw [← hg, Function.update_self]
    · rw [Function.update_of_ne hg, hp]
  ends := by
    intro x hx hraised
    show Function.update s.pending g true x = true ∨ _
    by_cases hxg : x = g
    · rw [hxg, Function.update_self]
      exact .inl rfl
    · rw [Function.update_of_ne hxg]
      refine h.ends x hx ((List.mem_append.mp hraised).resolve_right fun hmem => hxg ?_)
      exact Happening.raised.inj (List.mem_singleton.mp hmem)
  raised := by
    intro x hx hbefore
    by_cases hxg : x = g
    · rw [hxg]
      exact List.mem_append_right _ List.mem_cons_self
    · refine List.mem_append_left _ (h.raised x hx (hbefore.imp_left fun hp => ?_))
      exact (Function.update_of_ne hxg ..).symm.trans hp
  stopped := by
    intro hst
    obtain ⟨x, hx, hraised⟩ := h.stopped hst
    exact ⟨x, hx, List.mem_append_left _ hraised⟩

/-- The handler of a signal runs. -/
theorem Alarmed.sigHandler {log : List Happening} (h : Alarmed log s) (hpending : s.pending g = true)
    (hlen : s.signals.length < signalsSize) : Alarmed log (s.sigHandler g) where
  armed := h.armed
  noticed := by
    intro _
    have harmed := h.armed
    exact .inl (by simp [Child.sigHandler, Entry.notify, harmed])
  short := by
    show (s.signals ++ [g]).length ≤ signalsSize
    rw [List.length_append]
    exact hlen
  reaped := by
    intro hz
    show Function.update s.pending g false .sigchld = true ∨ .sigchld ∈ s.signals ++ [g]
    by_cases hg : Signal.sigchld = g
    · exact .inr (List.mem_append_right _ (by rw [hg]; exact List.mem_cons_self))
    · rw [Function.update_of_ne hg]
      exact (h.reaped hz).imp_right fun hmem => List.mem_append_left _ hmem
  ends := by
    intro x hx hraised
    show Function.update s.pending g false x = true ∨ x ∈ s.signals ++ [g] ∨ _
    by_cases hxg : x = g
    · exact .inr (.inl (List.mem_append_right _ (by rw [hxg]; exact List.mem_cons_self)))
    · rw [Function.update_of_ne hxg]
      exact (h.ends x hx hraised).imp_right fun hr => hr.imp_left fun hmem => List.mem_append_left _ hmem
  raised := by
    intro x hx hbefore
    by_cases hxg : x = g
    · exact h.raised x hx (.inl (hxg ▸ hpending))
    · refine h.raised x hx ?_
      rcases hbefore with hp | hmem
      · exact .inl ((Function.update_of_ne hxg ..).symm.trans hp)
      · exact .inr ((List.mem_append.mp hmem).resolve_right fun h => hxg (List.mem_singleton.mp h))
  stopped := h.stopped

/-- The signals are read. -/
theorem Alarmed.read {log : List Happening} (h : Alarmed log s) (rest : List (Report Int)) :
    Alarmed log ({ s with batch := rest } : Child).readSignals := by
  have hall : s.signals.take signalsSize = s.signals := List.take_of_length_le h.short
  have hnone : s.signals.drop signalsSize = [] := List.drop_eq_nil_of_le h.short
  rw [Child.readSignals, hall, hnone, handleSignals_eq]
  refine ⟨h.armed, fun hne => absurd rfl hne, Nat.zero_le _, fun hz => ?_, fun g hg hraised => ?_,
    fun g hg hbefore => ?_, fun hst => ?_⟩
  · have hout : Signal.sigchld ∉ s.signals := fun hmem => hz (if_pos hmem)
    exact .inl ((h.reaped fun h0 => hz (by simp [h0])).resolve_right hout)
  · rcases h.ends g hg hraised with hp | hmem | hst
    · exact .inl hp
    · refine .inr (.inr ?_)
      rcases hg with rfl | rfl <;> simp [hmem]
    · exact .inr (.inr (by simp [hst]))
  · exact h.raised g hg (hbefore.imp_right nofun)
  · rcases Bool.or_eq_true_iff.mp hst with hst | hmem
    · exact h.stopped hst
    · rcases of_decide_eq_true hmem with hmem | hmem
      · exact ⟨.sigterm, .inl rfl, h.raised _ (.inl rfl) (.inr hmem)⟩
      · exact ⟨.sigint, .inr rfl, h.raised _ (.inr rfl) (.inr hmem)⟩

/-! ## The steps -/

/-- The parts of a step that handles an event. -/
inductive Handles (s : Child) (d : Report Int) (rest : List (Report Int)) (input : Input) :
    Child × List Happening → Prop
  | pipe (h : d.fd = s.pipefd) :
      Handles s d rest input ({ s with batch := rest }.accept input.accepted)
  | signals (h : d = ⟨s.sigfd, true⟩) : Handles s d rest input ({ s with batch := rest }.readSignals, [])
  | connection (hopen : s.table.Open d.fd) (hfits : s.Fits d.fd input.cgi) (r : CgiCall)
      (hr : (s.users d.fd).process input.sys input.cgi = .ok r)
      (hagain : r.removed = false → input.cgi.last = .again) :
      Handles s d rest input
        ({ s with batch := rest }.processed d.fd r, [.called d.fd input.sys input.cgi r.effects r.child])
  | nothing (h : d.readable = false) : Handles s d rest input ({ s with batch := rest }, [])

/-- The body of the loop, when `process` succeeds. -/
theorem handles (h : Sources s) (hserves : Serves s) {input : Input} (hb : s.batch = d :: rest)
    (henabled : s.Enabled (.handle input)) :
    Handles s d rest input ({ s with batch := rest }.handle d input) := by
  obtain ⟨d', hd', -, hfits⟩ := henabled
  obtain rfl : d = d' := by
    rw [hb] at hd'
    exact Option.some.inj hd'
  rw [Child.handle]
  by_cases hpipe : d.fd = s.pipefd ∧ d.readable = true
  · rw [if_pos hpipe]
    exact .pipe hpipe.1
  · rw [if_neg hpipe]
    by_cases hsig : d.fd = s.sigfd ∧ d.readable = true
    · rw [if_pos hsig]
      refine .signals ?_
      obtain ⟨fd, readable⟩ := d
      obtain ⟨rfl, rfl⟩ := hsig
      rfl
    · rw [if_neg hsig]
      cases hin : d.readable with
      | false => exact .nothing hin
      | true =>
        have hp : d.fd ≠ s.pipefd := fun heq => hpipe ⟨heq, hin⟩
        have hs : d.fd ≠ s.sigfd := fun heq => hsig ⟨heq, hin⟩
        have hopen := h.watched.opened d (hb ▸ List.mem_cons_self) fun hx => hx.elim hp hs
        have hfits := hfits hp hs hin
        obtain ⟨r, hr, hagain⟩ := hserves d.fd input.sys input.cgi hopen hfits
        simp only [if_true, Child.process, hr]
        exact .connection hopen hfits r hr hagain

/-- An input that ends with `EAGAIN` has taken everything. -/
theorem fits_again {input : CgiInput} (h : s.Fits fd input) (hagain : input.last = .again) :
    ∃ k, s.table.streams fd = some k ∧ input.portions.flatten = k.inbox ∧ k.closed = false := by
  obtain ⟨k, hk, -, hfailed | hclosed | ⟨-, hall, hopen⟩⟩ := h
  · rw [hfailed.1] at hagain
    cases hagain
  · rw [hclosed.1] at hagain
    cases hagain
  · exact ⟨k, hk, hall, hopen⟩

/-- Every step keeps the sources, as long as `process` does what it should. -/
theorem step_sources (h : Sources s) (hserves : Serves s) (hs : Step s a s') : Sources s' := by
  obtain ⟨henabled, rfl⟩ := hs
  cases a with
  | arrive fd data => exact ⟨h.watched.arrive fd data, h.ne⟩
  | shutdown fd => exact ⟨h.watched.hangUp fd, h.ne⟩
  | exit => exact ⟨h.watched, h.ne⟩
  | raise g => exact ⟨h.watched, h.ne⟩
  | signal g => exact ⟨h.watched, h.ne⟩
  | wait batch =>
    obtain ⟨-, -, hempty, -, -, hnodup, hrep⟩ := henabled
    exact h.deliver hempty hnodup hrep
  | fail => exact ⟨h.watched, h.ne⟩
  | leave => exact ⟨h.watched, h.ne⟩
  | handle input =>
    cases hb : s.batch with
    | nil =>
      obtain ⟨d, hd, -⟩ := henabled
      rw [hb] at hd
      cases hd
    | cons d rest =>
      simp only [Child.perform, hb]
      have hhandles := handles h hserves hb henabled
      generalize ({ s with batch := rest } : Child).handle d input = after at hhandles ⊢
      cases hhandles with
      | pipe hp =>
        obtain ⟨-, -, hnew, -⟩ := henabled
        exact (h.next hb fun ho => absurd ho (h.watched.apart d.fd (.inl hp))).accept hnew
      | signals hsig =>
        have hrest := h.next hb fun ho => absurd ho (h.watched.apart d.fd (.inr (by rw [hsig])))
        rw [Child.readSignals, handleSignals_eq]
        exact ⟨hrest.watched, hrest.ne⟩
      | connection hopen hfits r hr hagain =>
        refine h.processed hb fun hrem k hk => ?_
        obtain ⟨k', hk', -, hclosed⟩ := fits_again hfits (hagain hrem)
        obtain rfl := Option.some.inj (hk.symm.trans hk')
        exact hclosed
      | nothing hin => exact h.next hb fun _ => hin

/-- `epoll_wait` keeps the alarms: a signal pipe that it does not report waits on. -/
theorem Alarmed.deliver {log : List Happening} (h : Alarmed log s) (hsources : Sources s)
    {batch : List (Report Int)} (hempty : s.batch = []) (hrep : ∀ d ∈ batch, s.Reported d) :
    Alarmed log (s.deliver batch) := by
  refine ⟨?_, fun hne => ?_, h.short, h.reaped, h.ends, h.raised, h.stopped⟩
  · show (if s.sigfd ∈ batch.map Report.fd then Entry.waiting else s.sigEntry).armed = true
    split
    · rfl
    · exact h.armed
  · show (if s.sigfd ∈ batch.map Report.fd then Entry.waiting else s.sigEntry).ready = true ∨ _
    split
    · rename_i hmem
      obtain ⟨⟨fd, readable⟩, hd, rfl⟩ := List.mem_map.mp hmem
      rcases hrep _ hd with hp | ⟨-, hin, -⟩ | ⟨e, -, k, hk, -⟩
      · exact absurd hp.symm hsources.ne
      · obtain rfl : readable = true := hin
        exact .inr hd
      · exact absurd ⟨k, hk⟩ (hsources.watched.apart _ (.inr rfl))
    · refine (h.noticed hne).imp_right fun hdue => ?_
      rw [Due, hempty] at hdue
      cases hdue

/-- Every careful step keeps the alarms. -/
theorem Alarmed.step {log : List Happening} (h : Alarmed log s) (hsources : Sources s)
    (hserves : Serves s) (hs : Step s a s') (hcareful : Careful s a) :
    Alarmed (log ++ s.happens a) s' := by
  obtain ⟨henabled, rfl⟩ := hs
  cases a with
  | arrive fd data => exact h.congr rfl rfl rfl rfl rfl (by simp [Child.happens, Child.perform]) id
  | shutdown fd => exact h.congr rfl rfl rfl rfl rfl (by simp [Child.happens, Child.perform]) id
  | fail => exact h.congr rfl rfl rfl rfl rfl (by simp [Child.happens, Child.perform]) id
  | leave => exact h.congr rfl rfl rfl rfl rfl (by simp [Child.happens, Child.perform]) id
  | exit =>
    rw [show s.happens .exit = [] from rfl, List.append_nil]
    exact h.exit
  | raise g => exact h.raise g
  | signal g =>
    rw [show s.happens (.signal g) = [] from rfl, List.append_nil]
    exact h.sigHandler henabled hcareful
  | wait batch =>
    rw [show s.happens (.wait batch) = [] from rfl, List.append_nil]
    obtain ⟨-, -, hempty, -, -, -, hrep⟩ := henabled
    exact h.deliver hsources hempty hrep
  | handle input =>
    cases hb : s.batch with
    | nil =>
      obtain ⟨d, hd, -⟩ := henabled
      rw [hb] at hd
      cases hd
    | cons d rest =>
      have hdue : d ≠ ⟨s.sigfd, true⟩ → Due s.batch s.sigfd → Due rest s.sigfd := by
        intro hne hdue
        rw [Due, hb] at hdue
        exact (List.mem_cons.mp hdue).resolve_left hne.symm
      simp only [Child.happens, Child.perform, hb]
      have hhandles := handles hsources hserves hb henabled
      generalize ({ s with batch := rest } : Child).handle d input = after at hhandles ⊢
      cases hhandles with
      | pipe hp =>
        have hne : d ≠ ⟨s.sigfd, true⟩ := by
          rintro rfl
          exact hsources.ne hp.symm
        cases input.accepted with
        | none => exact h.congr rfl rfl rfl rfl rfl nofun (hdue hne)
        | some y => exact h.congr rfl rfl rfl rfl rfl (by simp [Child.accept]) (hdue hne)
      | signals hsig =>
        rw [List.append_nil]
        exact h.read rest
      | connection hopen hfits r hr hagain =>
        refine h.congr rfl rfl rfl rfl rfl (by simp) (hdue ?_)
        rintro rfl
        exact hsources.watched.apart _ (.inr rfl) hopen
      | nothing hin =>
        refine h.congr rfl rfl rfl rfl rfl nofun (hdue ?_)
        rintro rfl
        cases hin

end Sources

end ServerListings.Interface.PoolChild
