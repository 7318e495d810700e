import ServerListings.Interface.RoundRobin
import ServerListings.Lib.Histories
import ServerListings.Lib.Transition

/-!
# The life cycle of the pool's children

What the parent does is a log. `m_pid` of a child is -1 exactly when the log has its `reap`
(`Books`), and the loop over `waitpid` closes the one pipe that belongs to each pid. From this
follow the calls of `kill`, `send` and `close` that are allowed, and that `m_stop` stays true
once it is set.
-/

set_option autoImplicit false

namespace ServerListings.Analysis.ChildLives

open Lib.Histories Lib.Transition ServerListings.Interface ServerListings.Model.ProcessPool

section Lives

variable {n : Nat} {p : Children n} {mPid : Fin n → Int} {log : List Happening} {i : Fin n}

/-- A `SIGCHLD` was handled after the last child had been waited for, or when it was. -/
def Finished (p : Children n) (log : List Happening) : Prop :=
  ∃ a b, log = a ++ .sigchldDone :: b ∧ ∀ i, .reap (p.pid i) ∈ a

/-- What may happen after a log: `kill` and `send` are for children that were not waited for,
`waitpid` returns each child once, the pipe of a child is closed once, right after the child
was waited for, and `epoll_wait` is not called when all children are gone. -/
def Allowed (p : Children n) (log : List Happening) : Happening → Prop
  | .epollWait => ¬ Finished p log
  | .kill pid => ∃ i, p.pid i = pid ∧ .reap pid ∉ log
  | .send fd => ∃ i, p.pipefd i = fd ∧ .reap (p.pid i) ∉ log
  | .reap pid => ∃ i, p.pid i = pid ∧ .reap pid ∉ log
  | .close fd => ∃ i log', p.pipefd i = fd ∧ log = log' ++ [.reap (p.pid i)] ∧ .close fd ∉ log'
  | .sigchldDone => True

/-- The log and `m_pid` agree, and everything in the log was allowed. -/
structure Books (p : Children n) (mPid : Fin n → Int) (log : List Happening) : Prop where
  gone : ∀ i, .reap (p.pid i) ∈ log → mPid i = -1
  live : ∀ i, .reap (p.pid i) ∉ log → mPid i = p.pid i
  closed : ∀ i, .close (p.pipefd i) ∈ log ↔ .reap (p.pid i) ∈ log
  allowed : Always (Allowed p) log

/-- Entries that are allowed and concern neither `waitpid` nor a pipe. -/
theorem Books.append {l : List Happening} (h : Books p mPid log)
    (hreap : ∀ i, .reap (p.pid i) ∉ l) (hclose : ∀ i, .close (p.pipefd i) ∉ l)
    (hl : ∀ a e b, l = a ++ e :: b → Allowed p (log ++ a) e) : Books p mPid (log ++ l) := by
  refine ⟨fun i hi => h.gone i ?_, fun i hi => h.live i ?_, fun i => ?_, always_append h.allowed hl⟩
  · exact (List.mem_append.mp hi).resolve_right (hreap i)
  · exact fun hmem => hi (List.mem_append_left _ hmem)
  · rw [List.mem_append, List.mem_append, h.closed i]
    simp only [hreap i, hclose i, or_false]

/-- Something happens that concerns no process and no pipe. -/
theorem Books.concat {e : Happening} (h : Books p mPid log) (hreap : ∀ i, .reap (p.pid i) ≠ e)
    (hclose : ∀ i, .close (p.pipefd i) ≠ e) (he : Allowed p log e) : Books p mPid (log ++ [e]) := by
  refine h.append (fun i => ?_) (fun i => ?_) ?_
  · rw [List.mem_singleton]
    exact hreap i
  · rw [List.mem_singleton]
    exact hclose i
  · intro a x b hlog
    cases a with
    | nil =>
      obtain rfl := (List.cons.inj hlog).1
      rwa [List.append_nil]
    | cons y a => simp at hlog

/-- A child with its number was not waited for. -/
theorem Books.notReaped (h : Books p mPid log) (hi : mPid i ≠ -1) : .reap (p.pid i) ∉ log :=
  fun hmem => hi (h.gone i hmem)

/-- A child without its number was waited for. -/
theorem Books.reaped (h : Books p mPid log) (hi : mPid i = -1) : .reap (p.pid i) ∈ log := by
  by_contra hmem
  have hpos := p.pid_pos i
  rw [← h.live i hmem, hi] at hpos
  omega

/-- The pid of a child that was not waited for belongs to one entry of `m_sub_process`. -/
theorem Books.eq_pid_iff (h : Books p mPid log) (hi : .reap (p.pid i) ∉ log) (j : Fin n) :
    mPid j = p.pid i ↔ j = i := by
  constructor
  · intro hj
    have hpos := p.pid_pos i
    have hlive := h.live j (h.notReaped (by omega))
    exact p.pid_injective (hlive.symm.trans hj)
  · rintro rfl
    exact h.live j hi

/-- The loop over the children finds the one that was waited for. -/
theorem Books.join (h : Books p mPid log) (hi : .reap (p.pid i) ∉ log) :
    Parent.join p mPid (p.pid i) = (Function.update mPid i (-1), [.close (p.pipefd i)]) := by
  have hfilter : (List.finRange n).filter (fun j => mPid j = p.pid i) = [i] := by
    have hcongr : (List.finRange n).filter (fun j => mPid j = p.pid i) =
        (List.finRange n).filter (fun j => j = i) :=
      List.filter_congr fun j _ => decide_eq_decide.mpr (h.eq_pid_iff hi j)
    rw [hcongr, List.filter_eq, List.count_finRange]
    rfl
  rw [Parent.join, hfilter]
  refine Prod.ext (funext fun j => ?_) rfl
  simp only [h.eq_pid_iff hi j, Function.update_apply]

/-- A child is waited for. -/
theorem Books.reap (h : Books p mPid log) (hi : .reap (p.pid i) ∉ log) :
    Books p (Function.update mPid i (-1)) (log ++ [.reap (p.pid i), .close (p.pipefd i)]) := by
  have hmem : ∀ j, .reap (p.pid j) ∈ log ++ [.reap (p.pid i), .close (p.pipefd i)] ↔
      .reap (p.pid j) ∈ log ∨ j = i := by
    intro j
    rw [List.mem_append]
    simp [p.pid_injective.eq_iff]
  refine ⟨fun j hj => ?_, fun j hj => ?_, fun j => ?_, ?_⟩
  · rcases (hmem j).mp hj with hold | rfl
    · by_cases hji : j = i
      · rw [hji, Function.update_self]
      · rw [Function.update_of_ne hji, h.gone j hold]
    · exact Function.update_self ..
  · rw [hmem, not_or] at hj
    rw [Function.update_of_ne hj.2, h.live j hj.1]
  · rw [hmem, ← h.closed j, List.mem_append]
    simp [p.pipefd_injective.eq_iff]
  · have hreap : Always (Allowed p) (log ++ [.reap (p.pid i)]) :=
      always_concat.mpr ⟨h.allowed, i, rfl, hi⟩
    have hclose : Always (Allowed p) ((log ++ [.reap (p.pid i)]) ++ [.close (p.pipefd i)]) :=
      always_concat.mpr ⟨hreap, i, log, rfl, rfl, fun hmem => hi ((h.closed i).mp hmem)⟩
    rwa [List.append_assoc] at hclose

/-- The loop over `waitpid`. The induction is on the pids it returns. -/
theorem Books.joinLoop (waited : List Int) : ∀ {mPid : Fin n → Int} {log : List Happening},
    Books p mPid log → waited.Nodup → (∀ pid ∈ waited, ∃ i, p.pid i = pid ∧ .reap pid ∉ log) →
    Books p (Parent.joinLoop p mPid waited).1 (log ++ (Parent.joinLoop p mPid waited).2) ∧
      ∀ pid, .reap pid ∈ (Parent.joinLoop p mPid waited).2 ↔ pid ∈ waited := by
  induction waited with
  | nil =>
    intro mPid log h _ _
    rw [Parent.joinLoop, List.append_nil]
    exact ⟨h, fun pid => iff_of_false List.not_mem_nil List.not_mem_nil⟩
  | cons pid waited ih =>
    intro mPid log h hnodup hall
    obtain ⟨hnew, hnodup'⟩ := List.nodup_cons.mp hnodup
    obtain ⟨i, rfl, hi⟩ := hall pid List.mem_cons_self
    have hrest : ∀ pid ∈ waited, ∃ j, p.pid j = pid ∧
        .reap pid ∉ log ++ [.reap (p.pid i), .close (p.pipefd i)] := by
      intro pid hpid
      obtain ⟨j, rfl, hj⟩ := hall pid (List.mem_cons_of_mem _ hpid)
      refine ⟨j, rfl, fun hmem => ?_⟩
      rcases List.mem_append.mp hmem with hold | hadded
      · exact hj hold
      · have heq : p.pid j = p.pid i := by simpa using hadded
        exact hnew (heq ▸ hpid)
    obtain ⟨hbooks, hmem⟩ := ih (h.reap hi) hnodup' hrest
    simp only [Parent.joinLoop, h.join hi]
    refine ⟨?_, fun pid => ?_⟩
    · rw [List.append_assoc] at hbooks
      exact hbooks
    · simp [hmem pid]

/-- The handling of `SIGTERM` and `SIGINT`. -/
theorem Books.killAll {s : Parent n} (h : Books p s.mPid log) : Books p s.mPid (log ++ s.killAll) := by
  have hkill : ∀ e ∈ s.killAll, ∃ i, s.mPid i ≠ -1 ∧ .kill (s.mPid i) = e := by
    intro e he
    obtain ⟨i, hi, rfl⟩ := List.mem_map.mp he
    exact ⟨i, of_decide_eq_true (List.mem_filter.mp hi).2, rfl⟩
  have hother : ∀ e ∈ s.killAll, ∀ pid, e ≠ .reap pid := by
    rintro e he pid rfl
    obtain ⟨i, -, ⟨⟩⟩ := hkill _ he
  refine h.append (fun i hi => hother _ hi _ rfl) (fun i hi => ?_) ?_
  · obtain ⟨j, -, ⟨⟩⟩ := hkill _ hi
  · intro a e b hlog
    have hsub : ∀ x ∈ a, x ∈ s.killAll := fun x hx => hlog ▸ List.mem_append_left _ hx
    obtain ⟨i, hi, rfl⟩ := hkill e (hlog ▸ List.mem_append_right _ List.mem_cons_self)
    have hlive := h.live i (h.notReaped hi)
    refine ⟨i, hlive.symm, fun hmem => ?_⟩
    rw [hlive] at hmem
    rcases List.mem_append.mp hmem with hold | hadded
    · exact h.notReaped hi hold
    · exact hother _ (hsub _ hadded) _ rfl

end Lives

/-! ## Runs -/

section Runs

variable {n : Nat} {p : Children n} {s s' : Parent n} {log l : List Happening}

/-- At the end all children were waited for. -/
theorem Finished.all (h : Finished p log) (i : Fin n) : .reap (p.pid i) ∈ log := by
  obtain ⟨a, b, rfl, hall⟩ := h
  exact List.mem_append_left _ (hall i)

/-- What is finished was so before, if no signal was handled since. -/
theorem Finished.of_append (hl : .sigchldDone ∉ l) (h : Finished p (log ++ l)) : Finished p log := by
  obtain ⟨a, b, heq, hall⟩ := h
  rcases List.append_eq_append_iff.mp heq with ⟨c, rfl, hc⟩ | ⟨c, rfl, hc⟩
  · exact absurd (hc ▸ List.mem_append_right c List.mem_cons_self) hl
  · cases c with
    | nil =>
      rw [List.nil_append] at hc
      exact absurd (hc ▸ List.mem_cons_self) hl
    | cons x c =>
      obtain ⟨rfl, -⟩ := List.cons.inj hc
      exact ⟨a, c, rfl, hall⟩

/-- What holds between the steps. -/
structure Kept (p : Children n) (log : List Happening) (s : Parent n) : Prop where
  books : Books p s.mPid log
  reaped : ∀ i, s.reaped i = true ↔ .reap (p.pid i) ∈ log
  stop : s.mStop = true → ∀ i, .reap (p.pid i) ∈ log
  finished : Finished p log → s.mStop = true

/-- Entries about neither `waitpid` nor `SIGCHLD`. -/
theorem Kept.append (h : Kept p log s) (hbooks : Books p s'.mPid (log ++ l))
    (hreap : ∀ i, .reap (p.pid i) ∉ l) (hdone : .sigchldDone ∉ l) (hreaped : s'.reaped = s.reaped)
    (hstop : s'.mStop = s.mStop) : Kept p (log ++ l) s' := by
  refine ⟨hbooks, fun i => ?_, fun hs i => ?_, fun hf => ?_⟩
  · rw [hreaped, h.reaped i, List.mem_append]
    simp only [hreap i, or_false]
  · rw [hstop] at hs
    exact List.mem_append_left _ (h.stop hs i)
  · rw [hstop]
    exact h.finished (hf.of_append hdone)

/-- The branch for the listening socket. -/
theorem Kept.dispatch (h : Kept p log s) : Kept p (log ++ (s.dispatch p).2) (s.dispatch p).1 := by
  unfold Parent.dispatch
  by_cases hnone : s.mPid (choose s.mPid s.subProcessCounter) = -1
  · simp only [if_pos hnone, List.append_nil]
    have hall : ∀ i, .reap (p.pid i) ∈ log := fun i => h.books.reaped (choose_none hnone i)
    exact ⟨h.books, h.reaped, fun _ => hall, fun _ => rfl⟩
  · simp only [if_neg hnone]
    have hbooks := h.books.concat (e := .send (p.pipefd (choose s.mPid s.subProcessCounter))) nofun nofun
      ⟨_, rfl, h.books.notReaped hnone⟩
    exact h.append hbooks (by simp) (by simp) rfl rfl

/-- The case of `SIGCHLD`. -/
theorem Kept.handleSigchld {waited : List Int} (h : Kept p log s) (hwaited : s.Waited p waited) :
    Kept p (log ++ (s.handleSigchld p waited).2) (s.handleSigchld p waited).1 := by
  obtain ⟨hnodup, hall⟩ := hwaited
  have hlive : ∀ pid ∈ waited, ∃ i, p.pid i = pid ∧ .reap pid ∉ log := by
    intro pid hpid
    obtain ⟨i, rfl, -, hnot⟩ := hall pid hpid
    refine ⟨i, rfl, fun hmem => ?_⟩
    rw [(h.reaped i).mpr hmem] at hnot
    cases hnot
  obtain ⟨hbooks, hmem⟩ := h.books.joinLoop waited hnodup hlive
  have hgone : ∀ i, .reap (p.pid i) ∈ log ++ (Parent.joinLoop p s.mPid waited).2 ++ [.sigchldDone] ↔
      .reap (p.pid i) ∈ log ++ (Parent.joinLoop p s.mPid waited).2 := by simp
  have hbooks' : Books p (Parent.joinLoop p s.mPid waited).1
      (log ++ (Parent.joinLoop p s.mPid waited).2 ++ [.sigchldDone]) := by
    refine ⟨fun i hi => hbooks.gone i ((hgone i).mp hi), fun i hi => hbooks.live i fun hm =>
      hi ((hgone i).mpr hm), fun i => ?_, always_concat.mpr ⟨hbooks.allowed, trivial⟩⟩
    rw [hgone, ← hbooks.closed i]
    simp
  simp only [Parent.handleSigchld]
  rw [← List.append_assoc]
  refine ⟨hbooks', fun i => ?_, fun hs i => ?_, fun hf => ?_⟩
  · rw [hgone, List.mem_append, hmem, Bool.or_eq_true, h.reaped i, decide_eq_true_eq]
  · have hstop := List.all_eq_true.mp hs i (List.mem_finRange i)
    exact hbooks'.reaped (of_decide_eq_true hstop)
  · exact List.all_eq_true.mpr fun i _ => decide_eq_true (hbooks'.gone i (hf.all i))

/-- Steps that change neither the children nor the log. -/
theorem Kept.quiet (h : Kept p log s) (hpid : s'.mPid = s.mPid) (hreaped : s'.reaped = s.reaped)
    (hstop : s'.mStop = s.mStop) : Kept p (log ++ []) s' := by
  refine h.append ?_ (fun _ => List.not_mem_nil) List.not_mem_nil hreaped hstop
  rw [List.append_nil, hpid]
  exact h.books

/-- `epoll_wait` is called at the head of the loop. -/
theorem Kept.call (h : Kept p log s) (hgo : s.mStop = false) (hpid : s'.mPid = s.mPid)
    (hreaped : s'.reaped = s.reaped) (hstop : s'.mStop = s.mStop) :
    Kept p (log ++ [.epollWait]) s' := by
  have hbooks : Books p s.mPid (log ++ [.epollWait]) := by
    refine h.books.concat nofun nofun fun hf => ?_
    rw [h.finished hf] at hgo
    cases hgo
  exact h.append (hpid ▸ hbooks) (by simp) (by simp) hreaped hstop

/-- The case of `SIGTERM` and `SIGINT`. -/
theorem Kept.killAll (h : Kept p log s) : Kept p (log ++ s.killAll) s := by
  refine h.append h.books.killAll ?_ ?_ rfl rfl
  · intro i hi
    obtain ⟨j, -, ⟨⟩⟩ := List.mem_map.mp hi
  · intro hi
    obtain ⟨j, -, ⟨⟩⟩ := List.mem_map.mp hi

/-- The books are right after an event. -/
theorem Kept.handleEvent (h : Kept p log s) (e : Ready) :
    Kept p (log ++ (s.handleEvent p e).2) (s.handleEvent p e).1 := by
  cases e with
  | listenfd => exact h.dispatch
  | sigPipe signals => exact h.quiet rfl rfl rfl
  | other => exact h.quiet rfl rfl rfl

/-- The books are right after a signal. -/
theorem Kept.handleSignal {waited : List Int} {g : Signal} (h : Kept p log s)
    (hwaited : if g = .sigchld then s.Waited p waited else waited = []) :
    Kept p (log ++ (s.handleSignal p waited g).2) (s.handleSignal p waited g).1 := by
  cases g with
  | sigchld => exact h.handleSigchld (by simpa using hwaited)
  | sigterm => exact h.killAll
  | sigint => exact h.killAll
  | other => exact h.quiet rfl rfl rfl

/-- Every step keeps it. -/
theorem Kept.step {a : Action n} (h : Kept p log s) (hs : Parent.Step p s a s') :
    Kept p (log ++ s.happens p a) s' := by
  obtain ⟨hen, rfl⟩ := hs
  cases a with
  | exit i => exact h.quiet rfl rfl rfl
  | wait batch => exact h.call hen.2.1 rfl rfl rfl
  | fail => exact h.call hen.2.1 rfl rfl rfl
  | leave => exact h.quiet rfl rfl rfl
  | event =>
    cases hev : s.events with
    | nil => exact absurd hev hen.1
    | cons e events =>
      have hrest : Kept p log { s with events := events } := ⟨h.books, h.reaped, h.stop, h.finished⟩
      simp only [Parent.happens, Parent.perform, hev]
      exact hrest.handleEvent e
  | signal waited =>
    cases hsig : s.signals with
    | nil => exact absurd hsig hen.1
    | cons g signals =>
      have hrest : Kept p log { s with signals := signals } := ⟨h.books, h.reaped, h.stop, h.finished⟩
      have hwaited := hen.2
      rw [hsig, List.head?_cons] at hwaited
      have hcond : if g = .sigchld then s.Waited p waited else waited = [] := by simpa using hwaited
      simp only [Parent.happens, Parent.perform, hsig]
      exact hrest.handleSignal hcond

/-- Before the loop nothing is in the books. -/
theorem kept_start {p : Children (n + 1)} (exited : Fin (n + 1) → Bool) : Kept p [] (p.start exited) := by
  refine ⟨⟨fun i hi => ?_, fun i _ => rfl, fun i => iff_of_false List.not_mem_nil List.not_mem_nil,
    always_nil⟩, fun i => iff_of_false nofun List.not_mem_nil, nofun, ?_⟩
  · cases hi
  · rintro ⟨a, b, heq, -⟩
    simp at heq

/-- In every run of `run_parent`, for any number of children, everything that the parent does
is allowed; the pipe of a child has been closed exactly if the child was waited for, and then
`m_pid` is -1; `m_stop` is true only if all children were waited for, and it is true when a
`SIGCHLD` was handled after that. -/
theorem children_live (p : Children (n + 1)) (exited : Fin (n + 1) → Bool) {s : Parent (n + 1)}
    (hrun : Logged (Parent.Step p) (fun _ _ => True) (Parent.happens p) (p.start exited) log s) :
    Always (Allowed p) log ∧
      (∀ i, .close (p.pipefd i) ∈ log ↔ .reap (p.pid i) ∈ log) ∧
      (∀ i, .reap (p.pid i) ∈ log → s.mPid i = -1) ∧
      (s.mStop = true → ∀ i, .reap (p.pid i) ∈ log) ∧
      (Finished p log → s.mStop = true) := by
  have hkept : Kept p log s := by
    apply hrun.invariant (I := Kept p) (kept_start exited)
    intro log s a s' h hstep _
    exact h.step hstep
  exact ⟨hkept.books.allowed, hkept.books.closed, hkept.books.gone, hkept.stop, hkept.finished⟩

/-- The step function of the parent. -/
def follow (p : Children n) : Parent n → Action n → Option (Parent n) :=
  attempt (Parent.Enabled p) fun s a => (s.perform p a).1

/-- What the step function does is a step. -/
theorem step_of_follow {a : Action n} (h : follow p s a = some s') : Parent.Step p s a s' :=
  attempt_eq_some h

/-- A client connects, the parent gets a `SIGTERM`, and both children end and are waited for. -/
theorem children_live_terminated :
    ∃ s, Logged (Parent.Step (forked 2)) (fun _ _ => True) (Parent.happens (forked 2))
        ((forked 2).start fun _ => false)
        [.epollWait, .send 4, .kill 101, .kill 102, .reap 101, .close 4, .reap 102, .close 6,
          .sigchldDone] s ∧ s.mStop = true ∧ ∀ i, s.mPid i = -1 := by
  have hlog : (loggedSchedule (follow (forked 2)) (fun _ _ => True) (Parent.happens (forked 2))
      ((forked 2).start fun _ => false)
      [.wait [.listenfd, .sigPipe [.sigterm, .sigchld]], .event, .event, .signal [], .exit 0, .exit 1,
        .signal [101, 102], .leave]).map Prod.fst =
      some [.epollWait, .send 4, .kill 101, .kill 102, .reap 101, .close 4, .reap 102, .close 6,
        .sigchldDone] := by decide +kernel
  obtain ⟨⟨log, s⟩, hrun, heq⟩ := Option.map_eq_some_iff.mp hlog
  obtain rfl : log = _ := heq
  have hlogged := Logged.of_schedule .refl (fun s a s' => step_of_follow) (fun _ _ _ _ => trivial) hrun
  rw [List.nil_append] at hlogged
  obtain ⟨-, -, hgone, -, hfinished⟩ := children_live (forked 2) (fun _ => false) hlogged
  have hreaped : ∀ i, .reap ((forked 2).pid i) ∈
      ([.epollWait, .send 4, .kill 101, .kill 102, .reap 101, .close 4, .reap 102, .close 6,
        .sigchldDone] : List Happening) := by decide +kernel
  have hbefore : ∀ i, .reap ((forked 2).pid i) ∈
      ([.epollWait, .send 4, .kill 101, .kill 102, .reap 101, .close 4, .reap 102, .close 6] :
        List Happening) := by decide +kernel
  refine ⟨s, hlogged, ?_, fun i => hgone i (hreaped i)⟩
  exact hfinished ⟨[.epollWait, .send 4, .kill 101, .kill 102, .reap 101, .close 4, .reap 102,
    .close 6], [], rfl, hbefore⟩

end Runs

end ServerListings.Analysis.ChildLives
