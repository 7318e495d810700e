import ServerListings.Analysis.ChildLives

/-!
# Who gets the next connection

A notification goes to the first child from `sub_process_counter` on that was not waited for,
and the counter moves to the place behind it. So the notifications of a run in which no child
is waited for are a round robin (`Served`), and the fairness of the round robin is that of the
parent.
-/

set_option autoImplicit false

namespace ServerListings.Analysis.PoolFairness

open Lib.RoundRobin Lib.Transition ServerListings.Interface ServerListings.Model.ProcessPool
  ServerListings.Analysis.ChildLives

section Notified

variable {n : Nat} {p : Children n} {s s' s₀ : Parent n} {log l l' : List Happening}

/-- `m_pid` is not -1. -/
def Live (mPid : Fin n → Int) (i : Fin n) : Prop := mPid i ≠ -1

instance (mPid : Fin n → Int) : DecidablePred (Live mPid) :=
  fun _ => inferInstanceAs (Decidable (_ ≠ _))

/-- The number of children that were not waited for. -/
def liveCount (mPid : Fin n → Int) : Nat := (Finset.univ.filter (Live mPid)).card

def sentTo : Happening → Option Int
  | .send fd => some fd
  | _ => none

/-- The pipes to which notifications were sent. -/
def notified (log : List Happening) : List Int := log.filterMap sentTo

/-- The children notified in two parts of a log. -/
theorem notified_append (l l' : List Happening) : notified (l ++ l') = notified l ++ notified l' :=
  List.filterMap_append

/-- A child is notified when a byte is sent to it. -/
theorem mem_notified {fd : Int} : fd ∈ notified log ↔ .send fd ∈ log := by
  rw [notified, List.mem_filterMap]
  constructor
  · rintro ⟨e, he, hsent⟩
    cases e with
    | send fd' =>
      obtain rfl := Option.some.inj hsent
      exact he
    | _ => cases hsent
  · intro h
    exact ⟨_, h, rfl⟩

/-- Where no byte is sent nobody is notified. -/
theorem notified_eq_nil (h : ∀ fd, .send fd ∉ l) : notified l = [] := by
  rw [List.eq_nil_iff_forall_not_mem]
  intro fd hfd
  exact h fd (mem_notified.mp hfd)

/-- The loop over `waitpid` notifies no one and brings no child back. -/
theorem joinLoop_quiet (waited : List Int) : ∀ mPid : Fin n → Int,
    (∀ fd, .send fd ∉ (Parent.joinLoop p mPid waited).2) ∧
      ∀ i, mPid i = -1 → (Parent.joinLoop p mPid waited).1 i = -1 := by
  induction waited with
  | nil => exact fun mPid => ⟨fun _ => List.not_mem_nil, fun _ h => h⟩
  | cons pid waited ih =>
    intro mPid
    obtain ⟨hnone, hgone⟩ := ih (Parent.join p mPid pid).1
    simp only [Parent.joinLoop]
    refine ⟨fun fd hfd => ?_, fun i hi => hgone i ?_⟩
    · rcases List.mem_cons.mp hfd with h | h
      · cases h
      · rcases List.mem_append.mp h with hclosed | hrest
        · obtain ⟨i, -, ⟨⟩⟩ := List.mem_map.mp hclosed
        · exact hnone fd hrest
    · simp only [Parent.join, hi, ite_self]

/-- What a step does for the notifications. -/
inductive Notifies (p : Children n) (s : Parent n) (l : List Happening) (s' : Parent n) : Prop where
  | nobody (hl : notified l = []) (hcounter : s'.subProcessCounter = s.subProcessCounter)
  | child (i : Fin n) (hl : notified l = [p.pipefd i])
      (hfirst : FirstFrom (Live s.mPid) s.subProcessCounter i)
      (hcounter : s'.subProcessCounter = behind i 1)

/-- A new client is given to the next child. -/
theorem dispatch_effect (p : Children n) (s : Parent n) :
    (s.dispatch p).1.mPid = s.mPid ∧ Notifies p s (s.dispatch p).2 (s.dispatch p).1 := by
  unfold Parent.dispatch
  by_cases hnone : s.mPid (choose s.mPid s.subProcessCounter) = -1
  · simp only [if_pos hnone]
    exact ⟨trivial, .nobody rfl rfl⟩
  · simp only [if_neg hnone]
    rcases (choose_spec s.mPid s.subProcessCounter).2 with hfirst | hall
    · exact ⟨trivial, .child _ rfl hfirst rfl⟩
    · exact absurd (hall _) hnone

/-- The end of the children notifies nobody. -/
theorem killAll_quiet (s : Parent n) (fd : Int) : .send fd ∉ s.killAll := by
  intro h
  obtain ⟨i, -, ⟨⟩⟩ := List.mem_map.mp h

/-- A step brings no child back. -/
theorem step_effect {a : Action n} (hs : Parent.Step p s a s') :
    (∀ i, s.mPid i = -1 → s'.mPid i = -1) ∧ Notifies p s (s.happens p a) s' := by
  obtain ⟨hen, rfl⟩ := hs
  cases a with
  | exit i => exact ⟨fun _ h => h, .nobody rfl rfl⟩
  | wait batch => exact ⟨fun _ h => h, .nobody rfl rfl⟩
  | fail => exact ⟨fun _ h => h, .nobody rfl rfl⟩
  | leave => exact ⟨fun _ h => h, .nobody rfl rfl⟩
  | event =>
    cases hev : s.events with
    | nil => exact absurd hev hen.1
    | cons e events =>
      simp only [Parent.happens, Parent.perform, hev]
      cases e with
      | listenfd =>
        obtain ⟨hpid, hnotifies⟩ := dispatch_effect p { s with events := events }
        refine ⟨fun i hi => (congrFun hpid i).trans hi, ?_⟩
        cases hnotifies with
        | nobody hl hcounter => exact .nobody hl hcounter
        | child i hl hfirst hcounter => exact .child i hl hfirst hcounter
      | sigPipe signals => exact ⟨fun _ h => h, .nobody rfl rfl⟩
      | other => exact ⟨fun _ h => h, .nobody rfl rfl⟩
  | signal waited =>
    cases hsig : s.signals with
    | nil => exact absurd hsig hen.1
    | cons g signals =>
      simp only [Parent.happens, Parent.perform, hsig]
      cases g with
      | sigchld =>
        obtain ⟨hnone, hgone⟩ := joinLoop_quiet (p := p) waited s.mPid
        refine ⟨hgone, .nobody (notified_eq_nil fun fd hfd => ?_) rfl⟩
        rcases List.mem_append.mp hfd with hmem | hmem
        · exact hnone fd hmem
        · simp at hmem
      | sigterm => exact ⟨fun _ h => h, .nobody (notified_eq_nil (killAll_quiet _)) rfl⟩
      | sigint => exact ⟨fun _ h => h, .nobody (notified_eq_nil (killAll_quiet _)) rfl⟩
      | other => exact ⟨fun _ h => h, .nobody rfl rfl⟩

/-- The notifications of a run from `s₀`. -/
structure Notices (p : Children n) (s₀ : Parent n) (log : List Happening) (s : Parent n) : Prop where
  gone : ∀ i, s₀.mPid i = -1 → s.mPid i = -1
  live : ∀ i, p.pipefd i ∈ notified log → Live s₀.mPid i
  served : (∀ i, Live s₀.mPid i → Live s.mPid i) → ∃ is, notified log = is.map p.pipefd ∧
    Served (Live s₀.mPid) s₀.subProcessCounter is s.subProcessCounter

/-- At first nobody was notified. -/
theorem notices_refl (p : Children n) (s₀ : Parent n) : Notices p s₀ [] s₀ :=
  ⟨fun _ h => h, fun _ h => absurd h List.not_mem_nil, fun _ => ⟨[], rfl, .nil _⟩⟩

/-- Every step notifies in turn. -/
theorem Notices.step {a : Action n} (h : Notices p s₀ log s) (hs : Parent.Step p s a s') :
    Notices p s₀ (log ++ s.happens p a) s' := by
  obtain ⟨hgone, hnotifies⟩ := step_effect hs
  have hback : (∀ i, Live s₀.mPid i → Live s'.mPid i) → ∀ i, Live s₀.mPid i → Live s.mPid i :=
    fun hlive i hi hdead => hlive i hi (hgone i hdead)
  refine ⟨fun i hi => hgone i (h.gone i hi), ?_, ?_⟩
  · intro i hi
    rw [notified_append, List.mem_append] at hi
    rcases hi with hold | hnew
    · exact h.live i hold
    · cases hnotifies with
      | nobody hl _ =>
        rw [hl] at hnew
        cases hnew
      | child j hl hfirst _ =>
        rw [hl, List.mem_singleton] at hnew
        obtain rfl := p.pipefd_injective hnew
        exact fun hdead => hfirst.is_live (h.gone i hdead)
  · intro hlive
    obtain ⟨is, hmap, hserved⟩ := h.served (hback hlive)
    rw [notified_append, hmap]
    cases hnotifies with
    | nobody hl hcounter =>
      rw [hl, hcounter, List.append_nil]
      exact ⟨is, rfl, hserved⟩
    | child i hl hfirst hcounter =>
      have hsame : Live s.mPid = Live s₀.mPid := by
        funext j
        exact propext ⟨fun hj hdead => hj (h.gone j hdead), hback hlive j⟩
      rw [hsame] at hfirst
      rw [hl, hcounter]
      refine ⟨is ++ [i], ?_, hserved.append (.cons hfirst (.nil _))⟩
      rw [List.map_append, List.map_singleton]

/-- In every run the children are notified in turn. -/
theorem notices (hrun : Logged (Parent.Step p) (fun _ _ => True) (Parent.happens p) s₀ log s) :
    Notices p s₀ log s := by
  apply hrun.invariant (notices_refl p s₀)
  intro log s a s' h hstep _
  exact h.step hstep

/-- While no child is waited for, no one is notified twice before all others. -/
theorem Notices.window {w : List Int} (h : Notices p s₀ log s)
    (hlive : ∀ i, Live s₀.mPid i → Live s.mPid i) (hw : w <:+: notified log)
    (hlen : w.length ≤ liveCount s₀.mPid) : w.Nodup := by
  obtain ⟨is, hmap, hserved⟩ := h.served hlive
  rw [hmap] at hw
  obtain ⟨v, hv, rfl⟩ := List.infix_map_iff.mp hw
  rw [List.length_map] at hlen
  exact (hserved.nodup_infix hv hlen).map p.pipefd_injective

/-- `m_stop` after the branch for the listening socket. -/
theorem dispatch_stop (h : Kept p log s) : (s.dispatch p).1.mStop = true ↔ ∀ i, s.mPid i = -1 := by
  unfold Parent.dispatch
  by_cases hnone : s.mPid (choose s.mPid s.subProcessCounter) = -1
  · simp only [if_pos hnone]
    exact iff_of_true trivial fun i => choose_none hnone i
  · simp only [if_neg hnone]
    constructor
    · intro hstop i
      exact h.books.gone i (h.stop hstop i)
    · intro hall
      exact absurd (hall _) hnone

end Notified

section Fair

variable {n : Nat} {log : List Happening}

/-- The dispatch of `run_parent` is a round robin over the children that were not waited for.
For any of them and any counter, the search ends within as many iterations as there are
children, at the first live child from the counter on. In every state of a run, `m_stop` is
true after a dispatch exactly if no child is left, and otherwise that child is notified. From
then on, no child that was waited for is notified, and while the live children stay the same,
as many consecutive notifications as there are live children go to different ones. -/
theorem dispatch_fair (p : Children (n + 1)) (exited : Fin (n + 1) → Bool) {s : Parent (n + 1)}
    (hrun : Logged (Parent.Step p) (fun _ _ => True) (Parent.happens p) (p.start exited) log s) :
    (∀ (mPid : Fin (n + 1) → Int) (start : Fin (n + 1)),
      (∃ r ≤ n + 1, Searches mPid start start r (choose mPid start)) ∧
      ((∃ i, Live mPid i) → FirstFrom (Live mPid) start (choose mPid start))) ∧
    ((s.dispatch p).1.mStop = true ↔ ∀ i, s.mPid i = -1) ∧
    ((∃ i, Live s.mPid i) →
      (s.dispatch p).2 = [.send (p.pipefd (choose s.mPid s.subProcessCounter))]) ∧
    ∀ log' s', Logged (Parent.Step p) (fun _ _ => True) (Parent.happens p) s log' s' →
      (∀ i, .reap (p.pid i) ∈ log → .send (p.pipefd i) ∉ log') ∧
      ((∀ i, Live s'.mPid i ↔ Live s.mPid i) → ∀ w, w <:+: notified log' →
        w.length ≤ liveCount s.mPid → w.Nodup) := by
  have hkept : Kept p log s := by
    apply hrun.invariant (kept_start exited)
    intro log s a s' h hstep _
    exact h.step hstep
  refine ⟨fun mPid start => ?_, dispatch_stop hkept, ?_, ?_⟩
  · obtain ⟨hends, hfirst⟩ := choose_spec mPid start
    refine ⟨hends, ?_⟩
    rintro ⟨i, hi⟩
    exact hfirst.resolve_right fun hall => hi (hall i)
  · rintro ⟨i, hi⟩
    have hlive : ¬ s.mPid (choose s.mPid s.subProcessCounter) = -1 := fun h => hi (choose_none h i)
    simp only [Parent.dispatch, if_neg hlive]
  · intro log' s' hrun'
    have hnotices := notices hrun'
    refine ⟨fun i hreaped hsent => ?_, fun hsame w hw hlen => ?_⟩
    · exact hnotices.live i (mem_notified.mpr hsent) (hkept.books.gone i hreaped)
    · exact hnotices.window (fun i hi => (hsame i).mpr hi) hw hlen

/-- The second one of three children has ended. It is not notified again. -/
theorem dispatch_fair_three :
    ∃ s, Logged (Parent.Step (forked 3)) (fun _ _ => True) (Parent.happens (forked 3))
        ((forked 3).start fun _ => false) [.epollWait, .send 4, .reap 102, .close 6, .sigchldDone] s ∧
      ∀ log' s', Logged (Parent.Step (forked 3)) (fun _ _ => True) (Parent.happens (forked 3)) s log' s' →
        .send 6 ∉ log' := by
  have hlog : (loggedSchedule (follow (forked 3)) (fun _ _ => True) (Parent.happens (forked 3))
      ((forked 3).start fun _ => false)
      [.exit 1, .wait [.listenfd, .sigPipe [.sigchld], .listenfd], .event, .event,
        .signal [102]]).map Prod.fst =
      some [.epollWait, .send 4, .reap 102, .close 6, .sigchldDone] := by decide +kernel
  obtain ⟨⟨log, s⟩, hrun, heq⟩ := Option.map_eq_some_iff.mp hlog
  obtain rfl : log = _ := heq
  have hlogged := Logged.of_schedule .refl (fun s a s' => step_of_follow) (fun _ _ _ _ => trivial) hrun
  rw [List.nil_append] at hlogged
  obtain ⟨-, -, -, hlater⟩ := dispatch_fair (forked 3) (fun _ => false) hlogged
  refine ⟨s, hlogged, fun log' s' hrun' => ?_⟩
  exact (hlater log' s' hrun').1 1 (by decide +kernel)

end Fair

end ServerListings.Analysis.PoolFairness
