import ServerListings.Interface.ChatTables

/-!
# The chat server's tables stay consistent

In every state that the events lead to, whatever their order: the number of users is in range,
the entries in use are those of the children that are not yet reaped, and `sub_process` gives
the position of each. To reap a child closes its pipe and no other and removes its entry only.
-/

set_option autoImplicit false

namespace ServerListings.Analysis.ChatEntries

open Lib.CMem Lib.DenseTable Lib.Transition ServerListings.Model ServerListings.Model.ChatServer
open ServerListings.Interface.ChatTables

/-- The states that any possible events lead to from the start of the event loop. -/
abbrev Reaches (users : CArray ClientData (USER_LIMIT + 1)) (opened : Finset Int)
    (listenfd sigPipe : Int) : State → Prop :=
  Run Step (fun _ _ => True) (create users opened listenfd sigPipe)

/-- The position is in use. -/
def InUse (s : State) (i : Nat) : Prop := (i : Int) < s.userCount

/-- The entries in use. -/
def usersOf (s : State) : List ClientData := entries s.users.elem s.userCount.toNat

/-- What reaping a child does to the entries and the descriptors. -/
structure RemovesOnly (s s' : State) (i : Nat) : Prop where
  closed : s'.opened = s.opened.erase (s.users.elem i).pipefd.1
  count : s'.userCount = s.userCount - 1
  rest : (s.users.elem i :: usersOf s').Perm (usersOf s)

section Runs

variable {s s' : State} {n i : Nat} {users : CArray ClientData (USER_LIMIT + 1)}
  {opened : Finset Int} {listenfd sigPipe : Int}

/-- Every state reached has its tables. -/
theorem tables_run (h : Reaches users opened listenfd sigPipe s) : ∃ n, Tables s n := by
  apply h.invariant
  · exact ⟨0, tables_create users opened listenfd sigPipe⟩
  · rintro s e s' ⟨n, hs⟩ hstep -
    obtain ⟨n', -, hs'⟩ := hs.step hstep
    exact ⟨n', hs'⟩

/-- The entries in use are the first `n`. -/
theorem inUse_iff (h : Tables s n) : InUse s i ↔ i < n := by
  rw [InUse, h.count, Int.ofNat_lt]

/-- The users are the entries in use. -/
theorem usersOf_eq (h : Tables s n) : usersOf s = entries s.users.elem n := by
  rw [usersOf, h.count, Int.toNat_natCast]

/-- Reaping a child, where it is known which entry is its own. -/
theorem reap_removes (h : Tables s (n + 1)) (hi : i < n + 1) : RemovesOnly s (reaped s n i) i := by
  refine ⟨rfl, ?_, ?_⟩
  · rw [h.count]
    change (n : Int) = ((n + 1 : Nat) : Int) - 1
    omega
  · rw [usersOf_eq h, usersOf_eq (h.reaped hi)]
    exact entries_swapRemove s.users.elem hi

/-- The loop of `SIGCHLD` makes one step for each child that `waitpid` returns. -/
theorem sigchld_run {pids : List Nat} (h : Tables s n) (hnodup : pids.Nodup)
    (hpids : ∀ pid ∈ pids, Possible s (.reap pid)) :
    ∃ s', handleSigchld s pids = .ok s' ∧ Run Step (fun _ _ => True) s s' := by
  induction pids generalizing s n with
  | nil => exact ⟨s, rfl, .refl⟩
  | cons pid pids ih =>
    obtain ⟨hnot, hnodup'⟩ := List.nodup_cons.mp hnodup
    have hpossible := hpids pid List.mem_cons_self
    obtain ⟨s₁, n₁, hreap, heffect, htables⟩ := h.handle hpossible
    have hrest : ∀ pid' ∈ pids, Possible s₁ (.reap pid') := by
      intro pid' hpid'
      obtain ⟨c, hc, rfl, hexited⟩ := hpids pid' (List.mem_cons_of_mem _ hpid')
      have hne : c.pid ≠ pid := fun heq => hnot (heq ▸ hpid')
      cases heffect with
      | reaped k i hn hi hchild =>
        exact ⟨c, List.mem_filter.mpr ⟨hc, decide_eq_true hne⟩, rfl, hexited⟩
    obtain ⟨s', hloop, hrun⟩ := ih htables hnodup' hrest
    refine ⟨s', ?_, (Run.refl.step ⟨hpossible, hreap⟩ trivial).trans hrun⟩
    have hreap' : reapChild s pid = .ok s₁ := hreap
    rw [handleSigchld, List.foldlM_cons, hreap', ok_bind]
    exact hloop

end Runs

/-- The tables are consistent in every state that is reached. Every possible event is handled,
also a `SIGCHLD` for several children, and to reap a child removes its entry only. -/
theorem tables_consistent {users : CArray ClientData (USER_LIMIT + 1)} {opened : Finset Int}
    {listenfd sigPipe : Int} {s : State} (h : Reaches users opened listenfd sigPipe s) :
    (0 ≤ s.userCount ∧ s.userCount ≤ USER_LIMIT) ∧
      (∀ i j, InUse s i → InUse s j → (s.users.elem i).pid = (s.users.elem j).pid → i = j) ∧
      (∀ pid, (∃ i, InUse s i ∧ (s.users.elem i).pid = pid) ↔ ∃ c ∈ s.children, c.pid = pid) ∧
      (∀ i, InUse s i → s.subProcess.elem (s.users.elem i).pid = i) ∧
      (∀ e, Possible s e → ∃ s', Step s e s') ∧
      (∀ pid s', Step s (.reap pid) s' →
        ∃ i, InUse s i ∧ (s.users.elem i).pid = pid ∧ RemovesOnly s s' i) ∧
      ∀ pids, pids.Nodup → (∀ pid ∈ pids, Possible s (.reap pid)) →
        ∃ s', handleSigchld s pids = .ok s' ∧ Reaches users opened listenfd sigPipe s' := by
  obtain ⟨n, ht⟩ := tables_run h
  have huse (i : Nat) : InUse s i ↔ i < n := inUse_iff ht
  refine ⟨?_, ?_, ?_, ?_, ?_, ?_, ?_⟩
  · rw [ht.count]
    exact ⟨Int.natCast_nonneg n, Int.ofNat_le.mpr ht.limit⟩
  · intro i j hi hj heq
    exact ht.index.key_injective ((huse i).mp hi) ((huse j).mp hj) heq
  · intro pid
    simp only [huse]
    exact ht.children pid
  · intro i hi
    exact ht.index i ((huse i).mp hi)
  · intro e he
    obtain ⟨s', -, hs', -, -⟩ := ht.handle he
    exact ⟨s', he, hs'⟩
  · intro pid s' hstep
    obtain ⟨n', heffect, -⟩ := ht.step hstep
    cases heffect with
    | reaped k i hn hi hchild =>
      subst hn
      exact ⟨i, (huse i).mpr hi, rfl, reap_removes ht hi⟩
  · intro pids hnodup hpids
    obtain ⟨s', hs', hrun⟩ := sigchld_run ht hnodup hpids
    exact ⟨s', hs', h.trans hrun⟩

/-- The first client: its entry is at position 0, and `sub_process` says so. -/
theorem tables_consistent_first : ∃ s, Run Step (fun _ _ => True) start s ∧ InUse s 0 ∧
    (s.users.elem 0).pid = 100 ∧ s.subProcess.elem 100 = 0 := by
  obtain ⟨hstep, htables⟩ := tables_start.fork_step (r := clientA) rfl (by decide) (by decide)
    (by decide)
  have hrun : Run Step (fun _ _ => True) start _ := Run.refl.step hstep trivial
  have huse := (inUse_iff htables).mpr Nat.zero_lt_one
  exact ⟨_, hrun, huse, rfl, (tables_consistent hrun).2.2.2.1 0 huse⟩

end ServerListings.Analysis.ChatEntries
