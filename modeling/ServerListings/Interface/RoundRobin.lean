import ServerListings.Lib.RoundRobin
import ServerListings.Model.ProcessPool

/-!
# The round robin over the children

The loop of the parent goes once around the children, from `sub_process_counter` on, and stops
at the first one that was not waited for (`choose_spec`). Only if there is none does it come
back to its start.
-/

set_option autoImplicit false

namespace ServerListings.Interface

open Lib.RoundRobin ServerListings.Model.ProcessPool

section RoundRobin

variable {n : Nat} {mPid : Fin n → Int} {start : Fin n}

/-- The next one is one further on. -/
theorem following_behind (start : Fin n) (k : Nat) : following (behind start k) = behind start (k + 1) := by
  show behind (behind start k) 1 = behind start (k + 1)
  exact behind_behind start k 1

/-- The iterations of the search, from `i` on: it ends at a child that was not waited for, or
when it is back at `start`. -/
inductive Searches (mPid : Fin n → Int) (start : Fin n) : Fin n → Nat → Fin n → Prop where
  | found {i : Fin n} : mPid i ≠ -1 → Searches mPid start i 1 i
  | back {i : Fin n} : mPid i = -1 → following i = start → Searches mPid start i 1 (following i)
  | next {i j : Fin n} {rounds : Nat} : mPid i = -1 → following i ≠ start →
      Searches mPid start (following i) rounds j → Searches mPid start i (rounds + 1) j

/-- The loop, after `k` children that have been waited for, of at most `n`. -/
theorem chooseLoop_spec (mPid : Fin n → Int) (start : Fin n) (rounds : Nat) : ∀ k, k + (rounds + 1) = n →
    (∀ m < k, mPid (behind start m) = -1) →
    (∃ r ≤ rounds + 1, Searches mPid start (behind start k) r
      (chooseLoop mPid start (rounds + 1) (behind start k))) ∧
    (FirstFrom (fun i => mPid i ≠ -1) start (chooseLoop mPid start (rounds + 1) (behind start k)) ∨
      ∀ i, mPid i = -1) := by
  induction rounds with
  | zero =>
    intro k hk hbefore
    rw [chooseLoop, following_behind]
    by_cases hlive : mPid (behind start k) ≠ -1
    · rw [if_pos hlive]
      refine ⟨⟨1, le_refl 1, .found hlive⟩, Or.inl ⟨k, by omega, rfl, hlive, ?_⟩⟩
      exact fun m hm => not_not.mpr (hbefore m hm)
    · have hgone := not_not.mp hlive
      have hback : behind start (k + 1) = start := by
        apply Fin.ext
        show (start + (k + 1)) % n = start.val
        rw [hk, Nat.add_mod_right, Nat.mod_eq_of_lt start.isLt]
      rw [if_neg hlive, if_pos hback]
      rw [← following_behind] at hback ⊢
      refine ⟨⟨1, le_refl 1, .back hgone hback⟩, Or.inr fun i => ?_⟩
      obtain ⟨m, hm, rfl⟩ := exists_behind start i
      rcases Nat.lt_succ_iff_lt_or_eq.mp (hk ▸ hm) with hlt | rfl
      · exact hbefore m hlt
      · exact hgone
  | succ rounds ih =>
    intro k hk hbefore
    rw [chooseLoop, following_behind]
    by_cases hlive : mPid (behind start k) ≠ -1
    · rw [if_pos hlive]
      refine ⟨⟨1, by omega, .found hlive⟩, Or.inl ⟨k, by omega, rfl, hlive, ?_⟩⟩
      exact fun m hm => not_not.mpr (hbefore m hm)
    · have hgone := not_not.mp hlive
      have hmore : ∀ m < k + 1, mPid (behind start m) = -1 := by
        intro m hm
        rcases Nat.lt_succ_iff_lt_or_eq.mp hm with hlt | rfl
        · exact hbefore m hlt
        · exact hgone
      have hon : behind start (k + 1) ≠ start := by
        intro hback
        have hround := le_of_behind_eq (Nat.succ_pos k) hback
        omega
      obtain ⟨⟨r, hr, hsearch⟩, hfound⟩ := ih (k + 1) (by omega) hmore
      rw [if_neg hlive, if_neg hon]
      refine ⟨⟨r + 1, by omega, .next hgone ?_ ?_⟩, hfound⟩
      · rwa [following_behind]
      · rwa [following_behind]

/-- The search ends within `n` iterations. It finds the first child from `sub_process_counter` on
that was not waited for. -/
theorem choose_spec (mPid : Fin n → Int) (start : Fin n) :
    (∃ r ≤ n, Searches mPid start start r (choose mPid start)) ∧
      (FirstFrom (fun i => mPid i ≠ -1) start (choose mPid start) ∨ ∀ i, mPid i = -1) := by
  obtain ⟨rounds, rfl⟩ : ∃ rounds, n = rounds + 1 :=
    Nat.exists_eq_succ_of_ne_zero (Nat.ne_of_gt (Nat.zero_lt_of_lt start.isLt))
  have hspec := chooseLoop_spec mPid start rounds 0 (Nat.zero_add _)
    (fun m hm => absurd hm (Nat.not_lt_zero m))
  rwa [behind_zero] at hspec

/-- If no child is chosen, none is left. -/
theorem choose_none (h : mPid (choose mPid start) = -1) (i : Fin n) : mPid i = -1 := by
  rcases (choose_spec mPid start).2 with hfirst | hall
  · exact absurd h hfirst.is_live
  · exact hall i

end RoundRobin

/-- Children with the pids from 101 on. -/
def forked (n : Nat) : Children n where
  pid i := 101 + i
  pipefd i := 4 + 2 * i
  pid_pos i := by omega
  pid_injective i j h := by
    have heq : (101 : Int) + i = 101 + j := h
    exact Fin.ext (by omega)
  pipefd_injective i j h := by
    have heq : (4 : Int) + 2 * i = 4 + 2 * j := h
    exact Fin.ext (by omega)

end ServerListings.Interface
