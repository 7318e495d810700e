import ServerListings.Interface.ChatTables

/-!
# When the children of the chat server write to different segments

A child keeps the number it was forked with, but the parent gives the same number out again once
another client has left. The segments of the children that are alive are disjoint as long as
every child is forked while no other one runs with the present number of users.
-/

set_option autoImplicit false

namespace ServerListings.Analysis.ChatSegments

open Lib.CMem Lib.DenseTable Lib.Transition ServerListings.Model ServerListings.Model.ChatServer
open ServerListings.Interface.ChatTables

/-- The part of the shared memory that a child with this number writes. -/
def Segment (idx a : Int) : Prop := idx * BUFFER_SIZE ≤ a ∧ a < (idx + 1) * BUFFER_SIZE

/-- Two different children that are alive run with different numbers, and write to different
places. -/
def Separate (s : State) : Prop :=
  ∀ c ∈ s.children, ∀ c' ∈ s.children, c.exited = false → c'.exited = false → c.pid ≠ c'.pid →
    c.idx ≠ c'.idx ∧ ∀ a, ¬ (Segment c.idx a ∧ Segment c'.idx a)

/-- If the event forks, no child that is alive runs with the present number of users. -/
def NumberFree (s : State) : Event → Prop
  | .accept r => 0 ≤ r.connfd → s.userCount < USER_LIMIT → r.pid.isSome →
      ∀ c ∈ s.children, c.exited = false → c.idx ≠ s.userCount
  | _ => True

section Runs

variable {s s' : State} {n n' : Nat} {e : Event}

/-- Two segments have no byte in common. -/
theorem not_segment_both {i j : Int} (hne : i ≠ j) (a : Int) : ¬ (Segment i a ∧ Segment j a) := by
  rintro ⟨⟨hi, hi'⟩, hj, hj'⟩
  unfold BUFFER_SIZE at *
  omega

/-- What `Separate` says of the numbers is all there is to it. -/
theorem separate_iff : Separate s ↔ ∀ c ∈ s.children, ∀ c' ∈ s.children, c.exited = false →
    c'.exited = false → c.pid ≠ c'.pid → c.idx ≠ c'.idx := by
  constructor
  · intro h c hc c' hc' halive halive' hne
    exact (h c hc c' hc' halive halive' hne).1
  · intro h c hc c' hc' halive halive' hne
    have hidx := h c hc c' hc' halive halive' hne
    exact ⟨hidx, not_segment_both hidx⟩

/-- Fewer live children are separate as well. -/
theorem separate_mono (h : Separate s) (hsub : ∀ c ∈ s'.children, c.exited = false → c ∈ s.children) :
    Separate s' := by
  intro c hc c' hc' halive halive'
  exact h c (hsub c hc halive) c' (hsub c' hc' halive') halive halive'

/-- Reaping leaves a child that is alive. -/
theorem marked_alive {pid : Nat} {c : Child} (halive : (marked pid c).exited = false) :
    marked pid c = c := by
  unfold marked at *
  split
  · rename_i heq
    rw [if_pos heq] at halive
    cases halive
  · rfl

/-- A new child with a free number is separate from the others. -/
theorem separate_forked {r : Accepted} {pid : Nat} (h : Separate s)
    (hfree : ∀ c ∈ s.children, c.exited = false → c.idx ≠ n) : Separate (registered s n r pid) := by
  rw [separate_iff] at h ⊢
  intro c hc c' hc' halive halive' hne
  rcases List.mem_append.mp hc with hc | hc
  · rcases List.mem_append.mp hc' with hc' | hc'
    · exact h c hc c' hc' halive halive' hne
    · rw [List.mem_singleton.mp hc']
      exact hfree c hc halive
  · rcases List.mem_append.mp hc' with hc' | hc'
    · rw [List.mem_singleton.mp hc]
      exact (hfree c' hc' halive').symm
    · rw [List.mem_singleton.mp hc, List.mem_singleton.mp hc'] at hne
      exact absurd rfl hne

/-- A step with a free number keeps the segments apart. -/
theorem separate_step (ht : Tables s n) (heffect : Effect s n e s' n') (h : Separate s)
    (hfree : NumberFree s e) : Separate s' := by
  cases heffect with
  | forked r pid hpid hpos hn hfresh =>
    apply separate_forked h
    have hcond := hfree hpos (by rw [ht.count]; exact Int.ofNat_lt.mpr hn) (by rw [hpid]; rfl)
    rwa [ht.count] at hcond
  | quiet r s' _ hquiet =>
    apply separate_mono h
    intro c hc _
    rwa [hquiet.children] at hc
  | exited pid hchild =>
    apply separate_mono h
    intro c hc halive
    obtain ⟨c', hc', rfl⟩ := List.mem_map.mp hc
    rw [marked_alive halive]
    exact hc'
  | reaped k i hn hi hchild =>
    apply separate_mono h
    intro c hc _
    exact (List.mem_filter.mp hc).1

/-- An event that forks with a number in use ends the separation. -/
theorem not_separate_step (ht : Tables s n) (heffect : Effect s n e s' n')
    (hfree : ¬ NumberFree s e) : ¬ Separate s' := by
  cases heffect with
  | forked r pid hpid hpos hn hfresh =>
    simp only [NumberFree, not_forall, not_not] at hfree
    obtain ⟨-, -, -, c, hc, halive, hidx⟩ := hfree
    rw [ht.count] at hidx
    have hne := (hfresh.2.2.2.2.2.2 pid hpid).2.2 c hc
    intro h
    apply (separate_iff.mp h) c (List.mem_append_left _ hc) ⟨pid, n, false⟩
      (List.mem_append_right _ (List.mem_singleton_self _)) halive rfl hne
    exact hidx
  | quiet r s' hnone hquiet =>
    simp only [NumberFree, not_forall, not_not] at hfree
    obtain ⟨hpos, hn, hsome, -⟩ := hfree
    rw [ht.count] at hn
    rw [hnone hpos (Int.ofNat_lt.mp hn)] at hsome
    cases hsome
  | exited pid hchild => exact absurd trivial hfree
  | reaped k i hn hi hchild => exact absurd trivial hfree

end Runs

/-- In a run in which every fork finds its number free, the segments of the children that are
alive are disjoint. A fork that does not find it free after such a run ends this. -/
theorem segments_disjoint {users : CArray ClientData (USER_LIMIT + 1)} {opened : Finset Int}
    {listenfd sigPipe : Int} {s : State}
    (h : Run Step NumberFree (create users opened listenfd sigPipe) s) :
    Separate s ∧ ∀ e s', Step s e s' → ¬ NumberFree s e → ¬ Separate s' := by
  have hinv : ∃ n, Tables s n ∧ Separate s := by
    apply h.invariant
    · refine ⟨0, tables_create users opened listenfd sigPipe, ?_⟩
      intro c hc
      cases hc
    · rintro s e s' ⟨n, ht, hs⟩ hstep hfree
      obtain ⟨n', heffect, ht'⟩ := ht.step hstep
      exact ⟨n', ht', separate_step ht heffect hs hfree⟩
  obtain ⟨n, ht, hs⟩ := hinv
  refine ⟨hs, fun e s' hstep hfree => ?_⟩
  obtain ⟨n', heffect, -⟩ := ht.step hstep
  exact not_separate_step ht heffect hfree

/-- A run of one client. -/
theorem segments_disjoint_one : ∃ s, Run Step NumberFree start s ∧ s.userCount = 1 ∧ Separate s := by
  obtain ⟨hstep, -⟩ := tables_start.fork_step (r := clientA) rfl
    (by decide) (by decide) (by decide)
  have hfree : NumberFree start (.accept clientA) := fun _ _ _ _ hc => absurd hc List.not_mem_nil
  have hrun := Run.refl.step hstep hfree
  exact ⟨_, hrun, rfl, (segments_disjoint hrun).1⟩

/-- A and B join, A leaves, and C joins: it is given the number of B. -/
theorem segment_shared : ∃ s, Run Step (fun _ _ => True) start s ∧ ¬ Separate s := by
  obtain ⟨h₁, ht₁⟩ := tables_start.fork_step (r := clientA) rfl (by decide) (by decide) (by decide)
  obtain ⟨h₂, ht₂⟩ := ht₁.fork_step (r := clientB) rfl (by decide) (by decide) (by decide)
  obtain ⟨h₃, ht₃⟩ := ht₂.exit_step ⟨⟨100, 0, false⟩, by decide, rfl, rfl⟩
  obtain ⟨h₄, ht₄⟩ := ht₃.reap_step Nat.zero_lt_two ⟨⟨100, 0, true⟩, by decide, rfl, rfl⟩
  obtain ⟨h₅, -⟩ := ht₄.fork_step (r := ⟨3, 5, (6, 8), some 102⟩) rfl (by decide) (by decide) (by decide)
  refine ⟨_, ((((Run.refl.step h₁ trivial).step h₂ trivial).step h₃ trivial).step h₄ trivial).step
    h₅ trivial, ?_⟩
  intro h
  have hB := (separate_iff.mp h) ⟨101, 1, false⟩ (by decide) ⟨102, 1, false⟩ (by decide) rfl rfl
  exact hB (by decide) rfl

end ServerListings.Analysis.ChatSegments
