import ServerListings.Interface.ChatTables

/-!
# When the chat server's parent listens to all its children

When a child is reaped, the parent takes the pipe of the element at the position of the number
of users out of the epoll set, which is not the element of that child. The parent listens to the
pipes of all users as long as this element holds no pipe of another user.
-/

set_option autoImplicit false

namespace ServerListings.Analysis.ChatListening

open Lib.CMem Lib.DenseTable Lib.Transition ServerListings.Model ServerListings.Model.ChatServer
open ServerListings.Interface.ChatTables

/-- The parent's end of the pipe of an element of `users`. -/
def pipeOf (s : State) (i : Nat) : Int := (s.users.elem i).pipefd.1

/-- The pipe of every user is registered. -/
def Listening (s : State) : Prop := ∀ i : Nat, (i : Int) < s.userCount → pipeOf s i ∈ s.epoll

/-- If the event reaps a child, the element behind the users holds no pipe of another user. -/
def SparesOthers (s : State) : Event → Prop
  | .reap pid => ∀ i j : Nat, (i : Int) < s.userCount → (j : Int) < s.userCount →
      (s.users.elem i).pid = pid → j ≠ i → pipeOf s j ≠ pipeOf s s.userCount.toNat
  | _ => True

/-- The pipes of the users are open and different. -/
structure Pipes (s : State) (n : Nat) : Prop where
  opened : ∀ i, i < n → pipeOf s i ∈ s.opened
  distinct : ∀ i j, i < n → j < n → pipeOf s i = pipeOf s j → i = j

section Runs

variable {s s' : State} {n n' i : Nat} {e : Event}

/-- The parent listens to all its children when the pipes of all entries are registered. -/
theorem listening_iff (ht : Tables s n) : Listening s ↔ ∀ i, i < n → pipeOf s i ∈ s.epoll := by
  unfold Listening
  simp only [ht.count, Int.ofNat_lt]

/-- A new client's pipe is that of the entry behind the last one. -/
theorem pipeOf_registered (r : Accepted) (pid : Nat) (i : Nat) :
    pipeOf (registered s n r pid) i = if i = n then r.pipefd.1 else pipeOf s i := by
  unfold pipeOf registered
  simp only [Function.update_apply]
  split <;> rfl

/-- The last entry's pipe moves to the place of the client that left. -/
theorem pipeOf_reaped (k i j : Nat) :
    pipeOf (reaped s k i) j = if j = i then pipeOf s k else pipeOf s j := by
  unfold pipeOf reaped
  simp only [Function.update_apply]
  split <;> rfl

/-! ## The pipes stay open and different -/

/-- A new client has a pipe of its own. -/
theorem Pipes.forked {r : Accepted} {pid : Nat} (h : Pipes s n) (hfresh : Fresh s r) :
    Pipes (registered s n r pid) (n + 1) := by
  obtain ⟨hconn, hnew, hother, hne, -, hends, -⟩ := hfresh
  have hold : ∀ i, i < n → pipeOf s i ≠ r.pipefd.1 := by
    intro i hi heq
    exact hnew (heq ▸ h.opened i hi)
  constructor
  · intro i hi
    rw [pipeOf_registered]
    simp only [registered, prepared, Finset.mem_erase, Finset.mem_insert]
    split
    · exact ⟨hends, hne.symm, Or.inr (Or.inl rfl)⟩
    · have hlt : i < n := by omega
      have hin := h.opened i hlt
      refine ⟨?_, ?_, Or.inr (Or.inr (Or.inr hin))⟩
      · exact fun heq => hother (heq ▸ hin)
      · exact fun heq => hconn (heq ▸ hin)
  · intro i j hi hj heq
    rw [pipeOf_registered, pipeOf_registered] at heq
    by_cases hin : i = n <;> by_cases hjn : j = n
    · rw [hin, hjn]
    · rw [if_pos hin, if_neg hjn] at heq
      exact absurd heq.symm (hold j (by omega))
    · rw [if_neg hin, if_pos hjn] at heq
      exact absurd heq (hold i (by omega))
    · rw [if_neg hin, if_neg hjn] at heq
      exact h.distinct i j (by omega) (by omega) heq

/-- Where no client comes or goes the pipes stay apart. -/
theorem Pipes.quiet (h : Pipes s n) (hq : Quiet s s' n) : Pipes s' n := by
  have hsame : ∀ i, i < n → pipeOf s' i = pipeOf s i := by
    intro i hi
    unfold pipeOf
    rw [hq.users i hi]
  constructor
  · intro i hi
    rw [hsame i hi]
    exact hq.opened _ (h.opened i hi)
  · intro i j hi hj heq
    rw [hsame i hi, hsame j hj] at heq
    exact h.distinct i j hi hj heq

/-- The position that the entry at `j` of a reaped state came from. -/
def origin (k i j : Nat) : Nat := if j = i then k else j

/-- Each pipe that is left was there before. -/
theorem pipeOf_reaped_origin (k i j : Nat) : pipeOf (reaped s k i) j = pipeOf s (origin k i j) := by
  rw [pipeOf_reaped, origin]
  split <;> rfl

/-- The entry that an entry comes from is not that of the client that left. -/
theorem origin_spec {k i j : Nat} (hj : j < k) :
    origin k i j < k + 1 ∧ origin k i j ≠ i := by
  unfold origin
  split <;> omega

/-- The pipes stay apart when a client leaves. -/
theorem Pipes.reaped {k : Nat} (h : Pipes s (k + 1)) (hi : i < k + 1) : Pipes (reaped s k i) k := by
  constructor
  · intro j hj
    obtain ⟨hlt, hne⟩ := origin_spec (i := i) hj
    rw [pipeOf_reaped_origin]
    apply Finset.mem_erase_of_ne_of_mem _ (h.opened _ hlt)
    exact fun heq => hne (h.distinct _ _ hlt hi heq)
  · intro j j' hj hj' heq
    obtain ⟨hlt, -⟩ := origin_spec (i := i) hj
    obtain ⟨hlt', -⟩ := origin_spec (i := i) hj'
    rw [pipeOf_reaped_origin, pipeOf_reaped_origin] at heq
    have horigin := h.distinct _ _ hlt hlt' heq
    unfold origin at horigin
    split at horigin <;> split at horigin <;> omega

/-- Every step keeps the pipes apart. -/
theorem Pipes.step (h : Pipes s n) (heffect : Effect s n e s' n') : Pipes s' n' := by
  cases heffect with
  | forked r pid _ _ _ hfresh => exact h.forked hfresh
  | quiet r s' _ hquiet => exact h.quiet hquiet
  | exited pid _ => exact ⟨h.opened, h.distinct⟩
  | reaped k i hn hi _ =>
    subst hn
    exact h.reaped hi

/-! ## Registration -/

/-- What is registered after a client has left. -/
theorem mem_epoll_reaped (k i : Nat) (fd : Int) :
    fd ∈ (reaped s k i).epoll ↔ fd ≠ pipeOf s i ∧ fd ≠ pipeOf s (k + 1) ∧ fd ∈ s.epoll := by
  unfold reaped pipeOf
  simp only [Finset.mem_erase]

/-- A step that spares the pipes of others keeps the parent listening. -/
theorem listening_step (ht : Tables s n) (hp : Pipes s n) (ht' : Tables s' n')
    (heffect : Effect s n e s' n') (h : Listening s) (hspare : SparesOthers s e) : Listening s' := by
  rw [listening_iff ht] at h
  rw [listening_iff ht']
  cases heffect with
  | forked r pid hpid hpos hn hfresh =>
    obtain ⟨hconn, -, hother, -, -, -, -⟩ := hfresh
    intro i hi
    rw [pipeOf_registered]
    simp only [registered, Finset.mem_insert, Finset.mem_erase]
    split
    · exact Or.inl rfl
    · have hlt : i < n := by omega
      have hin := hp.opened i hlt
      refine Or.inr ⟨?_, ?_, h i hlt⟩
      · exact fun heq => hother (heq ▸ hin)
      · exact fun heq => hconn (heq ▸ hin)
  | quiet r s' _ hquiet =>
    intro i hi
    have hsame : pipeOf s' i = pipeOf s i := by
      unfold pipeOf
      rw [hquiet.users i hi]
    rw [hsame]
    exact hquiet.epoll _ (hp.opened i hi) (h i hi)
  | exited pid _ => exact h
  | reaped k i hn hi _ =>
    subst hn
    intro j hj
    obtain ⟨hlt, hne⟩ := origin_spec (i := i) hj
    rw [pipeOf_reaped_origin, mem_epoll_reaped]
    refine ⟨fun heq => hne (hp.distinct _ _ hlt hi heq), ?_, h _ hlt⟩
    have hcond := hspare i (origin n' i j)
    simp only [ht.count, Int.ofNat_lt, Int.toNat_natCast] at hcond
    exact hcond hi hlt trivial hne

/-- To reap a child while the element behind the users holds the pipe of another user takes this
pipe out. -/
theorem not_listening_step (ht : Tables s n) (ht' : Tables s' n') (heffect : Effect s n e s' n')
    (hspare : ¬ SparesOthers s e) : ¬ Listening s' := by
  rw [listening_iff ht']
  cases heffect with
  | forked r pid _ _ _ _ => exact absurd trivial hspare
  | quiet r s' _ _ => exact absurd trivial hspare
  | exited pid _ => exact absurd trivial hspare
  | reaped k i hn hi _ =>
    subst hn
    simp only [SparesOthers, ht.count, Int.ofNat_lt, Int.toNat_natCast, not_forall, not_not] at hspare
    obtain ⟨i', j, hi', hj, hpid, hne, hpipe⟩ := hspare
    obtain rfl := ht.index.key_injective hi' hi hpid
    intro h
    -- the entry of j is at i' now if it was the last one
    by_cases hlast : j = n'
    · have hin := h i' (by omega)
      rw [pipeOf_reaped, if_pos rfl, mem_epoll_reaped] at hin
      exact hin.2.1 (hlast ▸ hpipe)
    · have hin := h j (by omega)
      rw [pipeOf_reaped, if_neg hne, mem_epoll_reaped] at hin
      exact hin.2.1 hpipe

end Runs

/-- In a run in which, whenever a child is reaped, the element behind the users holds no pipe of
another user, the parent listens to all users. Reaping one where it does, after such a run, takes
the pipe of another user out. -/
theorem parent_listens {users : CArray ClientData (USER_LIMIT + 1)} {opened : Finset Int}
    {listenfd sigPipe : Int} {s : State}
    (h : Run Step SparesOthers (create users opened listenfd sigPipe) s) :
    Listening s ∧ ∀ e s', Step s e s' → ¬ SparesOthers s e → ¬ Listening s' := by
  have hinv : ∃ n, Tables s n ∧ Pipes s n ∧ Listening s := by
    apply h.invariant
    · have ht := tables_create users opened listenfd sigPipe
      refine ⟨0, ht, ⟨fun i hi => absurd hi (Nat.not_lt_zero i), fun i _ hi => absurd hi (Nat.not_lt_zero i)⟩, ?_⟩
      rw [listening_iff ht]
      exact fun i hi => absurd hi (Nat.not_lt_zero i)
    · rintro s e s' ⟨n, ht, hp, hs⟩ hstep hspare
      obtain ⟨n', heffect, ht'⟩ := ht.step hstep
      exact ⟨n', ht', hp.step heffect, listening_step ht hp ht' heffect hs hspare⟩
  obtain ⟨n, ht, -, hs⟩ := hinv
  refine ⟨hs, fun e s' hstep hspare => ?_⟩
  obtain ⟨n', heffect, ht'⟩ := ht.step hstep
  exact not_listening_step ht ht' heffect hspare

/-- A run of one client. -/
theorem parent_listens_one : ∃ s, Run Step SparesOthers start s ∧ s.userCount = 1 ∧ Listening s := by
  obtain ⟨hstep, -⟩ := tables_start.fork_step (r := clientA) rfl (by decide) (by decide) (by decide)
  have hrun : Run Step SparesOthers start _ := Run.refl.step hstep trivial
  exact ⟨_, hrun, rfl, (parent_listens hrun).1⟩

/-- A, B and C join, A leaves and then B: the pipe of C, which is the only user, is not
registered. -/
theorem child_not_heard : ∃ s, Run Step (fun _ _ => True) start s ∧ ¬ Listening s := by
  obtain ⟨h₁, ht₁⟩ := tables_start.fork_step (r := clientA) rfl (by decide) (by decide) (by decide)
  obtain ⟨h₂, ht₂⟩ := ht₁.fork_step (r := clientB) rfl (by decide) (by decide) (by decide)
  obtain ⟨h₃, ht₃⟩ := ht₂.fork_step (r := ⟨3, 5, (8, 9), some 102⟩) rfl (by decide) (by decide) (by decide)
  obtain ⟨h₄, ht₄⟩ := ht₃.exit_step ⟨⟨100, 0, false⟩, by decide, rfl, rfl⟩
  obtain ⟨h₅, ht₅⟩ := ht₄.reap_step (Nat.zero_lt_succ 2) ⟨⟨100, 0, true⟩, by decide, rfl, rfl⟩
  obtain ⟨h₆, ht₆⟩ := ht₅.exit_step ⟨⟨101, 1, false⟩, by decide, rfl, rfl⟩
  obtain ⟨h₇, ht₇⟩ := ht₆.reap_step Nat.one_lt_two ⟨⟨101, 1, true⟩, by decide, rfl, rfl⟩
  refine ⟨_, ((((((Run.refl.step h₁ trivial).step h₂ trivial).step h₃ trivial).step h₄ trivial).step
    h₅ trivial).step h₆ trivial).step h₇ trivial, ?_⟩
  rw [listening_iff ht₇]
  intro h
  have hin := h 0 Nat.zero_lt_one
  revert hin
  decide

end ServerListings.Analysis.ChatListening
