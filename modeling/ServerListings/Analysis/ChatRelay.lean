import Mathlib.Data.Fintype.Basic
import ServerListings.Lib.Transition
import ServerListings.Interface.RelayEdges

/-!
# What the clients of the chat server are sent

A pipe carries only the number of a segment, and the owner of the segment clears it for the next
chunk whenever the client sends one. As long as every child clears its segment only when its
last notification has been answered by all other children, each client is sent the chunks of
every other client once and in order. A child does not wait for that. An event also stands for
several numbers in a pipe, of which only one is read; if no number is written to a pipe whose
edge is raised, nothing is left in the pipes when all processes wait.
-/

set_option autoImplicit false

namespace ServerListings.Analysis.ChatRelay

open Lib.Transition Lib.EdgeTriggered ServerListings.Model ServerListings.Model.ChatRelay
open ServerListings.Interface.Relay

section Relayed

variable {C : Type} [DecidableEq C] {p : Clients C} {s : State C} {c d : C}
  {shareMem : Nat → List UInt8}

/-- What `d` was sent for the notifications of `c`: the chunks of `c` in order, none twice and
none replaced. A chunk that was not sent is under way. -/
structure Relayed (p : Clients C) (s : State C) (c d : C) : Prop where
  inOrder : sentFrom p s c d <+: (s.children c).received.map segment
  accounted : (s.children c).received.length = (sentFrom p s c d).length + inFlight p s c d
  complete : inFlight p s c d = 0 → sentFrom p s c d = (s.children c).received.map segment

/-- The segment of `c` is faithful to what `d` was sent in every state of a run. -/
theorem faithful_of_run (hrun : Run (Step p) (SegmentFree p) (create C shareMem) s) (hne : c ≠ d) :
    Lib.SharedRegister.Faithful (registerOf p s c d) := by
  have hboth : Numbered p s ∧ Lib.SharedRegister.Faithful (registerOf p s c d) := by
    apply hrun.invariant (I := fun s => Numbered p s ∧
      Lib.SharedRegister.Faithful (registerOf p s c d))
    · refine ⟨Numbered.create shareMem, Or.inl ⟨?_, rfl⟩⟩
      simp [registerOf, inFlight, announcing, create, Child.create]
    · rintro s a s' ⟨hn, hf⟩ hstep hfree
      exact ⟨hn.step hstep, hf.step (register_step hn hstep hfree hne)⟩
  exact hboth.2

/-- In every run with free segments the chunks are relayed. -/
theorem relayed_of_run (hrun : Run (Step p) (SegmentFree p) (create C shareMem) s) (hne : c ≠ d) :
    Relayed p s c d := by
  have hf := faithful_of_run hrun hne
  refine ⟨hf.inOrder, ?_, hf.complete⟩
  have hlen := hf.accounted
  rw [registerOf, List.length_map] at hlen
  exact hlen

/-- In every run without merged edges the children hear everything. -/
theorem heard_of_run
    (hrun : Run (Step p) (fun s a => SegmentFree p s a ∧ EdgeFree s a) (create C shareMem) s) :
    Heard s :=
  hrun.invariant (Heard.create shareMem) fun _ _ _ h hstep hfree => h.step hstep hfree.2

/-- If every segment is cleared only while its number is under way to no other client, then
every other client is sent the chunks of a client once and in order. If besides every number is
written to a pipe whose edge is not raised, all have been sent when the processes wait. -/
theorem chunks_relayed (hrun : Run (Step p) (SegmentFree p) (create C shareMem) s) :
    (∀ c d, c ≠ d → Relayed p s c d) ∧
      (Run (Step p) (fun s a => SegmentFree p s a ∧ EdgeFree s a) (create C shareMem) s →
        Quiescent s → ∀ c d, c ≠ d →
          sentFrom p s c d = (s.children c).received.map segment) := by
  refine ⟨fun c d hne => relayed_of_run hrun hne, ?_⟩
  intro hfree hquiet c d hne
  exact (relayed_of_run hrun hne).complete (hquiet.inFlight (heard_of_run hfree) p c d)

end Relayed

/-! ## Runs of two clients -/

section Schedules

variable {C : Type} [DecidableEq C] {p : Clients C} {s s₀ : State C}
  {cond : State C → Action C → Prop}

/-- The actions are possible one after the other, and each meets the condition. -/
def Legal (p : Clients C) (cond : State C → Action C → Prop) (s : State C) : List (Action C) → Prop
  | [] => True
  | a :: as => s.Enabled a ∧ cond s a ∧ Legal p cond (s.perform p a) as

/-- A legal schedule is a run. -/
theorem run_of_legal {as : List (Action C)} (hrun : Run (Step p) cond s₀ s)
    (h : Legal p cond s as) : Run (Step p) cond s₀ (as.foldl (·.perform p ·) s) := by
  induction as generalizing s with
  | nil => exact hrun
  | cons a as ih => exact ih (hrun.step ⟨h.1, rfl⟩ h.2.1) h.2.2

instance decLegal [Fintype C] [∀ s a, Decidable (cond s a)] :
    ∀ (s : State C) (as : List (Action C)), Decidable (Legal p cond s as)
  | _, [] => isTrue trivial
  | s, a :: as =>
    have := decLegal (s.perform p a) as
    inferInstanceAs (Decidable (_ ∧ _))

end Schedules

/-- A chunk of the client of `c` arrives and is received. -/
def receive {C : Type} (c : C) (data : List UInt8) : List (Action C) :=
  [.arrive c data, .childWait c [.connfd], .clear c, .recvClient c]

/-- The parent reads the number `k` of `c` and goes through the loop over `users`. -/
def passOn {C : Type} (users : List C) (c : C) (k : Nat) : List (Action C) :=
  .parentRecv c :: users.tails.map fun rest => .parentSend ⟨k, c, rest⟩

/-- The child of `d` reads a number and sends the segment of it to its client. -/
def answer {C : Type} (d : C) (client : Nat) : List (Action C) :=
  [.childWait d [.pipefd], .recvPipe d, .forward d client]

/-- The clients with the numbers below `n`. -/
def numbered (n : Nat) : Clients (Fin n) :=
  ⟨Fin.val, List.finRange n, Fin.val_injective, List.nodup_finRange n, List.mem_finRange⟩

def start (n : Nat) : State (Fin n) := create (Fin n) fun _ => []

/-- A chunk is received and sent to the other one of two clients. -/
def oneChunk : List (Action (Fin 2)) :=
  receive 0 [1] ++ [.notify 0, .parentWait [0]] ++ passOn [0, 1] 0 0 ++ answer 1 0

/-- One chunk is relayed to the other child. -/
theorem chunks_relayed_one :
    Relayed (numbered 2) (oneChunk.foldl (·.perform (numbered 2) ·) (start 2)) 0 1 :=
  (chunks_relayed (run_of_legal .refl (by decide))).1 0 1 (by decide)

/-- The second chunk is received before the number of the first one is answered. -/
def twoChunks : List (Action (Fin 2)) :=
  receive 0 [1] ++ [.notify 0] ++ receive 0 [2] ++ [.parentWait [0]] ++ passOn [0, 1] 0 0 ++ answer 1 0

/-- The client is sent the second chunk for the first notification. -/
theorem chunk_replaced : ¬ ∀ s : State (Fin 2),
    Run (Step (numbered 2)) (fun _ _ => True) (start 2) s → ∀ c d, c ≠ d →
      sentFrom (numbered 2) s c d <+: (s.children c).received.map segment := by
  intro hall
  have hrun : Run (Step (numbered 2)) (fun _ _ => True) (start 2)
      (twoChunks.foldl (·.perform (numbered 2) ·) (start 2)) := run_of_legal .refl (by decide)
  have hfirst := (hall _ hrun 0 1 (by decide)).map (List.take 1)
  have hsent : (sentFrom (numbered 2) (twoChunks.foldl (·.perform (numbered 2) ·) (start 2)) 0 1).map
      (List.take 1) = [[2]] := by decide
  rw [hsent] at hfirst
  exact absurd hfirst (by decide)

/-! ## A number that is left in a pipe -/

/-- The numbers of two clients are written to the pipe of the third one before its child waits. -/
def twoNumbers : List (Action (Fin 3)) :=
  receive 0 [1] ++ [.notify 0] ++ receive 1 [2] ++ [.notify 1, .parentWait [0, 1]] ++
    passOn [0, 1, 2] 0 0 ++ passOn [0, 1, 2] 1 1 ++ answer 0 1 ++ answer 1 0 ++ answer 2 0

/-- Where everyone waits without an event the program is quiescent. -/
theorem quiescent_of_waiting {C : Type} {s : State C}
    (hready : ∀ c, (s.children c).pc = .ready ∧ (s.children c).events = [] ∧
      ∀ y, (s.children c).edge y = false)
    (hparent : s.broadcast = none ∧ s.events = [] ∧ ∀ c, s.edge c = false) : Quiescent s := by
  have hnone {α : Type} {edge : α → Bool} {events : List α} (hedge : ∀ y, edge y = false) :
      ¬ Returned edge events := by
    rintro ⟨hne, -, hall⟩
    obtain ⟨y, hy⟩ := List.exists_mem_of_ne_nil events hne
    have hraised := (hall y).mp hy
    rw [hedge] at hraised
    cases hraised
  intro a ha
  cases a with
  | arrive c data => exact ⟨c, data, rfl⟩
  | childWait c events => exact absurd ha.2.2 (hnone (hready c).2.2)
  | parentWait events => exact absurd ha.2.2 (hnone hparent.2.2)
  | clear c =>
    have hhead := ha.2
    rw [(hready c).2.1] at hhead
    cases hhead
  | recvPipe c =>
    have hhead := ha.2
    rw [(hready c).2.1] at hhead
    cases hhead
  | recvClient c => cases (hready c).1.symm.trans ha
  | notify c => cases (hready c).1.symm.trans ha
  | forward c client => cases (hready c).1.symm.trans ha
  | parentRecv sockfd =>
    have hhead := ha.2
    rw [hparent.2.1] at hhead
    cases hhead
  | parentSend b => cases hparent.1.symm.trans ha

/-- One event of the child stands for both numbers: all processes wait, and the client was not
sent the chunk of the second one. -/
theorem number_left_behind : ∃ s : State (Fin 3),
    Run (Step (numbered 3)) (SegmentFree (numbered 3)) (start 3) s ∧ Quiescent s ∧
      sentFrom (numbered 3) s 1 2 ≠ (s.children 1).received.map segment := by
  refine ⟨twoNumbers.foldl (·.perform (numbered 3) ·) (start 3), ?_, ?_, ?_⟩
  · exact run_of_legal .refl (by decide)
  · exact quiescent_of_waiting (by decide) (by decide)
  · intro heq
    have hlen := congrArg List.length heq
    exact absurd hlen (by decide)

end ServerListings.Analysis.ChatRelay
