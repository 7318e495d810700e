import Mathlib.Data.Set.Function
import ServerListings.Interface.InactiveRules
import ServerListings.Lib.Transition

/-!
# Every open client has one timer

The nodes of the timer list are objects that are alive, one for each open connection, and a tick
closes the connections that were idle for three slots. All branches of the event loop keep this,
except that `main` deletes the timer that it has just put into the list: the first connection
that is accepted leaves the list with a node that is no object. Without this `delete` it holds
in every run.
-/

set_option autoImplicit false

namespace ServerListings.Analysis.InactiveTimers

open Lib.CMem Lib.DoublyLinked Lib.StableQueue Lib.Transition ServerListings.Model
open ServerListings.Model.InactiveServer ServerListings.Interface
open ServerListings.Interface.InactiveRules

section Timers

variable {d : Disposal} {s s' : Server} {q : List (Ptr × Int)} {ptr : Int → Ptr}
  {users : CArray ClientData FD_LIMIT} {now cur : Int}

/-- `users[fd].timer`. -/
def timerOf (s : Server) (fd : Int) : Option Ptr :=
  match s.users.get fd with
  | .ok u => u.timer
  | .error _ => none

/-- The walk along the timer list meets objects that are alive, each once, and `users` gives a
one-to-one correspondence between the open connections and these. -/
def OneTimerEach (s : Server) : Prop :=
  ∃ nodes : List Ptr, Walk (nextOf s.memory) s.timerLst.head nodes ∧ nodes.Nodup ∧
    (∀ p ∈ nodes, ∃ t, s.memory.nodes p = some t) ∧
    Set.BijOn (timerOf s) {fd | fd ∈ s.clients} {o | ∃ p ∈ nodes, o = some p}

/-- There is one timer for each open connection. A tick closes exactly the connections whose last
`accept` or successful read is at least three slots ago. No event leads to a fault. -/
structure Sound (d : Disposal) (s : Server) : Prop where
  timers : OneTimerEach s
  ticks : ∀ cur, s.now ≤ cur → ∃ s', s.handle d cur .tick = .ok s' ∧
    s'.clients = s.clients.filter fun fd => ¬ s.touched fd ≤ cur - 3 * TIMESLOT
  defined : ∀ cur e, s.Allowed cur e → InRange e → ∃ s', s.handle d cur e = .ok s'

/-- Where the timers are kept each connection has one. -/
theorem oneTimerEach_of_kept (h : Kept s q ptr) : OneTimerEach s := by
  have htimer : ∀ fd ∈ s.clients, timerOf s fd = some (ptr fd) := by
    intro fd hfd
    rw [timerOf, (h.client fd hfd).user]
  refine ⟨names q, ?_, h.list.nodup, ?_, ?_, ?_, ?_⟩
  · rw [h.list.head]
    exact h.list.links.walk_next
  · intro p hp
    obtain ⟨x, hx, rfl⟩ := List.mem_map.mp hp
    obtain ⟨t, ht, -⟩ := (h.list.timers x hx).alive
    exact ⟨t, ht⟩
  · intro fd hfd
    exact ⟨ptr fd, mem_names (h.mem_entry hfd), htimer fd hfd⟩
  · intro fd hfd fd' hfd' heq
    rw [htimer fd hfd, htimer fd' hfd'] at heq
    exact h.ptr_inj hfd hfd' (Option.some.inj heq)
  · rintro o ⟨p, hp, rfl⟩
    obtain ⟨x, hx, rfl⟩ := List.mem_map.mp hp
    obtain ⟨fd, hfd, rfl⟩ := h.of_mem hx
    exact ⟨fd, hfd, htimer fd hfd⟩

/-- Where the timers are kept the server is sound. -/
theorem sound_of_kept (h : Kept s q ptr) : Sound d s := by
  refine ⟨oneTimerEach_of_kept h, ?_, fun cur e hallowed hrange => h.defined hallowed hrange⟩
  intro cur hcur
  obtain ⟨s', hs', -, hclients⟩ := (h.clock hcur).timerHandler cur
  exact ⟨s', hs', hclients⟩

/-- The timer of a connection that was just accepted is no object. -/
theorem not_sound_of_accept {connfd : Int} {p : Ptr}
    (h : s.handle .deleted cur (.accept connfd p) = .ok s') : ¬ Sound .deleted s' := by
  intro hsound
  obtain ⟨huser, hdead, hmem⟩ := accept_deleted h
  obtain ⟨nodes, -, -, hlive, hbij⟩ := hsound.timers
  have htimer : timerOf s' connfd = some p := by
    rw [timerOf, huser]
  obtain ⟨p', hp', heq⟩ := hbij.mapsTo hmem
  rw [htimer] at heq
  obtain rfl := Option.some.inj heq
  obtain ⟨t, ht⟩ := hlive p hp'
  rw [hdead] at ht
  cases ht

/-- In a run of harmless events the timers are kept. -/
theorem kept_of_run (hrun : Run (Step d) (fun _ a => Harmless d a.2) (start users now) s) :
    ∃ q ptr, Kept s q ptr := by
  apply hrun.invariant (I := fun s => ∃ q ptr, Kept s q ptr)
  · exact ⟨[], fun _ => 0, .start users now _⟩
  · rintro s a s' ⟨q, ptr, h⟩ hstep hharmless
    exact h.step hstep hharmless

/-- In every state of a run every open connection has one live timer in the list, and a tick
closes the idle connections, if `main` does not delete the timers it adds or accepts no
connection. As it is written, the first connection that is accepted ends this. -/
theorem one_timer_each
    (hrun : Run (Step d) (fun _ a => Harmless d a.2) (start users now) s) :
    Sound d s ∧ ∀ cur e s', Step d s (cur, e) s' → ¬ Harmless d e → ¬ Sound d s' := by
  obtain ⟨q, ptr, h⟩ := kept_of_run hrun
  refine ⟨sound_of_kept h, ?_⟩
  intro cur e s' hstep hharmless
  obtain ⟨rfl, connfd, p, rfl⟩ := not_harmless hharmless
  exact not_sound_of_accept hstep.2

end Timers

/-! ## One connection -/

def noUsers : CArray ClientData FD_LIMIT := ⟨fun _ => ⟨0, none⟩⟩

/-- A connection is accepted and its timer is kept. -/
theorem one_timer_each_kept : ∃ s : Server, s.clients = [4] ∧ Sound .kept s := by
  have hrun : Run (Step .kept) (fun _ a => Harmless .kept a.2) (start noUsers 0) _ :=
    .step (l := (7, .accept 4 9)) .refl ⟨⟨by decide, by decide, rfl⟩, rfl⟩ (Or.inl rfl)
  exact ⟨_, rfl, (one_timer_each hrun).1⟩

/-- As it is written, the timer of the connection is deleted. -/
theorem timer_deleted : ¬ ∀ s, Run (Step .deleted) (fun _ _ => True) (start noUsers 0) s →
    Sound .deleted s := by
  intro hall
  have hstep : Step .deleted (start noUsers 0) (7, .accept 4 9) _ :=
    ⟨⟨by decide, by decide, rfl⟩, rfl⟩
  exact not_sound_of_accept hstep.2 (hall _ (.step .refl hstep trivial))

end ServerListings.Analysis.InactiveTimers
