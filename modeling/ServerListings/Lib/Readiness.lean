import Mathlib.Data.List.Basic
import Mathlib.Logic.Function.Basic

/-!
# Readiness tables

A process has streams, and a table with an entry for each of them. An entry is in the ready
list since its stream became readable. An edge-triggered entry leaves the list when it is
reported, and a one-shot entry is also disabled; a disabled entry does not notice what happens
to its stream, and when it is enabled again the stream is looked at. So an enabled entry never
misses that its stream can be read (`Alert`), until it is reported.
-/

set_option autoImplicit false

namespace Lib.Readiness

/-- One direction of a connection: the bytes that came and were not received, and whether no
more will come. -/
structure Stream where
  inbox : List UInt8
  closed : Bool
  deriving DecidableEq, Repr

def Stream.readable (k : Stream) : Bool := !k.inbox.isEmpty || k.closed

/-- Nothing can be read when no bytes are left and the other side is open. -/
theorem Stream.readable_eq_false {k : Stream} :
    k.readable = false ↔ k.inbox = [] ∧ k.closed = false := by
  rw [Stream.readable, Bool.or_eq_false_iff, Bool.not_eq_false', List.isEmpty_iff]

/-- The stream after bytes were received. -/
def Stream.drop (n : Nat) (k : Stream) : Stream := { k with inbox := k.inbox.drop n }

/-- Receiving bytes does not make a stream readable. -/
theorem Stream.readable_drop {k : Stream} {n : Nat} (h : (k.drop n).readable = true) :
    k.readable = true := by
  cases hread : k.readable with
  | true => rfl
  | false =>
    obtain ⟨hinbox, hclosed⟩ := Stream.readable_eq_false.mp hread
    simp [Stream.drop, Stream.readable, hinbox, hclosed] at h

/-- An entry that is enabled or not, and in the ready list or not. -/
structure Entry where
  armed : Bool
  ready : Bool
  deriving DecidableEq, Repr

/-- The stream becomes readable, or more readable. -/
def Entry.notify (e : Entry) : Entry := { e with ready := e.ready || e.armed }

/-- The entry is enabled while its stream can be read or not. -/
def Entry.enable (readable : Bool) : Entry := ⟨true, readable⟩

/-- The entry after it was reported, when it is edge-triggered: it waits for the next change. -/
def Entry.waiting : Entry := ⟨true, false⟩

/-- The one-shot entry after it was reported. -/
def Entry.disabled : Entry := ⟨false, false⟩

/-- The entry of a stream that can be read is in the ready list, or disabled. -/
def Alert (e : Entry) (readable : Bool) : Prop := e.armed = true → readable = true → e.ready = true

/-- An entry that was notified is alert. -/
theorem alert_notify (e : Entry) (readable : Bool) : Alert e.notify readable := by
  intro harmed _
  have harmed' : e.armed = true := harmed
  simp [Entry.notify, harmed']

/-- An entry is alert when it is enabled with what can be read then. -/
theorem alert_enable (readable : Bool) : Alert (Entry.enable readable) readable := fun _ h => h

/-- A disabled entry misses nothing. -/
theorem alert_disabled (readable : Bool) : Alert Entry.disabled readable := nofun

/-- An alert entry stays alert when less can be read. -/
theorem Alert.mono {e : Entry} {readable readable' : Bool} (h : Alert e readable)
    (hread : readable' = true → readable = true) : Alert e readable' :=
  fun harmed hr => h harmed (hread hr)

/-! ## Tables -/

/-- The open streams of a process, and the entries of its table. -/
structure Table (κ : Type) where
  streams : κ → Option Stream
  entries : κ → Option Entry

namespace Table

variable {κ : Type} {T : Table κ} {x y : κ}

def empty (κ : Type) : Table κ := ⟨fun _ => none, fun _ => none⟩

def Open (T : Table κ) (x : κ) : Prop := ∃ k, T.streams x = some k

/-- The open streams have entries, and nothing else has. -/
def Registered (T : Table κ) : Prop := ∀ x, (∃ e, T.entries x = some e) ↔ T.Open x

/-- The entry has not missed that its stream can be read. -/
def AlertAt (T : Table κ) (x : κ) : Prop :=
  ∀ k e, T.streams x = some k → T.entries x = some e → Alert e k.readable

/-- The empty table has no entry without a connection. -/
theorem registered_empty : Registered (empty κ) := fun _ => ⟨nofun, nofun⟩

/-- An open connection has an entry. -/
theorem Registered.exists_entry (h : Registered T) {k : Stream} (hk : T.streams x = some k) :
    ∃ e, T.entries x = some e := (h x).mpr ⟨k, hk⟩

/-- A descriptor that is not open has no entry. -/
theorem Registered.entries_none (h : Registered T) (hk : T.streams x = none) : T.entries x = none := by
  cases he : T.entries x with
  | none => rfl
  | some e =>
    obtain ⟨k, hk'⟩ := (h x).mp ⟨e, he⟩
    rw [hk] at hk'
    cases hk'

section Changes

variable [DecidableEq κ] {k : Option Stream} {e : Option Entry} {f : Stream → Stream}

/-- Another stream and entry at one place. -/
def set (T : Table κ) (x : κ) (k : Option Stream) (e : Option Entry) : Table κ :=
  ⟨Function.update T.streams x k, Function.update T.entries x e⟩

/-- Something happens to a stream, which its entry notices if it is enabled. -/
def change (T : Table κ) (x : κ) (f : Stream → Stream) : Table κ :=
  T.set x ((T.streams x).map f) ((T.entries x).map Entry.notify)

/-- A new stream and its entry. -/
def add (T : Table κ) (x : κ) (k : Stream) : Table κ :=
  T.set x (some k) (some (Entry.enable k.readable))

/-- The stream is closed, which also takes its entry away. -/
def remove (T : Table κ) (x : κ) : Table κ := T.set x none none

/-- Bytes are received. -/
def receive (T : Table κ) (x : κ) (n : Nat) : Table κ :=
  T.set x ((T.streams x).map (Stream.drop n)) (T.entries x)

/-- All that is there is received. -/
def drain (T : Table κ) (x : κ) : Table κ :=
  T.set x ((T.streams x).map fun k => { k with inbox := [] }) (T.entries x)

/-- The entry is enabled again, if there is one. -/
def enable (T : Table κ) (x : κ) : Table κ :=
  T.set x (T.streams x)
    ((T.entries x).map fun _ => Entry.enable (((T.streams x).map Stream.readable).getD false))

/-- The entries that are reported, and what they are afterwards. -/
def report (T : Table κ) (xs : List κ) (after : Entry) : Table κ :=
  { T with
    entries := fun x => if x ∈ xs then (T.entries x).map fun _ => after else T.entries x }

/-- The connection that is set is found. -/
@[simp] theorem streams_set_self : (T.set x k e).streams x = k := Function.update_self ..

/-- The entry that is set is found. -/
@[simp] theorem entries_set_self : (T.set x k e).entries x = e := Function.update_self ..

/-- Other connections are left alone. -/
theorem streams_set_of_ne (h : y ≠ x) : (T.set x k e).streams y = T.streams y :=
  Function.update_of_ne h ..

/-- Other entries are left alone. -/
theorem entries_set_of_ne (h : y ≠ x) : (T.set x k e).entries y = T.entries y :=
  Function.update_of_ne h ..

/-- Other connections are open as before. -/
theorem open_set_of_ne (h : y ≠ x) : (T.set x k e).Open y ↔ T.Open y := by
  rw [Open, streams_set_of_ne h, Open]

/-- Other entries are alert as before. -/
theorem alertAt_set_of_ne (h : y ≠ x) : (T.set x k e).AlertAt y ↔ T.AlertAt y := by
  rw [AlertAt, streams_set_of_ne h, entries_set_of_ne h, AlertAt]

/-- A connection and its entry are set or cleared together. -/
theorem Registered.set (h : Registered T) (hke : (∃ y, e = some y) ↔ ∃ y, k = some y) :
    Registered (T.set x k e) := by
  intro y
  by_cases hy : y = x
  · subst hy
    rw [Open, streams_set_self, entries_set_self]
    exact hke
  · rw [open_set_of_ne hy, entries_set_of_ne hy]
    exact h y

/-- A mapped option has a value if it had one. -/
theorem exists_map {α β : Type} {o : Option α} (g : α → β) :
    (∃ y, o.map g = some y) ↔ ∃ y, o = some y := by
  cases o with
  | none => exact ⟨nofun, nofun⟩
  | some a => exact ⟨fun _ => ⟨a, rfl⟩, fun _ => ⟨g a, rfl⟩⟩

/-- A change of a connection leaves it registered. -/
theorem Registered.change (h : Registered T) : Registered (T.change x f) :=
  h.set ((exists_map _).trans ((h x).trans (exists_map _).symm))

/-- A new connection is registered. -/
theorem Registered.add (h : Registered T) (k : Stream) : Registered (T.add x k) :=
  h.set ⟨fun _ => ⟨_, rfl⟩, fun _ => ⟨_, rfl⟩⟩

/-- A connection is removed with its entry. -/
theorem Registered.remove (h : Registered T) : Registered (T.remove x) := h.set ⟨nofun, nofun⟩

/-- Receiving leaves a connection registered. -/
theorem Registered.receive (h : Registered T) (n : Nat) : Registered (T.receive x n) :=
  h.set ((h x).trans (exists_map _).symm)

/-- Enabling an entry leaves its connection registered. -/
theorem Registered.enable (h : Registered T) : Registered (T.enable x) :=
  h.set ((exists_map _).trans (h x))

/-- Reporting events leaves the connections registered. -/
theorem Registered.report (h : Registered T) (xs : List κ) (after : Entry) :
    Registered (T.report xs after) := by
  intro y
  rw [← show T.Open y ↔ (T.report xs after).Open y from Iff.rfl, ← h y]
  show (∃ e, (if y ∈ xs then _ else _) = some e) ↔ _
  split
  · exact exists_map _
  · exact Iff.rfl

/-- The streams that are open when one of them changes. -/
theorem open_set_map (g : Stream → Stream) : (T.set x ((T.streams x).map g) e).Open y ↔ T.Open y := by
  by_cases hy : y = x
  · subst hy
    rw [Open, streams_set_self]
    exact exists_map g
  · exact open_set_of_ne hy

/-- A removed connection is not open. -/
theorem not_open_remove : ¬ (T.remove x).Open x := by
  rintro ⟨k, hk⟩
  rw [remove, streams_set_self] at hk
  cases hk

/-- A change notifies the entry of its connection. -/
theorem AlertAt.change (h : T.AlertAt y) : (T.change x f).AlertAt y := by
  by_cases hy : y = x
  · subst hy
    intro k e _ he
    rw [Table.change, entries_set_self] at he
    obtain ⟨e', -, rfl⟩ := Option.map_eq_some_iff.mp he
    exact alert_notify e' _
  · exact (alertAt_set_of_ne hy).mpr h

/-- The entry of a new connection is alert. -/
theorem AlertAt.add (h : y ≠ x → T.AlertAt y) (k : Stream) : (T.add x k).AlertAt y := by
  by_cases hy : y = x
  · subst hy
    intro k' e hk he
    rw [Table.add, streams_set_self] at hk
    rw [Table.add, entries_set_self] at he
    obtain rfl := Option.some.inj hk
    obtain rfl := Option.some.inj he
    exact alert_enable _
  · exact (alertAt_set_of_ne hy).mpr (h hy)

/-- A removed entry misses nothing. -/
theorem AlertAt.remove (h : y ≠ x → T.AlertAt y) : (T.remove x).AlertAt y := by
  by_cases hy : y = x
  · subst hy
    intro k e hk
    rw [Table.remove, streams_set_self] at hk
    cases hk
  · exact (alertAt_set_of_ne hy).mpr (h hy)

/-- Receiving leaves entries alert. -/
theorem AlertAt.receive (h : T.AlertAt y) (n : Nat) : (T.receive x n).AlertAt y := by
  by_cases hy : y = x
  · subst hy
    intro k e hk he
    rw [Table.receive, streams_set_self] at hk
    rw [Table.receive, entries_set_self] at he
    obtain ⟨k', hk', rfl⟩ := Option.map_eq_some_iff.mp hk
    exact (h k' e hk' he).mono Stream.readable_drop
  · exact (alertAt_set_of_ne hy).mpr h

/-- An enabled entry is alert. -/
theorem AlertAt.enable (h : y ≠ x → T.AlertAt y) : (T.enable x).AlertAt y := by
  by_cases hy : y = x
  · subst hy
    intro k e hk he
    rw [Table.enable, streams_set_self] at hk
    rw [Table.enable, entries_set_self] at he
    obtain ⟨e', -, rfl⟩ := Option.map_eq_some_iff.mp he
    rw [hk]
    exact alert_enable _
  · exact (alertAt_set_of_ne hy).mpr (h hy)

/-- One-shot entries are disabled when they are reported. -/
theorem AlertAt.report_disabled (h : T.AlertAt y) (xs : List κ) :
    (T.report xs Entry.disabled).AlertAt y := by
  intro k e hk he
  replace he : (if y ∈ xs then (T.entries y).map fun _ => Entry.disabled else T.entries y) = some e := he
  split at he
  · obtain ⟨-, -, rfl⟩ := Option.map_eq_some_iff.mp he
    exact alert_disabled _
  · exact h k e hk he

end Changes

/-! ## Edge-triggered tables -/

/-- The entries are never disabled. A stream that can be read is in the ready list, or it was
reported and is still to be handled. -/
structure Edge (T : Table κ) (handled : κ → Prop) : Prop where
  registered : T.Registered
  armed : ∀ x e, T.entries x = some e → e.armed = true
  noticed : ∀ x k e, T.streams x = some k → T.entries x = some e → k.readable = true →
    e.ready = true ∨ handled x

section Edges

variable {f : Stream → Stream} {k : Stream} {b b' : κ → Prop}

/-- The empty table has noticed everything. -/
theorem edge_empty : Edge (empty κ) b := ⟨registered_empty, nofun, nofun⟩

/-- More reports may be left to handle. -/
theorem Edge.mono (h : Edge T b) (hb : ∀ y, b y → b' y) : Edge T b' :=
  ⟨h.registered, h.armed, fun x k e hk he hread => (h.noticed x k e hk he hread).imp_right (hb x)⟩

variable [DecidableEq κ]

/-- What is known of the other places after a change at one. -/
theorem Edge.set {k : Option Stream} {e : Option Entry} (h : Edge T b)
    (hke : (∃ y, e = some y) ↔ ∃ y, k = some y) (harmed : ∀ y, e = some y → y.armed = true)
    (hx : ∀ k' y, k = some k' → e = some y → k'.readable = true → y.ready = true ∨ b' x)
    (hb : ∀ y, y ≠ x → b y → b' y) : Edge (T.set x k e) b' where
  registered := h.registered.set hke
  armed := by
    intro y e' he
    by_cases hy : y = x
    · subst hy
      rw [entries_set_self] at he
      exact harmed e' he
    · rw [entries_set_of_ne hy] at he
      exact h.armed y e' he
  noticed := by
    intro y k' e' hk he hread
    by_cases hy : y = x
    · subst hy
      rw [streams_set_self] at hk
      rw [entries_set_self] at he
      exact hx k' e' hk he hread
    · rw [streams_set_of_ne hy] at hk
      rw [entries_set_of_ne hy] at he
      exact (h.noticed y k' e' hk he hread).imp_right (hb y hy)

/-- A change is noticed. -/
theorem Edge.change (h : Edge T b) : Edge (T.change x f) b := by
  have harmed : ∀ y, (T.entries x).map Entry.notify = some y → y.armed = true ∧ y.ready = true := by
    intro y hy
    obtain ⟨e, he, rfl⟩ := Option.map_eq_some_iff.mp hy
    have he' := h.armed x e he
    exact ⟨he', by simp [Entry.notify, he']⟩
  refine h.set ((exists_map _).trans ((h.registered x).trans (exists_map _).symm))
    (fun y hy => (harmed y hy).1) (fun _ y _ hy _ => .inl (harmed y hy).2) fun _ _ hb => hb

/-- What a new connection starts with is noticed. -/
theorem Edge.add (h : Edge T b) (k : Stream) : Edge (T.add x k) b := by
  refine h.set ⟨fun _ => ⟨_, rfl⟩, fun _ => ⟨_, rfl⟩⟩ (fun y hy => ?_) (fun k' y hk hy hread => ?_)
    fun _ _ hb => hb
  · obtain rfl := Option.some.inj hy
    rfl
  · obtain rfl := Option.some.inj hk
    obtain rfl := Option.some.inj hy
    exact .inl hread

/-- The stream that is handled is closed. -/
theorem Edge.remove (h : Edge T b) (hb : ∀ y, y ≠ x → b y → b' y) : Edge (T.remove x) b' :=
  h.set ⟨nofun, nofun⟩ nofun nofun hb

/-- Of the stream that is handled all is received, and it is not closed by the other side. -/
theorem Edge.drain (h : Edge T b) (hopen : ∀ k, T.streams x = some k → k.closed = false)
    (hb : ∀ y, y ≠ x → b y → b' y) : Edge (T.drain x) b' := by
  refine h.set ((h.registered x).trans (exists_map _).symm) (h.armed x) (fun k' y hk _ hread => ?_) hb
  obtain ⟨k, hk', rfl⟩ := Option.map_eq_some_iff.mp hk
  have hclosed := hopen k hk'
  simp [Stream.readable, hclosed] at hread

/-- Bytes are received, which is not the end of the handling. -/
theorem Edge.receive (h : Edge T b) (n : Nat) : Edge (T.receive x n) b := by
  refine h.set ((h.registered x).trans (exists_map _).symm) (h.armed x) (fun k' y hk hy hread => ?_)
    fun _ _ hb => hb
  obtain ⟨k, hk', rfl⟩ := Option.map_eq_some_iff.mp hk
  exact h.noticed x k y hk' hy (Stream.readable_drop hread)

/-- Nothing was left to be handled, and the readable streams of a batch are handled next. -/
theorem Edge.report (h : Edge T b) (hnone : ∀ x, ¬ b x) {xs : List κ}
    (hxs : ∀ x ∈ xs, ∀ k, T.streams x = some k → k.readable = true → b' x) :
    Edge (T.report xs Entry.waiting) b' where
  registered := h.registered.report _ _
  armed := by
    intro x e he
    replace he : (if x ∈ xs then (T.entries x).map fun _ => Entry.waiting else T.entries x) = some e := he
    split at he
    · obtain ⟨-, -, rfl⟩ := Option.map_eq_some_iff.mp he
      rfl
    · exact h.armed x e he
  noticed := by
    intro x k e hk he hread
    replace he : (if x ∈ xs then (T.entries x).map fun _ => Entry.waiting else T.entries x) = some e := he
    split at he
    · exact .inr (hxs x ‹_› k hk hread)
    · exact (h.noticed x k e hk he hread).imp_right fun hb => absurd hb (hnone x)

/-- The handling of a stream ends that cannot be read. -/
theorem Edge.done (h : Edge T b) (hx : ∀ k, T.streams x = some k → k.readable = false)
    (hb : ∀ y, y ≠ x → b y → b' y) : Edge T b' where
  registered := h.registered
  armed := h.armed
  noticed := by
    intro y k e hk he hread
    by_cases hy : y = x
    · subst hy
      rw [hx k hk] at hread
      cases hread
    · exact (h.noticed y k e hk he hread).imp_right (hb y hy)

end Edges

end Table

end Lib.Readiness
