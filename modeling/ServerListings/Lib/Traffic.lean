import ServerListings.Lib.EventLoop

/-!
# The bytes of the streams of a process

The log of what happens to the streams of a table says of each of them what has arrived and what
was received (`Ledger`). `Tracked` says that an open stream has what was not received, in the same
order, and `Complete` that of the closed ones everything was received. What a call can return that
receives from a stream is `Returns`.
-/

set_option autoImplicit false

namespace Lib.Readiness

inductive Traffic (κ : Type)
  | opened (x : κ) (k : Stream)
  | arrived (x : κ) (data : List UInt8)
  | ended (x : κ)
  | received (x : κ) (chunk : List UInt8)
  deriving DecidableEq, Repr

/-- What a stream got since it was opened, and what of it was received. `ended` says that no more
will come. -/
structure Ledger where
  arrived : List UInt8
  received : List UInt8
  ended : Bool
  deriving DecidableEq, Repr

section Ledgers

variable {κ : Type} [DecidableEq κ] {T T' : Table κ} {log : List (Traffic κ)} {x y : κ} {k : Stream}

def Ledger.note (x : κ) (l : Ledger) : Traffic κ → Ledger
  | .opened y k => if y = x then ⟨k.inbox, [], k.closed⟩ else l
  | .arrived y data => if y = x then { l with arrived := l.arrived ++ data } else l
  | .ended y => if y = x then { l with ended := true } else l
  | .received y chunk => if y = x then { l with received := l.received ++ chunk } else l

def ledger (log : List (Traffic κ)) (x : κ) : Ledger := log.foldl (Ledger.note x) ⟨[], [], false⟩

/-- The ledger of a stream after more has happened. -/
theorem ledger_append (log es : List (Traffic κ)) (x : κ) :
    ledger (log ++ es) x = es.foldl (Ledger.note x) (ledger log x) := List.foldl_append ..

/-- The traffic of an open stream, of which the bytes in its inbox are left. -/
structure Tracks (log : List (Traffic κ)) (x : κ) (k : Stream) : Prop where
  opened : ∃ k', .opened x k' ∈ log
  arrived : (ledger log x).arrived = (ledger log x).received ++ k.inbox
  ended : (ledger log x).ended = k.closed

def Tracked (log : List (Traffic κ)) (T : Table κ) : Prop :=
  ∀ x k, T.streams x = some k → Tracks log x k

/-- Of the streams that were closed all was received, and no more will come. -/
def Complete (log : List (Traffic κ)) (T : Table κ) : Prop :=
  ∀ x k, .opened x k ∈ log → T.streams x = none →
    (ledger log x).received = (ledger log x).arrived ∧ (ledger log x).ended = true

/-- Without streams there is nothing to track. -/
theorem tracked_empty : Tracked [] (Table.empty κ) := nofun

/-- At first no stream was closed. -/
theorem complete_nil : Complete [] T := nofun

/-- What happens to another stream. -/
theorem Tracks.other (h : Tracks log x k) {e : Traffic κ}
    (he : ∀ l : Ledger, l.note x e = l) : Tracks (log ++ [e]) x k := by
  obtain ⟨k', hk'⟩ := h.opened
  refine ⟨⟨k', List.mem_append_left _ hk'⟩, ?_, ?_⟩ <;> rw [ledger_append, List.foldl_cons, he]
  · exact h.arrived
  · exact h.ended

/-- An event of one stream, of which it is known what it does to it. -/
theorem Tracked.at (h : Tracked log T) {e : Traffic κ} {entry : Option Entry} {o : Option Stream}
    (he : ∀ y, y ≠ x → ∀ l : Ledger, l.note y e = l)
    (hx : ∀ k, o = some k → Tracks (log ++ [e]) x k) : Tracked (log ++ [e]) (T.set x o entry) := by
  intro y k hk
  by_cases hy : y = x
  · subst hy
    rw [Table.streams_set_self] at hk
    exact hx k hk
  · rw [Table.streams_set_of_ne hy] at hk
    exact (h y k hk).other (he y hy)

/-- A new stream has what it starts with. -/
theorem Tracked.add (h : Tracked log T) (x : κ) (k : Stream) :
    Tracked (log ++ [.opened x k]) (T.add x k) := by
  refine h.at (fun y hy l => if_neg (Ne.symm hy)) fun k' hk' => ?_
  obtain rfl := Option.some.inj hk'
  refine ⟨⟨k, List.mem_append_right _ List.mem_cons_self⟩, ?_, ?_⟩ <;>
    rw [ledger_append, List.foldl_cons, List.foldl_nil, Ledger.note, if_pos rfl]
  rfl

/-- What arrives is left to receive. -/
theorem Tracked.arrive (h : Tracked log T) (x : κ) (data : List UInt8) :
    Tracked (log ++ [.arrived x data]) (T.change x fun k => { k with inbox := k.inbox ++ data }) := by
  refine h.at (fun y hy l => if_neg (Ne.symm hy)) fun k' hk' => ?_
  obtain ⟨k, hk, rfl⟩ := Option.map_eq_some_iff.mp hk'
  obtain ⟨⟨k', hmem⟩, harrived, hended⟩ := h x k hk
  refine ⟨⟨k', List.mem_append_left _ hmem⟩, ?_, ?_⟩ <;>
    rw [ledger_append, List.foldl_cons, List.foldl_nil, Ledger.note, if_pos rfl]
  · simp only [harrived, List.append_assoc]
  · exact hended

/-- The other side closes, and no bytes move. -/
theorem Tracked.hangUp (h : Tracked log T) (x : κ) :
    Tracked (log ++ [.ended x]) (T.change x fun k => { k with closed := true }) := by
  refine h.at (fun y hy l => if_neg (Ne.symm hy)) fun k' hk' => ?_
  obtain ⟨k, hk, rfl⟩ := Option.map_eq_some_iff.mp hk'
  obtain ⟨⟨k', hmem⟩, harrived, hended⟩ := h x k hk
  refine ⟨⟨k', List.mem_append_left _ hmem⟩, ?_, ?_⟩ <;>
    rw [ledger_append, List.foldl_cons, List.foldl_nil, Ledger.note, if_pos rfl]
  exact harrived

/-- What is received is taken out of the stream. -/
theorem Tracked.receive (h : Tracked log T) {chunk : List UInt8}
    (hchunk : ∀ k, T.streams x = some k → chunk <+: k.inbox) :
    Tracked (log ++ [.received x chunk]) (T.receive x chunk.length) := by
  refine h.at (fun y hy l => if_neg (Ne.symm hy)) fun k' hk' => ?_
  obtain ⟨k, hk, rfl⟩ := Option.map_eq_some_iff.mp hk'
  obtain ⟨⟨k', hmem⟩, harrived, hended⟩ := h x k hk
  obtain ⟨rest, hrest⟩ := hchunk k hk
  refine ⟨⟨k', List.mem_append_left _ hmem⟩, ?_, ?_⟩ <;>
    rw [ledger_append, List.foldl_cons, List.foldl_nil, Ledger.note, if_pos rfl]
  · simp only [harrived, Stream.drop, ← hrest, List.drop_left, List.append_assoc]
  · exact hended

/-- A stream that is closed is not tracked any more. -/
theorem Tracked.remove (h : Tracked log T) (x : κ) : Tracked log (T.remove x) := by
  intro y k hk
  by_cases hy : y = x
  · subst hy
    rw [Table.remove, Table.streams_set_self] at hk
    cases hk
  · rw [Table.remove, Table.streams_set_of_ne hy] at hk
    exact h y k hk

/-! ## Closed streams -/

/-- Nothing happens to a stream that is closed. -/
theorem Complete.at (h : Complete log T) {e : Traffic κ} {entry : Option Entry} {o : Option Stream}
    (he : ∀ y, y ≠ x → ∀ l : Ledger, l.note y e = l) (hnew : ∀ y k, e = .opened y k → y = x)
    (ho : o ≠ none) : Complete (log ++ [e]) (T.set x o entry) := by
  intro y k hmem hnone
  by_cases hy : y = x
  · subst hy
    rw [Table.streams_set_self] at hnone
    exact absurd hnone ho
  · rw [Table.streams_set_of_ne hy] at hnone
    have hmem' : .opened y k ∈ log := by
      refine (List.mem_append.mp hmem).resolve_right fun heq => hy (hnew y k ?_)
      exact (List.mem_singleton.mp heq).symm
    rw [ledger_append, List.foldl_cons, he y hy]
    exact h y k hmem' hnone

/-- A new stream is open. -/
theorem Complete.add (h : Complete log T) (x : κ) (k : Stream) :
    Complete (log ++ [.opened x k]) (T.add x k) :=
  h.at (fun _ hy _ => if_neg (Ne.symm hy)) (fun _ _ heq => (Traffic.opened.inj heq).1.symm) nofun

omit [DecidableEq κ] in
/-- A changed stream is still there. -/
theorem map_ne_none {f : Stream → Stream} (hopen : T.Open x) : (T.streams x).map f ≠ none := by
  obtain ⟨k, hk⟩ := hopen
  rw [hk]
  nofun

/-- Bytes arrive for an open stream. -/
theorem Complete.arrive (h : Complete log T) (hopen : T.Open x) (data : List UInt8) :
    Complete (log ++ [.arrived x data]) (T.change x fun k => { k with inbox := k.inbox ++ data }) :=
  h.at (fun _ hy _ => if_neg (Ne.symm hy)) (fun _ _ heq => by cases heq) (map_ne_none hopen)

/-- The other side of an open stream closes. -/
theorem Complete.hangUp (h : Complete log T) (hopen : T.Open x) :
    Complete (log ++ [.ended x]) (T.change x fun k => { k with closed := true }) :=
  h.at (fun _ hy _ => if_neg (Ne.symm hy)) (fun _ _ heq => by cases heq) (map_ne_none hopen)

/-- Bytes of an open stream are received. -/
theorem Complete.receive (h : Complete log T) (hopen : T.Open x) (chunk : List UInt8) :
    Complete (log ++ [.received x chunk]) (T.receive x chunk.length) :=
  h.at (fun _ hy _ => if_neg (Ne.symm hy)) (fun _ _ heq => by cases heq) (map_ne_none hopen)

/-- A stream is closed that the other side has closed and of which nothing is left. -/
theorem Complete.remove (h : Complete log T) (htracked : Tracked log T) (hk : T.streams x = some k)
    (hinbox : k.inbox = []) (hclosed : k.closed = true) : Complete log (T.remove x) := by
  intro y k' hmem hnone
  by_cases hy : y = x
  · subst hy
    obtain ⟨-, harrived, hended⟩ := htracked y k hk
    rw [hinbox, List.append_nil] at harrived
    exact ⟨harrived.symm, hended.trans hclosed⟩
  · rw [Table.remove, Table.streams_set_of_ne hy] at hnone
    exact h y k' hmem hnone

/-! ## Calls -/

/-- What a call returns that receives: bytes, that there are none yet, that there will be none, or
that it has failed. -/
inductive Recv
  | data (chunk : List UInt8)
  | again
  | ended
  | failed
  deriving DecidableEq, Repr

/-- What a call for at most `limit` bytes can return. -/
def Table.Returns (T : Table κ) (x : κ) (limit : Nat) : Recv → Prop
  | .data chunk => chunk ≠ [] ∧ chunk.length ≤ limit ∧ ∃ k ∈ T.streams x, chunk <+: k.inbox
  | .again => ∃ k ∈ T.streams x, k.inbox = [] ∧ k.closed = false
  | .ended => ∃ k ∈ T.streams x, k.inbox = [] ∧ k.closed = true
  | .failed => True

instance (x : κ) (limit : Nat) (r : Recv) : Decidable (T.Returns x limit r) := by
  cases r <;> unfold Table.Returns <;> infer_instance

omit [DecidableEq κ] in
/-- The bytes that `recv` returns are the first ones of the stream. -/
theorem Table.Returns.prefix_of_data {limit : Nat} {chunk : List UInt8}
    (h : T.Returns x limit (.data chunk)) (k : Stream) (hk : T.streams x = some k) :
    chunk <+: k.inbox := by
  obtain ⟨-, -, k', hk', hprefix⟩ := h
  obtain rfl := Option.some.inj (hk.symm.trans hk')
  exact hprefix

omit [DecidableEq κ] in
/-- `recv` returns bytes of an open stream only. -/
theorem Table.Returns.open_of_data {limit : Nat} {chunk : List UInt8}
    (h : T.Returns x limit (.data chunk)) : T.Open x := by
  obtain ⟨-, -, k, hk, -⟩ := h
  exact ⟨k, hk⟩

end Ledgers

end Lib.Readiness
