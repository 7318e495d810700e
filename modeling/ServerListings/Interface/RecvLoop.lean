import ServerListings.Model.RecvLoop

/-!
# What the receiving loop does to a table

The loop leaves the other streams as they are. It ends with a stream of which everything was
received, or which it has closed. It closes a stream that the other side has closed and nothing is
left of, unless a `recv` fails.
-/

set_option autoImplicit false

namespace ServerListings.Interface.RecvLoop

open Lib.Readiness ServerListings.Model

section Loops

variable {β ε : Type} {fd : Int} {got : List UInt8 → β → List ε} {limit : Nat}
  {b b' : Int → Prop}

/-- A stream without anything to receive is done with. -/
theorem recvLoop_edge (rs : List (Recv × β)) : ∀ T : Table Int, Drains limit fd (rs.map Prod.fst) T →
    T.Edge b → (∀ y, y ≠ fd → b y → b' y) → (recvLoop fd got rs T).1.Edge b' := by
  induction rs with
  | nil => exact fun _ hdrains => hdrains.elim
  | cons p rs ih =>
    intro T hdrains h hb
    obtain ⟨r, v⟩ := p
    cases r with
    | data chunk => exact ih _ hdrains.2 (h.receive chunk.length) hb
    | again =>
      obtain ⟨⟨k, hk, hinbox, hclosed⟩, -⟩ := hdrains
      refine h.done (fun k' hk' => ?_) hb
      obtain rfl := Option.some.inj (hk.symm.trans hk')
      exact Stream.readable_eq_false.mpr ⟨hinbox, hclosed⟩
    | ended => exact ih _ hdrains.2 (h.remove fun _ _ hy => hy) hb
    | failed => exact h.remove hb

/-- The other streams stay as they are. -/
theorem recvLoop_streams_of_ne {x : Int} (hx : x ≠ fd) (rs : List (Recv × β)) :
    ∀ T : Table Int, (recvLoop fd got rs T).1.streams x = T.streams x := by
  induction rs with
  | nil => exact fun T => rfl
  | cons p rs ih =>
    intro T
    obtain ⟨r, v⟩ := p
    cases r with
    | data chunk => exact (ih _).trans (Table.streams_set_of_ne hx)
    | again => rfl
    | ended => exact (ih _).trans (Table.streams_set_of_ne hx)
    | failed => exact Table.streams_set_of_ne hx

/-- The loop opens nothing. -/
theorem recvLoop_open (rs : List (Recv × β)) : ∀ T : Table Int, (recvLoop fd got rs T).1.Open fd →
    T.Open fd := by
  induction rs with
  | nil => exact fun T => id
  | cons p rs ih =>
    intro T hopen
    obtain ⟨r, v⟩ := p
    cases r with
    | data chunk => exact (Table.open_set_map _).mp (ih _ hopen)
    | again => exact hopen
    | ended => exact absurd (ih _ hopen) Table.not_open_remove
    | failed => exact absurd hopen Table.not_open_remove

/-- What is kept by the log for the bytes of one `recv`. -/
theorem recvLoop_log {P : List ε → Prop} (hnil : P []) (rs : List (Recv × β)) :
    (∀ chunk v es, (.data chunk, v) ∈ rs → P es → P (got chunk v ++ es)) →
      ∀ T : Table Int, P (recvLoop fd got rs T).2 := by
  induction rs with
  | nil => exact fun _ _ => hnil
  | cons p rs ih =>
    intro hgot T
    have hrest := ih fun chunk v es hmem => hgot chunk v es (List.mem_cons_of_mem p hmem)
    obtain ⟨r, v⟩ := p
    cases r with
    | data chunk => exact hgot chunk v _ List.mem_cons_self (hrest _)
    | again => exact hnil
    | ended => exact hrest _
    | failed => exact hnil

variable {traffic : ε → Option (Traffic Int)} {log : List (Traffic Int)}

/-- The log of the loop is of the bytes that it received. -/
theorem recvLoop_tracked (hgot : ∀ chunk v, (got chunk v).filterMap traffic = [.received fd chunk])
    (rs : List (Recv × β)) : ∀ (T : Table Int) (log : List (Traffic Int)),
    Drains limit fd (rs.map Prod.fst) T → Tracked log T →
      Tracked (log ++ (recvLoop fd got rs T).2.filterMap traffic) (recvLoop fd got rs T).1 := by
  induction rs with
  | nil => exact fun _ _ hdrains => hdrains.elim
  | cons p rs ih =>
    intro T log hdrains h
    obtain ⟨r, v⟩ := p
    cases r with
    | data chunk =>
      rw [recvLoop, List.filterMap_append, hgot, ← List.append_assoc]
      exact ih _ _ hdrains.2 (h.receive hdrains.1.prefix_of_data)
    | again => exact (List.append_nil log).symm ▸ h
    | ended => exact ih _ _ hdrains.2 (h.remove fd)
    | failed => exact (List.append_nil log).symm ▸ h.remove fd

/-- After the loop has closed the stream, nothing more is received. -/
theorem recvLoop_closed (rs : List (Recv × β)) : ∀ T : Table Int,
    Drains limit fd (rs.map Prod.fst) T → ¬ T.Open fd → recvLoop fd got rs T = (T.remove fd, []) := by
  induction rs with
  | nil => exact fun _ hdrains => hdrains.elim
  | cons p rs ih =>
    intro T hdrains hopen
    obtain ⟨r, v⟩ := p
    cases r with
    | data chunk => exact absurd hdrains.1.open_of_data hopen
    | again =>
      obtain ⟨⟨k, hk, -⟩, -⟩ := hdrains
      exact absurd ⟨k, hk⟩ hopen
    | ended =>
      obtain ⟨⟨k, hk, -⟩, -⟩ := hdrains
      exact absurd ⟨k, hk⟩ hopen
    | failed => rfl

/-- If no `recv` of the open connection fails, it is only closed when nothing is left. -/
theorem recvLoop_complete (hgot : ∀ chunk v, (got chunk v).filterMap traffic = [.received fd chunk])
    (rs : List (Recv × β)) : ∀ (T : Table Int) (log : List (Traffic Int)),
    Drains limit fd (rs.map Prod.fst) T → fails (rs.map Prod.fst) = false → Tracked log T →
      Complete log T →
      Complete (log ++ (recvLoop fd got rs T).2.filterMap traffic) (recvLoop fd got rs T).1 := by
  induction rs with
  | nil => exact fun _ _ hdrains => hdrains.elim
  | cons p rs ih =>
    intro T log hdrains hfails htracked h
    obtain ⟨r, v⟩ := p
    cases r with
    | data chunk =>
      rw [recvLoop, List.filterMap_append, hgot, ← List.append_assoc]
      exact ih _ _ hdrains.2 hfails (htracked.receive hdrains.1.prefix_of_data)
        (h.receive hdrains.1.open_of_data chunk)
    | again => exact (List.append_nil log).symm ▸ h
    | ended =>
      obtain ⟨⟨k, hk, hinbox, hclosed⟩, hrest⟩ := hdrains
      have hremoved := h.remove htracked hk hinbox hclosed
      rw [recvLoop, recvLoop_closed rs _ hrest Table.not_open_remove, List.filterMap_nil, List.append_nil]
      have hsame : (T.remove fd).remove fd = T.remove fd := by
        simp only [Table.remove, Table.set, Function.update_idem]
      rw [hsame]
      exact hremoved
    | failed => cases hfails

end Loops

end ServerListings.Interface.RecvLoop
