import ServerListings.Model.HttpIo

/-!
# Requests that fill the read buffer

`read` calls `recv` until there is no data, each time with the room that is left. A `recv` into
no room returns 0, which `read` takes for the end of the stream. So the bytes of a connection
are read in any number of calls and portions as long as they leave room in the buffer, and the
call that fills it returns `false`.
-/

set_option autoImplicit false

namespace ServerListings.Analysis.FullBuffer

open Lib.CMem ServerListings.Model ServerListings.Model.Http

/-- The results of `recv` in a call of `read`, when the portions are what there is to read and
the peer has not closed its side: after them, -1 with `EAGAIN`, or 0 if there is no room. -/
def results (room : Nat) (portions : List (List UInt8)) : List RecvResult :=
  portions.map .data ++ [if portions.flatten.length < room then .eagain else .eof]

/-- The bytes `got` are what the read buffer holds. -/
structure Holds (c : HttpConn) (got : List UInt8) : Prop where
  size : c.mReadBuf.length = readBufferSize
  index : c.mReadIdx = got.length
  le : c.mReadIdx ≤ readBufferSize
  content : c.mReadBuf.take c.mReadIdx = got

/-- The bytes `got` are in the buffer, and each of the calls of `read`, with what there is to
read for it, returns `true` and keeps what it has received. -/
def KeepsAll (c : HttpConn) (got : List UInt8) : List (List (List UInt8)) → Prop
  | [] => Holds c got
  | portions :: calls => Holds c got ∧
      ∃ c', c.read (results (readBufferSize - c.mReadIdx) portions) = .ok (true, c') ∧
        KeepsAll c' (got ++ portions.flatten) calls

section Reading

variable {c : HttpConn} {got data : List UInt8} {portions : List (List UInt8)}
  {calls : List (List (List UInt8))}

/-- What fits is held behind what was held. -/
theorem Holds.receive (h : Holds c got) (hfit : got.length + data.length ≤ readBufferSize) :
    ∃ c', c.receive data = .ok c' ∧ Holds c' (got ++ data) := by
  have hsize := h.size
  have hindex := h.index
  have hcontent := h.content
  have hcopy : copyIn c.mReadBuf c.mReadIdx data =
      .ok (got ++ data ++ c.mReadBuf.drop (c.mReadIdx + data.length)) := by
    rw [copyIn, if_pos (by omega), hcontent]
  have hlen : c.mReadIdx + data.length = (got ++ data).length := by
    rw [List.length_append, hindex]
  refine ⟨_, HttpConn.receive_of_copyIn hcopy, ?_, hlen, ?_, ?_⟩
  · show (got ++ data ++ c.mReadBuf.drop (c.mReadIdx + data.length)).length = readBufferSize
    rw [List.length_append, ← hlen, List.length_drop]
    omega
  · show c.mReadIdx + data.length ≤ readBufferSize
    omega
  · show (got ++ data ++ c.mReadBuf.drop (c.mReadIdx + data.length)).take (c.mReadIdx + data.length) = _
    rw [hlen, List.take_left]

/-- The loop of `read` comes to the last result with everything received. -/
theorem readData_portions (last : RecvResult) : ∀ {c : HttpConn} {got : List UInt8}, Holds c got →
    (∀ p ∈ portions, p ≠ []) → got.length + portions.flatten.length ≤ readBufferSize →
    ∃ c', c.readData (portions.map .data ++ [last]) = c'.readData [last] ∧
      Holds c' (got ++ portions.flatten) := by
  induction portions with
  | nil =>
    intro c got h _ _
    refine ⟨c, rfl, ?_⟩
    rw [List.flatten_nil, List.append_nil]
    exact h
  | cons p portions ih =>
    intro c got h hne hfit
    rw [List.flatten_cons, List.length_append] at hfit
    have hpos := List.length_pos_iff.mpr (hne p List.mem_cons_self)
    have hindex := h.index
    have htake : p.take (readBufferSize - c.mReadIdx) = p := List.take_of_length_le (by omega)
    have hroom : got.length + p.length ≤ readBufferSize := by omega
    obtain ⟨c₁, hreceive, h₁⟩ := h.receive hroom
    obtain ⟨c', hrest, h'⟩ := ih h₁ (fun q hq => hne q (List.mem_cons_of_mem _ hq))
      (by rw [List.length_append]; omega)
    refine ⟨c', ?_, ?_⟩
    · rw [List.map_cons, List.cons_append, HttpConn.readData]
      simp only [htake]
      rw [if_neg (by omega), hreceive, ok_bind]
      exact hrest
    · rw [List.flatten_cons, ← List.append_assoc]
      exact h'

/-- One call of `read`: it returns `true` exactly if the bytes leave room. -/
theorem read_results (h : Holds c got) (hroom : got.length < readBufferSize)
    (hne : ∀ p ∈ portions, p ≠ [])
    (hfit : got.length + portions.flatten.length ≤ readBufferSize) :
    ∃ c', c.read (results (readBufferSize - c.mReadIdx) portions) =
        .ok (decide (got.length + portions.flatten.length < readBufferSize), c') ∧
      Holds c' (got ++ portions.flatten) := by
  have hindex := h.index
  obtain ⟨c', hread, h'⟩ := readData_portions
    (if portions.flatten.length < readBufferSize - c.mReadIdx then .eagain else .eof) h hne hfit
  refine ⟨c', ?_, h'⟩
  rw [HttpConn.read, if_neg (by omega), results, hread]
  by_cases hleft : portions.flatten.length < readBufferSize - c.mReadIdx
  · rw [if_pos hleft, decide_eq_true (by omega)]
    rfl
  · rw [if_neg hleft, decide_eq_false (by omega)]
    rfl

/-- The calls of `read` after `got` was received. -/
theorem keepsAll_iff (calls : List (List (List UInt8))) : ∀ {c : HttpConn} {got : List UInt8},
    Holds c got → got.length < readBufferSize → (∀ portions ∈ calls, ∀ p ∈ portions, p ≠ []) →
    got.length + calls.flatten.flatten.length ≤ readBufferSize →
    (KeepsAll c got calls ↔ got.length + calls.flatten.flatten.length < readBufferSize) := by
  induction calls with
  | nil =>
    intro c got h hroom _ _
    exact iff_of_true h hroom
  | cons portions calls ih =>
    intro c got h hroom hne hfit
    rw [List.flatten_cons, List.flatten_append, List.length_append] at hfit ⊢
    obtain ⟨c', hread, h'⟩ := read_results h hroom (hne portions List.mem_cons_self) (by omega)
    have hlen : (got ++ portions.flatten).length = got.length + portions.flatten.length :=
      List.length_append
    by_cases hleft : got.length + portions.flatten.length < readBufferSize
    · rw [decide_eq_true hleft] at hread
      have hrest := ih h' (by omega) (fun q hq => hne q (List.mem_cons_of_mem _ hq)) (by omega)
      rw [hlen, Nat.add_assoc] at hrest
      rw [← hrest]
      constructor
      · rintro ⟨-, c₁, hread₁, hkeeps⟩
        obtain ⟨-, rfl⟩ := results_unique hread hread₁
        exact hkeeps
      · intro hkeeps
        exact ⟨h, c', hread, hkeeps⟩
    · rw [decide_eq_false hleft] at hread
      refine iff_of_false ?_ (by omega)
      rintro ⟨-, c₁, hread₁, -⟩
      obtain ⟨hfalse, -⟩ := results_unique hread hread₁
      cases hfalse

/-- After `init` nothing is held. -/
theorem holds_init (c : HttpConn) : Holds c.init [] :=
  ⟨List.length_replicate, rfl, Nat.zero_le _, rfl⟩

/-- Bytes that fit into the buffer, in any portions over any number of calls of `read` after
`init`: each call returns `true` and keeps all that was received exactly if the bytes do not
fill the buffer. -/
theorem reads_kept_iff (c : HttpConn) (calls : List (List (List UInt8)))
    (hne : ∀ portions ∈ calls, ∀ p ∈ portions, p ≠ [])
    (hfit : calls.flatten.flatten.length ≤ readBufferSize) :
    KeepsAll c.init [] calls ↔ calls.flatten.flatten.length < readBufferSize := by
  have hiff := keepsAll_iff calls (holds_init c) (by decide) hne (by simpa using hfit)
  rwa [List.length_nil, Nat.zero_add] at hiff

/-- Two portions in one call, and another one later. -/
theorem reads_kept_iff_three : KeepsAll (HttpConn.init default) [] [[[71, 69], [84]], [], [[32]]] :=
  (reads_kept_iff default [[[71, 69], [84]], [], [[32]]] (by decide) (by decide)).mpr (by decide)

/-- A request of 2048 bytes, all there when `read` is called. -/
theorem full_buffer_refused :
    ¬ ∀ calls : List (List (List UInt8)), (∀ portions ∈ calls, ∀ p ∈ portions, p ≠ []) →
      calls.flatten.flatten.length ≤ readBufferSize → KeepsAll (HttpConn.init default) [] calls := by
  intro hall
  have hlen : ([[List.replicate readBufferSize 71]] : List (List (List UInt8))).flatten.flatten.length =
      readBufferSize := by
    simp
  have hne : ∀ portions ∈ ([[List.replicate readBufferSize 71]] : List (List (List UInt8))),
      ∀ p ∈ portions, p ≠ [] := by
    intro portions hportions p hp
    rw [List.mem_singleton.mp hportions] at hp
    rw [List.mem_singleton.mp hp]
    exact List.ne_nil_of_length_pos (by rw [List.length_replicate]; decide)
  have hkeeps := hall [[List.replicate readBufferSize 71]] hne hlen.le
  have hiff := keepsAll_iff [[List.replicate readBufferSize 71]] (holds_init default) (by decide) hne
    (by rw [hlen]; decide)
  rw [hlen] at hiff
  exact absurd (hiff.mp hkeeps) (by decide)

end Reading

end ServerListings.Analysis.FullBuffer
