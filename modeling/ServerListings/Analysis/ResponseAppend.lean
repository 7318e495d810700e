import ServerListings.Interface.ReplyText

/-!
# Every text is appended whole or not at all

Three bounds meet in `add_response`: the index against the size of the buffer, the size that
is left for `vsnprintf`, and the length `vsnprintf` returns against that size. Together they
keep the index two below the size of the buffer, one byte for the terminator of `vsnprintf`
and one that is never used. A call that fails may leave a truncated text behind the index,
where the next call writes again.
-/

set_option autoImplicit false

namespace ServerListings.Analysis.ResponseAppend

open Lib.CMem ServerListings.Model.Http ServerListings.Interface

/-- The calls of `add_response` with `texts`, one after the other, and what each returned. -/
def addResponses (c : HttpConn) : List (List UInt8) → Checked (List Bool × HttpConn)
  | [] => pure ([], c)
  | text :: texts => do
    let (ok, c) ← c.addResponse text
    let (oks, c) ← addResponses c texts
    pure (ok :: oks, c)

/-- The texts whose call returned true, in the order of the calls. -/
def accepted : List (List UInt8) → List Bool → List UInt8
  | text :: texts, ok :: oks => (if ok then text else []) ++ accepted texts oks
  | _, _ => []

/-- What the write buffer holds between two calls. -/
structure Filled (c : HttpConn) (s : List UInt8) : Prop where
  written : Written c s
  bound : s.length ≤ writeBufferSize - 2

/-- An empty write buffer is filled with nothing. -/
theorem filled_init {c : HttpConn} (hidx : c.mWriteIdx = 0)
    (hlen : c.mWriteBuf.length = writeBufferSize) : Filled c [] :=
  ⟨⟨hidx, rfl, hlen⟩, Nat.zero_le _⟩

/-- One call keeps the bound: what it appends has passed the comparison with the size. -/
theorem addResponse_filled {c : HttpConn} {s : List UInt8} (h : Filled c s) (text : List UInt8) :
    ∃ ok c', c.addResponse text = .ok (ok, c') ∧ SameReply c c' ∧
      Filled c' (if ok then s ++ text else s) ∧
      (ok = true ↔ s.length + text.length ≤ writeBufferSize - 2) := by
  obtain ⟨ok, c', hadd, hsame, hw, hok⟩ := addResponse_written h.written text
  have hlimit : writeBufferSize = 1024 := rfl
  refine ⟨ok, c', hadd, hsame, ⟨hw, ?_⟩, by rw [hok]; omega⟩
  cases ok with
  | false => exact h.bound
  | true =>
    have hfits := hok.mp rfl
    rw [if_pos rfl, List.length_append]
    omega

/-- The calls append to what was there: induction on the texts, with the text in the buffer
as the invariant. -/
theorem addResponses_filled (texts : List (List UInt8)) : ∀ {c : HttpConn} {s : List UInt8},
    Filled c s → ∃ oks c', addResponses c texts = .ok (oks, c') ∧ SameReply c c' ∧
      oks.length = texts.length ∧ Filled c' (s ++ accepted texts oks) := by
  induction texts with
  | nil =>
    intro c s h
    exact ⟨[], c, rfl, SameReply.refl c, rfl, by simpa [accepted] using h⟩
  | cons text texts ih =>
    intro c s h
    obtain ⟨ok, c₁, hadd, hsame₁, hfilled₁, -⟩ := addResponse_filled h text
    obtain ⟨oks, c₂, hadds, hsame₂, hlength, hfilled₂⟩ := ih hfilled₁
    refine ⟨ok :: oks, c₂, ?_, hsame₁.trans hsame₂, by rw [List.length_cons, hlength]; rfl, ?_⟩
    · rw [addResponses, hadd, ok_bind]
      simp only [hadds, ok_bind]
      rfl
    · have hgrown : (if ok then s ++ text else s) ++ accepted texts oks =
          s ++ accepted (text :: texts) (ok :: oks) := by
        cases ok <;> simp [accepted]
      rwa [hgrown] at hfilled₂

/-- After any calls that started with an empty buffer, and for one call more: no store leaves
the buffer, the size that `vsnprintf` gets is not negative, the index is at most two below
the size of the buffer, and the bytes below it are the texts whose call returned true. The
call returns true exactly when its text keeps that bound, and otherwise changes neither the
index nor the bytes below it. -/
theorem addResponses_whole (c : HttpConn) (hidx : c.mWriteIdx = 0)
    (hlen : c.mWriteBuf.length = writeBufferSize) (texts : List (List UInt8)) (text : List UInt8) :
    ∃ oks c₁ ok c₂, addResponses c texts = .ok (oks, c₁) ∧ oks.length = texts.length ∧
      SameReply c c₁ ∧ c₁.mWriteBuf.length = writeBufferSize ∧
      c₁.mWriteIdx ≤ writeBufferSize - 2 ∧ 0 ≤ (writeBufferSize : Int) - 1 - c₁.mWriteIdx ∧
      c₁.mWriteBuf.take c₁.mWriteIdx = accepted texts oks ∧
      c₁.addResponse text = .ok (ok, c₂) ∧ SameReply c₁ c₂ ∧
      c₂.mWriteBuf.length = writeBufferSize ∧
      (ok = true ↔ c₁.mWriteIdx + text.length ≤ writeBufferSize - 2) ∧
      (ok = true → c₂.mWriteIdx = c₁.mWriteIdx + text.length ∧
        c₂.mWriteBuf.take c₂.mWriteIdx = accepted texts oks ++ text) ∧
      (ok = false → c₂.mWriteIdx = c₁.mWriteIdx ∧
        c₂.mWriteBuf.take c₂.mWriteIdx = accepted texts oks) := by
  obtain ⟨oks, c₁, hadds, hsame₁, hlength, hfilled₁⟩ := addResponses_filled texts (filled_init hidx hlen)
  rw [List.nil_append] at hfilled₁
  obtain ⟨ok, c₂, hadd, hsame₂, hfilled₂, hok⟩ := addResponse_filled hfilled₁ text
  have hw₁ := hfilled₁.written
  have hw₂ := hfilled₂.written
  have hbound : c₁.mWriteIdx ≤ writeBufferSize - 2 := by
    rw [hw₁.writeIdx]
    exact hfilled₁.bound
  have hlimit : writeBufferSize = 1024 := rfl
  refine ⟨oks, c₁, ok, c₂, hadds, hlength, hsame₁, hw₁.length, hbound, by omega, hw₁.header, hadd,
    hsame₂, hw₂.length, by rw [hok, hw₁.writeIdx], ?_, ?_⟩
  · rintro rfl
    refine ⟨?_, hw₂.header⟩
    rw [hw₂.writeIdx, hw₁.writeIdx, if_pos rfl, List.length_append]
  · rintro rfl
    exact ⟨hw₂.writeIdx.trans hw₁.writeIdx.symm, hw₂.header⟩

/-- A status line that fits, a text of the whole size of the buffer, and a text that ends
exactly at the bound. -/
theorem addResponses_whole_limit :
    ∃ oks c₁ ok c₂, addResponses (default : HttpConn).init
        [bytes "HTTP/1.1 200 OK\r\n", List.replicate writeBufferSize 65] = .ok (oks, c₁) ∧
      oks.length = 2 ∧ c₁.mWriteIdx ≤ writeBufferSize - 2 ∧
      c₁.addResponse (List.replicate (writeBufferSize - 2 - 17) 65) = .ok (ok, c₂) := by
  obtain ⟨oks, c₁, ok, c₂, hadds, hlength, -, -, hbound, -, -, hadd, -⟩ :=
    addResponses_whole (default : HttpConn).init rfl List.length_replicate
      [bytes "HTTP/1.1 200 OK\r\n", List.replicate writeBufferSize 65]
      (List.replicate (writeBufferSize - 2 - 17) 65)
  exact ⟨oks, c₁, ok, c₂, hadds, hlength, hbound, hadd⟩

end ServerListings.Analysis.ResponseAppend
