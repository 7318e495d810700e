import Mathlib.Data.List.Induction
import ServerListings.Lib.CMem

/-!
# A buffer that is written from its start again and again

Each chunk is written over the start of the buffer, and the buffer is not cleared in between.
So at each place there is the byte of the last chunk that was long enough, and the C string in
the buffer is the last chunk only if there is a NUL behind it.
-/

set_option autoImplicit false

namespace Lib.Overlay

open Lib.CMem

/-- The buffer after a chunk was written over its start. -/
def write (buf chunk : List UInt8) : List UInt8 := chunk ++ buf.drop chunk.length

/-- A cleared buffer of `n` bytes after all the chunks. -/
def overlay (n : Nat) (chunks : List (List UInt8)) : List UInt8 :=
  chunks.foldl write (List.replicate n 0)

/-- The byte at a place: that of the last chunk that reaches it. -/
def left (chunks : List (List UInt8)) (i : Nat) : UInt8 :=
  ((chunks.filter fun c => decide (i < c.length)).getLast?.bind fun b => b[i]?).getD 0

variable {n i : Nat} {chunks : List (List UInt8)} {chunk buf : List UInt8}

/-- The last chunk is written last. -/
theorem overlay_concat (n : Nat) (chunks : List (List UInt8)) (chunk : List UInt8) :
    overlay n (chunks ++ [chunk]) = write (overlay n chunks) chunk := by
  rw [overlay, List.foldl_append]
  rfl

/-- Writing leaves the length of the buffer. -/
theorem length_write (h : chunk.length ≤ buf.length) : (write buf chunk).length = buf.length := by
  rw [write, List.length_append, List.length_drop]
  omega

/-- What is in the buffer. -/
theorem getElem?_overlay (h : ∀ c ∈ chunks, c.length ≤ n) (hi : i < n) :
    (overlay n chunks)[i]? = some (left chunks i) := by
  induction chunks using List.reverseRecOn with
  | nil =>
    show (List.replicate n (0 : UInt8))[i]? = _
    rw [List.getElem?_replicate, if_pos hi]
    rfl
  | append_singleton chunks c ih =>
    rw [overlay_concat, write, left, List.filter_append]
    by_cases hc : i < c.length
    · rw [List.getElem?_append_left hc]
      simp [hc]
    · rw [List.getElem?_append_right (by omega), List.getElem?_drop, Nat.add_sub_cancel' (by omega),
        ih fun d hd => h d (List.mem_append_left _ hd)]
      simp [hc, left]

/-- The C string in the buffer is that of the last chunk if there is a NUL in it or behind it. -/
theorem cstr_overlay_concat (h : ∀ c ∈ chunks, c.length ≤ n) (hlen : chunk.length < n) :
    cstr (overlay n (chunks ++ [chunk])) = cstr chunk ↔ 0 ∈ chunk ∨ left chunks chunk.length = 0 := by
  have hbyte := getElem?_overlay h hlen
  obtain ⟨hlt, hget⟩ := List.getElem?_eq_some_iff.mp hbyte
  rw [overlay_concat, write, List.drop_eq_getElem_cons hlt, hget]
  generalize left chunks chunk.length = b
  by_cases hmem : (0 : UInt8) ∈ chunk
  · refine iff_of_true ?_ (.inl hmem)
    obtain ⟨pre, post, rfl⟩ := List.append_of_mem hmem
    rw [List.append_assoc, List.cons_append, cstr_append_zero, cstr_append_zero]
  · have hchunk : ∀ a ∈ chunk, decide (a ≠ 0) = true := by
      intro a ha
      rw [decide_eq_true_eq]
      rintro rfl
      exact hmem ha
    have hcstr : cstr (chunk ++ b :: (overlay n chunks).drop (chunk.length + 1)) =
        chunk ++ cstr (b :: (overlay n chunks).drop (chunk.length + 1)) :=
      List.takeWhile_append_of_pos hchunk
    rw [hcstr, cstr_of_notMem hmem, List.append_right_eq_self]
    by_cases hb : b = 0
    · simp [hb, cstr]
    · simp [hb, hmem, cstr]

end Lib.Overlay
