import ServerListings.Lib.CMem

/-!
# Arrays with a terminator

An array of `n + 1` bytes whose last byte is NUL. A string read from any of its subscripts
stays inside it, whatever the other bytes are, and so do the string functions; this is what
makes them safe on a buffer that is cleared first and never filled up.
-/

set_option autoImplicit false

namespace Lib.CMem

/-- The array has `n + 1` bytes, and the last one is NUL. -/
structure Terminated (n : Nat) (m : List UInt8) : Prop where
  length : m.length = n + 1
  last : m[n]? = some 0

variable {n : Nat} {m : List UInt8}

/-- Memory of zeros only is terminated. -/
theorem terminated_zeros (n : Nat) : Terminated n (List.replicate (n + 1) 0) :=
  ⟨by simp, by simp⟩

/-- Storing a NUL anywhere keeps the terminator. -/
theorem Terminated.set (h : Terminated n m) (i : Nat) : Terminated n (m.set i 0) := by
  refine ⟨by rw [List.length_set, h.length], ?_⟩
  by_cases hi : i = n
  · have hn : n < m.length := by
      rw [h.length]
      omega
    rw [hi, List.getElem?_set_self hn]
  · rw [List.getElem?_set_ne hi, h.last]

/-- Copying bytes that end before the terminator keeps it. -/
theorem Terminated.copyIn (h : Terminated n m) (i : Nat) (data : List UInt8)
    (hfit : i + data.length ≤ n) : ∃ m', copyIn m i data = .ok m' ∧ Terminated n m' := by
  have hi : i + data.length ≤ m.length := by
    rw [h.length]
    omega
  have hpre : (m.take i ++ data).length = i + data.length := by
    rw [List.length_append, List.length_take_of_le (by omega)]
  refine ⟨_, by rw [CMem.copyIn, if_pos hi], ?_, ?_⟩
  · rw [List.length_append, hpre, List.length_drop, h.length]
    omega
  · rw [List.getElem?_append_right (by omega), hpre, List.getElem?_drop,
      Nat.add_sub_cancel' hfit, h.last]

/-- Up to the terminator every byte can be loaded. -/
theorem Terminated.load (h : Terminated n m) {i : Nat} (hi : i ≤ n) : ∃ b, load m i = .ok b :=
  ⟨_, load_of_lt (by rw [h.length]; omega)⟩

/-- Up to the terminator a zero can be stored. -/
theorem Terminated.store (h : Terminated n m) {i : Nat} (hi : i ≤ n) :
    store m i 0 = .ok (m.set i 0) :=
  store_of_lt 0 (by rw [h.length]; omega)

/-- The string at a subscript ends at the terminator at the latest. -/
theorem Terminated.fetch (h : Terminated n m) {p : Nat} (hp : p ≤ n) :
    ∃ s, fetch m p = .ok s ∧ p + s.length ≤ n := by
  have hlen : n < m.length := by
    rw [h.length]
    omega
  have hlast : m[n] = 0 := by
    have hl := h.last
    rw [List.getElem?_eq_getElem hlen] at hl
    exact Option.some.inj hl
  have hsplit : m = m.take p ++ ((m.drop p).take (n - p) ++ 0 :: m.drop (n + 1)) := by
    have hdrop : (m.drop p).drop (n - p) = 0 :: m.drop (n + 1) := by
      rw [List.drop_drop, Nat.add_sub_cancel' hp, List.drop_eq_getElem_cons hlen, hlast]
    rw [← hdrop, List.take_append_drop, List.take_append_drop]
  refine ⟨cstr ((m.drop p).take (n - p)), ?_, ?_⟩
  · have hf : CMem.fetch (m.take p ++ ((m.drop p).take (n - p) ++ 0 :: m.drop (n + 1))) p =
        .ok (cstr ((m.drop p).take (n - p))) :=
      fetch_append (by rw [List.length_take_of_le (by omega)])
    rwa [← hsplit] at hf
  · have hcstr := length_cstr_le ((m.drop p).take (n - p))
    rw [List.length_take] at hcstr
    omega

/-- A byte that `strpbrk` finds lies before the terminator. -/
theorem Terminated.strpbrk (h : Terminated n m) {p : Nat} (accept : List UInt8) (hp : p ≤ n) :
    ∃ r, strpbrk m p accept = .ok r ∧ ∀ q, r = some q → p ≤ q ∧ q < n := by
  obtain ⟨s, hs, hlen⟩ := h.fetch hp
  refine ⟨(s.findIdx? (· ∈ accept)).map (p + ·), by rw [CMem.strpbrk, hs]; rfl, ?_⟩
  intro q hq
  obtain ⟨i, hi, rfl⟩ := Option.map_eq_some_iff.mp hq
  have hlt := (List.findIdx?_eq_some_iff_findIdx_eq.mp hi).1
  omega

/-- `strspn` stays in terminated memory. -/
theorem Terminated.strspn (h : Terminated n m) {p : Nat} (accept : List UInt8) (hp : p ≤ n) :
    ∃ k, strspn m p accept = .ok k ∧ p + k ≤ n := by
  obtain ⟨s, hs, hlen⟩ := h.fetch hp
  refine ⟨_, strspn_of_fetch hs, ?_⟩
  have hinit := (List.takeWhile_prefix (l := s) fun x => decide (x ∈ accept)).length_le
  omega

/-- `strcasecmp` stays in terminated memory. -/
theorem Terminated.strcasecmp (h : Terminated n m) {p : Nat} (lit : List UInt8) (hp : p ≤ n) :
    ∃ b, strcasecmp m p lit = .ok b := by
  obtain ⟨s, hs, -⟩ := h.fetch hp
  exact ⟨_, strcasecmp_of_fetch hs⟩

/-- A literal that is found at a subscript ends before the terminator. -/
theorem Terminated.strncasecmp (h : Terminated n m) {p : Nat} (lit : List UInt8) (hp : p ≤ n) :
    ∃ b, strncasecmp m p lit = .ok b ∧ (b = true → p + lit.length ≤ n) := by
  obtain ⟨s, hs, hlen⟩ := h.fetch hp
  refine ⟨_, strncasecmp_of_fetch hs, ?_⟩
  intro hb
  have heq := length_of_eqIgnoreCase hb
  rw [List.length_take] at heq
  omega

end Lib.CMem
