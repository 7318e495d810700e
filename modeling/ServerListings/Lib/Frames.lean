import ServerListings.Lib.Terminated

/-!
# Accesses to a part of the memory

What an access to the bytes `m` finds or stores, it finds or stores in `pre ++ (m ++ post)` too,
at a place that is `pre.length` greater. So a computation that has no fault on a part of the
memory alone reads nothing else, and the bytes around the part are as they were.
-/

set_option autoImplicit false

namespace Lib.CMem

variable {m m' pre post s lit accept : List UInt8} {i p : Nat} {b : UInt8}

/-- A load is the same inside a larger buffer. -/
theorem load_framed (h : load m i = .ok b) : load (pre ++ (m ++ post)) (pre.length + i) = .ok b := by
  have hi : i < m.length := by
    by_contra hle
    rw [load, List.getElem?_eq_none (by omega)] at h
    cases h
  rw [load, List.getElem?_append_right (Nat.le_add_right _ _), Nat.add_sub_cancel_left,
    List.getElem?_append_left hi]
  exact h

/-- A store is the same inside a larger buffer. -/
theorem store_framed (h : store m i b = .ok m') :
    store (pre ++ (m ++ post)) (pre.length + i) b = .ok (pre ++ (m' ++ post)) := by
  unfold store at h
  split at h
  · rename_i hi
    obtain rfl := Except.ok.inj h
    rw [store_of_lt _ (by simp only [List.length_append]; omega),
      List.set_append_right _ _ (Nat.le_add_right _ _), Nat.add_sub_cancel_left,
      List.set_append_left _ _ hi]
  · cases h

/-- Reading a string is the same inside a larger buffer. -/
theorem fetch_framed (h : fetch m p = .ok s) :
    fetch (pre ++ (m ++ post)) (pre.length + p) = .ok s := by
  obtain ⟨a, r, rfl, rfl, h0⟩ := fetch_split h
  have hm : pre ++ (a ++ (s ++ 0 :: r) ++ post) = (pre ++ a) ++ (s ++ 0 :: (r ++ post)) := by simp
  exact fetch_terminated h0 hm List.length_append.symm

/-- A string that may be missing is the same inside a larger buffer. -/
theorem strAt_framed {q : Option Nat} {t : Option (List UInt8)} (h : strAt m q = .ok t) :
    strAt (pre ++ (m ++ post)) (q.map (pre.length + ·)) = .ok t := by
  cases q with
  | none => exact h
  | some p =>
    cases hf : fetch m p with
    | error e =>
      rw [strAt, hf] at h
      cases h
    | ok s =>
      rw [strAt, hf] at h
      show (fetch (pre ++ (m ++ post)) (pre.length + p)).map some = .ok t
      rw [fetch_framed hf]
      exact h

/-- `strpbrk` finds the same byte inside a larger buffer. -/
theorem strpbrk_framed {r : Option Nat} (h : strpbrk m p accept = .ok r) :
    strpbrk (pre ++ (m ++ post)) (pre.length + p) accept = .ok (r.map (pre.length + ·)) := by
  obtain ⟨s, hs, hr⟩ := bind_eq_ok.mp h
  obtain rfl := Except.ok.inj hr
  rw [strpbrk, fetch_framed hs, ok_bind, Option.map_map]
  refine congrArg (fun f => Except.ok ((s.findIdx? (· ∈ accept)).map f)) ?_
  funext k
  exact Nat.add_assoc _ _ _

/-- `strspn` counts the same bytes inside a larger buffer. -/
theorem strspn_framed {k : Nat} (h : strspn m p accept = .ok k) :
    strspn (pre ++ (m ++ post)) (pre.length + p) accept = .ok k := by
  obtain ⟨s, hs, hk⟩ := bind_eq_ok.mp h
  rw [strspn, fetch_framed hs, ok_bind]
  exact hk

/-- `strcasecmp` compares the same inside a larger buffer. -/
theorem strcasecmp_framed {eq : Bool} (h : strcasecmp m p lit = .ok eq) :
    strcasecmp (pre ++ (m ++ post)) (pre.length + p) lit = .ok eq := by
  obtain ⟨s, hs, heq⟩ := bind_eq_ok.mp h
  rw [strcasecmp, fetch_framed hs, ok_bind]
  exact heq

/-- `strncasecmp` compares the same inside a larger buffer. -/
theorem strncasecmp_framed {eq : Bool} (h : strncasecmp m p lit = .ok eq) :
    strncasecmp (pre ++ (m ++ post)) (pre.length + p) lit = .ok eq := by
  obtain ⟨s, hs, heq⟩ := bind_eq_ok.mp h
  rw [strncasecmp, fetch_framed hs, ok_bind]
  exact heq

end Lib.CMem
