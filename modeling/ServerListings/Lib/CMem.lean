import Mathlib.Data.List.Basic
import Mathlib.Data.List.TakeWhile
import Mathlib.Logic.Function.Basic
import Mathlib.Tactic.Ring

/-!
# Bounds-checked byte memory and C strings

A C array of `char` is a list of bytes. An access outside the list is a fault, never a
default value, so that "the program does not touch memory outside the array" is the
statement that a run does not end in `Fault.outOfBounds`. The string functions of the C
library read from a pointer up to the terminating NUL, and fault when the array ends
before one is found.

The lemmas say what a string function does where the pointed-to bytes are known to be
`l ++ 0 :: r`: the C string is `cstr l`, and `r` is neither read nor needed.
-/

set_option autoImplicit false

namespace Lib.CMem

/-- What makes the behaviour of a C program undefined: an access outside an array, an `int`
that does not fit, a null pointer that is followed, an object that was deleted before.
`outOfFuel` is not one of them: it marks a loop that was cut off, and a theorem that
excludes faults excludes it too. -/
inductive Fault
  | outOfBounds
  | overflow
  | nullPointer
  | deadObject
  | outOfFuel
  deriving DecidableEq, Repr

abbrev Checked := Except Fault

/-- The address of an object. A pointer that may be null is an `Option Ptr`. -/
abbrev Ptr := Nat

/-- A computation has one result. -/
theorem result_unique {α : Type} {x : Checked α} {a b : α} (h : x = .ok a) (h' : x = .ok b) : a = b :=
  Except.ok.inj (h.symm.trans h')

/-- The two results of a computation are determined. -/
theorem results_unique {α β : Type} {x : Checked (α × β)} {a a' : α} {b b' : β}
    (h : x = .ok (a, b)) (h' : x = .ok (a', b')) : a = a' ∧ b = b' :=
  Prod.mk.inj (result_unique h h')

/-- Peels the first computation off a chain that succeeds. -/
theorem bind_eq_ok {ε α β : Type} {x : Except ε α} {f : α → Except ε β} {b : β} :
    x >>= f = .ok b ↔ ∃ a, x = .ok a ∧ f a = .ok b := by
  cases x with
  | error e => simp [Bind.bind, Except.bind]
  | ok a => simp [Bind.bind, Except.bind]

/-- What follows a computation that has succeeded gets its result. -/
@[simp] theorem ok_bind {ε α β : Type} (a : α) (f : α → Except ε β) :
    ((Except.ok a : Except ε α) >>= f) = f a := rfl

/-- Nothing follows a computation that has failed. -/
@[simp] theorem error_bind {ε α β : Type} (e : ε) (f : α → Except ε β) :
    ((Except.error e : Except ε α) >>= f) = .error e := rfl

/-! ## Loads and stores -/

def load {α : Type} (m : List α) (i : Nat) : Checked α :=
  match m[i]? with
  | some b => .ok b
  | none => .error .outOfBounds

def store {α : Type} (m : List α) (i : Nat) (b : α) : Checked (List α) :=
  if i < m.length then .ok (m.set i b) else .error .outOfBounds

/-- A store through a subscript that may be negative. -/
def storeInt (m : List UInt8) (i : Int) (b : UInt8) : Checked (List UInt8) :=
  if i < 0 then .error .outOfBounds else store m i.toNat b

/-- An access in bounds reads the element. -/
theorem load_of_lt {α : Type} {m : List α} {i : Nat} (h : i < m.length) : load m i = .ok m[i] := by
  simp [load, List.getElem?_eq_getElem h]

/-- An access in bounds writes the element. -/
theorem store_of_lt {α : Type} {m : List α} {i : Nat} (b : α) (h : i < m.length) :
    store m i b = .ok (m.set i b) := by
  simp [store, h]

/-- A subscript that is not negative is one of a plain access. -/
theorem storeInt_natCast (m : List UInt8) (i : Nat) (b : UInt8) :
    storeInt m (i : Int) b = store m i b := by
  simp [storeInt]

/-- The element behind `pre` is read at the length of `pre`. -/
theorem load_append_cons {α : Type} (pre post : List α) (b : α) :
    load (pre ++ b :: post) pre.length = .ok b := by
  simp [load]

/-- The element behind `pre` is replaced at the length of `pre`. -/
theorem store_append_cons {α : Type} (pre post : List α) (a b : α) :
    store (pre ++ a :: post) pre.length b = .ok (pre ++ b :: post) := by
  simp [store]

/-- The second element behind `pre` is read. -/
theorem load_append_cons_cons (pre post : List UInt8) (a b : UInt8) :
    load (pre ++ a :: b :: post) (pre.length + 1) = .ok b := by
  simpa using load_append_cons (pre ++ [a]) post b

/-- The second element behind `pre` is replaced. -/
theorem store_append_cons_cons (pre post : List UInt8) (a b c : UInt8) :
    store (pre ++ a :: b :: post) (pre.length + 1) c = .ok (pre ++ a :: c :: post) := by
  simpa using store_append_cons (pre ++ [a]) post b c

/-- A signed subscript in bounds writes the element. -/
theorem storeInt_of_lt {m : List UInt8} {i : Int} (b : UInt8) (h0 : 0 ≤ i) (h : i < m.length) :
    storeInt m i b = .ok (m.set i.toNat b) := by
  rw [storeInt, if_neg (by omega), store_of_lt b (by omega)]

/-- An array whose elements are the values of `f`. -/
theorem load_ofFn {α : Type} {n : Nat} (f : Fin n → α) (i : Fin n) :
    load (List.ofFn f) i = .ok (f i) := by
  rw [load_of_lt (by rw [List.length_ofFn]; exact i.isLt), List.getElem_ofFn]

/-- In an array of known length a store is an update of its elements. -/
theorem store_ofFn {α : Type} {n : Nat} (f : Fin n → α) (i : Fin n) (v : α) :
    store (List.ofFn f) i v = .ok (List.ofFn (Function.update f i v)) := by
  have hi : (i : Nat) < (List.ofFn f).length := by
    rw [List.length_ofFn]
    exact i.isLt
  rw [store_of_lt v hi]
  congr 1
  apply List.ext_getElem
  · simp only [List.length_set, List.length_ofFn]
  · intro j hj hj'
    rw [List.getElem_set, List.getElem_ofFn, List.getElem_ofFn, Function.update_apply]
    simp only [Fin.ext_iff, eq_comm]

/-- `recv` and `memcpy` into an array: the bytes `data` from subscript `i` on. -/
def copyIn (m : List UInt8) (i : Nat) (data : List UInt8) : Checked (List UInt8) :=
  if i + data.length ≤ m.length then .ok (m.take i ++ data ++ m.drop (i + data.length))
  else .error .outOfBounds

/-- Copying over the zeros behind the used part of an array. -/
theorem copyIn_zeros (used data : List UInt8) (n : Nat) (h : data.length ≤ n) :
    copyIn (used ++ List.replicate n 0) used.length data =
      .ok (used ++ data ++ List.replicate (n - data.length) 0) := by
  rw [copyIn, if_pos (by simpa using h)]
  simp [List.drop_append]

/-- A copy that succeeds fits, and leaves the length of the array alone. -/
theorem length_copyIn {m m' data : List UInt8} {i : Nat} (h : copyIn m i data = .ok m') :
    m'.length = m.length ∧ i + data.length ≤ m.length := by
  unfold copyIn at h
  split at h
  · obtain rfl : _ = m' := by simpa using h
    refine ⟨?_, by assumption⟩
    simp only [List.length_append, List.length_take, List.length_drop]
    omega
  · cases h

/-! ## C strings -/

/-- The C string at the start of a byte list: the bytes before the first NUL. -/
def cstr (s : List UInt8) : List UInt8 := s.takeWhile (· ≠ 0)

/-- The C string a pointer refers to. Scanning past the end of the array is a fault. -/
def fetch (m : List UInt8) (p : Nat) : Checked (List UInt8) :=
  if (0 : UInt8) ∈ m.drop p then .ok (cstr (m.drop p)) else .error .outOfBounds

/-- A string ends at the first NUL. -/
theorem cstr_append_zero (l r : List UInt8) : cstr (l ++ 0 :: r) = cstr l := by
  induction l with
  | nil => simp [cstr]
  | cons b l ih =>
    by_cases hb : b = 0
    · simp [cstr, hb]
    · simpa [cstr, hb] using ih

/-- Bytes without a NUL are a string as a whole. -/
theorem cstr_of_notMem {l : List UInt8} (h : (0 : UInt8) ∉ l) : cstr l = l := by
  rw [cstr, List.takeWhile_eq_self_iff]
  intro b hb
  have hb0 : b ≠ 0 := by
    rintro rfl
    exact h hb
  simpa using hb0

/-- There is no NUL inside a string. -/
theorem zero_notMem_cstr (l : List UInt8) : (0 : UInt8) ∉ cstr l := by
  intro h
  simpa using List.mem_takeWhile_imp h

/-- A string is no longer than the bytes that it is read from. -/
theorem length_cstr_le (l : List UInt8) : (cstr l).length ≤ l.length :=
  (List.takeWhile_prefix _).length_le

/-- Either there is no NUL, or the C string is followed by one. -/
theorem cstr_split (l : List UInt8) : cstr l = l ∨ ∃ r, l = cstr l ++ 0 :: r := by
  induction l with
  | nil => exact Or.inl rfl
  | cons b l ih =>
    by_cases hb : b = 0
    · exact Or.inr ⟨l, by simp [cstr, hb]⟩
    · have hc : cstr (b :: l) = b :: cstr l := by simp [cstr, hb]
      rcases ih with h | ⟨r, h⟩
      · exact Or.inl (by rw [hc, h])
      · exact Or.inr ⟨r, by rw [hc, List.cons_append, ← h]⟩

/-- A pointer to bytes that a NUL follows refers to their C string. -/
theorem fetch_append {pre l r : List UInt8} {p : Nat} (hp : p = pre.length) :
    fetch (pre ++ (l ++ 0 :: r)) p = .ok (cstr l) := by
  subst hp
  simp [fetch, cstr_append_zero]

/-- A pointer to bytes without NUL that a NUL follows refers to these bytes. -/
theorem fetch_terminated {m pre l r : List UInt8} {p : Nat} (h0 : (0 : UInt8) ∉ l)
    (hm : m = pre ++ (l ++ 0 :: r)) (hp : p = pre.length) : fetch m p = .ok l := by
  rw [hm, fetch_append hp, cstr_of_notMem h0]

/-- A string can be read where a NUL follows. -/
theorem fetch_eq_ok {m s : List UInt8} {p : Nat} (h : fetch m p = .ok s) :
    (0 : UInt8) ∈ m.drop p ∧ s = cstr (m.drop p) := by
  unfold fetch at h
  split at h
  · exact ⟨by assumption, by simpa using h.symm⟩
  · cases h

/-- A C string with the bytes before it and behind it. -/
theorem fetch_split {m s : List UInt8} {p : Nat} (h : fetch m p = .ok s) :
    ∃ pre r, m = pre ++ (s ++ 0 :: r) ∧ pre.length = p ∧ (0 : UInt8) ∉ s := by
  obtain ⟨hmem, rfl⟩ := fetch_eq_ok h
  have hp : p ≤ m.length := by
    by_contra hlt
    simp [List.drop_eq_nil_of_le (Nat.le_of_lt (Nat.lt_of_not_le hlt))] at hmem
  have h0 := zero_notMem_cstr (m.drop p)
  obtain hself | ⟨r, hr⟩ := cstr_split (m.drop p)
  · exact absurd (by rwa [hself]) h0
  · refine ⟨m.take p, r, ?_, List.length_take_of_le hp, h0⟩
    rw [← hr, List.take_append_drop]

/-- A pointer into a C string refers to the rest of it. -/
theorem fetch_add {m s : List UInt8} {p k : Nat} (h : fetch m p = .ok s) (hk : k ≤ s.length) :
    fetch m (p + k) = .ok (s.drop k) := by
  obtain ⟨pre, r, rfl, rfl, h0⟩ := fetch_split h
  have hm : pre ++ (s ++ 0 :: r) = (pre ++ s.take k) ++ (s.drop k ++ 0 :: r) := by
    rw [← List.append_assoc, ← List.append_assoc, List.append_assoc pre (s.take k),
      List.take_append_drop]
  refine fetch_terminated (fun hmem => h0 (List.mem_of_mem_drop hmem)) hm ?_
  rw [List.length_append, List.length_take_of_le hk]

/-- A string that ends in the memory is the same in a longer memory. -/
theorem fetch_append_right {m s : List UInt8} {p : Nat} (post : List UInt8)
    (h : fetch m p = .ok s) : fetch (m ++ post) p = .ok s := by
  obtain ⟨pre, r, rfl, rfl, h0⟩ := fetch_split h
  have hm : pre ++ (s ++ 0 :: r) ++ post = pre ++ (s ++ 0 :: (r ++ post)) := by simp
  exact fetch_terminated h0 hm rfl

/-- The first byte of a C string. -/
theorem fetch_cons {m s : List UInt8} {p : Nat} {b : UInt8} (h : fetch m p = .ok s)
    (hb : load m p = .ok b) (hne : b ≠ 0) : ∃ rest, s = b :: rest := by
  obtain ⟨pre, r, rfl, rfl, -⟩ := fetch_split h
  cases s with
  | nil =>
    have hzero := load_append_cons pre r (0 : UInt8)
    exact absurd (Except.ok.inj (hb.symm.trans hzero)) hne
  | cons a rest =>
    have hfirst := load_append_cons pre (rest ++ 0 :: r) a
    exact ⟨rest, by rw [Except.ok.inj (hb.symm.trans hfirst)]⟩

/-- The string a pointer that may be null refers to. -/
def strAt (m : List UInt8) : Option Nat → Checked (Option (List UInt8))
  | none => .ok none
  | some p => (fetch m p).map some

/-- A string that is found belongs to a pointer that is not null. -/
theorem strAt_eq_some {m s : List UInt8} {q : Option Nat} (h : strAt m q = .ok (some s)) :
    ∃ p, q = some p ∧ fetch m p = .ok s := by
  cases q with
  | none => cases h
  | some p =>
    rw [strAt] at h
    cases hf : fetch m p with
    | error e =>
      rw [hf] at h
      cases h
    | ok s' =>
      rw [hf] at h
      obtain rfl : s' = s := by simpa [Except.map] using h
      exact ⟨p, rfl, hf⟩

/-- What a pointer refers to is the same in a longer memory. -/
theorem strAt_append_right {m : List UInt8} {p : Option Nat} {s : Option (List UInt8)}
    (post : List UInt8) (h : strAt m p = .ok s) : strAt (m ++ post) p = .ok s := by
  cases p with
  | none => exact h
  | some p =>
    simp only [strAt] at h ⊢
    cases hf : fetch m p with
    | error e =>
      rw [hf] at h
      cases h
    | ok t =>
      rw [hf] at h
      rw [fetch_append_right post hf]
      exact h

/-- The text before the first byte that is in `accept`, and the text after it. -/
def breakAt (accept s : List UInt8) : Option (List UInt8 × List UInt8) :=
  match s.dropWhile (· ∉ accept) with
  | [] => none
  | _ :: r => some (s.takeWhile (· ∉ accept), r)

/-- Either no byte is in `accept`, or the list splits at the first one that is. -/
theorem breakAt_cases (accept s : List UInt8) :
    (breakAt accept s = none ∧ ∀ b ∈ s, b ∉ accept) ∨
      ∃ a d r, breakAt accept s = some (a, r) ∧ s = a ++ d :: r ∧ d ∈ accept ∧
        ∀ b ∈ a, b ∉ accept := by
  induction s with
  | nil => exact Or.inl ⟨rfl, by simp⟩
  | cons b s ih =>
    by_cases hb : b ∈ accept
    · exact Or.inr ⟨[], b, s, by simp [breakAt, hb], by simp, hb, by simp⟩
    · have hbreak : breakAt accept (b :: s) = (breakAt accept s).map fun x => (b :: x.1, x.2) := by
        simp only [breakAt, hb, not_false_eq_true, decide_true, List.dropWhile_cons_of_pos,
          List.takeWhile_cons_of_pos]
        cases s.dropWhile (· ∉ accept) <;> rfl
      rcases ih with ⟨hn, hall⟩ | ⟨a, d, r, hs, heq, hd, hall⟩
      · exact Or.inl ⟨by simp [hbreak, hn], by simpa using ⟨hb, hall⟩⟩
      · exact Or.inr ⟨b :: a, d, r, by simp [hbreak, hs], by simp [heq], hd, by simpa using ⟨hb, hall⟩⟩

/-- The text is split at the first byte of the set. -/
theorem breakAt_append_cons {accept a r : List UInt8} {d : UInt8} (hall : ∀ b ∈ a, b ∉ accept)
    (hd : d ∈ accept) : breakAt accept (a ++ d :: r) = some (a, r) := by
  have hdrop : (a ++ d :: r).dropWhile (· ∉ accept) = d :: r := by
    rw [List.dropWhile_append_of_pos (by simpa using hall)]
    simp [hd]
  have htake : (a ++ d :: r).takeWhile (· ∉ accept) = a := by
    rw [List.takeWhile_append_of_pos (by simpa using hall)]
    simp [hd]
  simp only [breakAt, hdrop, htake]

/-- Where a text is split: no byte before is in the set. -/
theorem breakAt_eq_some {accept s a r : List UInt8} (h : breakAt accept s = some (a, r)) :
    ∃ d, s = a ++ d :: r ∧ d ∈ accept ∧ ∀ b ∈ a, b ∉ accept := by
  rcases breakAt_cases accept s with ⟨hn, -⟩ | ⟨a', d, r', hs, heq, hd, hall⟩
  · rw [hn] at h
    cases h
  · obtain ⟨rfl, rfl⟩ : a' = a ∧ r' = r := by simpa [hs] using h
    exact ⟨d, heq, hd, hall⟩

/-- The bytes with the property are dropped up to the first one without it. -/
theorem dropWhile_eq_of_all {p : UInt8 → Bool} {a r : List UInt8} (hall : ∀ b ∈ a, p b = true)
    (hr : ∀ b, r.head? = some b → p b = false) : (a ++ r).dropWhile p = r := by
  rw [List.dropWhile_append_of_pos hall]
  cases r with
  | nil => rfl
  | cons b r => simp [hr b rfl]

/-- To skip what is taken is to drop it. -/
theorem drop_length_takeWhile (p : UInt8 → Bool) (s : List UInt8) :
    s.drop (s.takeWhile p).length = s.dropWhile p := by
  have h : (s.takeWhile p ++ s.dropWhile p).drop (s.takeWhile p).length = s.dropWhile p :=
    List.drop_left
  rwa [List.takeWhile_append_dropWhile] at h

/-! ## Stores and strings -/

/-- A C string ends at the first NUL. -/
theorem fetch_length_le {m s : List UInt8} {p i : Nat} (h : fetch m p = .ok s) (hp : p ≤ i)
    (hi : load m i = .ok 0) : p + s.length ≤ i := by
  obtain ⟨pre, r, rfl, rfl, h0⟩ := fetch_split h
  by_contra hlt
  have hin : i - pre.length < s.length := by omega
  rw [load, List.getElem?_append_right hp, List.getElem?_append_left hin,
    List.getElem?_eq_getElem hin] at hi
  exact h0 (Except.ok.inj hi ▸ List.getElem_mem hin)

/-- A string and its NUL lie inside the memory. -/
theorem fetch_length_lt {m s : List UInt8} {p : Nat} (h : fetch m p = .ok s) :
    p + s.length < m.length := by
  obtain ⟨pre, r, rfl, rfl, -⟩ := fetch_split h
  simp only [List.length_append, List.length_cons]
  omega

/-- A NUL stored inside a C string ends it there, and one stored anywhere else leaves it alone. -/
theorem fetch_set_zero {m s : List UInt8} {p : Nat} (h : fetch m p = .ok s) (i : Nat) :
    fetch (m.set i 0) p = .ok (if p ≤ i then s.take (i - p) else s) := by
  obtain ⟨pre, r, rfl, rfl, h0⟩ := fetch_split h
  by_cases hp : pre.length ≤ i
  · rw [if_pos hp, List.set_append_right _ _ hp]
    by_cases hin : i - pre.length < s.length
    · rw [List.set_append_left _ _ hin, List.set_eq_take_append_cons_drop, if_pos hin,
        List.append_assoc, List.cons_append]
      exact fetch_terminated (fun hmem => h0 (List.mem_of_mem_take hmem)) rfl rfl
    · rw [List.set_append_right _ _ (by omega), List.take_of_length_le (by omega)]
      cases i - pre.length - s.length with
      | zero => exact fetch_terminated h0 rfl rfl
      | succ k => exact fetch_terminated h0 rfl rfl
  · rw [if_neg hp, List.set_append_left _ _ (by omega)]
    exact fetch_terminated h0 rfl List.length_set.symm

/-- A string is the same in the part of the memory that has its NUL. -/
theorem fetch_take {m s : List UInt8} {p i : Nat} (h : fetch m p = .ok s) (hi : p + s.length < i) :
    fetch (m.take i) p = .ok s := by
  obtain ⟨pre, r, rfl, rfl, h0⟩ := fetch_split h
  have hsplit : pre ++ (s ++ 0 :: r) = (pre ++ s ++ [0]) ++ r := by simp
  have hlen : (pre ++ s ++ [0]).length ≤ i := by
    simp only [List.length_append, List.length_singleton]
    omega
  rw [hsplit, List.take_append, List.take_of_length_le hlen]
  refine @fetch_terminated _ pre s (r.take (i - (pre ++ s ++ [0]).length)) _ h0 ?_ rfl
  simp

/-- Every C string of `m` that ends before the subscript `e` is a C string of `m'`, at the same
place. -/
def KeepsStrings (e : Nat) (m m' : List UInt8) : Prop :=
  ∀ p s, fetch m p = .ok s → p + s.length < e → fetch m' p = .ok s

/-- A memory that does not change keeps its strings. -/
theorem KeepsStrings.refl (e : Nat) (m : List UInt8) : KeepsStrings e m m := fun _ _ h _ => h

/-- Two changes that keep the strings keep them together. -/
theorem KeepsStrings.trans {e : Nat} {m m' m'' : List UInt8} (h : KeepsStrings e m m')
    (h' : KeepsStrings e m' m'') : KeepsStrings e m m'' :=
  fun p s hs hlt => h' p s (h p s hs hlt) hlt

/-- Strings that end earlier are kept as well. -/
theorem KeepsStrings.mono {e e' : Nat} {m m' : List UInt8} (h : KeepsStrings e m m')
    (hle : e' ≤ e) : KeepsStrings e' m m' :=
  fun p s hs hlt => h p s hs (Nat.lt_of_lt_of_le hlt hle)

/-- A NUL behind the strings, or where one ends, keeps them. -/
theorem keepsStrings_store {e i : Nat} {m m' : List UInt8} (hi : e ≤ i + 1)
    (h : store m i 0 = .ok m') : KeepsStrings e m m' := by
  unfold store at h
  split at h
  · obtain rfl := Except.ok.inj h
    intro p s hs hlt
    rw [fetch_set_zero hs, if_pos (by omega), List.take_of_length_le (by omega)]
  · cases h

/-- A copy behind the strings keeps them. -/
theorem keepsStrings_copyIn {e i : Nat} {m m' data : List UInt8} (hi : e ≤ i)
    (h : copyIn m i data = .ok m') : KeepsStrings e m m' := by
  unfold copyIn at h
  split at h
  · obtain rfl := Except.ok.inj h
    intro p s hs hlt
    rw [List.append_assoc]
    exact fetch_append_right _ (fetch_take hs (by omega))
  · cases h

/-! ## The functions of `string.h` and `stdlib.h`

`accept` and `lit` are string literals of the program. Comparison functions are only ever
tested for equality, so they return a `Bool`. -/

/-- `tolower` in the C locale. -/
def toLower (b : UInt8) : UInt8 := if 65 ≤ b ∧ b ≤ 90 then b + 32 else b

/-- Equality of two C strings, ignoring case. -/
def eqIgnoreCase (s lit : List UInt8) : Bool := s.map toLower == lit.map toLower

/-- `strpbrk`: pointer to the first byte that is in `accept`. -/
def strpbrk (m : List UInt8) (p : Nat) (accept : List UInt8) : Checked (Option Nat) := do
  let s ← fetch m p
  pure ((s.findIdx? (· ∈ accept)).map (p + ·))

/-- `strspn`: length of the longest prefix made of bytes in `accept`. -/
def strspn (m : List UInt8) (p : Nat) (accept : List UInt8) : Checked Nat := do
  let s ← fetch m p
  pure (s.takeWhile (· ∈ accept)).length

/-- `strchr` of a byte other than NUL. -/
def strchr (m : List UInt8) (p : Nat) (ch : UInt8) : Checked (Option Nat) :=
  strpbrk m p [ch]

/-- `strcasecmp(p, lit) == 0`. -/
def strcasecmp (m : List UInt8) (p : Nat) (lit : List UInt8) : Checked Bool := do
  let s ← fetch m p
  pure (eqIgnoreCase s lit)

/-- `strncasecmp(p, lit, strlen(lit)) == 0`. -/
def strncasecmp (m : List UInt8) (p : Nat) (lit : List UInt8) : Checked Bool := do
  let s ← fetch m p
  pure (eqIgnoreCase (s.take lit.length) lit)

/-! Each function on a pointer to a known string. -/

section Fetched

variable {m l : List UInt8} {p : Nat}

/-- `strpbrk` finds nothing in a string without bytes of the set. -/
theorem strpbrk_none {accept : List UInt8} (hf : fetch m p = .ok l) (hall : ∀ b ∈ l, b ∉ accept) :
    strpbrk m p accept = .ok none := by
  have hidx : l.findIdx? (· ∈ accept) = none := by
    rw [List.findIdx?_eq_none_iff]
    simpa using hall
  simp [strpbrk, hf, hidx, pure, Except.pure]

/-- `strpbrk` finds the first byte of the set. -/
theorem strpbrk_some {accept a t : List UInt8} {d : UInt8} (hf : fetch m p = .ok (a ++ d :: t))
    (hall : ∀ b ∈ a, b ∉ accept) (hd : d ∈ accept) :
    strpbrk m p accept = .ok (some (p + a.length)) := by
  have hidx : (a ++ d :: t).findIdx? (· ∈ accept) = some a.length := by
    have hnone : a.findIdx? (· ∈ accept) = none := by
      rw [List.findIdx?_eq_none_iff]
      simpa using hall
    simp [List.findIdx?_append, hnone, List.findIdx?_cons, hd]
  simp [strpbrk, hf, hidx, pure, Except.pure]

/-- `strspn` counts the first bytes that are in the set. -/
theorem strspn_of_fetch {accept : List UInt8} (hf : fetch m p = .ok l) :
    strspn m p accept = .ok (l.takeWhile (· ∈ accept)).length := by
  simp [strspn, hf, pure, Except.pure]

/-- `strcasecmp` compares the whole string. -/
theorem strcasecmp_of_fetch {lit : List UInt8} (hf : fetch m p = .ok l) :
    strcasecmp m p lit = .ok (eqIgnoreCase l lit) := by
  simp [strcasecmp, hf, pure, Except.pure]

/-- `strncasecmp` compares as many bytes as the literal has. -/
theorem strncasecmp_of_fetch {lit : List UInt8} (hf : fetch m p = .ok l) :
    strncasecmp m p lit = .ok (eqIgnoreCase (l.take lit.length) lit) := by
  simp [strncasecmp, hf, pure, Except.pure]

end Fetched

/-- Texts that are equal but for case have the same length. -/
theorem length_of_eqIgnoreCase {s lit : List UInt8} (h : eqIgnoreCase s lit = true) :
    s.length = lit.length := by
  have := congrArg List.length (beq_iff_eq.mp h)
  simpa using this

/-- A byte of a text is, but for case, one of the literal. -/
theorem toLower_mem_of_eqIgnoreCase {s lit : List UInt8} {b : UInt8}
    (h : eqIgnoreCase s lit = true) (hb : b ∈ s) : toLower b ∈ lit.map toLower := by
  rw [← beq_iff_eq.mp h]
  exact List.mem_map_of_mem hb

/-- `isspace` in the C locale. -/
def isSpace (b : UInt8) : Bool := b = 32 ∨ (9 ≤ b ∧ b ≤ 13)

def isDigit (b : UInt8) : Bool := 48 ≤ b ∧ b ≤ 57

def digitsValue (s : List UInt8) : Nat :=
  (s.takeWhile isDigit).foldl (fun n b => 10 * n + (b.toNat - 48)) 0

def longMax : Int := 2 ^ 63 - 1
def longMin : Int := -2 ^ 63

/-- `atol` as `strtol(s, NULL, 10)` computes it: blanks, a sign, digits, and saturation at
the limits of `long`. -/
def atol (s : List UInt8) : Int :=
  match s.dropWhile isSpace with
  | 45 :: ds => max longMin (-(digitsValue ds : Int))
  | 43 :: ds => min longMax (digitsValue ds)
  | ds => min longMax (digitsValue ds)

def intMax : Int := 2 ^ 31 - 1
def intMin : Int := -2 ^ 31

/-- Conversion of a `long` to a 32-bit `int`. -/
def toInt (v : Int) : Int := v.bmod (2 ^ 32)

/-- The conversion to `int` gives a value of the type. -/
theorem toInt_bounds (v : Int) : intMin ≤ toInt v ∧ toInt v ≤ intMax := by
  unfold toInt intMin intMax
  have h1 := Int.le_bmod (x := v) (m := 2 ^ 32) (by norm_num)
  have h2 := Int.bmod_lt (x := v) (m := 2 ^ 32) (by norm_num)
  norm_num at h1 h2 ⊢
  omega

/-- Addition of two `int`s. -/
def addInt (a b : Int) : Checked Int :=
  if intMin ≤ a + b ∧ a + b ≤ intMax then .ok (a + b) else .error .overflow

/-- An addition of `int` succeeds exactly when the sum is in range. -/
theorem addInt_eq_ok {a b c : Int} :
    addInt a b = .ok c ↔ (intMin ≤ a + b ∧ a + b ≤ intMax) ∧ c = a + b := by
  unfold addInt
  split
  · simp [*, eq_comm]
  · simp [*]

/-- The text of a string literal. -/
def bytes (s : String) : List UInt8 := s.toList.map fun c => c.toNat.toUInt8

end Lib.CMem
