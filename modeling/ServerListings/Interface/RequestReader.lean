import ServerListings.Interface.SharedText
import ServerListings.Model.ParseLine

/-!
# The language listing 8-3 decides

A reader that knows lines and a grammar, and neither a buffer nor indices into it. It looks
at the stream one byte at a time (`Lib.LineReader`) and stops at the first byte that decides
the request. `IsRequestLine` is the grammar of the request line; `scheme` says which texts
are taken for a leading `http://`.
-/

set_option autoImplicit false

namespace ServerListings.Interface.RequestReader

open Lib.CMem Lib.LineReader ServerListings.Model ServerListings.Model.ParseLine

/-- `path` is what remains of `target` after a leading scheme and everything before the next
slash are dropped. -/
def IsPath (scheme : List UInt8 → Prop) (target path : List UInt8) : Prop :=
  (¬ scheme (target.take 7) ∧ path = target) ∨
    (scheme (target.take 7) ∧ ∃ host, target.drop 7 = host ++ path ∧ SLASH ∉ host ∧
      path.head? = some SLASH)

/-- A method, tabs, a target without tab, tabs, a version; and the target's path starts with
a slash. -/
structure IsRequestLine (scheme : List UInt8 → Prop) (t : List UInt8) : Prop where
  parts : ∃ method tabs target tabs' version path,
    t = method ++ tabs ++ target ++ tabs' ++ version ∧
    eqIgnoreCase method (bytes "GET") = true ∧
    tabs ≠ [] ∧ (∀ b ∈ tabs, b = TAB) ∧
    TAB ∉ target ∧
    tabs' ≠ [] ∧ (∀ b ∈ tabs', b = TAB) ∧
    eqIgnoreCase version (bytes "HTTP/1.1") = true ∧
    IsPath scheme target path ∧ path.head? = some SLASH

/-- A leading `http://`, ignoring case. -/
def anyCase (t : List UInt8) : Prop := eqIgnoreCase t (bytes "http://") = true

/-- A leading `http://`, byte for byte. -/
def exactCase (t : List UInt8) : Prop := t = bytes "http://"

inductive Verdict
  | getRequest
  | badRequest
  deriving DecidableEq, Repr

/-- Which line the reader is at. -/
inductive Phase
  | requestLine
  | header
  deriving DecidableEq, Repr

/-- The reader: the first line must be accepted by `ok`, the first empty later line decides
`GET_REQUEST`, the other later lines are skipped. Lines are looked at as C strings. -/
def reader (ok : List UInt8 → Prop) [DecidablePred ok] : Handler Phase Verdict where
  line
    | .requestLine, t => if ok (cstr t) then .ok .header else .error .badRequest
    | .header, t => if cstr t = [] then .error .getRequest else .ok .header
  bad _ := .badRequest

/-- The reader's verdict on a stream, once some byte of it is deciding. -/
def decision (ok : List UInt8 → Prop) [DecidablePred ok] (s : List UInt8) : Option Verdict :=
  match feed (reader ok) (State.fresh .requestLine) s with
  | .ok _ => none
  | .error v => some v

def code : Verdict → HttpCode
  | .getRequest => .getRequest
  | .badRequest => .badRequest

/-- The results expected of the calls made while the chunks arrive, `seen` having arrived
before: `NO_REQUEST` up to the chunk that contains the deciding byte, then the verdict. -/
def expected (ok : List UInt8 → Prop) [DecidablePred ok] (seen : List UInt8) :
    List (List UInt8) → List HttpCode
  | [] => []
  | data :: rest =>
    match decision ok (seen ++ data) with
    | none => .noRequest :: expected ok (seen ++ data) rest
    | some v => [code v]

/-! ## The request line code decides the grammar -/

/-- Dropping the scheme and host leaves a path exactly when the target names it. -/
theorem dropScheme_iff {target path : List UInt8} (hpath : path.head? = some SLASH) :
    dropScheme target = some path ↔ IsPath anyCase target path := by
  unfold dropScheme IsPath anyCase
  cases hscheme : eqIgnoreCase (target.take 7) (bytes "http://") with
  | false => simp [eq_comm]
  | true =>
    obtain ⟨r, rfl⟩ : ∃ r, path = SLASH :: r := by
      cases path with
      | nil => cases hpath
      | cons b r => exact ⟨r, by simpa using hpath⟩
    simp only [if_true, not_true_eq_false, false_and, true_and, false_or, Option.map_eq_some_iff]
    constructor
    · rintro ⟨⟨host, r'⟩, hb, heq⟩
      obtain rfl : r' = r := by simpa using heq
      obtain ⟨d, hsplit, hd, hall⟩ := breakAt_eq_some hb
      obtain rfl : d = SLASH := by simpa using hd
      exact ⟨host, hsplit, fun h => hall _ h (by simp), rfl⟩
    · rintro ⟨host, hsplit, hhost, -⟩
      refine ⟨(host, r), ?_, rfl⟩
      rw [hsplit]
      exact breakAt_append_cons (by simpa using fun b hb => ne_of_mem_of_not_mem hb hhost) (by simp)

/-- A path that starts with a slash comes from a target that starts with something else than
a tab. -/
theorem IsPath.target_ne_nil {target path : List UInt8} (h : IsPath anyCase target path)
    (hpath : path.head? = some SLASH) : target ≠ [] := by
  rintro rfl
  rcases h with ⟨-, rfl⟩ | ⟨-, host, heq, -, -⟩
  · cases hpath
  · obtain ⟨-, rfl⟩ : host = [] ∧ path = [] := by simpa using congrArg List.length heq.symm
    cases hpath

/-- A text that equals a literal without a tab has none itself. -/
theorem tab_notMem {s lit : List UInt8} (h : eqIgnoreCase s lit = true)
    (hlit : TAB ∉ lit.map toLower) : TAB ∉ s := by
  intro hmem
  exact hlit (toLower_mem_of_eqIgnoreCase h hmem)

/-- A URL is accepted exactly when it names a path that starts with a slash. -/
theorem readUrl_accepted_iff (target : List UInt8) :
    (readUrl target).accepted = true ↔
      ∃ path, IsPath anyCase target path ∧ path.head? = some SLASH := by
  unfold readUrl
  constructor
  · intro h
    cases hd : dropScheme target with
    | none =>
      rw [hd] at h
      cases h
    | some path =>
      have hpath : path.head? = some SLASH := by simpa [hd] using h
      exact ⟨path, (dropScheme_iff hpath).mp hd, hpath⟩
  · rintro ⟨path, his, hpath⟩
    simp [(dropScheme_iff hpath).mpr his, hpath]

/-- What follows the method is accepted exactly when it is a target and the version, each behind
tabs. -/
theorem readTarget_accepted_iff (t : List UInt8) :
    (readTarget t).accepted = true ↔ ∃ tabs target tabs' version path,
      t = tabs ++ target ++ tabs' ++ version ∧ (∀ b ∈ tabs, b = TAB) ∧ TAB ∉ target ∧
      tabs' ≠ [] ∧ (∀ b ∈ tabs', b = TAB) ∧ eqIgnoreCase version (bytes "HTTP/1.1") = true ∧
      IsPath anyCase target path ∧ path.head? = some SLASH := by
  have htake : ∀ u : List UInt8, ∀ b ∈ u.takeWhile (· ∈ [TAB]), b = TAB := by
    intro u b hb
    simpa using List.mem_takeWhile_imp hb
  have hsplit : ∀ u : List UInt8, u.takeWhile (· ∈ [TAB]) ++ u.dropWhile (· ∈ [TAB]) = u :=
    fun u => List.takeWhile_append_dropWhile
  unfold readTarget
  constructor
  · intro h
    cases hb : breakAt [TAB] (t.dropWhile (· ∈ [TAB])) with
    | none =>
      simp only [hb] at h
      cases h
    | some parts =>
      obtain ⟨target, rest⟩ := parts
      obtain ⟨d, heq, hd, hall⟩ := breakAt_eq_some hb
      obtain rfl : d = TAB := by simpa using hd
      simp only [hb] at h
      cases hv : eqIgnoreCase (rest.dropWhile (· ∈ [TAB])) (bytes "HTTP/1.1") with
      | false =>
        rw [hv] at h
        cases h
      | true =>
        rw [hv] at h
        obtain ⟨path, his, hpath⟩ := (readUrl_accepted_iff target).mp h
        refine ⟨t.takeWhile (· ∈ [TAB]), target, TAB :: rest.takeWhile (· ∈ [TAB]),
          rest.dropWhile (· ∈ [TAB]), path, ?_, htake t, fun hm => hall _ hm (by simp), by simp,
          ?_, hv, his, hpath⟩
        · rw [List.append_assoc, List.append_assoc, List.cons_append, hsplit, ← heq, hsplit]
        · rintro b (_ | ⟨_, hb⟩)
          · rfl
          · exact htake rest b hb
  · rintro ⟨tabs, target, tabs', version, path, rfl, htabs, htarget, hne, htabs', hv, his, hpath⟩
    obtain ⟨b, target', rfl⟩ := List.exists_cons_of_ne_nil (his.target_ne_nil hpath)
    have hbtab : b ≠ TAB := fun h => htarget (by simp [h])
    obtain ⟨c, ts, rfl⟩ := List.exists_cons_of_ne_nil hne
    obtain rfl : c = TAB := htabs' c (by simp)
    have hfirst : (tabs ++ (b :: target') ++ (TAB :: ts) ++ version).dropWhile (· ∈ [TAB]) =
        (b :: target') ++ TAB :: (ts ++ version) := by
      rw [show tabs ++ (b :: target') ++ (TAB :: ts) ++ version =
        tabs ++ ((b :: target') ++ TAB :: (ts ++ version)) by simp]
      refine dropWhile_eq_of_all (by simpa using htabs) ?_
      intro x hx
      obtain rfl : b = x := by simpa using hx
      simpa using hbtab
    have hbreak : breakAt [TAB] ((b :: target') ++ TAB :: (ts ++ version)) =
        some (b :: target', ts ++ version) := by
      refine breakAt_append_cons ?_ (by simp)
      intro x hx
      simpa using ne_of_mem_of_not_mem hx htarget
    have hversion : (ts ++ version).dropWhile (· ∈ [TAB]) = version := by
      refine dropWhile_eq_of_all (by simpa using fun x hx => htabs' x (by simp [hx])) ?_
      intro x hx
      have hnot := tab_notMem hv (by decide)
      simpa using ne_of_mem_of_not_mem (List.mem_of_mem_head? hx) hnot
    simp only [hfirst, hbreak, hversion, hv]
    exact (readUrl_accepted_iff _).mpr ⟨path, his, hpath⟩

/-- The code of `parse_requestline` accepts exactly the lines of the grammar, a leading
`http://` being recognised in any case. -/
theorem readRequestLine_accepted_iff (t : List UInt8) :
    (readRequestLine [TAB] t).accepted = true ↔ IsRequestLine anyCase t := by
  unfold readRequestLine
  constructor
  · intro h
    cases hb : breakAt [TAB] t with
    | none =>
      rw [hb] at h
      cases h
    | some parts =>
      obtain ⟨method, rest⟩ := parts
      obtain ⟨d, heq, hd, hall⟩ := breakAt_eq_some hb
      obtain rfl : d = TAB := by simpa using hd
      cases hget : eqIgnoreCase method (bytes "GET") with
      | false =>
        simp [hb, hget] at h
      | true =>
        have hrest : (readTarget rest).accepted = true := by simpa [hb, hget] using h
        obtain ⟨tabs, target, tabs', version, path, rfl, htabs, htarget, hne, htabs', hv, his, hpath⟩ :=
          (readTarget_accepted_iff rest).mp hrest
        refine ⟨⟨method, TAB :: tabs, target, tabs', version, path, by simp [heq], hget, by simp, ?_,
          htarget, hne, htabs', hv, his, hpath⟩⟩
        rintro b (_ | ⟨_, hb⟩)
        · rfl
        · exact htabs b hb
  · rintro ⟨method, tabs, target, tabs', version, path, rfl, hget, hne, htabs, htarget, hne', htabs',
      hv, his, hpath⟩
    obtain ⟨c, ts, rfl⟩ := List.exists_cons_of_ne_nil hne
    obtain rfl : c = TAB := htabs c (by simp)
    have hbreak : breakAt [TAB] (method ++ TAB :: ts ++ target ++ tabs' ++ version) =
        some (method, ts ++ target ++ tabs' ++ version) := by
      have hnot := tab_notMem hget (by decide)
      have h := @breakAt_append_cons [TAB] method (ts ++ target ++ tabs' ++ version) TAB
        (by simpa using fun x hx => ne_of_mem_of_not_mem hx hnot) (by simp)
      simpa using h
    simp only [hbreak, hget]
    refine (readTarget_accepted_iff _).mpr ⟨ts, target, tabs', version, path, rfl, ?_, htarget, hne',
      htabs', hv, his, hpath⟩
    exact fun b hb => htabs b (by simp [hb])

instance : DecidablePred (IsRequestLine anyCase) :=
  fun t => decidable_of_iff _ (readRequestLine_accepted_iff t)

end ServerListings.Interface.RequestReader
