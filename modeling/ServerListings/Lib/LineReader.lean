import Mathlib.Data.List.Basic
import ServerListings.Lib.CMem

/-!
# A one-pass reader of CRLF-terminated lines

`step` looks at one byte at a time: it collects the bytes of a line, hands the line to a
`Handler` when its CR LF is complete, and stops at a CR that something other than LF
follows and at an LF that no CR precedes. `feed` is the fold of `step` over a byte list,
so reading a stream in chunks is reading their concatenation (`feed_append`).

`feed` on a whole line is described by the five ways a byte list can begin (`Cut`); these
are also the five ways in which a scan over a buffer can end.
-/

set_option autoImplicit false

namespace Lib.LineReader

abbrev CR : UInt8 := 13
abbrev LF : UInt8 := 10

/-- A line's text contains neither of the two line-ending bytes. -/
def Clean (l : List UInt8) : Prop := ∀ b ∈ l, b ≠ CR ∧ b ≠ LF

/-- No bytes have no line end. -/
theorem clean_nil : Clean [] := by
  intro b hb
  cases hb

/-- Two parts without CR and LF have none together. -/
theorem Clean.append {l r : List UInt8} (hl : Clean l) (hr : Clean r) : Clean (l ++ r) := by
  intro b hb
  rcases List.mem_append.mp hb with h | h
  · exact hl b h
  · exact hr b h

/-- What is done with a complete line, and with a malformed line ending. `ν` is the type of
the verdicts that end the reading. -/
structure Handler (σ ν : Type) where
  line : σ → List UInt8 → Except ν σ
  bad : σ → ν

/-- The reader between two bytes: the handler's state, the text of the line so far, and
whether the CR of its line ending has been read. -/
structure State (σ : Type) where
  ctl : σ
  line : List UInt8
  cr : Bool
  clean : Clean line

/-- The bytes read since the last complete line. -/
def State.pending {σ : Type} (st : State σ) : List UInt8 :=
  st.line ++ if st.cr then [CR] else []

/-- The reader at the start of a line. -/
def State.fresh {σ : Type} (s : σ) : State σ := ⟨s, [], false, clean_nil⟩

variable {σ ν : Type} (H : Handler σ ν)

def step (st : State σ) (b : UInt8) : Except ν (State σ) :=
  if st.cr then
    if b = LF then (H.line st.ctl st.line).map State.fresh
    else .error (H.bad st.ctl)
  else if hcr : b = CR then .ok { st with cr := true }
  else if hlf : b = LF then .error (H.bad st.ctl)
  else .ok ⟨st.ctl, st.line ++ [b], false, st.clean.append (by simpa [Clean] using ⟨hcr, hlf⟩)⟩

/-- A step ends the reading at the end of a line, or at a malformed line ending. -/
theorem step_eq_error {st : State σ} {b : UInt8} {v : ν} (h : step H st b = .error v) :
    (st.cr = true ∧ b = LF ∧ H.line st.ctl st.line = .error v) ∨ v = H.bad st.ctl := by
  unfold step at h
  split at h
  · rename_i hcr
    split at h
    · rename_i hlf
      cases hline : H.line st.ctl st.line with
      | ok s' =>
        rw [hline] at h
        cases h
      | error v' =>
        rw [hline] at h
        obtain rfl : v' = v := by simpa [Except.map] using h
        exact Or.inl ⟨hcr, hlf, rfl⟩
    · exact Or.inr (by simpa using h.symm)
  · repeat' split at h
    · cases h
    · exact Or.inr (by simpa using h.symm)
    · cases h

/-- A step that does not end the reading ends a line, or keeps the handler's state. -/
theorem step_eq_ok {st st' : State σ} {b : UInt8} (h : step H st b = .ok st') :
    (∃ s', H.line st.ctl st.line = .ok s' ∧ st' = State.fresh s') ∨
      (st'.ctl = st.ctl ∧ (st'.cr = true → b = CR)) := by
  unfold step at h
  split at h
  · split at h
    · cases hline : H.line st.ctl st.line with
      | error v =>
        rw [hline] at h
        cases h
      | ok s' =>
        rw [hline] at h
        exact Or.inl ⟨s', rfl, (Except.ok.inj h).symm⟩
    · cases h
  · split at h
    · rename_i hb
      obtain rfl := Except.ok.inj h
      exact Or.inr ⟨rfl, fun _ => hb⟩
    · split at h
      · cases h
      · obtain rfl := Except.ok.inj h
        exact Or.inr ⟨rfl, by simp⟩

def feed (st : State σ) (s : List UInt8) : Except ν (State σ) := s.foldlM (step H) st

/-- Without bytes the reader stays where it is. -/
@[simp] theorem feed_nil (st : State σ) : feed H st [] = .ok st := rfl

/-- The first byte is read first. -/
theorem feed_cons (st : State σ) (b : UInt8) (s : List UInt8) :
    feed H st (b :: s) = step H st b >>= fun st' => feed H st' s := rfl

/-- Reading in chunks is reading the concatenation. -/
theorem feed_append (st : State σ) (s t : List UInt8) :
    feed H st (s ++ t) = feed H st s >>= fun st' => feed H st' t := by
  unfold feed
  exact List.foldlM_append

/-- A verdict does not change when more bytes arrive. -/
theorem feed_append_error {st : State σ} {s : List UInt8} {v : ν} (t : List UInt8)
    (h : feed H st s = .error v) : feed H st (s ++ t) = .error v := by
  rw [feed_append, h]
  rfl

/-- A verdict is given at one byte. -/
theorem feed_error_split {st : State σ} {s : List UInt8} {v : ν} (h : feed H st s = .error v) :
    ∃ a b c st', s = a ++ b :: c ∧ feed H st a = .ok st' ∧ step H st' b = .error v := by
  induction s generalizing st with
  | nil => cases h
  | cons b s ih =>
    rw [feed_cons] at h
    cases hstep : step H st b with
    | error v' =>
      rw [hstep] at h
      exact ⟨[], b, s, st, rfl, rfl, hstep.trans h⟩
    | ok st' =>
      rw [hstep, CMem.ok_bind] at h
      obtain ⟨a, b', c, st'', rfl, ha, hb⟩ := ih h
      exact ⟨b :: a, b', c, st'', rfl, by rw [feed_cons, hstep, CMem.ok_bind, ha], hb⟩

/-- What the handler's lines preserve holds of the handler's state after every stream. -/
theorem feed_invariant {P : σ → Prop} (hline : ∀ s l s', P s → H.line s l = .ok s' → P s')
    {st st' : State σ} {s : List UInt8} (hst : P st.ctl) (h : feed H st s = .ok st') : P st'.ctl := by
  induction s generalizing st with
  | nil =>
    obtain rfl := Except.ok.inj h
    exact hst
  | cons b s ih =>
    obtain ⟨st₁, hstep, hrest⟩ := CMem.bind_eq_ok.mp h
    refine ih ?_ hrest
    rcases step_eq_ok H hstep with ⟨s', hl, rfl⟩ | ⟨hctl, -⟩
    · exact hline _ _ _ hst hl
    · rwa [hctl]

/-- Bytes that end no line are collected. -/
theorem feed_clean (c : σ) (l u : List UInt8) (hl : Clean l) (hu : Clean u) :
    feed H ⟨c, l, false, hl⟩ u = .ok ⟨c, l ++ u, false, hl.append hu⟩ := by
  induction u generalizing l with
  | nil => simp
  | cons b u ih =>
    obtain ⟨hcr, hlf⟩ := hu b (by simp)
    have hb : Clean [b] := by simpa [Clean] using ⟨hcr, hlf⟩
    have hstep : step H ⟨c, l, false, hl⟩ b = .ok ⟨c, l ++ [b], false, hl.append hb⟩ := by
      simp [step, hcr, hlf]
    rw [feed_cons, hstep, CMem.ok_bind, ih (l ++ [b]) (hl.append hb) (fun x hx => hu x (by simp [hx]))]
    simp

/-! ## The ways a byte list can begin -/

/-- How the first line of a byte list ends: not at all, after its CR, properly, or badly. -/
inductive Cut : List UInt8 → Type
  | clean (u : List UInt8) (hu : Clean u) : Cut u
  | cr (u : List UInt8) (hu : Clean u) : Cut (u ++ [CR])
  | crlf (u w : List UInt8) (hu : Clean u) : Cut (u ++ CR :: LF :: w)
  | badCr (u : List UInt8) (b : UInt8) (w : List UInt8) (hu : Clean u) (hb : b ≠ LF) :
      Cut (u ++ CR :: b :: w)
  | badLf (u w : List UInt8) (hu : Clean u) : Cut (u ++ LF :: w)

/-- A byte in front that ends no line does not change how the first line ends. -/
def Cut.cons {x : List UInt8} (b : UInt8) (hcr : b ≠ CR) (hlf : b ≠ LF) : Cut x → Cut (b :: x)
  | .clean u hu => .clean (b :: u) (Clean.append (l := [b]) (by simpa [Clean] using ⟨hcr, hlf⟩) hu)
  | .cr u hu => .cr (b :: u) (Clean.append (l := [b]) (by simpa [Clean] using ⟨hcr, hlf⟩) hu)
  | .crlf u w hu =>
    .crlf (b :: u) w (Clean.append (l := [b]) (by simpa [Clean] using ⟨hcr, hlf⟩) hu)
  | .badCr u b' w hu hb =>
    .badCr (b :: u) b' w (Clean.append (l := [b]) (by simpa [Clean] using ⟨hcr, hlf⟩) hu) hb
  | .badLf u w hu =>
    .badLf (b :: u) w (Clean.append (l := [b]) (by simpa [Clean] using ⟨hcr, hlf⟩) hu)

/-- Every byte list begins in one of the five ways. -/
def cut : (x : List UInt8) → Cut x
  | [] => .clean [] clean_nil
  | b :: x =>
    if hcr : b = CR then
      match x with
      | [] => hcr ▸ .cr [] clean_nil
      | b' :: w =>
        if hb : b' = LF then hcr ▸ hb ▸ .crlf [] w clean_nil
        else hcr ▸ .badCr [] b' w clean_nil hb
    else if hlf : b = LF then hlf ▸ .badLf [] x clean_nil
    else Cut.cons b hcr hlf (cut x)

/-- Bytes of a line are collected. -/
theorem feed_fresh_clean (s : σ) (u : List UInt8) (hu : Clean u) :
    feed H (State.fresh s) u = .ok ⟨s, u, false, hu⟩ := by
  simpa [State.fresh] using feed_clean H s [] u clean_nil hu

/-- After a CR the reader waits for the next byte. -/
theorem feed_fresh_cr (s : σ) (u : List UInt8) (hu : Clean u) :
    feed H (State.fresh s) (u ++ [CR]) = .ok ⟨s, u, true, hu⟩ := by
  rw [feed_append, feed_fresh_clean H s u hu]
  simp [feed_cons, step]

/-- A whole line is handed over. -/
theorem feed_fresh_crlf (s : σ) (u w : List UInt8) (hu : Clean u) :
    feed H (State.fresh s) (u ++ CR :: LF :: w) =
      H.line s u >>= fun s' => feed H (State.fresh s') w := by
  rw [feed_append, feed_fresh_clean H s u hu]
  simp only [CMem.ok_bind, feed_cons, step]
  cases hline : H.line s u <;> simp [hline, Except.map]

/-- A CR without LF is an error. -/
theorem feed_fresh_badCr (s : σ) (u : List UInt8) (b : UInt8) (w : List UInt8) (hu : Clean u)
    (hb : b ≠ LF) : feed H (State.fresh s) (u ++ CR :: b :: w) = .error (H.bad s) := by
  rw [feed_append, feed_fresh_clean H s u hu]
  simp [feed_cons, step, hb]

/-- An LF without CR is an error. -/
theorem feed_fresh_badLf (s : σ) (u w : List UInt8) (hu : Clean u) :
    feed H (State.fresh s) (u ++ LF :: w) = .error (H.bad s) := by
  have hne : LF ≠ CR := by decide
  rw [feed_append, feed_fresh_clean H s u hu]
  simp [feed_cons, step, hne]

/-- A reader's state is the one reached from the start of the line by its pending bytes. -/
theorem feed_fresh_pending (st : State σ) : feed H (State.fresh st.ctl) st.pending = .ok st := by
  obtain ⟨c, l, cr, hl⟩ := st
  cases cr
  · simpa [State.pending] using feed_fresh_clean H c l hl
  · simpa [State.pending] using feed_fresh_cr H c l hl

/-- Going on from a state is reading its pending bytes again in front of the new ones. -/
theorem feed_eq_fresh (st : State σ) (t : List UInt8) :
    feed H st t = feed H (State.fresh st.ctl) (st.pending ++ t) := by
  rw [feed_append, feed_fresh_pending, CMem.ok_bind]

/-! ## Malformed line endings -/

/-- The last bytes are a CR with something other than LF behind it, or an LF with no CR in
front of it. -/
def EndsMalformed (p : List UInt8) : Prop :=
  (∃ u b, p = u ++ [CR, b] ∧ b ≠ LF) ∨ ∃ u, p = u ++ [LF] ∧ u.getLast? ≠ some CR

/-- A complete line is empty. -/
def HasEmptyLine (p : List UInt8) : Prop :=
  ∃ u w, p = u ++ CR :: LF :: w ∧ (u = [] ∨ ∃ u', u = u' ++ [CR, LF])

/-- There is a malformed line ending before the first complete empty line. -/
def Malformed (s : List UInt8) : Prop := ∃ p, p <+: s ∧ EndsMalformed p ∧ ¬ HasEmptyLine p

/-- A reader is behind a CR only when a CR was the last byte. -/
theorem feed_cr {c : σ} {st : State σ} {u : List UInt8} (h : feed H (State.fresh c) u = .ok st)
    (hcr : st.cr = true) : u.getLast? = some CR := by
  obtain rfl | ⟨u', b, rfl⟩ := List.eq_nil_or_concat' u
  · obtain rfl := Except.ok.inj h
    cases hcr
  · rw [feed_append] at h
    obtain ⟨st', -, h⟩ := CMem.bind_eq_ok.mp h
    have hstep : step H st' b = .ok st := by
      rw [feed_cons] at h
      obtain ⟨st'', hst'', h⟩ := CMem.bind_eq_ok.mp h
      obtain rfl := Except.ok.inj h
      exact hst''
    rw [List.getLast?_concat]
    rcases step_eq_ok H hstep with ⟨s', -, rfl⟩ | ⟨-, hb⟩
    · cases hcr
    · rw [hb hcr]

/-- No reader gets past a malformed line ending. -/
theorem feed_endsMalformed (c : σ) {p : List UInt8} (hp : EndsMalformed p) :
    ∃ v, feed H (State.fresh c) p = .error v := by
  have hlf : LF ≠ CR := by decide
  rcases hp with ⟨u, b, rfl, hb⟩ | ⟨u, rfl, hlast⟩
  · rw [feed_append]
    cases hu : feed H (State.fresh c) u with
    | error v => exact ⟨v, rfl⟩
    | ok st =>
      by_cases hcr : st.cr = true
      · exact ⟨H.bad st.ctl, by simp [feed_cons, step, hcr, hlf.symm]⟩
      · exact ⟨H.bad st.ctl, by simp [feed_cons, step, hcr, hb]⟩
  · rw [feed_append]
    cases hu : feed H (State.fresh c) u with
    | error v => exact ⟨v, rfl⟩
    | ok st =>
      by_cases hcr : st.cr = true
      · exact absurd (feed_cr H hu hcr) hlast
      · exact ⟨H.bad st.ctl, by simp [feed_cons, step, hcr, hlf]⟩

/-- A malformed line is an error. -/
theorem feed_malformed (c : σ) {s : List UInt8} (h : Malformed s) :
    ∃ v, feed H (State.fresh c) s = .error v := by
  obtain ⟨p, ⟨t, rfl⟩, hend, -⟩ := h
  obtain ⟨v, hv⟩ := feed_endsMalformed H c hend
  exact ⟨v, feed_append_error H t hv⟩

end Lib.LineReader
