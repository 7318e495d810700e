import Mathlib.Logic.Relation
import ServerListings.Interface.SharedFrames
import ServerListings.Model.ParseLine

/-!
# The parser of listing 8-3 stays inside its buffer

A `Machine` is the parser together with the place in `parse_content` where it stands. Nothing
ends the buffer, which may be full, so every string function must end at a NUL of the line that
was just cut off. That it does, and that `prase_line` looks at received bytes only, is stated by
taking the other bytes away: on the part alone there is no fault, and with any bytes around it
the result is the same.
-/

set_option autoImplicit false

namespace ServerListings.Analysis.ParserConfined

open Lib.CMem Lib.LineReader ServerListings.Model ServerListings.Model.ParseLine ServerListings.Interface

/-! ## The machine -/

/-- The places of the parser: before a `recv`, at the loop condition of `parse_content`, before
the function for a line that starts at `temp`, and behind the last call. -/
inductive Point
  | waiting
  | scanning
  | cut (temp : Nat)
  | returned (code : HttpCode)
  deriving DecidableEq, Repr

structure Machine where
  point : Point
  parser : Parser

/-- The next step of a call of `parse_content`. -/
def Machine.next : Machine → Checked Machine
  | ⟨.scanning, p⟩ => do
    let scan ← praseLine p.buffer p.checkedIndex p.readIndex
    let p := { p with buffer := scan.buf, checkedIndex := scan.checked }
    match scan.status with
    | .lineOk => pure ⟨.cut p.startLine, { p with startLine := p.checkedIndex }⟩
    | .lineOpen => pure ⟨.waiting, p⟩
    | .lineBad => pure ⟨.returned .badRequest, p⟩
  | ⟨.cut temp, p⟩ =>
    match p.checkstate with
    | .checkStateRequestline => do
      let (retcode, p) ← parseRequestline p temp
      if retcode = .badRequest then pure ⟨.returned .badRequest, p⟩ else pure ⟨.scanning, p⟩
    | .checkStateHeader => do
      let retcode ← parseHeaders p.buffer temp
      if retcode = .badRequest then pure ⟨.returned .badRequest, p⟩
      else if retcode = .getRequest then pure ⟨.returned .getRequest, p⟩
      else pure ⟨.scanning, p⟩
  | m => pure m

/-- Bytes are received where there is room for them and `parse_content` is called, or a call
goes on. -/
inductive Step : Machine → Checked Machine → Prop
  | recv {p : Parser} {data : List UInt8} (hfit : p.readIndex + data.length ≤ bufferSize) :
      Step ⟨.waiting, p⟩ ((receive p data).map fun p => ⟨.scanning, p⟩)
  | run {m : Machine} : Step m m.next

/-- The locals of `main` with any bytes in the buffer. -/
def start (buffer : List UInt8) : Machine := ⟨.waiting, { initial with buffer := buffer }⟩

def Reached (a b : Machine) : Prop := Relation.ReflTransGen (fun a b => Step a (.ok b)) a b

/-- The steps of a call that ends with this result. -/
def Returns (p : Parser) (code : HttpCode) (p' : Parser) : Prop :=
  Relation.ReflTransGen (fun a b : Machine => a.next = .ok b) ⟨.scanning, p⟩
    ⟨if code = .noRequest then .waiting else .returned code, p'⟩

/-! ## What the parser may touch -/

/-- The indices are in order. -/
structure InOrder (p : Parser) : Prop where
  start_le : p.startLine ≤ p.checkedIndex
  checked_le : p.checkedIndex ≤ p.readIndex
  read_le : p.readIndex ≤ bufferSize
  length : p.buffer.length = bufferSize

/-- The loop of `prase_line` comes to the byte at `k`: it goes on over bytes other than CR and
LF only. -/
def ComesTo (p : Parser) (k : Nat) : Prop :=
  p.checkedIndex ≤ k ∧ k < p.readIndex ∧
    ∀ i b, p.checkedIndex ≤ i → i < k → p.buffer[i]? = some b → b ≠ CR ∧ b ≠ LF

/-- A call of `prase_line`: it touches received bytes only, its look-back finds no CR, and it
finds a line at CR LF only, which it passes. -/
structure ScanConfined (p : Parser) : Prop where
  within : ∃ scan : LineScan, ∀ post, praseLine (p.buffer.take p.readIndex ++ post) p.checkedIndex p.readIndex =
    .ok { scan with buf := scan.buf ++ post }
  lookBack : ∀ k, ComesTo p k → p.buffer[k]? = some LF → 1 < k → p.buffer[k - 1]? ≠ some CR
  lineOk : ∀ scan, praseLine p.buffer p.checkedIndex p.readIndex = .ok scan → scan.status = .lineOk →
    p.checkedIndex + 2 ≤ scan.checked ∧ ∃ k, ComesTo p k ∧ k + 1 < p.readIndex ∧
      p.buffer[k]? = some CR ∧ p.buffer[k + 1]? = some LF ∧ scan.checked = k + 2

/-- The line that was just cut off, with the NULs in place of its CR LF. -/
def lineAt (p : Parser) (temp : Nat) : List UInt8 := (p.buffer.take p.checkedIndex).drop temp

/-- The functions for a line that was cut off: they touch the line only, with any bytes around
it, and leave a NUL at its end. -/
structure LineConfined (p : Parser) (temp : Nat) : Prop where
  place : p.buffer = p.buffer.take temp ++ (lineAt p temp ++ p.buffer.drop p.checkedIndex) ∧
    (p.buffer.take temp).length = temp
  ends : (lineAt p temp).getLast? = some 0
  requestline : ∃ code checkstate line, line.length = (lineAt p temp).length ∧
    line.getLast? = some 0 ∧ ∀ pre post,
      parseRequestline { p with buffer := pre ++ (lineAt p temp ++ post) } pre.length =
        .ok (code, { p with buffer := pre ++ (line ++ post), checkstate := checkstate })
  headers : ∃ code, ∀ pre post, parseHeaders (pre ++ (lineAt p temp ++ post)) pre.length = .ok code

/-! ## A line that was cut off -/

section Lines

variable {n : Nat} {line : List UInt8}

/-- `parse_headers` looks at its line only. -/
theorem parseHeaders_confined (h : Terminated n line) :
    ∃ code, ∀ pre post, parseHeaders (pre ++ (line ++ post)) pre.length = .ok code := by
  obtain ⟨b, hb⟩ := h.load (Nat.zero_le n)
  obtain ⟨host, hhost, hlen⟩ := h.strncasecmp (bytes "Host:") (Nat.zero_le n)
  have hload : ∀ pre post, load (pre ++ (line ++ post)) pre.length = .ok b :=
    fun pre post => load_framed hb
  have hcmp : ∀ pre post, strncasecmp (pre ++ (line ++ post)) pre.length (bytes "Host:") = .ok host :=
    fun pre post => strncasecmp_framed hhost
  unfold parseHeaders
  by_cases hzero : b = 0
  · refine ⟨.getRequest, fun pre post => ?_⟩
    rw [hload, ok_bind, if_pos hzero]
    rfl
  cases host with
  | false =>
    refine ⟨.noRequest, fun pre post => ?_⟩
    rw [hload, ok_bind, if_neg hzero, hcmp, ok_bind]
    rfl
  | true =>
    have hfive : 5 ≤ n := by
      have hbytes : (bytes "Host:").length = 5 := by decide
      have := hlen rfl
      omega
    obtain ⟨k, hk, hle⟩ := h.strspn [TAB] hfive
    obtain ⟨text, htext, -⟩ := h.fetch hle
    refine ⟨.noRequest, fun pre post => ?_⟩
    have hspn : strspn (pre ++ (line ++ post)) (pre.length + 5) [TAB] = .ok k := strspn_framed hk
    have hfetch : fetch (pre ++ (line ++ post)) (pre.length + (5 + k)) = .ok text := fetch_framed htext
    rw [hload, ok_bind, if_neg hzero, hcmp, ok_bind]
    simp only [if_true, hspn, ok_bind, Nat.add_assoc, hfetch]
    rfl

/-- `parse_requestline` looks at its line only, and leaves its length alone. -/
theorem parseRequestline_confined (p : Parser) (h : Terminated n line) :
    ∃ code checkstate line', Terminated n line' ∧ ∀ pre post,
      parseRequestline { p with buffer := pre ++ (line ++ post) } pre.length =
        .ok (code, { p with buffer := pre ++ (line' ++ post), checkstate := checkstate }) := by
  obtain ⟨res, hres, hbounds⟩ := requestLine_bounds [TAB] none h (Nat.zero_le n)
  have hframed : ∀ pre post, requestLine [TAB] (pre ++ (line ++ post)) pre.length none =
      .ok (framed pre post res) := fun pre post => requestLine_framed pre post hres
  unfold parseRequestline
  cases hacc : res.accepted with
  | false =>
    refine ⟨.badRequest, p.checkstate, res.buf, hbounds.buf, fun pre post => ?_⟩
    simp only [hframed, ok_bind, framed, hacc]
    rfl
  | true =>
    obtain ⟨url, hurl⟩ := hbounds.accepted hacc
    obtain ⟨text, htext, -⟩ := hbounds.buf.fetch (hbounds.url url hurl)
    have hprint : strAt res.buf res.url = .ok (some text) := by
      rw [hurl, strAt, htext]
      rfl
    refine ⟨.noRequest, .checkStateHeader, res.buf, hbounds.buf, fun pre post => ?_⟩
    simp only [hframed, ok_bind, framed, hacc, if_true, strAt_framed hprint]
    rfl

end Lines

/-! ## The invariant -/

/-- The invariant of the machine: a scan goes on behind a byte other than CR, and a line that was
cut off ends with a NUL. -/
structure Inv (m : Machine) : Prop where
  inOrder : InOrder m.parser
  notCr : (m.parser.buffer.take m.parser.checkedIndex).getLast? ≠ some CR
  cut : ∀ temp, m.point = .cut temp → temp + 2 ≤ m.parser.checkedIndex ∧
    (m.parser.buffer.take m.parser.checkedIndex).getLast? = some 0

/-- The invariant holds for a buffer of the right size. -/
theorem inv_start {buffer : List UInt8} (h : buffer.length = bufferSize) : Inv (start buffer) :=
  ⟨⟨Nat.le_refl _, Nat.le_refl _, Nat.zero_le _, h⟩, by simp [start, initial], by simp [start]⟩

section Scan

variable {p : Parser} {point : Point}

/-- The received bytes, cut at the checked index, and what a scan does to them. -/
theorem Inv.scan (h : Inv ⟨point, p⟩) :
    ∃ pre x scan, p.buffer.take p.readIndex = pre ++ x ∧ pre.length = p.checkedIndex ∧
      pre.length + x.length = p.readIndex ∧ p.buffer = pre ++ (x ++ p.buffer.drop p.readIndex) ∧
      ScanEnd pre x scan ∧ ∀ post,
        praseLine (p.buffer.take p.readIndex ++ post) p.checkedIndex p.readIndex =
          .ok { scan with buf := scan.buf ++ post } := by
  have hchecked := h.inOrder.checked_le
  have hread := h.inOrder.read_le
  have hlength := h.inOrder.length
  simp only at hchecked hread hlength
  have hpre : (p.buffer.take p.checkedIndex).length = p.checkedIndex :=
    List.length_take_of_le (by omega)
  have hx : ((p.buffer.drop p.checkedIndex).take (p.readIndex - p.checkedIndex)).length =
      p.readIndex - p.checkedIndex := by
    rw [List.length_take, List.length_drop]
    omega
  have htake : p.buffer.take p.readIndex = p.buffer.take p.checkedIndex ++
      (p.buffer.drop p.checkedIndex).take (p.readIndex - p.checkedIndex) := by
    rw [← List.take_add, Nat.add_sub_cancel' hchecked]
  obtain ⟨scan, hend, hscan⟩ := lineScan_confined (p.buffer.take p.checkedIndex)
    ((p.buffer.drop p.checkedIndex).take (p.readIndex - p.checkedIndex)) h.notCr
  rw [hpre, hx, Nat.add_sub_cancel' hchecked] at hscan
  refine ⟨_, _, scan, htake, hpre, ?_, ?_, hend, fun post => ?_⟩
  · rw [hpre, hx, Nat.add_sub_cancel' hchecked]
  · rw [← List.append_assoc, ← htake, List.take_append_drop]
  · rw [htake, List.append_assoc]
    exact hscan post

/-- The call of `prase_line` on the whole buffer. -/
theorem praseLine_of_confined {scan : LineScan}
    (h : ∀ post, praseLine (p.buffer.take p.readIndex ++ post) p.checkedIndex p.readIndex =
      .ok { scan with buf := scan.buf ++ post }) :
    praseLine p.buffer p.checkedIndex p.readIndex =
      .ok { scan with buf := scan.buf ++ p.buffer.drop p.readIndex } := by
  have hfull := h (p.buffer.drop p.readIndex)
  rwa [List.take_append_drop] at hfull

/-- The byte behind a part of a part. -/
theorem getElem?_split {α : Type} (pre u rest : List α) (a : α) :
    (pre ++ (u ++ a :: rest))[pre.length + u.length]? = some a := by
  rw [← List.append_assoc, ← List.length_append, List.getElem?_append_right (Nat.le_refl _),
    Nat.sub_self]
  rfl

/-- Bytes that end no line are passed. -/
theorem comesTo_of_clean {pre u rest : List UInt8} (hbuf : p.buffer = pre ++ (u ++ rest))
    (hpre : pre.length = p.checkedIndex) (hu : Clean u)
    (hread : p.checkedIndex + u.length < p.readIndex) : ComesTo p (p.checkedIndex + u.length) := by
  refine ⟨Nat.le_add_right _ _, hread, fun i b hle hlt hb => ?_⟩
  rw [hbuf, List.getElem?_append_right (by omega), List.getElem?_append_left (by omega)] at hb
  exact hu b (List.mem_of_getElem? hb)

/-- The scan stays in the buffer. -/
theorem Inv.scanConfined (h : Inv ⟨point, p⟩) : ScanConfined p := by
  obtain ⟨pre, x, scan, -, hpre, hx, hbuf, hend, hscan⟩ := h.scan
  refine ⟨⟨scan, hscan⟩, fun k hk hlf hpos hcr => ?_, fun scan' hscan' hok => ?_⟩
  · by_cases hfirst : k = p.checkedIndex
    · -- the byte before the first one that is read now
      have hnot := h.notCr
      have hlen := h.inOrder.length
      have hle := h.inOrder.checked_le
      have hread := h.inOrder.read_le
      simp only at hnot hlen hle hread
      rw [List.getLast?_eq_getElem?, List.length_take_of_le (by omega), List.getElem?_take,
        if_pos (by omega), ← hfirst] at hnot
      exact hnot hcr
    · have hge := hk.1
      exact (hk.2.2 (k - 1) CR (by omega) (by omega) hcr).1 rfl
  · have hfull := praseLine_of_confined hscan
    obtain rfl := Except.ok.inj (hscan'.symm.trans hfull)
    cases hend with
    | stopped u rest hx' hu hstatus => exact absurd hok hstatus
    | line u rest hx' hu hstatus hbuf' hchecked =>
      have hlen := congrArg List.length hx'
      rw [List.length_append, List.length_cons, List.length_cons] at hlen
      rw [hx', List.append_assoc] at hbuf
      have hcr := getElem?_split pre u (LF :: rest ++ p.buffer.drop p.readIndex) CR
      have hlf := getElem?_split pre (u ++ [CR]) (rest ++ p.buffer.drop p.readIndex) LF
      rw [List.append_assoc, List.length_append, List.length_singleton, ← Nat.add_assoc] at hlf
      refine ⟨?_, p.checkedIndex + u.length, comesTo_of_clean hbuf hpre hu (by omega), by omega, ?_,
        ?_, ?_⟩
      · show p.checkedIndex + 2 ≤ scan.checked
        omega
      · rw [← hpre, hbuf]
        exact hcr
      · rw [← hpre, hbuf]
        exact hlf
      · show scan.checked = _
        rw [hchecked, hpre]

end Scan

/-! ## The steps -/

section Steps

variable {p : Parser} {m : Machine} {temp : Nat}

/-- A line that was cut off, between the bytes before and behind it. -/
theorem Inv.line (h : Inv ⟨.cut temp, p⟩) :
    p.buffer = p.buffer.take temp ++ (lineAt p temp ++ p.buffer.drop p.checkedIndex) ∧
      (p.buffer.take temp).length = temp ∧ Terminated (p.checkedIndex - temp - 1) (lineAt p temp) ∧
      temp + (lineAt p temp).length = p.checkedIndex := by
  obtain ⟨hle, hzero⟩ := h.cut temp rfl
  have hchecked := h.inOrder.checked_le
  have hread := h.inOrder.read_le
  have hlength := h.inOrder.length
  simp only at hle hzero hchecked hread hlength
  have htake : (p.buffer.take p.checkedIndex).length = p.checkedIndex :=
    List.length_take_of_le (by omega)
  have htemp : (p.buffer.take p.checkedIndex).take temp = p.buffer.take temp := by
    rw [List.take_take, Nat.min_eq_left (by omega)]
  have hline : (lineAt p temp).length = p.checkedIndex - temp := by
    rw [lineAt, List.length_drop, htake]
  refine ⟨?_, List.length_take_of_le (by omega), ⟨by omega, ?_⟩, by omega⟩
  · rw [← List.append_assoc, lineAt, ← htemp, List.take_append_drop, List.take_append_drop]
  · rw [List.getLast?_eq_getElem?, htake] at hzero
    rw [lineAt, List.getElem?_drop, show temp + (p.checkedIndex - temp - 1) = p.checkedIndex - 1 by omega]
    exact hzero

/-- A line that is terminated ends with a NUL. -/
theorem getLast?_terminated {n : Nat} {line : List UInt8} (h : Terminated n line) :
    line.getLast? = some 0 := by
  rw [List.getLast?_eq_getElem?, h.length]
  exact h.last

/-- The line that was cut off is confined. -/
theorem Inv.lineConfined (h : Inv ⟨.cut temp, p⟩) : LineConfined p temp := by
  obtain ⟨hbuf, htemp, hterm, -⟩ := h.line
  obtain ⟨code, checkstate, line, hline, hrun⟩ := parseRequestline_confined p hterm
  refine ⟨⟨hbuf, htemp⟩, getLast?_terminated hterm, ?_, parseHeaders_confined hterm⟩
  exact ⟨code, checkstate, line, by rw [hline.length, hterm.length], getLast?_terminated hline, hrun⟩

/-- The buffer after the line was taken apart. -/
theorem Inv.parsed {line : List UInt8} (h : Inv ⟨.cut temp, p⟩) (checkstate : CheckState)
    (hlen : line.length = (lineAt p temp).length) (hlast : line.getLast? = some 0) {point : Point}
    (hpoint : ∀ temp', point ≠ .cut temp') :
    Inv ⟨point, { p with
      buffer := p.buffer.take temp ++ (line ++ p.buffer.drop p.checkedIndex)
      checkstate := checkstate }⟩ := by
  obtain ⟨hbuf, htemp, -, hsum⟩ := h.line
  have hlength := h.inOrder.length
  simp only at hlength
  have htake : (p.buffer.take temp ++ (line ++ p.buffer.drop p.checkedIndex)).take p.checkedIndex =
      p.buffer.take temp ++ line := by
    rw [← List.append_assoc]
    apply List.take_left'
    rw [List.length_append, htemp, hlen, hsum]
  refine ⟨⟨h.inOrder.start_le, h.inOrder.checked_le, h.inOrder.read_le, ?_⟩, ?_, ?_⟩
  · rw [← hlength]
    have hsame := congrArg List.length hbuf
    simp only [List.length_append] at hsame ⊢
    omega
  · show (List.take p.checkedIndex _).getLast? ≠ some CR
    rw [htake, List.getLast?_append, hlast]
    show (some 0 : Option UInt8) ≠ some CR
    decide
  · intro temp' heq
    exact absurd heq (hpoint temp')

/-- The function for a line. The call goes on or ends with a result. -/
theorem next_cut (h : Inv ⟨.cut temp, p⟩) :
    ∃ m', (⟨.cut temp, p⟩ : Machine).next = .ok m' ∧ Inv m' ∧
      m'.parser.readIndex = p.readIndex ∧ m'.parser.checkedIndex = p.checkedIndex ∧
      (m'.point = .scanning ∨ ∃ code, m'.point = .returned code ∧ code ≠ .noRequest) := by
  have hline := h.lineConfined
  obtain ⟨hbuf, htemp⟩ := hline.place
  have hkeep : ∀ point : Point, (∀ temp', point ≠ .cut temp') → Inv ⟨point, p⟩ := by
    intro point hpoint
    exact ⟨h.inOrder, h.notCr, fun temp' heq => absurd heq (hpoint temp')⟩
  cases hstate : p.checkstate with
  | checkStateRequestline =>
    obtain ⟨code, checkstate, line, hlen, hlast, hrun⟩ := hline.requestline
    have hparse := hrun (p.buffer.take temp) (p.buffer.drop p.checkedIndex)
    rw [← hbuf, htemp] at hparse
    change parseRequestline p temp = _ at hparse
    have hinv : ∀ point : Point, (∀ temp', point ≠ .cut temp') → Inv ⟨point, _⟩ :=
      fun point hpoint => h.parsed checkstate hlen hlast hpoint
    simp only [Machine.next, hstate, hparse, ok_bind]
    by_cases hbad : code = .badRequest
    · exact ⟨_, if_pos hbad, hinv _ (by simp), rfl, rfl, Or.inr ⟨_, rfl, by simp⟩⟩
    · exact ⟨_, if_neg hbad, hinv _ (by simp), rfl, rfl, Or.inl rfl⟩
  | checkStateHeader =>
    obtain ⟨code, hrun⟩ := hline.headers
    have hparse := hrun (p.buffer.take temp) (p.buffer.drop p.checkedIndex)
    rw [← hbuf, htemp] at hparse
    simp only [Machine.next, hstate, hparse, ok_bind]
    by_cases hbad : code = .badRequest
    · exact ⟨_, if_pos hbad, hkeep _ (by simp), rfl, rfl, Or.inr ⟨_, rfl, by simp⟩⟩
    rw [if_neg hbad]
    by_cases hget : code = .getRequest
    · exact ⟨_, if_pos hget, hkeep _ (by simp), rfl, rfl, Or.inr ⟨_, rfl, by simp⟩⟩
    · exact ⟨_, if_neg hget, hkeep _ (by simp), rfl, rfl, Or.inl rfl⟩

/-- Bytes that end no line are passed. -/
theorem Inv.passed (h : Inv ⟨.scanning, p⟩) {pre u tail : List UInt8}
    (hbuf : p.buffer = pre ++ (u ++ tail)) (hpre : pre.length = p.checkedIndex) (hu : Clean u)
    (hread : p.checkedIndex + u.length ≤ p.readIndex) {point : Point}
    (hpoint : ∀ temp, point ≠ .cut temp) :
    Inv ⟨point, { p with checkedIndex := p.checkedIndex + u.length }⟩ := by
  have htake : p.buffer.take (p.checkedIndex + u.length) = pre ++ u := by
    rw [hbuf, ← List.append_assoc, ← hpre]
    exact List.take_left' List.length_append
  have hnot : pre.getLast? ≠ some CR := by
    have hnot := h.notCr
    simp only at hnot
    rwa [hbuf, List.take_left' hpre] at hnot
  refine ⟨⟨?_, hread, h.inOrder.read_le, h.inOrder.length⟩, ?_, fun temp heq => absurd heq (hpoint temp)⟩
  · exact Nat.le_trans h.inOrder.start_le (Nat.le_add_right _ _)
  · show (p.buffer.take (p.checkedIndex + u.length)).getLast? ≠ some CR
    rw [htake]
    exact last_ne_cr hnot hu

/-- A line is cut off, with NULs in place of its CR LF. -/
theorem Inv.ended (h : Inv ⟨.scanning, p⟩) {pre u tail : List UInt8}
    (hbuf : p.buffer = pre ++ (u ++ CR :: LF :: tail)) (hpre : pre.length = p.checkedIndex)
    (hread : p.checkedIndex + u.length + 2 ≤ p.readIndex) :
    Inv ⟨.cut p.startLine, { p with
      buffer := pre ++ (u ++ 0 :: 0 :: tail)
      checkedIndex := p.checkedIndex + u.length + 2
      startLine := p.checkedIndex + u.length + 2 }⟩ := by
  have hsplit : pre ++ (u ++ 0 :: 0 :: tail) = (pre ++ u ++ [0, 0]) ++ tail := by simp
  have hend : (pre ++ u ++ [(0 : UInt8), 0]).length = p.checkedIndex + u.length + 2 := by
    rw [List.length_append, List.length_append, hpre]
    rfl
  have hlast : ((pre ++ (u ++ 0 :: 0 :: tail)).take (p.checkedIndex + u.length + 2)).getLast? = some 0 := by
    rw [hsplit, List.take_left' hend, List.getLast?_append]
    rfl
  have hlength : (pre ++ (u ++ 0 :: 0 :: tail)).length = bufferSize := by
    rw [← h.inOrder.length, hbuf]
    simp only [List.length_append, List.length_cons]
  refine ⟨⟨Nat.le_refl _, hread, h.inOrder.read_le, hlength⟩, ?_, ?_⟩
  · show ((pre ++ (u ++ 0 :: 0 :: tail)).take (p.checkedIndex + u.length + 2)).getLast? ≠ some CR
    rw [hlast]
    decide
  · rintro temp ⟨⟩
    refine ⟨?_, hlast⟩
    have hstart := h.inOrder.start_le
    simp only at hstart ⊢
    omega

/-- A call of `prase_line`. A line moves the checked index, and every other end leaves the
loop. -/
theorem next_scanning (h : Inv ⟨.scanning, p⟩) :
    ∃ m', (⟨.scanning, p⟩ : Machine).next = .ok m' ∧ Inv m' ∧
      m'.parser.readIndex = p.readIndex ∧
      ((∃ temp, m'.point = .cut temp ∧ p.checkedIndex + 2 ≤ m'.parser.checkedIndex) ∨
        m'.point = .waiting ∨ m'.point = .returned .badRequest) := by
  obtain ⟨pre, x, scan, -, hpre, hx, hbuf, hend, hscan⟩ := h.scan
  have hrun := praseLine_of_confined hscan
  simp only [Machine.next, hrun, ok_bind]
  cases hend with
  | stopped u rest hx' hu hstatus hbuf' hchecked =>
    have hsame : scan.buf ++ p.buffer.drop p.readIndex = p.buffer := by
      rw [hbuf', List.append_assoc, ← hbuf]
    rw [hx', List.append_assoc] at hbuf
    rw [hx', List.length_append] at hx
    have hinv : ∀ point : Point, (∀ temp, point ≠ .cut temp) →
        Inv ⟨point, { p with checkedIndex := p.checkedIndex + u.length }⟩ :=
      fun point hpoint => h.passed hbuf hpre hu (by omega) hpoint
    rw [hsame, hchecked, hpre]
    cases hs : scan.status with
    | lineOk => exact absurd hs hstatus
    | lineOpen => exact ⟨_, rfl, hinv _ (by simp), rfl, Or.inr (Or.inl rfl)⟩
    | lineBad => exact ⟨_, rfl, hinv _ (by simp), rfl, Or.inr (Or.inr rfl)⟩
  | line u rest hx' hu hstatus hbuf' hchecked =>
    have hcut : scan.buf ++ p.buffer.drop p.readIndex =
        pre ++ (u ++ 0 :: 0 :: (rest ++ p.buffer.drop p.readIndex)) := by
      rw [hbuf']
      simp
    rw [hx', List.append_assoc] at hbuf
    rw [hx', List.length_append, List.length_cons, List.length_cons] at hx
    have hinv := h.ended hbuf hpre (by omega)
    rw [hstatus, hcut, hchecked, hpre]
    refine ⟨_, rfl, hinv, rfl, Or.inl ⟨_, rfl, ?_⟩⟩
    show p.checkedIndex + 2 ≤ p.checkedIndex + u.length + 2
    omega

/-- Bytes that are received do not reach back to the checked index. -/
theorem recv_inv {data : List UInt8} (h : Inv ⟨.waiting, p⟩)
    (hfit : p.readIndex + data.length ≤ bufferSize) :
    ∃ p', receive p data = .ok p' ∧ Inv ⟨.scanning, p'⟩ := by
  have hchecked := h.inOrder.checked_le
  have hlength := h.inOrder.length
  simp only at hchecked hlength
  have hcopy : copyIn p.buffer p.readIndex data =
      .ok (p.buffer.take p.readIndex ++ data ++ p.buffer.drop (p.readIndex + data.length)) := by
    rw [copyIn, if_pos (by omega)]
  have htake : (p.buffer.take p.readIndex ++ data ++
      p.buffer.drop (p.readIndex + data.length)).take p.checkedIndex = p.buffer.take p.checkedIndex := by
    have hlen : p.checkedIndex ≤ (p.buffer.take p.readIndex).length := by
      rw [List.length_take]
      omega
    rw [List.append_assoc, List.take_append_of_le_length hlen, List.take_take, Nat.min_eq_left hchecked]
  have hrecv : receive p data = .ok { p with
      buffer := p.buffer.take p.readIndex ++ data ++ p.buffer.drop (p.readIndex + data.length)
      readIndex := p.readIndex + data.length } := by
    rw [receive, hcopy, ok_bind]
    rfl
  refine ⟨_, hrecv, ⟨h.inOrder.start_le, ?_, hfit, ?_⟩, ?_, by simp⟩
  · exact Nat.le_trans hchecked (Nat.le_add_right _ _)
  · rw [(length_copyIn hcopy).1, hlength]
  · show (List.take p.checkedIndex _).getLast? ≠ some CR
    rw [htake]
    exact h.notCr

/-- No step faults, and every step keeps the invariant. -/
theorem step_inv {x : Checked Machine} (h : Inv m) (hstep : Step m x) : ∃ m', x = .ok m' ∧ Inv m' := by
  cases hstep with
  | @recv p data hfit =>
    obtain ⟨p', hrecv, hinv⟩ := recv_inv h hfit
    exact ⟨⟨.scanning, p'⟩, by rw [hrecv]; rfl, hinv⟩
  | run =>
    obtain ⟨point, p⟩ := m
    cases point with
    | waiting => exact ⟨_, rfl, h⟩
    | returned code => exact ⟨_, rfl, h⟩
    | scanning =>
      obtain ⟨m', hnext, hinv, -⟩ := next_scanning h
      exact ⟨m', hnext, hinv⟩
    | cut temp =>
      obtain ⟨m', hnext, hinv, -⟩ := next_cut h
      exact ⟨m', hnext, hinv⟩

/-- The invariant holds in every state that is reached. -/
theorem reached_inv {m₀ : Machine} (h : Inv m₀) (hrun : Reached m₀ m) : Inv m := by
  induction hrun with
  | refl => exact h
  | tail _ hstep ih =>
    obtain ⟨m', heq, hinv⟩ := step_inv ih hstep
    rwa [Except.ok.inj heq]

end Steps

/-! ## A call of `parse_content` -/

section Content

variable {p : Parser} {m : Machine}

/-- The loop of `parse_content` from a place outside of an iteration. -/
def resume (fuel : Nat) (m : Machine) : Checked (HttpCode × Parser) :=
  match m.point with
  | .waiting => pure (.noRequest, m.parser)
  | .returned code => pure (code, m.parser)
  | _ => contentLoop fuel m.parser

/-- An iteration of the loop is a step, or two where a line was found. -/
theorem contentLoop_succ (fuel : Nat) (p : Parser) :
    contentLoop (fuel + 1) p = (⟨.scanning, p⟩ : Machine).next >>= fun m =>
      match m.point with
      | .cut _ => m.next >>= resume fuel
      | _ => resume fuel m := by
  rw [contentLoop, Machine.next]
  cases praseLine p.buffer p.checkedIndex p.readIndex with
  | error e => rfl
  | ok scan =>
    rw [ok_bind, ok_bind]
    cases scan.status with
    | lineOpen => rfl
    | lineBad => rfl
    | lineOk =>
      show _ = Machine.next _ >>= resume fuel
      cases hstate : p.checkstate with
      | checkStateRequestline =>
        simp only [Machine.next]
        cases parseRequestline { p with
            buffer := scan.buf, checkedIndex := scan.checked, startLine := scan.checked,
            checkstate := .checkStateRequestline } p.startLine with
        | error e => rfl
        | ok r =>
          rw [ok_bind, ok_bind]
          by_cases hbad : r.1 = .badRequest
          · rw [if_pos hbad, if_pos hbad]
            rfl
          · rw [if_neg hbad, if_neg hbad]
            rfl
      | checkStateHeader =>
        simp only [Machine.next]
        cases parseHeaders scan.buf p.startLine with
        | error e => rfl
        | ok code =>
          rw [ok_bind, ok_bind]
          by_cases hbad : code = .badRequest
          · rw [if_pos hbad, if_pos hbad]
            rfl
          rw [if_neg hbad, if_neg hbad]
          by_cases hget : code = .getRequest
          · rw [if_pos hget, if_pos hget]
            rfl
          · rw [if_neg hget, if_neg hget]
            rfl

/-- A line of every iteration brings the checked index closer to the read index. -/
theorem contentLoop_returns (fuel : Nat) (p : Parser) (h : Inv ⟨.scanning, p⟩)
    (hfuel : p.readIndex - p.checkedIndex < fuel) :
    ∃ code p', contentLoop fuel p = .ok (code, p') ∧ Returns p code p' := by
  induction fuel generalizing p with
  | zero => omega
  | succ fuel ih =>
    obtain ⟨⟨point, q⟩, hnext, hinv, hread, hpoint⟩ := next_scanning h
    rw [contentLoop_succ, hnext, ok_bind]
    simp only at hread hpoint
    obtain ⟨temp, rfl, hadvance⟩ | rfl | rfl := hpoint
    · obtain ⟨⟨point', q'⟩, hnext', hinv', hread', hchecked', hpoint'⟩ := next_cut hinv
      have hle := hinv.inOrder.checked_le
      simp only at hle hread' hchecked' hpoint' ⊢
      rw [hnext', ok_bind]
      obtain rfl | ⟨code, rfl, hcode⟩ := hpoint'
      · obtain ⟨code, p', hloop, hreturns⟩ := ih q' hinv' (by omega)
        exact ⟨code, p', hloop, .head hnext (.head hnext' hreturns)⟩
      · refine ⟨code, q', rfl, ?_⟩
        rw [Returns, if_neg hcode]
        exact .head hnext (.single hnext')
    · exact ⟨.noRequest, q, rfl, .single hnext⟩
    · exact ⟨.badRequest, q, rfl, .single hnext⟩

end Content

/-! ## The result -/

/-- In every state that the parser of listing 8-3 comes to, from any bytes in the buffer and by
any bytes received, the indices are in order and no step reads or writes outside of the buffer.
A call of `prase_line` touches received bytes only and finds a line at CR LF only, its look-back
finding nothing, and the functions for the line that was cut off touch this line only. Every call
of `parse_content` returns. -/
theorem parser_confined {buffer : List UInt8} {m : Machine} (hlen : buffer.length = bufferSize)
    (hrun : Reached (start buffer) m) :
    InOrder m.parser ∧ (∀ x, Step m x → ∃ m', x = .ok m') ∧
      (m.point = .scanning → ScanConfined m.parser ∧
        ∃ code p', parseContent m.parser = .ok (code, p') ∧ Returns m.parser code p') ∧
      ∀ temp, m.point = .cut temp → LineConfined m.parser temp := by
  have hinv := reached_inv (inv_start hlen) hrun
  refine ⟨hinv.inOrder, fun x hstep => ?_, fun hpoint => ?_, fun temp hpoint => ?_⟩
  · obtain ⟨m', hx, -⟩ := step_inv hinv hstep
    exact ⟨m', hx⟩
  · obtain ⟨point, p⟩ := m
    obtain rfl : point = .scanning := hpoint
    exact ⟨hinv.scanConfined, contentLoop_returns _ p hinv (Nat.lt_succ_self _)⟩
  · obtain ⟨point, p⟩ := m
    obtain rfl : point = .cut temp := hpoint
    exact hinv.lineConfined

/-- A request line that is received into a buffer of zeros. -/
theorem parser_confined_line : ∃ m, Reached (start initial.buffer) m ∧ m.point = .cut 0 ∧
    m.parser.checkedIndex = 17 ∧ InOrder m.parser ∧ LineConfined m.parser 0 := by
  let data := bytes "GET\t/a\tHTTP/1.1\r\n"
  have hrun : ((receive initial data).bind fun p => Machine.next ⟨.scanning, p⟩).map
      (fun m => (m.point, m.parser.checkedIndex)) = .ok (.cut 0, 17) := by decide +kernel
  cases hrecv : receive initial data with
  | error e =>
    rw [hrecv] at hrun
    cases hrun
  | ok p =>
    rw [hrecv] at hrun
    cases hnext : Machine.next ⟨.scanning, p⟩ with
    | error e =>
      simp only [Except.bind, hnext] at hrun
      cases hrun
    | ok m =>
      simp only [Except.bind, hnext] at hrun
      obtain ⟨hpoint, hchecked⟩ := Prod.mk.inj (Except.ok.inj hrun)
      have hfirst : Step (start initial.buffer) (.ok ⟨.scanning, p⟩) := by
        have hstep : Step (start initial.buffer) ((receive initial data).map fun p => ⟨.scanning, p⟩) :=
          Step.recv (by decide)
        rwa [hrecv] at hstep
      have hsecond : Step ⟨.scanning, p⟩ (.ok m) := hnext ▸ Step.run
      have hreached : Reached (start initial.buffer) m := .head hfirst (.single hsecond)
      obtain ⟨horder, -, -, hline⟩ := parser_confined List.length_replicate hreached
      exact ⟨m, hreached, hpoint, hchecked, horder, hline 0 hpoint⟩

end ServerListings.Analysis.ParserConfined
