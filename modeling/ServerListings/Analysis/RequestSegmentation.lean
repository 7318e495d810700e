import ServerListings.Interface.RequestReader

/-!
# Listing 8-3 decides its language however the stream is segmented

The parser between two `parse_content` calls and the one-pass reader after the same bytes
are related by `Follows`: the buffer from `start_line` on holds the reader's pending bytes,
and the checked index is behind the text of the line, at its CR if that has arrived. A call
after the next chunk then gives the reader's verdict on all bytes so far (`contentLoop_reads`),
and the relation holds again if there is none.
-/

set_option autoImplicit false

namespace ServerListings.Analysis.RequestSegmentation

open Lib.CMem Lib.LineReader ServerListings.Model ServerListings.Model.ParseLine
open ServerListings.Interface ServerListings.Interface.RequestReader

/-- The line acceptance of the code, as the reader's. -/
abbrev codeReader : Handler Phase Verdict := reader (IsRequestLine anyCase)

def checkState : Phase → CheckState
  | .requestLine => .checkStateRequestline
  | .header => .checkStateHeader

/-- The parser with a line start at `pre`, the bytes `x` received since, and the first
`scanned` of them looked at. -/
structure At (p : Parser) (phase : Phase) (pre x : List UInt8) (scanned free : Nat) : Prop where
  buffer : p.buffer = pre ++ (x ++ List.replicate free 0)
  startLine : p.startLine = pre.length
  readIndex : p.readIndex = pre.length + x.length
  checkedIndex : p.checkedIndex = pre.length + scanned
  checkstate : p.checkstate = checkState phase
  noCr : pre.getLast? ≠ some CR

/-- The parser has consumed what the reader has consumed. -/
def Follows (p : Parser) (st : State Phase) (free : Nat) : Prop :=
  ∃ pre, At p st.ctl pre st.pending st.line.length free

/-! ## One line -/

/-- `parse_headers` only tells an empty line from another. -/
theorem parseHeaders_line (pre l r : List UInt8) :
    parseHeaders (pre ++ (l ++ 0 :: r)) pre.length =
      .ok (if cstr l = [] then .getRequest else .noRequest) := by
  have hf : fetch (pre ++ (l ++ 0 :: r)) pre.length = .ok (cstr l) := fetch_append rfl
  unfold parseHeaders
  cases l with
  | nil =>
    have hload : load (pre ++ ([] ++ 0 :: r)) pre.length = .ok 0 := load_append_cons _ _ _
    rw [hload]
    rfl
  | cons b l =>
    have hload : load (pre ++ (b :: l ++ 0 :: r)) pre.length = .ok b := load_append_cons _ _ _
    rw [hload]
    by_cases hb : b = 0
    · simp [hb, cstr, pure, Except.pure]
    · have hne : cstr (b :: l) ≠ [] := by simp [cstr, hb]
      rw [if_neg hne]
      simp only [ok_bind, if_neg hb, strncasecmp_of_fetch hf]
      split
      · rename_i hhost
        have hlen : 5 ≤ (cstr (b :: l)).length := by
          have h := length_of_eqIgnoreCase hhost
          have h5 : (bytes "Host:").length = 5 := by decide
          rw [h5, List.length_take] at h
          omega
        have hspan := fetch_add hf hlen
        have htext := fetch_add hspan
          (List.takeWhile_prefix (fun x => decide (x ∈ [TAB]))).length_le
        simp only [strspn_of_fetch hspan, ok_bind, htext, pure, Except.pure]
      · rfl

/-- `parse_requestline` decides on its line alone. -/
theorem parseRequestline_line {p : Parser} {pre l r : List UInt8}
    (hbuf : p.buffer = pre ++ (l ++ 0 :: r)) :
    ∃ l' : List UInt8, l'.length = l.length ∧ parseRequestline p pre.length =
      .ok (if IsRequestLine anyCase (cstr l) then
          (.noRequest, { p with buffer := pre ++ (l' ++ 0 :: r), checkstate := .checkStateHeader })
        else (.badRequest, { p with buffer := pre ++ (l' ++ 0 :: r) })) := by
  obtain ⟨res, hres, hacc, l', hlen, hl', hurl⟩ := requestLine_reads [TAB] pre l r none
  refine ⟨l', hlen, ?_⟩
  have hprinted : strAt (pre ++ (l' ++ 0 :: r)) res.url = .ok (readRequestLine [TAB] (cstr l)).url := by
    simpa using strAt_append_right r hurl
  unfold parseRequestline
  rw [hbuf, hres]
  simp only [ok_bind, hl', hacc, ← readRequestLine_accepted_iff, hprinted]
  split <;> rfl

/-! ## One call -/

/-- What a `parse_content` call returns and leaves behind when the reader ends in `out`. -/
def Outcome (res : Checked (HttpCode × Parser)) (free : Nat) : Except Verdict (State Phase) → Prop
  | .ok st => ∃ p, res = .ok (.noRequest, p) ∧ Follows p st free
  | .error v => ∃ p, res = .ok (code v, p)

/-- The loop of `parse_content`, entered with `v` scanned and `y` not looked at yet. The
induction is on the iterations left; an iteration that does not return has consumed at least
the two bytes of a line ending. -/
theorem contentLoop_reads (fuel : Nat) : ∀ (p : Parser) (phase : Phase) (pre v y : List UInt8)
    (free : Nat), At p phase pre (v ++ y) v.length free → Clean v → y.length < fuel →
    Outcome (contentLoop fuel p) free (feed codeReader (State.fresh phase) (v ++ y)) := by
  induction fuel with
  | zero =>
    intro p phase pre v y free _ _ hfuel
    omega
  | succ fuel ih =>
    intro p phase pre v y free hat hv hfuel
    have hbuf : p.buffer = pre ++ (v ++ y ++ List.replicate free 0) := hat.buffer
    have hscan := lineScan_outcome codeReader phase y (List.replicate free 0) hv hat.noCr
    unfold contentLoop praseLine
    rw [hbuf, hat.checkedIndex, hat.readIndex]
    generalize lineScan _ _ _ = scan at hscan ⊢
    generalize feed codeReader _ (v ++ y) = out at hscan ⊢
    cases hscan with
    | incomplete u y' st hy hu hctl hline hpending =>
      refine ⟨_, rfl, pre, ?_⟩
      rw [hctl, hline, hpending]
      exact ⟨rfl, hat.startLine, rfl, rfl, hat.checkstate, hat.noCr⟩
    | bad u y' hy hu => exact ⟨_, rfl⟩
    | line u w hy hu =>
      have hread : p.readIndex = pre.length + (v ++ u).length + 2 + w.length := by
        rw [hat.readIndex, hy]
        simp only [List.length_append, List.length_cons]
        omega
      have hfuel' : w.length < fuel := by
        simp only [hy, List.length_append, List.length_cons] at hfuel
        omega
      -- the parser at the start of the next line, with the line's bytes rewritten to `l'`
      have hnext : ∀ (q : Parser) (phase' : Phase) (l' : List UInt8), l'.length = (v ++ u).length →
          q.buffer = pre ++ (l' ++ 0 :: 0 :: (w ++ List.replicate free 0)) →
          q.startLine = pre.length + (v ++ u).length + 2 →
          q.checkedIndex = pre.length + (v ++ u).length + 2 →
          q.readIndex = pre.length + (v ++ y).length → q.checkstate = checkState phase' →
          Outcome (contentLoop fuel q) free (feed codeReader (State.fresh phase') w) := by
        intro q phase' l' hlen hqb hqs hqc hqr hqp
        have hpos : (pre ++ l' ++ [0, 0]).length = pre.length + (v ++ u).length + 2 := by
          simp [hlen]
          omega
        have hat' : At q phase' (pre ++ l' ++ [0, 0]) ([] ++ w) ([] : List UInt8).length free := by
          refine ⟨by simp [hqb], by rw [hqs, hpos], ?_, by rw [hqc, hpos]; rfl, hqp,
            by simp; decide⟩
          rw [hqr, ← hat.readIndex, hread, hpos]
          simp
        exact ih q phase' _ [] w free hat' clean_nil hfuel'
      simp only [ok_bind, hat.checkstate, hat.startLine]
      cases phase with
      | requestLine =>
        simp only [checkState]
        generalize hq : Parser.mk _ _ _ _ _ = q
        obtain ⟨l', hlen, hparse⟩ := parseRequestline_line (p := q) (l := v ++ u) (by rw [← hq])
        rw [hparse]
        subst hq
        by_cases haccept : IsRequestLine anyCase (cstr (v ++ u))
        · simp only [reader, if_pos haccept, ok_bind, reduceCtorEq, if_false]
          exact hnext _ .header l' hlen rfl rfl rfl rfl rfl
        · simp only [reader, if_neg haccept, ok_bind, if_true]
          exact ⟨_, rfl⟩
      | header =>
        simp only [checkState, parseHeaders_line, reader, ok_bind]
        by_cases hempty : cstr (v ++ u) = []
        · simp only [hempty, if_true]
          exact ⟨_, rfl⟩
        · simp only [if_neg hempty]
          exact hnext _ .header (v ++ u) rfl rfl rfl rfl rfl rfl

/-! ## The calls of a whole stream -/

/-- A chunk that fits arrives behind the pending bytes. -/
theorem receive_at {p : Parser} {st : State Phase} {free : Nat} (data : List UInt8)
    (h : Follows p st free) (hdata : data.length ≤ free) :
    ∃ q, receive p data = .ok q ∧
      ∃ pre, At q st.ctl pre (st.pending ++ data) st.line.length (free - data.length) := by
  obtain ⟨pre, hat⟩ := h
  have hused : p.readIndex = (pre ++ st.pending).length := by rw [hat.readIndex, List.length_append]
  have hcopy : copyIn p.buffer p.readIndex data =
      .ok (pre ++ st.pending ++ data ++ List.replicate (free - data.length) 0) := by
    rw [hat.buffer, ← List.append_assoc, hused, copyIn_zeros _ _ _ hdata]
  refine ⟨_, by rw [receive, hcopy]; rfl, pre, ?_⟩
  exact ⟨by simp, hat.startLine, by simp [hused, Nat.add_assoc], hat.checkedIndex, hat.checkstate,
    hat.noCr⟩

/-- A call after the next chunk gives what the reader gives on the pending bytes and the
chunk. -/
theorem parseContent_reads {q : Parser} {st : State Phase} {data pre : List UInt8} {free : Nat}
    (h : At q st.ctl pre (st.pending ++ data) st.line.length free) :
    Outcome (parseContent q) free (feed codeReader st data) := by
  have hsplit : st.pending ++ data = st.line ++ ((if st.cr then [CR] else []) ++ data) := by
    simp [State.pending]
  rw [hsplit] at h
  have hfuel : ((if st.cr then [CR] else []) ++ data).length < q.readIndex - q.checkedIndex + 1 := by
    rw [h.readIndex, h.checkedIndex]
    simp only [List.length_append]
    omega
  rw [feed_eq_fresh, hsplit]
  exact contentLoop_reads _ q st.ctl pre st.line _ free h st.clean hfuel

/-- The read loop, from any point of a stream that is not decided yet. The induction is on
the chunks still to come. -/
theorem readLoop_expected (chunks : List (List UInt8)) : ∀ (seen : List UInt8) (p : Parser)
    (st : State Phase) (free : Nat), feed codeReader (State.fresh .requestLine) seen = .ok st →
    Follows p st free → chunks.flatten.length ≤ free →
    readLoop p chunks = .ok (expected (IsRequestLine anyCase) seen chunks) := by
  induction chunks with
  | nil =>
    intro seen p st free _ _ _
    rfl
  | cons data rest ih =>
    intro seen p st free hseen hfollows hfits
    rw [List.flatten_cons, List.length_append] at hfits
    obtain ⟨q, hq, pre, hat⟩ := receive_at data hfollows (by omega)
    have hcall := parseContent_reads hat
    have hfeed : feed codeReader (State.fresh .requestLine) (seen ++ data) =
        feed codeReader st data := by
      rw [feed_append, hseen, ok_bind]
    unfold readLoop expected decision
    rw [hq, hfeed]
    simp only [ok_bind]
    cases hout : feed codeReader st data with
    | error v =>
      rw [hout] at hcall
      obtain ⟨q', hq'⟩ := hcall
      rw [hq']
      cases v <;> rfl
    | ok st' =>
      rw [hout] at hcall
      obtain ⟨q', hq', hfollows'⟩ := hcall
      rw [hq']
      simp only [ok_bind, if_true]
      rw [ih (seen ++ data) q' st' _ (by rw [hfeed, hout]) hfollows' (by omega)]
      rfl

/-- The parser starts where the line reader does. -/
theorem follows_initial : Follows initial (State.fresh .requestLine) bufferSize := by
  refine ⟨[], ?_⟩
  exact ⟨rfl, rfl, rfl, rfl, rfl, by simp⟩

/-- **However the stream arrives in chunks, the calls give the reader's results**: none of
them faults, they return `NO_REQUEST` up to the chunk with the first deciding byte, and then
the verdict. The scheme of the target is recognised in any case. -/
theorem readLoop_decides (chunks : List (List UInt8)) (h : chunks.flatten.length ≤ bufferSize) :
    readLoop initial chunks = .ok (expected (IsRequestLine anyCase) [] chunks) :=
  readLoop_expected chunks [] initial _ _ rfl follows_initial h

/-- The result for a request whose first line is cut between its CR and its LF. -/
theorem readLoop_decides_split :
    [bytes "GET\t/\tHTTP/1.1\r", bytes "\n\r\nx"].flatten.length ≤ bufferSize ∧
      readLoop initial [bytes "GET\t/\tHTTP/1.1\r", bytes "\n\r\nx"] =
        .ok (expected (IsRequestLine anyCase) [] [bytes "GET\t/\tHTTP/1.1\r", bytes "\n\r\nx"]) :=
  ⟨by decide, readLoop_decides _ (by decide)⟩

/-! ### The scheme in another case -/

noncomputable instance : DecidablePred (IsRequestLine exactCase) := Classical.decPred _

/-- A request line whose scheme is matched byte for byte has a target that starts with a
slash or with the scheme's first letter. -/
theorem target_head_of_exactCase {method rest : List UInt8}
    (h : IsRequestLine exactCase (method ++ TAB :: rest)) (hmethod : TAB ∉ method) :
    (rest.dropWhile (· ∈ [TAB])).head? ∈ [some SLASH, some 104] := by
  obtain ⟨method', tabs, target, tabs', version, path, heq, hget, hne, htabs, -, -, -, -, his, hpath⟩ := h
  have hhead : target.head? ∈ [some SLASH, some 104] := by
    rcases his with ⟨-, rfl⟩ | ⟨hscheme, -⟩
    · simp [hpath]
    · cases target with
      | nil => cases hscheme
      | cons b target =>
        have hb : b = 104 := by simpa [bytes] using congrArg List.head? hscheme
        simp [hb]
  obtain ⟨c, ts, rfl⟩ := List.exists_cons_of_ne_nil hne
  obtain rfl : c = TAB := htabs c (by simp)
  have hbreak := @breakAt_append_cons [TAB] method rest TAB
    (by simpa using fun x hx => ne_of_mem_of_not_mem hx hmethod) (by simp)
  have hmethod' : TAB ∉ method' := tab_notMem hget (by decide)
  have hbreak' := @breakAt_append_cons [TAB] method' (ts ++ (target ++ (tabs' ++ version))) TAB
    (by simpa using fun x hx => ne_of_mem_of_not_mem hx hmethod') (by simp)
  rw [heq] at hbreak
  simp only [List.append_assoc, List.cons_append] at hbreak hbreak'
  obtain ⟨-, rfl⟩ : method' = method ∧ ts ++ (target ++ (tabs' ++ version)) = rest := by
    simpa [hbreak'] using hbreak
  rw [dropWhile_eq_of_all (by simpa using fun x hx => htabs x (by simp [hx]))]
  · cases target with
    | nil => simp at hhead
    | cons b target => simpa using hhead
  · intro x hx
    cases target with
    | nil => simp at hhead
    | cons b target =>
      obtain rfl : b = x := by simpa using hx
      rcases (by simpa using hhead : b = SLASH ∨ b = 104) with rfl | rfl <;> decide

set_option maxRecDepth 100000 in
/-- With a scheme in capitals the code accepts what the byte-for-byte grammar rejects. -/
theorem readLoop_exactCase_false :
    ¬ ∀ chunks : List (List UInt8), chunks.flatten.length ≤ bufferSize →
      readLoop initial chunks = .ok (expected (IsRequestLine exactCase) [] chunks) := by
  intro h
  have hline : ¬ IsRequestLine exactCase (cstr (bytes "GET\tHTTP://h/\tHTTP/1.1")) := by
    intro hline
    have hhead := @target_head_of_exactCase (bytes "GET") (bytes "HTTP://h/\tHTTP/1.1") hline
      (by decide)
    revert hhead
    decide
  have hrun := h [bytes "GET\tHTTP://h/\tHTTP/1.1\r\n\r\n"] (by decide)
  have hcode : readLoop initial [bytes "GET\tHTTP://h/\tHTTP/1.1\r\n\r\n"] = .ok [.getRequest] := by
    decide
  have hfeed := feed_fresh_crlf (reader (IsRequestLine exactCase)) .requestLine
    (bytes "GET\tHTTP://h/\tHTTP/1.1") (bytes "\r\n") (by unfold Clean; decide)
  have hdecision : decision (IsRequestLine exactCase) (bytes "GET\tHTTP://h/\tHTTP/1.1\r\n\r\n") =
      some .badRequest := by
    unfold decision
    rw [show bytes "GET\tHTTP://h/\tHTTP/1.1\r\n\r\n" =
      bytes "GET\tHTTP://h/\tHTTP/1.1" ++ CR :: LF :: bytes "\r\n" by decide, hfeed]
    simp only [reader, if_neg hline, error_bind]
  rw [hcode] at hrun
  simp only [expected, List.nil_append, hdecision, code] at hrun
  cases hrun

end ServerListings.Analysis.RequestSegmentation
