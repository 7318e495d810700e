import ServerListings.Model.SharedParser

/-!
# The shared parser functions as functions of the text

`lineScan` over a buffer `pre ++ (x ++ post)`, where `x` is what lies between the checked
and the read index, ends according to how `x` begins (`Cut`); and `requestLine` on a
NUL-terminated line is `readRequestLine` of its C string, a function that knows nothing of
buffers and pointers. Both touch the line's own bytes only: the result has the same `pre`
and the same bytes from the terminator on.
-/

set_option autoImplicit false

namespace ServerListings.Interface

open Lib.CMem Lib.LineReader ServerListings.Model

/-! ## The line scan -/

/-- The scan goes over bytes of a line. -/
theorem lineLoop_skip (n : Nat) (pre u post : List UInt8) (read : Nat) (hu : Clean u) :
    lineLoop (n + u.length) (pre ++ (u ++ post)) pre.length read =
      lineLoop n (pre ++ (u ++ post)) (pre.length + u.length) read := by
  induction u generalizing pre with
  | nil => rfl
  | cons b u ih =>
    obtain ⟨hcr, hlf⟩ := hu b (by simp)
    have hrest : Clean u := fun x hx => hu x (by simp [hx])
    have hload : load (pre ++ (b :: u ++ post)) pre.length = .ok b := load_append_cons _ _ _
    have hnext := ih (pre ++ [b]) hrest
    simp only [List.append_assoc, List.length_append, List.length_cons, List.length_nil,
      List.cons_append, List.nil_append, Nat.zero_add] at hnext
    rw [List.length_cons, ← Nat.add_assoc, lineLoop, hload]
    simp only [ok_bind, hcr, hlf, if_false, List.cons_append]
    rw [hnext]
    congr 1
    omega

/-- Scanning over bytes that end no line only advances the checked index. -/
theorem lineScan_skip (pre u post : List UInt8) (read : Nat) (hu : Clean u)
    (hread : pre.length + u.length ≤ read) :
    lineScan (pre ++ (u ++ post)) pre.length read =
      lineScan ((pre ++ u) ++ post) (pre ++ u).length read := by
  have hcount : read - pre.length = (read - (pre.length + u.length)) + u.length := by omega
  rw [lineScan, hcount, lineLoop_skip _ _ _ _ _ hu, lineScan, List.append_assoc, List.length_append]

/-- Bytes without a line end are an open line. -/
theorem lineScan_clean (pre u post : List UInt8) (hu : Clean u) :
    lineScan (pre ++ (u ++ post)) pre.length (pre.length + u.length) =
      .ok ⟨.lineOpen, pre ++ (u ++ post), pre.length + u.length⟩ := by
  rw [lineScan_skip _ _ _ _ hu (Nat.le_refl _)]
  simp [lineScan, lineLoop]

/-- One iteration of the scan, at the byte the checked index is at. -/
theorem lineScan_at (pre post : List UInt8) (b : UInt8) (read : Nat) (hread : pre.length < read) :
    lineScan (pre ++ b :: post) pre.length read =
      lineLoop (read - pre.length - 1 + 1) (pre ++ b :: post) pre.length read := by
  rw [lineScan]
  congr 1
  omega

/-- A CR as the last byte leaves the line open. -/
theorem lineScan_cr (pre u post : List UInt8) (hu : Clean u) :
    lineScan (pre ++ (u ++ CR :: post)) pre.length (pre.length + u.length + 1) =
      .ok ⟨.lineOpen, pre ++ (u ++ CR :: post), pre.length + u.length⟩ := by
  rw [lineScan_skip _ _ _ _ hu (by omega), lineScan_at _ _ _ _ (by simp), lineLoop, load_append_cons]
  simp

/-- CR LF ends the line, and NULs take their place. -/
theorem lineScan_crlf (pre u post : List UInt8) (read : Nat) (hu : Clean u)
    (hread : pre.length + u.length + 2 ≤ read) :
    lineScan (pre ++ (u ++ CR :: LF :: post)) pre.length read =
      .ok ⟨.lineOk, pre ++ (u ++ 0 :: 0 :: post), pre.length + u.length + 2⟩ := by
  rw [lineScan_skip _ _ _ _ hu (by omega), lineScan_at _ _ _ _ (by simp only [List.length_append]; omega), lineLoop,
    load_append_cons]
  have hne : (pre ++ u).length + 1 ≠ read := by rw [List.length_append]; omega
  simp only [ok_bind, if_true, if_neg hne, load_append_cons_cons, store_append_cons,
    store_append_cons_cons]
  simp

/-- A CR without LF is a bad line. -/
theorem lineScan_badCr (pre u post : List UInt8) (b : UInt8) (read : Nat) (hu : Clean u)
    (hb : b ≠ LF) (hread : pre.length + u.length + 2 ≤ read) :
    lineScan (pre ++ (u ++ CR :: b :: post)) pre.length read =
      .ok ⟨.lineBad, pre ++ (u ++ CR :: b :: post), pre.length + u.length⟩ := by
  rw [lineScan_skip _ _ _ _ hu (by omega), lineScan_at _ _ _ _ (by simp only [List.length_append]; omega), lineLoop,
    load_append_cons]
  have hne : (pre ++ u).length + 1 ≠ read := by rw [List.length_append]; omega
  simp only [ok_bind, if_true, if_neg hne, load_append_cons_cons, hb, if_false]
  simp

/-- The look-back of the LF branch finds no CR: the byte before was scanned already, or
ends an earlier line. -/
theorem lineScan_badLf (pre u post : List UInt8) (read : Nat) (hu : Clean u)
    (hprev : pre.getLast? ≠ some CR) (hread : pre.length + u.length + 1 ≤ read) :
    lineScan (pre ++ (u ++ LF :: post)) pre.length read =
      .ok ⟨.lineBad, pre ++ (u ++ LF :: post), pre.length + u.length⟩ := by
  have hlast : (pre ++ u).getLast? ≠ some CR := by
    intro h
    rcases List.eq_nil_or_concat' u with rfl | ⟨u', b, rfl⟩
    · exact hprev (by simpa using h)
    · rw [← List.append_assoc, List.getLast?_concat] at h
      exact (hu b (by simp)).1 (by simpa using h)
  have hlf : LF ≠ CR := by decide
  rw [lineScan_skip _ _ _ _ hu (by omega), lineScan_at _ _ _ _ (by simp only [List.length_append]; omega), lineLoop,
    load_append_cons]
  simp only [ok_bind, if_neg hlf, if_true]
  split
  · rename_i hpos
    obtain ⟨l, b, hl⟩ := (List.eq_nil_or_concat' (pre ++ u)).resolve_left (by
      intro h0
      simp [h0] at hpos)
    have hback : load ((pre ++ u) ++ LF :: post) ((pre ++ u).length - 1) = .ok b := by
      rw [hl]
      simp [load]
    have hbne : b ≠ CR := by
      intro hb
      exact hlast (by rw [hl, List.getLast?_concat, hb])
    simp only [hback, ok_bind, if_neg hbne]
    simp
  · simp

/-- The byte before a place where a line may go on is no CR. -/
theorem last_ne_cr {pre v : List UInt8} (hpre : pre.getLast? ≠ some CR) (hv : Clean v) :
    (pre ++ v).getLast? ≠ some CR := by
  rcases List.eq_nil_or_concat' v with rfl | ⟨v', b, rfl⟩
  · simpa using hpre
  · rw [← List.append_assoc, List.getLast?_concat]
    simpa using (hv b (by simp)).1

/-- How a scan ends that has `v` behind it and `y` before it, and what a reader of lines
makes of the same bytes. -/
inductive ScanOutcome {σ ν : Type} (H : Handler σ ν) (s : σ) (pre v y post : List UInt8) :
    Checked LineScan → Except ν (State σ) → Prop
  | incomplete (u y' : List UInt8) (st : State σ) (hy : y = u ++ y') (hu : Clean u)
      (hctl : st.ctl = s) (hline : st.line = v ++ u) (hpending : st.pending = v ++ y) :
      ScanOutcome H s pre v y post
        (.ok ⟨.lineOpen, pre ++ (v ++ y ++ post), pre.length + (v ++ u).length⟩) (.ok st)
  | bad (u y' : List UInt8) (hy : y = u ++ y') (hu : Clean u) :
      ScanOutcome H s pre v y post
        (.ok ⟨.lineBad, pre ++ (v ++ y ++ post), pre.length + (v ++ u).length⟩) (.error (H.bad s))
  | line (u w : List UInt8) (hy : y = u ++ CR :: LF :: w) (hu : Clean u) :
      ScanOutcome H s pre v y post
        (.ok ⟨.lineOk, pre ++ ((v ++ u) ++ 0 :: 0 :: (w ++ post)), pre.length + (v ++ u).length + 2⟩)
        (H.line s (v ++ u) >>= fun s' => feed H (State.fresh s') w)

/-- The scan of a line and the reader agree on how the line ends. -/
theorem lineScan_outcome {σ ν : Type} (H : Handler σ ν) (s : σ) {pre v : List UInt8}
    (y post : List UInt8) (hv : Clean v) (hpre : pre.getLast? ≠ some CR) :
    ScanOutcome H s pre v y post
      (lineScan (pre ++ (v ++ y ++ post)) (pre.length + v.length) (pre.length + (v ++ y).length))
      (feed H (State.fresh s) (v ++ y)) := by
  have hbuf : pre ++ (v ++ y ++ post) = (pre ++ v) ++ (y ++ post) := by simp
  have hchecked : pre.length + v.length = (pre ++ v).length := List.length_append.symm
  have hread : pre.length + (v ++ y).length = (pre ++ v).length + y.length := by
    simp [Nat.add_assoc]
  cases cut y with
  | clean _ hy =>
    have hscan := lineScan_clean (pre ++ v) y post hy
    rw [← hbuf, ← hread, ← hchecked] at hscan
    rw [hscan, feed_fresh_clean _ _ _ (hv.append hy)]
    exact .incomplete y [] _ (by simp) hy rfl rfl (by simp [State.pending])
  | cr u hu =>
    have hscan := lineScan_cr (pre ++ v) u post hu
    rw [show (pre ++ v) ++ (u ++ CR :: post) = pre ++ (v ++ (u ++ [CR]) ++ post) by simp,
      show (pre ++ v).length + u.length + 1 = pre.length + (v ++ (u ++ [CR])).length by
        simp [Nat.add_assoc], ← hchecked] at hscan
    rw [hscan, ← List.append_assoc v, feed_fresh_cr _ _ _ (hv.append hu),
      show pre.length + v.length + u.length = pre.length + (v ++ u).length by simp [Nat.add_assoc],
      List.append_assoc v]
    exact .incomplete u [CR] _ rfl hu rfl rfl (by simp [State.pending])
  | badCr u b w hu hb =>
    have hscan := lineScan_badCr (pre ++ v) u (w ++ post) b
      ((pre ++ v).length + (u ++ CR :: b :: w).length) hu hb (by simp only [List.length_append, List.length_cons]; omega)
    rw [hbuf, hchecked, hread, show (u ++ CR :: b :: w) ++ post = u ++ CR :: b :: (w ++ post) by simp,
      hscan, ← List.append_assoc v, feed_fresh_badCr _ _ _ _ _ (hv.append hu) hb]
    have hout : ScanOutcome H s pre v (u ++ CR :: b :: w) post _ _ := .bad u (CR :: b :: w) rfl hu
    simpa [Nat.add_assoc] using hout
  | badLf u w hu =>
    have hscan := lineScan_badLf (pre ++ v) u (w ++ post)
      ((pre ++ v).length + (u ++ LF :: w).length) hu (last_ne_cr hpre hv) (by simp only [List.length_append, List.length_cons]; omega)
    rw [hbuf, hchecked, hread, show (u ++ LF :: w) ++ post = u ++ LF :: (w ++ post) by simp, hscan,
      ← List.append_assoc v, feed_fresh_badLf _ _ _ _ (hv.append hu)]
    have hout : ScanOutcome H s pre v (u ++ LF :: w) post _ _ := .bad u (LF :: w) rfl hu
    simpa [Nat.add_assoc] using hout
  | crlf u w hu =>
    have hscan := lineScan_crlf (pre ++ v) u (w ++ post)
      ((pre ++ v).length + (u ++ CR :: LF :: w).length) hu (by simp only [List.length_append, List.length_cons]; omega)
    rw [hbuf, hchecked, hread, show (u ++ CR :: LF :: w) ++ post = u ++ CR :: LF :: (w ++ post) by simp,
      hscan, ← List.append_assoc v, feed_fresh_crlf _ _ _ _ (hv.append hu)]
    have hout : ScanOutcome H s pre v (u ++ CR :: LF :: w) post _ _ := .line u w rfl hu
    simpa [Nat.add_assoc] using hout

/-! ## The request line -/

/-- What a request line says: the string the URL pointer refers to afterwards, and whether
the line is accepted. -/
structure RequestText where
  url : Option (List UInt8)
  accepted : Bool
  deriving DecidableEq, Repr

/-- The URL after a leading `http://` and the host: the text from the next slash on. -/
def dropScheme (target : List UInt8) : Option (List UInt8) :=
  if eqIgnoreCase (target.take 7) (bytes "http://") then
    (breakAt [SLASH] (target.drop 7)).map fun x => SLASH :: x.2
  else
    some target

/-- The last stage of a request line: its target, once the version is accepted. -/
def readUrl (target : List UInt8) : RequestText :=
  match dropScheme target with
  | none => ⟨none, false⟩
  | some url => ⟨some url, url.head? == some SLASH⟩

/-- The second stage: what follows the method. -/
def readTarget (t : List UInt8) : RequestText :=
  let t := t.dropWhile (· ∈ [TAB])
  match breakAt [TAB] t with
  | none => ⟨some t, false⟩
  | some (target, t) =>
    if !eqIgnoreCase (t.dropWhile (· ∈ [TAB])) (bytes "HTTP/1.1") then ⟨some target, false⟩
    else readUrl target

def readRequestLine (delims t : List UInt8) : RequestText :=
  match breakAt delims t with
  | none => ⟨none, false⟩
  | some (method, t) =>
    if !eqIgnoreCase method (bytes "GET") then ⟨some t, false⟩ else readTarget t

/-- `strAt` of a pointer to bytes that a NUL follows. -/
theorem strAt_some {m pre l r : List UInt8} {p : Nat} (h0 : (0 : UInt8) ∉ l)
    (hm : m = pre ++ (l ++ 0 :: r)) (hp : p = pre.length) : strAt m (some p) = .ok (some l) := by
  simp only [strAt, fetch_terminated h0 hm hp]
  rfl

/-- The agreement of a request line stage run on the bytes `l` behind `pre` with the text
`t`: only bytes of `l` are rewritten, and the URL pointer refers to a string inside
`pre ++ l`. -/
structure Reads (pre l r : List UInt8) (res : RequestLine) (t : RequestText) : Prop where
  accepted : res.accepted = t.accepted
  line : ∃ l' : List UInt8, l'.length = l.length ∧ res.buf = pre ++ (l' ++ 0 :: r) ∧
    strAt (pre ++ (l' ++ [0])) res.url = .ok t.url

/-- A stage that agrees on the end of the line agrees on the line. -/
theorem Reads.prepend {pre a l r : List UInt8} {res : RequestLine} {t : RequestText}
    (a' : List UInt8) (ha : a'.length = a.length) (h : Reads (pre ++ a') l r res t) :
    Reads pre (a ++ l) r res t := by
  obtain ⟨hacc, l', hlen, hbuf, hurl⟩ := h
  refine ⟨hacc, a' ++ l', by simp [ha, hlen], by simpa using hbuf, by simpa using hurl⟩

/-- A stage that agrees on the text before a stored NUL agrees on the line. -/
theorem Reads.extend {pre l u r : List UInt8} {d : UInt8} {res : RequestLine} {t : RequestText}
    (h : Reads pre l (u ++ 0 :: r) res t) : Reads pre (l ++ d :: u) r res t := by
  obtain ⟨hacc, l', hlen, hbuf, hurl⟩ := h
  refine ⟨hacc, l' ++ 0 :: u, by simp [hlen], by simpa using hbuf, ?_⟩
  simpa using strAt_append_right (u ++ [0]) hurl

/-- The code for the URL does what the reader of texts does. -/
theorem requestUrl_reads (pre target r : List UInt8) (version : Nat) (h0 : (0 : UInt8) ∉ target) :
    ∃ res, requestUrl (pre ++ (target ++ 0 :: r)) pre.length version = .ok res ∧
      Reads pre target r res (readUrl target) := by
  unfold requestUrl readUrl dropScheme
  rw [strncasecmp_of_fetch (fetch_terminated h0 rfl rfl)]
  have hlen : (bytes "http://").length = 7 := by decide
  cases hscheme : eqIgnoreCase (target.take 7) (bytes "http://") with
  | false =>
    have hfirst : load (pre ++ (target ++ 0 :: r)) pre.length =
        .ok ((target ++ [0]).head (by simp)) := by
      cases target with
      | nil => exact load_append_cons _ _ _
      | cons b target => exact load_append_cons _ _ _
    simp only [ok_bind, hlen, hscheme, Bool.false_eq_true, if_false, pure_bind, hfirst]
    refine ⟨_, rfl, ⟨?_, target, rfl, rfl, strAt_some h0 rfl rfl⟩⟩
    cases target with
    | nil => rfl
    | cons b target => simp
  | true =>
    simp only [ok_bind, hlen, hscheme, if_true, strchr]
    -- the scheme's seven bytes are there, so the host starts inside the line
    have hseven : (target.take 7).length = 7 := by
      rw [length_of_eqIgnoreCase hscheme, hlen]
    have hsplit : pre ++ (target ++ 0 :: r) =
        (pre ++ target.take 7) ++ (target.drop 7 ++ 0 :: r) := by
      rw [List.append_assoc, ← List.append_assoc (target.take 7), List.take_append_drop]
    have h0drop : (0 : UInt8) ∉ target.drop 7 := fun h => h0 (List.mem_of_mem_drop h)
    rcases breakAt_cases [SLASH] (target.drop 7) with ⟨hb, hall⟩ | ⟨host, d, path, hb, heq, hd, hall⟩
    · rw [strpbrk_none (fetch_terminated h0drop hsplit (by simp [hseven])) hall, hb]
      exact ⟨_, rfl, rfl, target, rfl, rfl, rfl⟩
    · obtain rfl : d = SLASH := by simpa using hd
      rw [heq] at h0drop
      rw [strpbrk_some (fetch_terminated h0drop (by rw [hsplit, heq]) (by simp [hseven])) hall hd, hb]
      have hpath : pre ++ (target ++ 0 :: r) =
          (pre ++ target.take 7 ++ host) ++ (SLASH :: path ++ 0 :: r) := by
        rw [hsplit, heq]
        simp
      have hfirst : load (pre ++ (target ++ 0 :: r)) (pre.length + 7 + host.length) = .ok SLASH := by
        rw [hpath, show pre.length + 7 + host.length = (pre ++ target.take 7 ++ host).length by
          simp only [List.length_append, hseven]]
        exact load_append_cons _ _ _
      have hpath0 : (0 : UInt8) ∉ SLASH :: path := by
        intro h
        exact h0drop (List.mem_append_right _ h)
      simp only [ok_bind, hfirst, Option.map_some]
      refine ⟨_, rfl, ⟨rfl, target, rfl, rfl, ?_⟩⟩
      refine @strAt_some _ (pre ++ target.take 7 ++ host) _ [] _ hpath0 ?_ ?_
      · have hend : target = target.take 7 ++ (host ++ SLASH :: path) := by
          rw [← heq, List.take_append_drop]
        conv_lhs => rw [hend]
        simp
      · simp only [List.length_append, hseven]

/-- The code for the target and the version does what the reader of texts does. -/
theorem requestTarget_reads (pre t r : List UInt8) (h0 : (0 : UInt8) ∉ t) :
    ∃ res, requestTarget (pre ++ (t ++ 0 :: r)) pre.length = .ok res ∧
      Reads pre t r res (readTarget t) := by
  have htabs : t = t.takeWhile (· ∈ [TAB]) ++ t.dropWhile (· ∈ [TAB]) :=
    (List.takeWhile_append_dropWhile).symm
  unfold requestTarget readTarget
  rw [strspn_of_fetch (fetch_terminated h0 rfl rfl)]
  generalize t.takeWhile (· ∈ [TAB]) = tabs at htabs
  generalize t.dropWhile (· ∈ [TAB]) = rest at htabs
  subst htabs
  have hrest0 : (0 : UInt8) ∉ rest := fun h => h0 (List.mem_append_right _ h)
  have hsplit : pre ++ (tabs ++ rest ++ 0 :: r) = (pre ++ tabs) ++ (rest ++ 0 :: r) := by simp
  have hptr : pre.length + tabs.length = (pre ++ tabs).length := by simp
  simp only [ok_bind, hsplit, hptr]
  rcases breakAt_cases [TAB] rest with ⟨hb, hall⟩ | ⟨target, d, t, hb, rfl, hd, hall⟩
  · rw [strpbrk_none (fetch_terminated hrest0 rfl rfl) hall, hb]
    refine ⟨_, rfl, Reads.prepend tabs rfl ⟨rfl, rest, rfl, rfl, strAt_some hrest0 rfl rfl⟩⟩
  obtain ⟨htarget0, ht0⟩ : (0 : UInt8) ∉ target ∧ (0 : UInt8) ∉ t := by
    simp only [List.mem_append, List.mem_cons, not_or] at hrest0
    exact ⟨hrest0.1, hrest0.2.2⟩
  -- the target, cut off by the NUL stored over the tab behind it
  have hst : store ((pre ++ tabs) ++ (target ++ d :: t ++ 0 :: r))
      ((pre ++ tabs).length + target.length) 0 =
      .ok ((pre ++ tabs) ++ (target ++ 0 :: (t ++ 0 :: r))) := by
    simpa [Nat.add_assoc] using store_append_cons ((pre ++ tabs) ++ target) (t ++ 0 :: r) d 0
  rw [strpbrk_some (fetch_terminated hrest0 rfl rfl) hall hd, hb]
  simp only [ok_bind, hst]
  have hafter : (pre ++ tabs) ++ (target ++ 0 :: (t ++ 0 :: r)) =
      (pre ++ tabs ++ target ++ [0]) ++ (t ++ 0 :: r) := by simp
  rw [strspn_of_fetch (fetch_terminated ht0 hafter (by simp [Nat.add_assoc]))]
  have htabs : t = t.takeWhile (· ∈ [TAB]) ++ t.dropWhile (· ∈ [TAB]) :=
    (List.takeWhile_append_dropWhile).symm
  generalize t.takeWhile (· ∈ [TAB]) = tabs' at htabs
  generalize t.dropWhile (· ∈ [TAB]) = version at htabs
  subst htabs
  have hversion0 : (0 : UInt8) ∉ version := fun h => ht0 (List.mem_append_right _ h)
  have hversion : (pre ++ tabs) ++ (target ++ 0 :: (tabs' ++ version ++ 0 :: r)) =
      (pre ++ tabs ++ target ++ [0] ++ tabs') ++ (version ++ 0 :: r) := by simp
  simp only [ok_bind]
  rw [strcasecmp_of_fetch (fetch_terminated hversion0 hversion (by simp only [List.length_append, List.length_cons, List.length_nil]))]
  simp only [ok_bind]
  cases hv : eqIgnoreCase version (bytes "HTTP/1.1") with
  | false =>
    refine ⟨_, rfl, Reads.prepend tabs rfl (Reads.extend ⟨rfl, target, rfl, rfl, ?_⟩)⟩
    exact strAt_some htarget0 rfl rfl
  | true =>
    obtain ⟨res, hres, hreads⟩ := requestUrl_reads (pre ++ tabs) target (tabs' ++ version ++ 0 :: r)
      ((pre ++ tabs).length + target.length + 1 + tabs'.length) htarget0
    exact ⟨res, hres, Reads.prepend tabs rfl (Reads.extend hreads)⟩

/-- The request line code on a C string. -/
theorem requestLine_reads_cstr (delims pre l r : List UInt8) (v : Option Nat) (h0 : (0 : UInt8) ∉ l) :
    ∃ res, requestLine delims (pre ++ (l ++ 0 :: r)) pre.length v = .ok res ∧
      Reads pre l r res (readRequestLine delims l) := by
  unfold requestLine readRequestLine
  rcases breakAt_cases delims l with ⟨hb, hall⟩ | ⟨method, d, t, hb, rfl, hd, hall⟩
  · rw [strpbrk_none (fetch_terminated h0 rfl rfl) hall, hb]
    exact ⟨_, rfl, rfl, l, rfl, rfl, rfl⟩
  obtain ⟨hmethod0, ht0⟩ : (0 : UInt8) ∉ method ∧ (0 : UInt8) ∉ t := by
    simp only [List.mem_append, List.mem_cons, not_or] at h0
    exact ⟨h0.1, h0.2.2⟩
  -- the method, cut off by the NUL stored over the delimiter
  have hst : store (pre ++ (method ++ d :: t ++ 0 :: r)) (pre.length + method.length) 0 =
      .ok (pre ++ (method ++ 0 :: (t ++ 0 :: r))) := by
    simpa using store_append_cons (pre ++ method) (t ++ 0 :: r) d 0
  have hafter : pre ++ (method ++ 0 :: (t ++ 0 :: r)) = (pre ++ method ++ [0]) ++ (t ++ 0 :: r) := by
    simp
  have hptr : pre.length + method.length + 1 = (pre ++ method ++ [0]).length := by
    simp [Nat.add_assoc]
  have hline : method ++ d :: t = (method ++ [d]) ++ t := by simp
  rw [strpbrk_some (fetch_terminated h0 rfl rfl) hall hd, hb]
  simp only [ok_bind, hst, strcasecmp_of_fetch (fetch_terminated hmethod0 rfl rfl)]
  rw [hafter, hptr, hline]
  cases hget : eqIgnoreCase method (bytes "GET") with
  | false =>
    refine ⟨_, rfl, Reads.prepend (method ++ [0]) (by simp) ?_⟩
    refine ⟨rfl, t, rfl, by simp, @strAt_some _ (pre ++ (method ++ [0])) _ [] _ ht0 ?_ ?_⟩
    · simp
    · simp
  | true =>
    obtain ⟨res, hres, hreads⟩ := requestTarget_reads (pre ++ method ++ [0]) t r ht0
    refine ⟨res, hres, Reads.prepend (method ++ [0]) (by simp) ?_⟩
    simpa using hreads

/-- The request line code on a line that a NUL follows; the line is looked at as a C string,
so what follows a NUL in it is neither read nor changed. -/
theorem requestLine_reads (delims pre l r : List UInt8) (v : Option Nat) :
    ∃ res, requestLine delims (pre ++ (l ++ 0 :: r)) pre.length v = .ok res ∧
      Reads pre l r res (readRequestLine delims (cstr l)) := by
  obtain hl | ⟨u, hl⟩ := cstr_split l
  · have h := requestLine_reads_cstr delims pre (cstr l) r v (zero_notMem_cstr l)
    rwa [hl] at h ⊢
  · obtain ⟨res, hres, hreads⟩ :=
      requestLine_reads_cstr delims pre (cstr l) (u ++ 0 :: r) v (zero_notMem_cstr l)
    refine ⟨res, ?_, ?_⟩
    · rw [hl, List.append_assoc, List.cons_append]
      exact hres
    · have hext := hreads.extend (d := 0)
      rwa [← hl] at hext

end ServerListings.Interface
