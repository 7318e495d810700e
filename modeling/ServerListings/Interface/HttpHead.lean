import ServerListings.Interface.HeadReader

/-!
# `process_read` follows the header reader

`Shows` says that a connection's members hold what the reader has read, and `At` where the
read buffer and the indices stand: the bytes from `m_start_line` on are the stream's own,
and everything before them belongs to lines already taken apart. One iteration of the loop
of `process_read` on a line does what `headReader` does with it (`parseRequestLine_line`,
`parseHeaders_line`), and the loop does what `feed` does (`readLoop_head`).
-/

set_option autoImplicit false

namespace ServerListings.Interface

open Lib.CMem Lib.LineReader ServerListings.Model ServerListings.Model.Http

/-- The members of `c` hold what `h` says, and its pointers refer to strings in `m`. -/
structure Shows (m : List UInt8) (c : HttpConn) (h : HeadState) : Prop where
  url : strAt m c.mUrl = .ok h.url
  host : strAt m c.mHost = .ok h.host
  linger : c.mLinger = h.linger
  contentLength : c.mContentLength = h.contentLength
  checkState : c.mCheckState = if h.inHeader then .checkStateHeader else .checkStateRequestline

/-- The connection with a line start at `pre`, the bytes `x` received since, and the first
`scanned` of them looked at. -/
structure At (c : HttpConn) (h : HeadState) (pre x : List UInt8) (scanned free : Nat) : Prop where
  buffer : c.mReadBuf = pre ++ (x ++ List.replicate free 0)
  startLine : c.mStartLine = pre.length
  readIdx : c.mReadIdx = pre.length + x.length
  checkedIdx : c.mCheckedIdx = pre.length + scanned
  shows : Shows pre c h
  noCr : pre.getLast? ≠ some CR
  realFile : c.mRealFile = List.replicate filenameLen 0

/-- Nothing but the members a header line sets is changed. -/
structure Keeps (c c' : HttpConn) : Prop where
  readIdx : c'.mReadIdx = c.mReadIdx
  checkedIdx : c'.mCheckedIdx = c.mCheckedIdx
  startLine : c'.mStartLine = c.mStartLine
  realFile : c'.mRealFile = c.mRealFile

/-- A longer memory shows the same head. -/
theorem Shows.append_right {m : List UInt8} {c : HttpConn} {h : HeadState} (post : List UInt8)
    (hs : Shows m c h) : Shows (m ++ post) c h :=
  ⟨strAt_append_right post hs.url, strAt_append_right post hs.host, hs.linger, hs.contentLength,
    hs.checkState⟩

/-! ## One line -/

/-- The number of tabs behind a header's name. -/
def tabsAt (t : List UInt8) (n : Nat) : Nat := ((t.drop n).takeWhile (· ∈ [TAB])).length

/-- The pointer behind a header's name and tabs refers to the header's value. -/
theorem fetch_headerValue {m t : List UInt8} {p n : Nat} (hf : fetch m p = .ok t)
    (hn : n ≤ t.length) :
    strspn m (p + n) [TAB] = .ok (tabsAt t n) ∧
      fetch m (p + n + tabsAt t n) = .ok (headerValue t n) := by
  have hspan := fetch_add hf hn
  refine ⟨strspn_of_fetch hspan, ?_⟩
  have hvalue := fetch_add hspan (List.takeWhile_prefix (fun x => decide (x ∈ [TAB]))).length_le
  rw [drop_length_takeWhile] at hvalue
  exact hvalue

/-- The comparison of a header's name. -/
theorem strncasecmp_startsWith {m t : List UInt8} {p : Nat} (hf : fetch m p = .ok t)
    (name : List UInt8) : strncasecmp m p name = .ok (startsWith t name) :=
  strncasecmp_of_fetch hf

/-- A line that starts with a name is no shorter. -/
theorem length_of_startsWith {t name : List UInt8} (h : startsWith t name = true) :
    name.length ≤ t.length := by
  have hlen := length_of_eqIgnoreCase h
  rw [List.length_take] at hlen
  omega

/-- The request line. -/
theorem parseRequestLine_line {c : HttpConn} {h : HeadState} {pre l r : List UInt8}
    (hbuf : c.mReadBuf = pre ++ (l ++ 0 :: r)) (hs : Shows pre c h) (hh : h.inHeader = false) :
    ∃ c' l', (match headReader.line h l with
        | .ok h' => c.parseRequestLine pre.length = .ok (.noRequest, c') ∧
          Shows (pre ++ (l' ++ [0])) c' h'
        | .error v => c.parseRequestLine pre.length = .ok (.badRequest, c') ∧
          ∃ h', v = .reject h' ∧ Shows (pre ++ (l' ++ [0])) c' h') ∧
      l'.length = l.length ∧ c'.mReadBuf = pre ++ (l' ++ 0 :: r) ∧ Keeps c c' := by
  obtain ⟨res, hres, hacc, l', hlen, hl', hurl⟩ := requestLine_reads [SP, TAB] pre l r c.mVersion
  have hhost := strAt_append_right (l' ++ [0]) hs.host
  unfold HttpConn.parseRequestLine headReader
  rw [hbuf, hres]
  simp only [hh, Bool.false_eq_true, if_false, ok_bind, hacc, hl']
  cases (readRequestLine [SP, TAB] (cstr l)).accepted with
  | true =>
    simp only [if_true]
    refine ⟨_, l', ⟨rfl, ?_⟩, hlen, rfl, ⟨rfl, rfl, rfl, rfl⟩⟩
    exact ⟨hurl, hhost, hs.linger, hs.contentLength, rfl⟩
  | false =>
    simp only [Bool.false_eq_true, if_false]
    refine ⟨_, l', ⟨rfl, _, rfl, ?_⟩, hlen, rfl, ⟨rfl, rfl, rfl, rfl⟩⟩
    exact ⟨hurl, hhost, hs.linger, hs.contentLength, by simpa [hh] using hs.checkState⟩

/-- The first byte of a line is NUL exactly when its C string is empty. -/
theorem load_line (pre l r : List UInt8) :
    ∃ b, load (pre ++ (l ++ 0 :: r)) pre.length = .ok b ∧ (b = 0 ↔ cstr l = []) := by
  cases l with
  | nil => exact ⟨0, load_append_cons _ _ _, by simp [cstr]⟩
  | cons b l => exact ⟨b, load_append_cons _ _ _, by simp [cstr]⟩

/-- A header line that does not end the header part. -/
theorem parseHeaders_line {c : HttpConn} {h h' : HeadState} {pre l r : List UInt8}
    (hbuf : c.mReadBuf = pre ++ (l ++ 0 :: r)) (hs : Shows pre c h)
    (hread : readHeader h (cstr l) = .ok h') :
    ∃ c', c.parseHeaders pre.length = .ok (.noRequest, c') ∧
      Shows (pre ++ (l ++ [0])) c' h' ∧ c'.mReadBuf = c.mReadBuf ∧ Keeps c c' := by
  have hf : fetch (pre ++ (l ++ 0 :: r)) pre.length = .ok (cstr l) := fetch_append rfl
  have hf' : fetch (pre ++ (l ++ [0])) pre.length = .ok (cstr l) := fetch_append rfl
  obtain ⟨hurl, hhost, hlinger, hlength, hstate⟩ := hs.append_right (l ++ [0])
  obtain ⟨b, hload, hb⟩ := load_line pre l r
  unfold readHeader at hread
  unfold HttpConn.parseHeaders
  rw [hbuf, hload]
  simp only [ok_bind, hb, strncasecmp_startsWith hf]
  by_cases hempty : cstr l = []
  · rw [if_pos hempty] at hread
    split at hread <;> cases hread
  rw [if_neg hempty] at hread ⊢
  by_cases hconnection : startsWith (cstr l) (bytes "Connection:") = true
  · rw [if_pos hconnection] at hread ⊢
    obtain rfl := Except.ok.inj hread
    obtain ⟨hk, hvalue⟩ := fetch_headerValue hf (length_of_startsWith hconnection)
    rw [show (bytes "Connection:").length = 11 by decide] at hk hvalue
    simp only [hk, ok_bind, strcasecmp_of_fetch hvalue]
    cases hkeep : eqIgnoreCase (headerValue (cstr l) 11) (bytes "keep-alive") with
    | true =>
      refine ⟨_, rfl, ⟨hurl, hhost, ?_, hlength, hstate⟩, rfl, ⟨rfl, rfl, rfl, rfl⟩⟩
      simp
    | false =>
      refine ⟨_, rfl, ⟨hurl, hhost, ?_, hlength, hstate⟩, hbuf, ⟨rfl, rfl, rfl, rfl⟩⟩
      simp [hlinger]
  rw [if_neg hconnection] at hread ⊢
  by_cases hcontent : startsWith (cstr l) (bytes "Content-Length:") = true
  · rw [if_pos hcontent] at hread ⊢
    obtain rfl := Except.ok.inj hread
    obtain ⟨hk, hvalue⟩ := fetch_headerValue hf (length_of_startsWith hcontent)
    rw [show (bytes "Content-Length:").length = 15 by decide] at hk hvalue
    simp only [hk, ok_bind, hvalue]
    exact ⟨_, rfl, ⟨hurl, hhost, hlinger, rfl, hstate⟩, rfl, ⟨rfl, rfl, rfl, rfl⟩⟩
  rw [if_neg hcontent] at hread ⊢
  by_cases hhostName : startsWith (cstr l) (bytes "Host:") = true
  · rw [if_pos hhostName] at hread ⊢
    obtain rfl := Except.ok.inj hread
    obtain ⟨hk, hvalue⟩ := fetch_headerValue hf (length_of_startsWith hhostName)
    obtain ⟨-, hvalue'⟩ := fetch_headerValue hf' (length_of_startsWith hhostName)
    rw [show (bytes "Host:").length = 5 by decide] at hk hvalue'
    simp only [hk, ok_bind]
    refine ⟨_, rfl, ⟨hurl, ?_, hlinger, hlength, hstate⟩, rfl, ⟨rfl, rfl, rfl, rfl⟩⟩
    simp only [strAt, hvalue']
    rfl
  rw [if_neg hhostName] at hread ⊢
  obtain rfl := Except.ok.inj hread
  simp only [hf, ok_bind]
  exact ⟨_, rfl, ⟨hurl, hhost, hlinger, hlength, hstate⟩, hbuf, ⟨rfl, rfl, rfl, rfl⟩⟩

/-- The blank line. -/
theorem parseHeaders_blank {c : HttpConn} {h : HeadState} {pre l r : List UInt8}
    (hbuf : c.mReadBuf = pre ++ (l ++ 0 :: r)) (hs : Shows pre c h) (hempty : cstr l = []) :
    c.parseHeaders pre.length =
      .ok (if h.contentLength ≠ 0 then (.noRequest, { c with mCheckState := .checkStateContent })
        else (.getRequest, c)) := by
  obtain ⟨b, hload, hb⟩ := load_line pre l r
  unfold HttpConn.parseHeaders
  rw [hbuf, hload, hs.contentLength]
  simp only [ok_bind, hb, hempty, if_true]
  split <;> rfl

/-- What the `switch` does with a line of the header part that `headReader` answers with the
given result; `l'` is what becomes of the line's bytes. -/
def LineOutcome (c : HttpConn) (h : HeadState) (pre l' : List UInt8) (c' : HttpConn) :
    Except Stop HeadState → Prop
  | .ok h' => c.dispatch pre.length = .ok (.again .lineOk c') ∧ Shows (pre ++ (l' ++ [0])) c' h'
  | .error (.stuck _) => False
  | .error (.reject h') => c.dispatch pre.length = .ok (.ret .badRequest c') ∧
      Shows (pre ++ (l' ++ [0])) c' h'
  | .error (.request h') => c.dispatch pre.length = .ok (.doRequest c') ∧
      Shows (pre ++ (l' ++ [0])) c' h'
  | .error (.body h') => c.dispatch pre.length = .ok (.again .lineOk c') ∧ h' = h ∧
      strAt (pre ++ (l' ++ [0])) c'.mUrl = .ok h.url ∧ c'.mCheckState = .checkStateContent ∧
      c'.mContentLength = h.contentLength

/-- The switch of `process_read` does with a line what the reader of heads does. -/
theorem dispatch_line {c : HttpConn} {h : HeadState} {pre l r : List UInt8}
    (hbuf : c.mReadBuf = pre ++ (l ++ 0 :: r)) (hs : Shows pre c h) :
    ∃ c' l', LineOutcome c h pre l' c' (headReader.line h l) ∧ l'.length = l.length ∧
      c'.mReadBuf = pre ++ (l' ++ 0 :: r) ∧ Keeps c c' := by
  have hstate := hs.checkState
  cases hh : h.inHeader with
  | false =>
    rw [hh] at hstate
    obtain ⟨c', l', hline, hlen, hl', hkeeps⟩ := parseRequestLine_line hbuf hs hh
    refine ⟨c', l', ?_, hlen, hl', hkeeps⟩
    cases hres : headReader.line h l with
    | ok h' =>
      obtain ⟨hparse, hshows⟩ := by simpa only [hres] using hline
      refine ⟨?_, hshows⟩
      simp only [HttpConn.dispatch, hstate, hparse, ok_bind]
      rfl
    | error v =>
      obtain ⟨hparse, h', rfl, hshows⟩ := by simpa only [hres] using hline
      refine ⟨?_, hshows⟩
      simp only [HttpConn.dispatch, hstate, hparse, ok_bind]
      rfl
  | true =>
    rw [hh] at hstate
    have hhead : headReader.line h l = readHeader h (cstr l) := by simp [headReader, hh]
    rw [hhead]
    by_cases hempty : cstr l = []
    · have hblank := parseHeaders_blank hbuf hs hempty
      have hs' := hs.append_right (l ++ [0])
      by_cases hlength : h.contentLength = 0
      · refine ⟨c, l, ?_, rfl, hbuf, ⟨rfl, rfl, rfl, rfl⟩⟩
        rw [show readHeader h (cstr l) = .error (.request h) by simp [readHeader, hempty, hlength]]
        refine ⟨?_, hs'⟩
        simp only [HttpConn.dispatch, hstate, hblank, hlength, ne_eq, not_true_eq_false, if_false]
        rfl
      · refine ⟨{ c with mCheckState := .checkStateContent }, l, ?_, rfl, hbuf, ⟨rfl, rfl, rfl, rfl⟩⟩
        rw [show readHeader h (cstr l) = .error (.body h) by simp [readHeader, hempty, hlength]]
        refine ⟨?_, rfl, hs'.url, rfl, hs'.contentLength⟩
        simp only [HttpConn.dispatch, hstate, hblank, hlength, ne_eq, not_false_eq_true]
        rfl
    · obtain ⟨h', hread⟩ : ∃ h', readHeader h (cstr l) = .ok h' := by
        unfold readHeader
        rw [if_neg hempty]
        repeat' split
        all_goals exact ⟨_, rfl⟩
      obtain ⟨c', hparse, hshows, hcbuf, hkeeps⟩ := parseHeaders_line hbuf hs hread
      refine ⟨c', l, ?_, rfl, by rw [hcbuf, hbuf], hkeeps⟩
      rw [hread]
      refine ⟨?_, hshows⟩
      simp only [HttpConn.dispatch, hstate, hparse, ok_bind]
      rfl

/-! ## One call -/

/-- The connection has read the stream `s`, in whose last, incomplete line it is, and holds
what `h` says. A malformed line ending keeps it in that line. -/
structure Tracks (c : HttpConn) (s : List UInt8) (h : HeadState) (free : Nat) : Prop where
  line : ∃ s₀ pre v y, s = s₀ ++ (v ++ y) ∧ readHead s₀ = .ok (State.fresh h) ∧
    pre.length = s₀.length ∧ At c h pre (v ++ y) v.length free ∧ Clean v

/-- The connection has read the header part `hd`, which `h` describes, and has the bytes `w`
behind it in its buffer, none of them looked at. -/
structure AtBody (c : HttpConn) (h : HeadState) (hd w : List UInt8) (free : Nat) : Prop where
  buffer : ∃ pre : List UInt8, pre.length = hd.length ∧ pre.getLast? ≠ some CR ∧
    c.mReadBuf = pre ++ (w ++ List.replicate free 0) ∧ strAt pre c.mUrl = .ok h.url
  startLine : c.mStartLine = hd.length
  checkedIdx : c.mCheckedIdx = hd.length
  readIdx : c.mReadIdx = hd.length + w.length
  checkState : c.mCheckState = .checkStateContent
  contentLength : c.mContentLength = h.contentLength
  realFile : c.mRealFile = List.replicate filenameLen 0

/-- What a call of `process_read` comes to when the bytes received so far are `s`. -/
def HeadOutcome (fs : FileSystem) (res : Checked (HttpCode × HttpConn)) (s : List UInt8)
    (free : Nat) : Except Stop (State HeadState) → Prop
  | .ok st => ∃ c, res = .ok (.noRequest, c) ∧ Tracks c s st.ctl free
  | .error (.stuck h) => ∃ c, res = .ok (.noRequest, c) ∧ Tracks c s h free
  | .error (.reject h) => ∃ c, res = .ok (.badRequest, c) ∧ Shows c.mReadBuf c h
  | .error (.request h) => ∃ c, res = c.doRequest fs ∧ Shows c.mReadBuf c h ∧
      c.mRealFile = List.replicate filenameLen 0
  | .error (.body h) => ∃ c fuel hd w, res = c.readLoop fs fuel .lineOk ∧ s = hd ++ w ∧
      IsHead hd h ∧ AtBody c h hd w free ∧ w.length + 2 ≤ fuel

/-- An iteration of the loop whose scan does not find a whole line. -/
theorem iterate_incomplete {c : HttpConn} {scan : LineScan} (ls : LineStatus)
    (hstate : c.mCheckState ≠ .checkStateContent)
    (hscan : lineScan c.mReadBuf c.mCheckedIdx c.mReadIdx = .ok scan)
    (hstatus : scan.status ≠ .lineOk) :
    c.iterate ls =
      .ok (.ret .noRequest { c with mReadBuf := scan.buf, mCheckedIdx := scan.checked }) := by
  unfold HttpConn.iterate HttpConn.nextLine HttpConn.parseLine
  simp only [hstate, false_and, if_false, hscan, ok_bind]
  rw [show (pure : _ → Checked (LineStatus × HttpConn)) = .ok from rfl, ok_bind]
  simp only [if_pos hstatus]
  rfl

/-- An iteration of the loop whose scan finds a whole line. -/
theorem iterate_line {c : HttpConn} {scan : LineScan} {t : List UInt8} (ls : LineStatus)
    (hstate : c.mCheckState ≠ .checkStateContent)
    (hscan : lineScan c.mReadBuf c.mCheckedIdx c.mReadIdx = .ok scan)
    (hstatus : scan.status = .lineOk) (hfetch : fetch scan.buf c.mStartLine = .ok t) :
    c.iterate ls =
      ({ c with
        mReadBuf := scan.buf
        mCheckedIdx := scan.checked
        mStartLine := scan.checked } : HttpConn).dispatch c.mStartLine := by
  unfold HttpConn.iterate HttpConn.nextLine HttpConn.parseLine
  simp only [hstate, false_and, if_false, hscan, ok_bind]
  rw [show (pure : _ → Checked (LineStatus × HttpConn)) = .ok from rfl, ok_bind]
  simp only [hstatus, ne_eq, not_true_eq_false, if_false, hfetch, ok_bind]

/-- The loop ends in the line it is in, the bytes of `u` having been scanned. -/
theorem At.tracks {c : HttpConn} {h : HeadState} {s₀ pre v y u y' : List UInt8} {free : Nat}
    (hat : At c h pre (v ++ y) v.length free) (hs₀ : readHead s₀ = .ok (State.fresh h))
    (hpos : pre.length = s₀.length) (hv : Clean v) (hy : y = u ++ y') (hu : Clean u) :
    Tracks { c with
      mReadBuf := pre ++ (v ++ y ++ List.replicate free 0)
      mCheckedIdx := pre.length + (v ++ u).length } (s₀ ++ (v ++ y)) h free := by
  refine ⟨s₀, pre, v ++ u, y', by rw [hy, List.append_assoc], hs₀, hpos, ?_, hv.append hu⟩
  rw [List.append_assoc v u, ← hy]
  exact ⟨rfl, hat.startLine, hat.readIdx, rfl, ⟨hat.shows.url, hat.shows.host, hat.shows.linger,
    hat.shows.contentLength, hat.shows.checkState⟩, hat.noCr, hat.realFile⟩

/-- The connection is behind the lines of `pre`, and none of the bytes `w` was looked at. -/
structure Behind (c : HttpConn) (pre w : List UInt8) (free : Nat) : Prop where
  buffer : c.mReadBuf = pre ++ (w ++ List.replicate free 0)
  startLine : c.mStartLine = pre.length
  checkedIdx : c.mCheckedIdx = pre.length
  readIdx : c.mReadIdx = pre.length + w.length
  noCr : pre.getLast? ≠ some CR
  realFile : c.mRealFile = List.replicate filenameLen 0

section Lines

variable {c c' : HttpConn} {h : HeadState} {s₀ pre l l' w : List UInt8} {free : Nat}

/-- The line `l` was found and taken apart, which leaves its bytes `l'`. -/
theorem At.behind {x b : List UInt8} {n k : Nat} (hat : At c h pre x k free)
    (hx : x = l ++ CR :: LF :: w) (hlen : l'.length = l.length) (hn : n = pre.length + l.length + 2)
    (hkeeps : Keeps { c with mReadBuf := b, mCheckedIdx := n, mStartLine := n } c')
    (hbuf : c'.mReadBuf = pre ++ (l' ++ 0 :: 0 :: (w ++ List.replicate free 0))) :
    Behind c' (pre ++ l' ++ [0, 0]) w free := by
  have hend : (pre ++ l' ++ [0, 0]).length = n := by
    rw [hn, ← hlen, List.length_append, List.length_append]
    rfl
  refine ⟨by simp [hbuf], hkeeps.startLine.trans hend.symm, hkeeps.checkedIdx.trans hend.symm, ?_,
    by simp; decide, hkeeps.realFile.trans hat.realFile⟩
  rw [hkeeps.readIdx, hend, hn]
  refine hat.readIdx.trans ?_
  rw [hx, List.length_append, List.length_cons, List.length_cons]
  omega

/-- Behind the lines that were read the next one begins. -/
theorem Behind.at (hb : Behind c pre w free) (hs : Shows pre c h) :
    At c h pre ([] ++ w) ([] : List UInt8).length free :=
  ⟨hb.buffer, hb.startLine, hb.readIdx, hb.checkedIdx, hs, hb.noCr, hb.realFile⟩

/-- The reader has seen a CR. -/
theorem readHead_cr (hs₀ : readHead s₀ = .ok (State.fresh h)) (hl : Clean l) :
    readHead (s₀ ++ l ++ [CR]) = .ok ⟨h, l, true, hl⟩ := by
  rw [readHead, List.append_assoc, feed_append, ← readHead, hs₀, ok_bind, feed_fresh_cr _ _ _ hl]

/-- The reader has seen one more line. -/
theorem readHead_line {h' : HeadState} (hs₀ : readHead s₀ = .ok (State.fresh h)) (hl : Clean l)
    (hres : headReader.line h l = .ok h') :
    readHead (s₀ ++ (l ++ [CR, LF])) = .ok (State.fresh h') := by
  rw [readHead, feed_append, ← readHead, hs₀, ok_bind, feed_fresh_crlf _ _ _ _ hl, hres]
  rfl

/-- The loop ends at a line that ends the header part. `q` is the connection whose line `l` was
found. -/
theorem headOutcome_stop (fs : FileSystem) {q : HttpConn} {ls : LineStatus} {fuel : Nat} {stop : Stop}
    (hiter : c.iterate ls = q.dispatch pre.length) (hline : LineOutcome q h pre l' c' (.error stop))
    (hbehind : Behind c' (pre ++ l' ++ [0, 0]) w free) (hs₀ : readHead s₀ = .ok (State.fresh h))
    (hl : Clean l) (hres : headReader.line h l = .error stop) (hlen : l'.length = l.length)
    (hpos : pre.length = s₀.length) (hfuel : w.length + 2 ≤ fuel) :
    HeadOutcome fs (c.readLoop fs (fuel + 1) ls) (s₀ ++ (l ++ CR :: LF :: w)) free (.error stop) := by
  have hbuf : c'.mReadBuf = pre ++ (l' ++ [0]) ++ 0 :: (w ++ List.replicate free 0) := by
    simp [hbehind.buffer]
  cases stop with
  | stuck h' => exact hline.elim
  | reject h' =>
    obtain ⟨hdispatch, hshows⟩ := hline
    rw [readLoop_ret (hiter.trans hdispatch)]
    exact ⟨c', rfl, hbuf ▸ hshows.append_right _⟩
  | request h' =>
    obtain ⟨hdispatch, hshows⟩ := hline
    rw [readLoop_doRequest (hiter.trans hdispatch)]
    exact ⟨c', rfl, hbuf ▸ hshows.append_right _, hbehind.realFile⟩
  | body h' =>
    obtain ⟨hdispatch, rfl, hurl, hcontent, hlength⟩ := hline
    rw [readLoop_again (hiter.trans hdispatch)]
    have hsize : (pre ++ l' ++ [0, 0]).length = (s₀ ++ l ++ [CR, LF]).length := by
      simp only [List.length_append, hlen, hpos, List.length_cons, List.length_nil]
    have hurl' : strAt (pre ++ l' ++ [0, 0]) c'.mUrl = .ok h'.url := by
      simpa using strAt_append_right [0] hurl
    refine ⟨c', fuel, s₀ ++ l ++ [CR, LF], w, rfl, by simp,
      ⟨s₀ ++ l ++ [CR], LF, _, by simp, readHead_cr hs₀ hl, by simp [step, hres, Except.map]⟩,
      ⟨⟨_, hsize, hbehind.noCr, hbehind.buffer, hurl'⟩, hsize ▸ hbehind.startLine,
        hsize ▸ hbehind.checkedIdx, hsize ▸ hbehind.readIdx, hcontent, hlength, hbehind.realFile⟩,
      hfuel⟩

end Lines

/-- The loop of `process_read` in the header phase, entered with `v` scanned and `y` not
looked at yet. The induction is on the iterations left; an iteration that does not return
has consumed at least the two bytes of a line ending. -/
theorem readLoop_head (fs : FileSystem) (fuel : Nat) : ∀ (c : HttpConn) (h : HeadState)
    (s₀ pre v y : List UInt8) (free : Nat) (ls : LineStatus),
    readHead s₀ = .ok (State.fresh h) → pre.length = s₀.length →
    At c h pre (v ++ y) v.length free → Clean v → y.length + 2 ≤ fuel →
    HeadOutcome fs (c.readLoop fs fuel ls) (s₀ ++ (v ++ y)) free (readHead (s₀ ++ (v ++ y))) := by
  induction fuel with
  | zero =>
    intro c h s₀ pre v y free ls _ _ _ _ hfuel
    omega
  | succ fuel ih =>
    intro c h s₀ pre v y free ls hs₀ hpos hat hv hfuel
    have hstate : c.mCheckState ≠ .checkStateContent := by
      rw [hat.shows.checkState]
      split <;> simp
    have hfeed : readHead (s₀ ++ (v ++ y)) = feed headReader (State.fresh h) (v ++ y) := by
      rw [readHead, feed_append, ← readHead, hs₀, ok_bind]
    have hout := lineScan_outcome headReader h y (List.replicate free 0) hv hat.noCr
    rw [← hfeed, ← hat.buffer, ← hat.checkedIdx, ← hat.readIdx] at hout
    generalize hscan : lineScan _ _ _ = scan at hout
    generalize hread : readHead (s₀ ++ (v ++ y)) = out at hout ⊢
    cases hout with
    | incomplete u y' st hy hu hctl hline hpending =>
      rw [readLoop_ret (iterate_incomplete ls hstate hscan (by simp))]
      exact ⟨_, rfl, hctl ▸ hat.tracks hs₀ hpos hv hy hu⟩
    | bad u y' hy hu =>
      rw [readLoop_ret (iterate_incomplete ls hstate hscan (by simp))]
      exact ⟨_, rfl, hat.tracks hs₀ hpos hv hy hu⟩
    | line u w hy hu =>
      have hx : v ++ y = v ++ u ++ CR :: LF :: w := by rw [hy, List.append_assoc]
      have hl := hv.append hu
      have hfetch : fetch (pre ++ ((v ++ u) ++ 0 :: 0 :: (w ++ List.replicate free 0)))
          c.mStartLine = .ok (cstr (v ++ u)) := by
        rw [hat.startLine]
        exact fetch_append rfl
      have hiter := iterate_line ls hstate hscan rfl hfetch
      rw [hat.startLine] at hiter
      let q : HttpConn := { c with
        mReadBuf := pre ++ ((v ++ u) ++ 0 :: 0 :: (w ++ List.replicate free 0))
        mCheckedIdx := pre.length + (v ++ u).length + 2
        mStartLine := pre.length + (v ++ u).length + 2 }
      have hshows : Shows pre q h := ⟨hat.shows.url, hat.shows.host, hat.shows.linger,
        hat.shows.contentLength, hat.shows.checkState⟩
      obtain ⟨c', l', hline, hlen, hbuf, hkeeps⟩ := dispatch_line (c := q) rfl hshows
      have hbehind := hat.behind hx hlen rfl hkeeps hbuf
      have hfuel' : w.length + 2 ≤ fuel := by
        simp only [hy, List.length_append, List.length_cons] at hfuel
        omega
      rw [hx] at hread ⊢
      cases hres : headReader.line h (v ++ u) with
      | ok h' =>
        rw [hres] at hline
        obtain ⟨hdispatch, hshows'⟩ := hline
        have hsize : (pre ++ l' ++ [0, 0]).length = (s₀ ++ (v ++ u ++ [CR, LF])).length := by
          simp only [List.length_append, hlen, hpos, List.length_cons, List.length_nil]
          omega
        have hsplit : s₀ ++ (v ++ u ++ CR :: LF :: w) = s₀ ++ (v ++ u ++ [CR, LF]) ++ ([] ++ w) := by
          simp
        have hshown : Shows (pre ++ l' ++ [0, 0]) c' h' := by simpa using hshows'.append_right [0]
        rw [readLoop_again (hiter.trans hdispatch), ← hres, ← hread, hsplit]
        exact ih c' h' _ _ [] w free .lineOk (readHead_line hs₀ hl hres) hsize
          (hbehind.at hshown) clean_nil hfuel'
      | error stop =>
        rw [hres] at hline
        exact headOutcome_stop fs hiter hline hbehind hs₀ hl hres hlen hpos hfuel'

/-! ## The calls of a stream -/

/-- A new object has read nothing. -/
theorem tracks_init (c : HttpConn) : Tracks c.init [] HeadState.init readBufferSize :=
  ⟨[], [], [], [], rfl, rfl, rfl, ⟨rfl, rfl, rfl, rfl, ⟨rfl, rfl, rfl, rfl, rfl⟩, by simp, rfl⟩,
    clean_nil⟩

/-- The calls of a stream whose last chunk is `data`. -/
theorem readChunks_concat {fs : FileSystem} {c c₁ : HttpConn} {chunks : List (List UInt8)}
    (data : List UInt8) (h : c.readChunks fs chunks = .ok (.noRequest, c₁)) :
    c.readChunks fs (chunks ++ [data]) = c₁.receive data >>= fun c' => c'.processRead fs := by
  induction chunks generalizing c with
  | nil =>
    obtain ⟨-, rfl⟩ := Prod.mk.inj (Except.ok.inj h)
    rw [List.nil_append, HttpConn.readChunks]
    congr
    funext c'
    cases c'.processRead fs with
    | error e => rfl
    | ok r =>
      obtain ⟨ret, c''⟩ := r
      simp only [ok_bind]
      split
      · rename_i hr
        rw [HttpConn.readChunks, hr]
        rfl
      · rfl
  | cons d rest ih =>
    rw [HttpConn.readChunks] at h
    obtain ⟨c', hreceive, h⟩ := bind_eq_ok.mp h
    obtain ⟨⟨ret, c''⟩, hread, h⟩ := bind_eq_ok.mp h
    rw [List.cons_append, HttpConn.readChunks, hreceive, ok_bind, hread, ok_bind]
    by_cases hr : ret = .noRequest
    · simp only [if_pos hr] at h ⊢
      exact ih h
    · simp only [if_neg hr] at h
      exact absurd (Prod.mk.inj (Except.ok.inj h)).1 hr

/-- The call after the next chunk. -/
theorem processRead_head (fs : FileSystem) {c : HttpConn} {s : List UInt8} {h : HeadState}
    {free : Nat} (data : List UInt8) (ht : Tracks c s h free) (hdata : data.length ≤ free) :
    ∃ c', c.receive data = .ok c' ∧
      HeadOutcome fs (c'.processRead fs) (s ++ data) (free - data.length) (readHead (s ++ data)) := by
  obtain ⟨s₀, pre, v, y, rfl, hs₀, hpos, hat, hv⟩ := ht
  have hused : c.mReadIdx = (pre ++ (v ++ y)).length := by
    rw [hat.readIdx, ← List.length_append]
  have hcopy : copyIn c.mReadBuf c.mReadIdx data =
      .ok (pre ++ (v ++ y) ++ data ++ List.replicate (free - data.length) 0) := by
    rw [hat.buffer, ← List.append_assoc, hused, copyIn_zeros _ _ _ hdata]
  refine ⟨_, HttpConn.receive_of_copyIn hcopy, ?_⟩
  rw [List.append_assoc s₀, List.append_assoc v]
  unfold HttpConn.processRead
  refine readLoop_head fs _ _ h s₀ pre v (y ++ data) _ _ hs₀ hpos ?_ hv ?_
  · exact ⟨by simp, hat.startLine, by simp [hat.readIdx, Nat.add_assoc], hat.checkedIdx,
      ⟨hat.shows.url, hat.shows.host, hat.shows.linger, hat.shows.contentLength,
        hat.shows.checkState⟩, hat.noCr, hat.realFile⟩
  · simp only [hat.readIdx, hat.checkedIdx, List.length_append]
    omega

/-- The members of a connection that tracks a stream refer to its own buffer. -/
theorem Tracks.shows {c : HttpConn} {s : List UInt8} {h : HeadState} {free : Nat}
    (ht : Tracks c s h free) : Shows c.mReadBuf c h := by
  obtain ⟨s₀, pre, v, y, -, -, -, hat, -⟩ := ht
  rw [hat.buffer]
  exact hat.shows.append_right _

end ServerListings.Interface
