import ServerListings.Analysis.ReadBufferSafety
import ServerListings.Interface.AskedUrl
import ServerListings.Interface.ServedFile

/-!
# Which file a request is answered with

`do_request` copies at most `FILENAME_LEN - len - 1` bytes of the URL behind `doc_root`. A URL
that is longer is cut off, and the file with the shorter name is served for it, also for every
other URL that begins with the same bytes. The URL is the path of the accepted request line, unless
the client announces a body of negative length and the NUL stored for it falls on the path.
-/

set_option autoImplicit false

namespace ServerListings.Analysis.FileAskedFor

open Lib.CMem Lib.LineReader ServerListings.Model ServerListings.Model.Http ServerListings.Interface
open ServerListings.Analysis.ReadBufferSafety

/-! ## Requests -/

/-- The places that the runs of an object after `init` come to. -/
def Reached (fs : FileSystem) (c₀ : HttpConn) (m : Machine) : Prop :=
  Relation.ReflTransGen (fun a b => Step fs a (.ok b)) ⟨.outside, c₀.init⟩ m

/-- In a run after `init` that has come to `m`, a request line that asks for `path` was
accepted. -/
inductive AsksFor (fs : FileSystem) (c₀ : HttpConn) (path : List UInt8) : Machine → Prop
  | accepted {c c' : HttpConn} {text : Nat} (hrun : Reached fs c₀ ⟨.switch text, c⟩)
      (hstate : c.mCheckState = .checkStateRequestline)
      (hline : c.parseRequestLine text = .ok (.noRequest, c'))
      (hpath : strAt c'.mReadBuf c'.mUrl = .ok (some path)) :
      AsksFor fs c₀ path ⟨.test .lineOk, c'⟩
  | step {a b : Machine} (h : AsksFor fs c₀ path a) (hstep : Step fs a (.ok b)) : AsksFor fs c₀ path b

/-- `do_request` is called in `c` for a request line that asked for `path`, and `m_url` refers
to `url`. -/
structure Request (fs : FileSystem) (c₀ c : HttpConn) (path url : List UInt8) : Prop where
  asked : AsksFor fs c₀ path ⟨.serve, c⟩
  url : strAt c.mReadBuf c.mUrl = .ok (some url)

/-- Where `do_request` serves a file, it has called `stat` and `open` for `docRoot ++ path`. -/
def ServesOnly (c : HttpConn) (path : List UInt8) : Prop :=
  ∀ fs : FileSystem, ∃ code d, c.doRequest fs = .ok (code, d) ∧
    (code = .fileRequest → fetch d.mRealFile 0 = .ok (docRoot ++ path) ∧
      fs.stat (docRoot ++ path) = some d.mFileStat ∧
      d.mFileAddress = fs.mmap (docRoot ++ path) d.mFileStat.stSize)

/-- Two requests are answered with the files that their request lines ask for, and with different
ones if they ask for different ones. -/
structure FilesAskedFor (c c' : HttpConn) (path path' : List UInt8) : Prop where
  first : ServesOnly c path
  second : ServesOnly c' path'
  apart : path ≠ path' → ∀ fs fs' r r', c.doRequest fs = .ok r → c'.doRequest fs' = .ok r' →
    fetch r.2.mRealFile 0 ≠ fetch r'.2.mRealFile 0

/-- `docRoot ++ path` and its NUL fit into `m_real_file`. -/
def FitsRealFile (path : List UInt8) : Prop := docRoot.length + path.length < filenameLen

/-- `m_url` still refers to the whole path, and the path fits into `m_real_file`. -/
structure Intact (path url : List UInt8) : Prop where
  whole : url = path
  fits : FitsRealFile path

/-! ## The steps of the machine -/

/-- A statement that succeeds is a step. -/
theorem step_next {fs : FileSystem} {a b : Machine} (hin : a.point ≠ .outside)
    (h : a.next fs = .ok b) : Step fs a (.ok b) := h ▸ .run hin

/-- A step that does not fault. -/
inductive Moves (fs : FileSystem) : Machine → Machine → Prop
  | recv {c c' : HttpConn} {data : List UInt8} (hreceive : c.receive data = .ok c') :
      Moves fs ⟨.outside, c⟩ ⟨.outside, c'⟩
  | call {c : HttpConn} : Moves fs ⟨.outside, c⟩ ⟨.test .lineOk, c⟩
  | stop {c c' : HttpConn} {ls ls' : LineStatus} (hline : c.nextLine ls = .ok (ls', c')) :
      Moves fs ⟨.test ls, c⟩ ⟨.outside, c'⟩
  | line {c c' : HttpConn} {ls : LineStatus} (hline : c.nextLine ls = .ok (.lineOk, c')) :
      Moves fs ⟨.test ls, c⟩ ⟨.switch c'.mStartLine, { c' with mStartLine := c'.mCheckedIdx }⟩
  | dispatch {c : HttpConn} {text : Nat} {next : Next} (hnext : c.dispatch text = .ok next) :
      Moves fs ⟨.switch text, c⟩ (Machine.after next)
  | served {c : HttpConn} {r : HttpCode × HttpConn} (hdo : c.doRequest fs = .ok r) :
      Moves fs ⟨.serve, c⟩ ⟨.outside, r.2⟩

/-- A statement that succeeds is a move. -/
theorem moves_of_next {fs : FileSystem} {a b : Machine} (hin : a.point ≠ .outside)
    (h : a.next fs = .ok b) : Moves fs a b := by
  obtain ⟨point, c⟩ := a
  cases point with
  | outside => exact absurd rfl hin
  | test ls =>
    obtain ⟨⟨ls', c'⟩, hline, h⟩ := bind_eq_ok.mp h
    dsimp only at h
    by_cases hok : ls' = .lineOk
    · subst hok
      rw [if_neg (not_not.mpr rfl)] at h
      obtain ⟨s, -, h⟩ := bind_eq_ok.mp h
      obtain rfl := Except.ok.inj h
      exact .line hline
    · rw [if_pos hok] at h
      obtain rfl := Except.ok.inj h
      exact .stop hline
  | switch text =>
    obtain ⟨next, hnext, -⟩ := bind_eq_ok.mp h
    rw [next_switch fs hnext] at h
    obtain rfl := Except.ok.inj h
    exact .dispatch hnext
  | serve =>
    obtain ⟨r, hdo, h⟩ := bind_eq_ok.mp h
    obtain rfl := Except.ok.inj h
    exact .served hdo

/-- A step that succeeds is a move. -/
theorem moves_of_step {fs : FileSystem} {a b : Machine} {r : Checked Machine} (h : Step fs a r)
    (hr : r = .ok b) : Moves fs a b := by
  cases h with
  | recv hfit =>
    rename_i c data
    cases hreceive : c.receive data with
    | error e =>
      rw [hreceive] at hr
      cases hr
    | ok c' =>
      rw [hreceive] at hr
      obtain rfl := Except.ok.inj hr
      exact .recv hreceive
  | call =>
    obtain rfl := Except.ok.inj hr
    exact .call
  | run hin => exact moves_of_next hin hr

/-- A line that is taken apart has been found by a scan, unless it is one of a body. -/
def LineEnded (m : Machine) : Prop :=
  ∀ text, m.point = .switch text → m.conn.mCheckState ≠ .checkStateContent →
    text < m.conn.mStartLine ∧ load m.conn.mReadBuf (m.conn.mStartLine - 1) = .ok 0

/-- After every move the last line that was read ends with a NUL. -/
theorem Moves.lineEnded {fs : FileSystem} {a b : Machine} (h : Moves fs a b) (hinv : Inv a) :
    LineEnded b := by
  intro text htext hstate
  cases h with
  | recv _ => cases htext
  | call => cases htext
  | stop _ => cases htext
  | line hline =>
    obtain rfl := Point.switch.inj htext
    obtain ⟨ls', c₁, hline', -, ⟨-, hsame, -⟩, -, hlt⟩ := nextLine_bounds _ hinv.bounded
    obtain ⟨rfl, rfl⟩ := results_unique hline' hline
    obtain ⟨buf, checked, hc', -, hzero⟩ := (nextLine_scanned _ _).result hline
    have hne : _ ≠ CheckState.checkStateContent := hsame ▸ hstate
    have hscanned := hlt rfl fun hcontent => hne hcontent.1
    subst hc'
    exact ⟨Nat.lt_of_le_of_lt hinv.bounded.start_le hscanned, hzero rfl hne⟩
  | dispatch hnext =>
    rename_i next
    cases next with
    | ret _ _ => cases htext
    | doRequest _ => cases htext
    | again _ _ => cases htext
  | served _ => cases htext

/-- A step that succeeds has stored in the array. -/
theorem step_fits {fs : FileSystem} {a b : Machine} (hinv : Inv a) (h : Step fs a (.ok b)) :
    a.Fits := by
  by_contra hfits
  obtain ⟨e, he⟩ := next_faults fs hinv hfits
  have hmoves := moves_of_step h rfl
  cases hmoves with
  | dispatch hnext =>
    rw [next_switch fs hnext] at he
    cases he
  | _ => exact hfits (by rintro text ⟨⟩)

/-- Every state that is reached is in order. -/
theorem reached_inv {fs : FileSystem} {c₀ : HttpConn} {m : Machine} (h : Reached fs c₀ m) :
    Inv m ∧ LineEnded m := by
  induction h with
  | refl => exact ⟨inv_outside (bounded_init c₀), by rintro text ⟨⟩⟩
  | tail _ hstep ih =>
    obtain ⟨b, hb, hinv⟩ := step_inv ih.1 (step_fits ih.1 hstep) hstep
    obtain rfl := Except.ok.inj hb
    exact ⟨hinv, (moves_of_step hstep rfl).lineEnded ih.1⟩

/-! ## The path of a run -/

/-- The path of the accepted request line, at a place of the run. -/
structure PathAt (path : List UInt8) (p : Nat) (m : Machine) : Prop where
  conn : HasPath path p m.conn
  text_lt : ∀ text, m.point = .switch text → p + path.length < text

/-- A move leaves the path where it is. -/
theorem Moves.pathAt {fs : FileSystem} {a b : Machine} {path : List UInt8} {p : Nat}
    (h : Moves fs a b) (hinv : Inv a) (ha : PathAt path p a) : PathAt path p b := by
  have hb := hinv.bounded
  cases h with
  | recv hreceive =>
    have hle := Nat.le_trans hb.start_le hb.checked_le
    exact ⟨(ha.conn.receive hle _).result hreceive, by simp⟩
  | call => exact ⟨ha.conn, by simp⟩
  | stop hline => exact ⟨(ha.conn.nextLine hb.start_le _).result hline, by simp⟩
  | line hline =>
    have hpath := (ha.conn.nextLine hb.start_le _).result hline
    obtain ⟨ls', c₁, hline', hb', -⟩ := nextLine_bounds _ hb
    obtain ⟨rfl, rfl⟩ := results_unique hline' hline
    refine ⟨hpath.enterLine hb'.start_le, ?_⟩
    rintro text ⟨⟩
    exact hpath.before
  | dispatch hnext =>
    rename_i text next
    have hpath := (ha.conn.dispatch (ha.text_lt text rfl)).result hnext
    cases next with
    | ret _ _ => exact ⟨hpath, by rintro text ⟨⟩⟩
    | doRequest _ => exact ⟨hpath, by rintro text ⟨⟩⟩
    | again _ _ => exact ⟨hpath, by rintro text ⟨⟩⟩
  | served hdo => exact ⟨(ha.conn.doRequest fs).result hdo, by simp⟩

/-- An accepted request line. -/
theorem accepted_path {fs : FileSystem} {c₀ c c' : HttpConn} {text : Nat}
    (hrun : Reached fs c₀ ⟨.switch text, c⟩) (hstate : c.mCheckState = .checkStateRequestline)
    (hline : c.parseRequestLine text = .ok (.noRequest, c')) :
    Reached fs c₀ ⟨.test .lineOk, c'⟩ ∧ ∃ p path, strAt c'.mReadBuf c'.mUrl = .ok (some path) ∧
      PathAt path p ⟨.test .lineOk, c'⟩ := by
  obtain ⟨hinv, hended⟩ := reached_inv hrun
  obtain ⟨hlt, hzero⟩ : text < c.mStartLine ∧ load c.mReadBuf (c.mStartLine - 1) = .ok 0 :=
    hended text rfl (by simp [hstate])
  have hb : Bounded c := hinv.bounded
  have hbuf : text ≤ readBufferSize - 1 :=
    Nat.le_trans (hinv.text_le text rfl) (Nat.le_trans hb.checked_le hb.read_le)
  obtain ⟨hheader, hstart, p, path, hp, hfetch, hend⟩ :=
    parseRequestLine_path (Nat.le_sub_one_of_lt hlt) hb.readBuf hbuf hzero hline
  have hdispatch : c.dispatch text = .ok (.again .lineOk c') := by
    rw [HttpConn.dispatch, hstate]
    simp only [hline, ok_bind]
    rfl
  have hstep := step_next (by simp) (next_switch fs hdispatch)
  refine ⟨hrun.tail hstep, p, path, by rw [hp, strAt, hfetch]; rfl, ⟨hp, ?_, ?_, ?_⟩, by simp⟩
  · show p + path.length < c'.mStartLine
    rw [hstart]
    omega
  · show c'.mCheckState ≠ .checkStateRequestline
    simp [hheader]
  · exact ⟨path, hfetch, List.prefix_rfl, .inl rfl⟩

/-- A request that was asked for has its path in the buffer. -/
theorem AsksFor.spec {fs : FileSystem} {c₀ : HttpConn} {path : List UInt8} {m : Machine}
    (h : AsksFor fs c₀ path m) : Reached fs c₀ m ∧ ∃ p, PathAt path p m := by
  induction h with
  | accepted hrun hstate hline hpath =>
    obtain ⟨hreached, p, path', hpath', hat⟩ := accepted_path hrun hstate hline
    obtain rfl : path' = path := Option.some.inj (result_unique hpath' hpath)
    exact ⟨hreached, p, hat⟩
  | step _ hstep ih =>
    obtain ⟨hreached, p, hat⟩ := ih
    exact ⟨hreached.tail hstep, p, (moves_of_step hstep rfl).pathAt (reached_inv hreached).1 hat⟩

/-- Every call of `do_request` is one for an accepted request line. -/
theorem reached_asked {fs : FileSystem} {c₀ : HttpConn} {m : Machine} (h : Reached fs c₀ m) :
    (m.conn.mCheckState = .checkStateRequestline ∧ m.point ≠ .serve) ∨
      ∃ path, AsksFor fs c₀ path m := by
  induction h with
  | refl => exact .inl ⟨rfl, by simp⟩
  | @tail a b hrun hstep ih =>
    obtain ⟨hstate, hserve⟩ | ⟨path, hasked⟩ := ih
    · have hinv := (reached_inv hrun).1
      have hmoves := moves_of_step hstep rfl
      cases hmoves with
      | recv hreceive =>
        obtain ⟨buf, -, hc'⟩ := bind_eq_ok.mp hreceive
        obtain rfl := Except.ok.inj hc'
        exact .inl ⟨hstate, by simp⟩
      | call => exact .inl ⟨hstate, by simp⟩
      | stop hline =>
        obtain ⟨buf, checked, rfl, -⟩ := (nextLine_scanned _ _).result hline
        exact .inl ⟨hstate, by simp⟩
      | line hline =>
        obtain ⟨buf, checked, rfl, -⟩ := (nextLine_scanned _ _).result hline
        exact .inl ⟨hstate, by simp⟩
      | @dispatch c text next hnext =>
        change c.mCheckState = .checkStateRequestline at hstate
        rw [HttpConn.dispatch, hstate] at hnext
        obtain ⟨⟨ret, c'⟩, hline, hnext⟩ := bind_eq_ok.mp hnext
        obtain rfl | ⟨rfl, hsame⟩ := (parseRequestLine_rejected c text).result hline
        · obtain rfl := Except.ok.inj hnext
          obtain ⟨-, p, path, hpath, -⟩ := accepted_path hrun hstate hline
          exact .inr ⟨path, .accepted hrun hstate hline hpath⟩
        · obtain rfl := Except.ok.inj hnext
          exact .inl ⟨hsame.trans hstate, by rintro ⟨⟩⟩
      | served hdo => exact absurd rfl hserve
    · exact .inr ⟨path, hasked.step hstep⟩

/-- An object that is served has a request. -/
theorem exists_request {fs : FileSystem} {c₀ c : HttpConn} (h : Reached fs c₀ ⟨.serve, c⟩) :
    ∃ path url, Request fs c₀ c path url := by
  obtain ⟨-, hserve⟩ | ⟨path, hasked⟩ := reached_asked h
  · exact absurd rfl hserve
  · obtain ⟨-, p, hpath, -⟩ := hasked.spec
    obtain ⟨url, hurl, -⟩ := hpath.string
    exact ⟨path, url, hasked, by rw [hpath.url, strAt, hurl]; rfl⟩

/-! ## Calls of `process_read` -/

/-- An iteration of the loop is a sequence of moves, unless it asks for more bytes. -/
theorem iterate_moves {fs : FileSystem} {c : HttpConn} {ls : LineStatus} {next : Next}
    (h : c.iterate ls = .ok next) : (∃ c', next = .ret .noRequest c') ∨
      Relation.ReflTransGen (fun a b => Step fs a (.ok b)) ⟨.test ls, c⟩ (Machine.after next) := by
  obtain ⟨⟨ls', c'⟩, hline, h⟩ := bind_eq_ok.mp h
  dsimp only at h
  by_cases hok : ls' = .lineOk
  · subst hok
    rw [if_neg (not_not.mpr rfl)] at h
    obtain ⟨s, hs, hnext⟩ := bind_eq_ok.mp h
    right
    have hfirst : (⟨.test ls, c⟩ : Machine).next fs =
        .ok ⟨.switch c'.mStartLine, { c' with mStartLine := c'.mCheckedIdx }⟩ := by
      simp only [Machine.next, hline, ok_bind, ne_eq, not_true_eq_false, if_false, hs]
      rfl
    have hsecond := next_switch fs hnext
    exact (Relation.ReflTransGen.single (step_next (by simp) hfirst)).tail (step_next (by simp) hsecond)
  · rw [if_pos hok] at h
    exact .inl ⟨c', (Except.ok.inj h).symm⟩

/-- A call that returns something else than `NO_REQUEST` and `BAD_REQUEST` has called
`do_request`. The induction is on the iterations left. -/
theorem readLoop_serve {fs : FileSystem} {code : HttpCode} {d : HttpConn}
    (hno : code ≠ .noRequest) (hbad : code ≠ .badRequest) (fuel : Nat) :
    ∀ (ls : LineStatus) (c : HttpConn), c.readLoop fs fuel ls = .ok (code, d) →
      ∃ c', Relation.ReflTransGen (fun a b => Step fs a (.ok b)) ⟨.test ls, c⟩ ⟨.serve, c'⟩ ∧
        c'.doRequest fs = .ok (code, d) := by
  induction fuel with
  | zero =>
    intro ls c h
    cases h
  | succ fuel ih =>
    intro ls c h
    obtain ⟨next, hnext, h⟩ := bind_eq_ok.mp h
    have hparsed := (iterate_parsed ls rfl).result hnext
    have hmoves := @iterate_moves fs c ls next hnext
    cases hparsed with
    | noRequest _ => exact absurd (congrArg Prod.fst (Except.ok.inj h)).symm hno
    | badRequest _ => exact absurd (congrArg Prod.fst (Except.ok.inj h)).symm hbad
    | @doRequest c' _ =>
      obtain ⟨_, hret⟩ | hmoves := hmoves
      · cases hret
      · exact ⟨c', hmoves, h⟩
    | again _ =>
      obtain ⟨_, hret⟩ | hmoves := hmoves
      · cases hret
      · obtain ⟨c', hrest, hdo⟩ := ih _ _ h
        exact ⟨c', hmoves.trans hrest, hdo⟩

/-- What a call of `process_read` answers was reached by moves. -/
theorem processRead_reached {fs : FileSystem} {c₀ c d : HttpConn} {code : HttpCode}
    (h : Reached fs c₀ ⟨.outside, c⟩) (hread : c.processRead fs = .ok (code, d))
    (hno : code ≠ .noRequest) (hbad : code ≠ .badRequest) :
    ∃ c', Reached fs c₀ ⟨.serve, c'⟩ ∧ c'.doRequest fs = .ok (code, d) := by
  obtain ⟨c', hcall, hdo⟩ := readLoop_serve hno hbad _ _ _ hread
  exact ⟨c', (h.tail .call).trans hcall, hdo⟩

/-! ## The file of a request -/

section Request

variable {fs : FileSystem} {c₀ c : HttpConn} {path url : List UInt8}

/-- The URL is the path of the request line, or the part of it in front of the NUL that was
stored for a body of negative length. -/
theorem Request.ofLine (h : Request fs c₀ c path url) :
    url <+: path ∧ (0 ≤ c.mContentLength → url = path) := by
  obtain ⟨-, p, hpath, -⟩ := h.asked.spec
  obtain ⟨s, hs, hpart, hwhole⟩ := hpath.string
  obtain ⟨q, hq, hfetch⟩ := strAt_eq_some h.url
  obtain rfl : q = p := Option.some.inj (hq.symm.trans hpath.url)
  obtain rfl : s = url := result_unique hs hfetch
  refine ⟨hpart, ?_⟩
  intro hlength
  obtain hsame | ⟨-, hneg⟩ := hwhole
  · exact hsame
  · exact absurd hlength (Int.not_le.mpr hneg)

/-- What `do_request` does with the request, in any file system. -/
theorem Request.answer (h : Request fs c₀ c path url) (fs' : FileSystem) :
    ∃ d, c.doRequest fs' = .ok (requestCode fs' url, d) ∧
      fetch d.mRealFile 0 = .ok (requestPath url) ∧
      (requestCode fs' url = .fileRequest → fs'.stat (requestPath url) = some d.mFileStat ∧
        d.mFileAddress = fs'.mmap (requestPath url) d.mFileStat.stSize) := by
  have hb := (reached_inv h.asked.spec.1).1.bounded
  obtain ⟨m, st, a, hdo, hpath, hfile⟩ := doRequest_eq fs' h.url hb.realFile
  exact ⟨_, hdo, hpath, hfile⟩

/-- The file that is looked for has the path of the request. -/
theorem Request.realFile (h : Request fs c₀ c path url) {fs' : FileSystem}
    {r : HttpCode × HttpConn} (hr : c.doRequest fs' = .ok r) :
    fetch r.2.mRealFile 0 = .ok (requestPath url) := by
  obtain ⟨d, hdo, hpath, -⟩ := h.answer fs'
  obtain rfl := result_unique hdo hr
  exact hpath

/-- A file system in which every path is that of an empty file. -/
def emptyFiles : FileSystem := ⟨fun _ => some ⟨sIroth, 0⟩, fun _ _ => 0⟩

/-- The file of the request line is served exactly if nothing of its path was lost. -/
theorem Request.servesOnly_iff (h : Request fs c₀ c path url) :
    ServesOnly c path ↔ Intact path url := by
  constructor
  · intro hserves
    obtain ⟨code, d, hdo, hfile⟩ := hserves emptyFiles
    obtain ⟨d', hdo', hpath, -⟩ := h.answer emptyFiles
    obtain ⟨hcode, rfl⟩ := results_unique hdo' hdo
    obtain ⟨hasked, -⟩ := hfile hcode.symm
    have hsame : requestPath url = docRoot ++ path := Except.ok.inj (hpath.symm.trans hasked)
    -- a part of the path makes a shorter name
    have hlength : path.length ≤ url.length := by
      rw [← List.append_cancel_left hsame]
      exact List.length_take_le' ..
    have hwhole : url = path := h.ofLine.1.eq_of_length_le hlength
    subst hwhole
    exact ⟨rfl, (requestPath_eq_iff url).mp hsame⟩
  · rintro ⟨rfl, hfits⟩ fs'
    obtain ⟨d, hdo, hpath, hfile⟩ := h.answer fs'
    rw [requestPath_of_fits hfits] at hpath hfile
    refine ⟨_, d, hdo, ?_⟩
    intro hcode
    exact ⟨hpath, hfile hcode⟩

end Request

/-- Two requests, also of one object that is used again after `init`, are answered with the files
that their request lines ask for, and with different ones if they ask for different ones, exactly
if both paths are whole and fit into `m_real_file`. What is left of a path is a part of it, and the
whole of it if no negative length of a body is announced. -/
theorem files_asked_for_iff {fs fs' : FileSystem} {c₀ c₀' c c' : HttpConn}
    {path path' url url' : List UInt8} (h : Request fs c₀ c path url)
    (h' : Request fs' c₀' c' path' url') :
    (FilesAskedFor c c' path path' ↔ Intact path url ∧ Intact path' url') ∧
      (url <+: path ∧ (0 ≤ c.mContentLength → url = path)) ∧
      url' <+: path' ∧ (0 ≤ c'.mContentLength → url' = path') := by
  refine ⟨?_, h.ofLine, h'.ofLine⟩
  constructor
  · rintro ⟨hfirst, hsecond, -⟩
    exact ⟨h.servesOnly_iff.mp hfirst, h'.servesOnly_iff.mp hsecond⟩
  · rintro ⟨hintact, hintact'⟩
    refine ⟨h.servesOnly_iff.mpr hintact, h'.servesOnly_iff.mpr hintact', ?_⟩
    intro hne fs₁ fs₂ r r' hr hr' hsame
    rw [h.realFile hr, h'.realFile hr', hintact.whole, hintact'.whole,
      requestPath_of_fits hintact.fits, requestPath_of_fits hintact'.fits] at hsame
    exact hne (List.append_cancel_left (Except.ok.inj hsame))

/-- What a new object answers to a text, and the URL it has then. -/
def answerTo (fs : FileSystem) (text : List UInt8) : Checked (HttpCode × Option (List UInt8)) := do
  let c ← (default : HttpConn).init.receive text
  let (code, c) ← c.processRead fs
  let url ← strAt c.mReadBuf c.mUrl
  pure (code, url)

/-- A text that is answered with a file is a request. -/
theorem request_of_answer {fs : FileSystem} {text url : List UInt8}
    (hfit : text.length < readBufferSize)
    (h : answerTo fs text = .ok (.fileRequest, some url)) :
    ∃ c path, Request fs default c path url := by
  obtain ⟨c, hreceive, h⟩ := bind_eq_ok.mp h
  obtain ⟨⟨code, d⟩, hread, h⟩ := bind_eq_ok.mp h
  obtain ⟨url', hurl, h⟩ := bind_eq_ok.mp h
  obtain ⟨rfl, rfl⟩ := Prod.mk.inj (Except.ok.inj h)
  have hrecv : Step fs ⟨.outside, (default : HttpConn).init⟩ (.ok ⟨.outside, c⟩) := by
    have hroom : (default : HttpConn).init.mReadIdx + text.length < readBufferSize := by
      simpa [HttpConn.init] using hfit
    have hstep : Step fs _ _ := .recv hroom
    rwa [hreceive] at hstep
  obtain ⟨c', hreached, hdo⟩ := processRead_reached (.single hrecv) hread (by simp) (by simp)
  obtain ⟨path, url', hrequest⟩ := exists_request hreached
  have hsame : url' = url := by
    have hsought := (doRequest_sought fs c').result hdo
    cases hsought with
    | file m path st => exact Option.some.inj (result_unique hrequest.url hurl)
  exact ⟨c', path, hsame ▸ hrequest⟩

/-- A request for a short path. -/
theorem files_asked_for_short : ∃ c path, Request emptyFiles default c path (bytes "/a") ∧
    (FilesAskedFor c c path path ↔ Intact path (bytes "/a") ∧ Intact path (bytes "/a")) ∧
    (bytes "/a" <+: path ∧ (0 ≤ c.mContentLength → bytes "/a" = path)) ∧
    bytes "/a" <+: path ∧ (0 ≤ c.mContentLength → bytes "/a" = path) := by
  have hanswer : answerTo emptyFiles (bytes "GET\t/a\tHTTP/1.1\r\n\r\n") =
      .ok (.fileRequest, some (bytes "/a")) := by decide +kernel
  obtain ⟨c, path, h⟩ := request_of_answer (by decide) hanswer
  exact ⟨c, path, h, files_asked_for_iff h h⟩

/-- The shortest URL that does not fit. -/
def longUrl : List UInt8 := SLASH :: List.replicate 186 97

/-- It is cut off, and the file with the shorter name is served. -/
theorem long_url_cut_off :
    ¬ ∀ (fs fs' : FileSystem) (c₀ c₀' c c' : HttpConn) (path path' url url' : List UInt8),
      Request fs c₀ c path url → Request fs' c₀' c' path' url' → FilesAskedFor c c' path path' := by
  intro hall
  have hanswer : answerTo emptyFiles (bytes "GET\t" ++ longUrl ++ bytes "\tHTTP/1.1\r\n\r\n") =
      .ok (.fileRequest, some longUrl) := by decide +kernel
  obtain ⟨c, path, h⟩ := request_of_answer (by decide +kernel) hanswer
  obtain ⟨rfl, hfits⟩ := h.servesOnly_iff.mp (hall _ _ _ _ _ _ _ _ _ _ h h).first
  revert hfits
  unfold FitsRealFile
  decide +kernel

end ServerListings.Analysis.FileAskedFor
