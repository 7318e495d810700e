import ServerListings.Lib.Ensures
import ServerListings.Interface.ReplyText

/-!
# What parsing leaves alone

`replySide` collects the members of a connection that neither `read` nor the parsing functions
assign. `process_read` changes some of them in one place, when it ends in `do_request`.
`process_write` in turn changes nothing but the write buffer and what `m_iv` refers to.
-/

set_option autoImplicit false

namespace ServerListings.Interface

open Lib.CMem ServerListings.Model ServerListings.Model.Http

/-- The members that are not about the request. -/
structure ReplySide where
  sockfd : Int
  writeBuf : List UInt8
  writeIdx : Nat
  realFile : List UInt8
  fileAddress : Int
  fileStat : FileStat
  iv₀ : Iovec
  iv₁ : Iovec
  ivCount : Nat

def replySide (c : HttpConn) : ReplySide :=
  ⟨c.mSockfd, c.mWriteBuf, c.mWriteIdx, c.mRealFile, c.mFileAddress, c.mFileStat, c.mIv0, c.mIv1,
    c.mIvCount⟩

section Parsing

variable {c : HttpConn} {o : ReplySide}

/-- `parse_line` leaves what is about the reply alone. -/
theorem parseLine_replySide (h : replySide c = o) : Ensures c.parseLine fun r => replySide r.2 = o := by
  apply ensures_bind
  intro scan
  exact ensures_pure h

/-- `parse_request_line` leaves what is about the reply alone. -/
theorem parseRequestLine_replySide (text : Nat) (h : replySide c = o) :
    Ensures (c.parseRequestLine text) fun r => replySide r.2 = o := by
  apply ensures_bind
  intro res
  apply ensures_ite
  · exact ensures_pure h
  · exact ensures_pure h

/-- What a header line can change. -/
inductive HeaderRead (c : HttpConn) : HttpCode × HttpConn → Prop
  | request : HeaderRead c (.getRequest, c)
  | body : HeaderRead c (.noRequest, { c with mCheckState := .checkStateContent })
  | linger : HeaderRead c (.noRequest, { c with mLinger := true })
  | length (n : Int) : HeaderRead c (.noRequest, { c with mContentLength := n })
  | host (p : Nat) : HeaderRead c (.noRequest, { c with mHost := some p })
  | ignored : HeaderRead c (.noRequest, c)

/-- What `parse_headers` changes when it reads a header. -/
theorem parseHeaders_read (c : HttpConn) (text : Nat) :
    Ensures (c.parseHeaders text) (HeaderRead c) := by
  apply ensures_bind
  intro first
  apply ensures_ite
  · apply ensures_ite
    · exact ensures_pure .body
    · exact ensures_pure .request
  apply ensures_bind
  intro connection
  apply ensures_ite
  · apply ensures_bind
    intro k
    apply ensures_bind
    intro keep
    apply ensures_ite
    · exact ensures_pure .linger
    · exact ensures_pure .ignored
  apply ensures_bind
  intro length
  apply ensures_ite
  · apply ensures_bind
    intro k
    apply ensures_bind
    intro number
    exact ensures_pure (.length _)
  apply ensures_bind
  intro host
  apply ensures_ite
  · apply ensures_bind
    intro k
    exact ensures_pure (.host _)
  · apply ensures_bind
    intro line
    exact ensures_pure .ignored

/-- `parse_headers` leaves what is about the reply alone. -/
theorem parseHeaders_replySide (text : Nat) (h : replySide c = o) :
    Ensures (c.parseHeaders text) fun r => replySide r.2 = o := by
  refine (parseHeaders_read c text).mono ?_
  intro r hr
  cases hr with
  | _ => exact h

/-- `parse_content` leaves what is about the reply alone. -/
theorem parseContent_replySide (text : Nat) (h : replySide c = o) :
    Ensures (c.parseContent text) fun r => replySide r.2 = o := by
  apply ensures_bind
  intro bodyEnd
  apply ensures_ite
  · apply ensures_bind
    intro readBuf
    exact ensures_pure h
  · exact ensures_pure h

/-- An iteration of `process_read` leaves these members as they are, and returns by
itself only `NO_REQUEST` and `BAD_REQUEST`. -/
inductive Parsed (o : ReplySide) : Next → Prop
  | noRequest {c : HttpConn} (h : replySide c = o) : Parsed o (.ret .noRequest c)
  | badRequest {c : HttpConn} (h : replySide c = o) : Parsed o (.ret .badRequest c)
  | doRequest {c : HttpConn} (h : replySide c = o) : Parsed o (.doRequest c)
  | again {ls : LineStatus} {c : HttpConn} (h : replySide c = o) : Parsed o (.again ls c)

/-- The switch of `process_read` leaves what is about the reply alone. -/
theorem dispatch_parsed (text : Nat) (h : replySide c = o) :
    Ensures (c.dispatch text) (Parsed o) := by
  unfold HttpConn.dispatch
  cases c.mCheckState with
  | checkStateRequestline =>
    apply (parseRequestLine_replySide text h).bind
    rintro ⟨ret, c⟩ hr
    apply ensures_ite
    · exact ensures_pure (.badRequest hr)
    · exact ensures_pure (.again hr)
  | checkStateHeader =>
    apply (parseHeaders_replySide text h).bind
    rintro ⟨ret, c⟩ hr
    apply ensures_ite
    · exact ensures_pure (.badRequest hr)
    apply ensures_ite
    · exact ensures_pure (.doRequest hr)
    · exact ensures_pure (.again hr)
  | checkStateContent =>
    apply (parseContent_replySide text h).bind
    rintro ⟨ret, c⟩ hr
    apply ensures_ite
    · exact ensures_pure (.doRequest hr)
    · exact ensures_pure (.again hr)

/-- The body of the loop of `process_read` leaves what is about the reply alone. -/
theorem iterate_parsed (ls : LineStatus) (h : replySide c = o) :
    Ensures (c.iterate ls) (Parsed o) := by
  have hnext : Ensures (c.nextLine ls) fun r => replySide r.2 = o := by
    apply ensures_ite
    · exact ensures_pure h
    · exact parseLine_replySide h
  apply hnext.bind
  rintro ⟨ls, c⟩ hr
  apply ensures_ite
  · exact ensures_pure (.noRequest hr)
  apply ensures_bind
  intro line
  exact dispatch_parsed _ hr

/-- How a call of `process_read` ends, by itself or in `do_request`. -/
inductive ReadEnd (fs : FileSystem) (o : ReplySide) : HttpCode × HttpConn → Prop
  | noRequest {c : HttpConn} (h : replySide c = o) : ReadEnd fs o (.noRequest, c)
  | badRequest {c : HttpConn} (h : replySide c = o) : ReadEnd fs o (.badRequest, c)
  | doRequest {c : HttpConn} {r : HttpCode × HttpConn} (h : replySide c = o)
      (hr : c.doRequest fs = .ok r) : ReadEnd fs o r

/-- The loop of `process_read` ends by itself or in `do_request`. -/
theorem readLoop_end (fs : FileSystem) (fuel : Nat) : ∀ (ls : LineStatus) (c : HttpConn),
    replySide c = o → Ensures (c.readLoop fs fuel ls) (ReadEnd fs o) := by
  induction fuel with
  | zero =>
    intro ls c _
    exact ensures_error _
  | succ fuel ih =>
    intro ls c h
    apply (iterate_parsed ls h).bind
    intro next hnext
    cases hnext with
    | noRequest h => exact ensures_pure (.noRequest h)
    | badRequest h => exact ensures_pure (.badRequest h)
    | doRequest h => exact ⟨fun hr => .doRequest h hr⟩
    | again h => exact ih _ _ h

/-- A call of `process_read` ends by itself or in `do_request`. -/
theorem processRead_end (fs : FileSystem) (c : HttpConn) :
    Ensures (c.processRead fs) (ReadEnd fs (replySide c)) :=
  readLoop_end fs _ _ c rfl

end Parsing

/-! ## Looking for the file -/

/-- `do_request` comes to an end in one of four ways. The last one is the only one that maps
the file. -/
inductive Sought (fs : FileSystem) (c : HttpConn) : HttpCode × HttpConn → Prop
  | noResource (m : List UInt8) : Sought fs c (.noResource, { c with mRealFile := m })
  | forbidden (m : List UInt8) (st : FileStat) :
      Sought fs c (.forbiddenRequest, { c with mRealFile := m, mFileStat := st })
  | directory (m : List UInt8) (st : FileStat) :
      Sought fs c (.badRequest, { c with mRealFile := m, mFileStat := st })
  | file (m path : List UInt8) (st : FileStat) :
      Sought fs c (.fileRequest, { c with
        mRealFile := m, mFileStat := st, mFileAddress := fs.mmap path st.stSize })

/-- The four ends of `do_request`. -/
theorem doRequest_sought (fs : FileSystem) (c : HttpConn) :
    Ensures (c.doRequest fs) (Sought fs c) := by
  apply ensures_bind
  intro realFile
  split
  · exact ensures_error _
  · apply ensures_bind
    intro url
    apply ensures_bind
    intro realFile
    apply ensures_bind
    intro path
    cases fs.stat path with
    | none => exact ensures_pure (.noResource _)
    | some st =>
      apply ensures_ite
      · exact ensures_pure (.forbidden _ _)
      apply ensures_ite
      · exact ensures_pure (.directory _ _)
      · exact ensures_pure (.file _ path _)

/-- A file system without files. -/
def noFiles : FileSystem := ⟨fun _ => none, fun _ _ => -1⟩

/-- Where there are no files, nothing is found. -/
theorem doRequest_noFiles (c : HttpConn) :
    Ensures (c.doRequest noFiles) fun r => r.1 = .noResource := by
  apply ensures_bind
  intro realFile
  split
  · exact ensures_error _
  · apply ensures_bind
    intro url
    apply ensures_bind
    intro realFile
    apply ensures_bind
    intro path
    exact ensures_pure rfl

/-! ## Receiving -/

/-- The loop of `read` leaves what is about the reply alone. -/
theorem readData_replySide {o : ReplySide} (rs : List RecvResult) : ∀ c : HttpConn, replySide c = o →
    Ensures (c.readData rs) fun r => replySide r.2 = o := by
  induction rs with
  | nil =>
    intro c h
    exact ensures_pure h
  | cons r rs ih =>
    intro c h
    cases r with
    | eagain => exact ensures_pure h
    | eof => exact ensures_pure h
    | error => exact ensures_pure h
    | data bytes =>
      apply ensures_ite
      · exact ensures_pure h
      have hreceive : Ensures (c.receive (bytes.take (readBufferSize - c.mReadIdx)))
          fun c' => replySide c' = o := by
        apply ensures_bind
        intro readBuf
        exact ensures_pure h
      apply hreceive.bind
      intro c hc
      exact ih c hc

/-- `read` leaves what is about the reply alone. -/
theorem read_replySide (rs : List RecvResult) (c : HttpConn) :
    Ensures (c.read rs) fun r => replySide r.2 = replySide c := by
  apply ensures_ite
  · exact ensures_pure rfl
  · exact readData_replySide rs c rfl

/-! ## Preparing the response -/

/-- Nothing has changed. -/
theorem OnlyReply.refl (c : HttpConn) : OnlyReply c c :=
  ⟨c.mWriteBuf, c.mWriteIdx, c.mIv0, c.mIv1, c.mIvCount, rfl⟩

/-- Changes of the reply one after the other. -/
theorem OnlyReply.trans {c c' c'' : HttpConn} (h : OnlyReply c c') (h' : OnlyReply c' c'') :
    OnlyReply c c'' := by
  obtain ⟨m, i, iv₀, iv₁, n, rfl⟩ := h
  obtain ⟨m', i', iv₀', iv₁', n', rfl⟩ := h'
  exact ⟨m', i', iv₀', iv₁', n', rfl⟩

/-- `add_response` changes the write buffer only. -/
theorem addResponse_onlyReply (c : HttpConn) (text : List UInt8) :
    Ensures (c.addResponse text) fun r => OnlyReply c r.2 := by
  apply ensures_ite
  · exact ensures_pure (OnlyReply.refl c)
  apply ensures_bind
  intro writeBuf
  apply ensures_ite
  · exact ensures_pure ⟨writeBuf, _, _, _, _, rfl⟩
  · exact ensures_pure ⟨writeBuf, _, _, _, _, rfl⟩

/-- `add_headers` changes the write buffer only. -/
theorem addHeaders_onlyReply (c : HttpConn) (contentLen : Int) :
    Ensures (c.addHeaders contentLen) (OnlyReply c) := by
  apply (addResponse_onlyReply c _).bind
  rintro ⟨_, c₁⟩ h₁
  apply (addResponse_onlyReply c₁ _).bind
  rintro ⟨_, c₂⟩ h₂
  apply (addResponse_onlyReply c₂ _).bind
  rintro ⟨_, c₃⟩ h₃
  exact ensures_pure (h₁.trans (h₂.trans h₃))

/-- A page changes the write buffer only. -/
theorem addPage_onlyReply (c : HttpConn) (status : Int) (title form : List UInt8) :
    Ensures (c.addPage status title form) fun r => OnlyReply c r.2 := by
  apply (addResponse_onlyReply c _).bind
  rintro ⟨_, c₁⟩ h₁
  apply (addHeaders_onlyReply c₁ _).bind
  intro c₂ h₂
  exact (addResponse_onlyReply c₂ form).mono fun r hr => h₁.trans (h₂.trans hr)

/-- An error page changes the write buffer and `m_iv` only. -/
theorem page_onlyReply (c : HttpConn) (status : Int) (title form : List UInt8) :
    Ensures (HttpConn.processWrite.page c status title form) fun r => OnlyReply c r.2 := by
  apply (addPage_onlyReply c status title form).bind
  rintro ⟨fits, c₁⟩ h₁
  apply ensures_ite
  · exact ensures_pure (h₁.trans ⟨_, _, _, _, _, rfl⟩)
  · exact ensures_pure h₁

/-- `process_write` changes the members of the reply only. -/
theorem processWrite_onlyReply (c : HttpConn) (ret : HttpCode) :
    Ensures (c.processWrite ret) fun r => OnlyReply c r.2 := by
  cases ret with
  | internalError => exact page_onlyReply c _ _ _
  | badRequest => exact page_onlyReply c _ _ _
  | noResource => exact page_onlyReply c _ _ _
  | forbiddenRequest => exact page_onlyReply c _ _ _
  | fileRequest =>
    apply ensures_ite
    · apply (addResponse_onlyReply c _).bind
      rintro ⟨_, c₁⟩ h₁
      apply (addHeaders_onlyReply c₁ _).bind
      intro c₂ h₂
      exact ensures_pure ((h₁.trans h₂).trans ⟨_, _, _, _, _, rfl⟩)
    · apply (addPage_onlyReply c _ _ _).bind
      rintro ⟨_, c₁⟩ h₁
      exact ensures_pure h₁
  | noRequest => exact ensures_pure (OnlyReply.refl c)
  | getRequest => exact ensures_pure (OnlyReply.refl c)
  | closedConnection => exact ensures_pure (OnlyReply.refl c)

end ServerListings.Interface
