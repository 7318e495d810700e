import ServerListings.Interface.HttpHead
import ServerListings.Interface.ReplyMessage
import ServerListings.Interface.ServedFile
import ServerListings.Interface.Sockets
import ServerListings.Model.Conversation

/-!
# One exchange

A delivery that does not complete a request leaves the connection as it was but for what the
reader has read (`turn_incomplete`). One that does is answered from the request alone: the
object that `process` leaves is loaded with a response (`Loaded`), what is sent depends on that
and the results of `writev`, and afterwards the object has been reset.
-/

set_option autoImplicit false

namespace ServerListings.Interface

open Lib.CMem Lib.LineReader ServerListings.Model ServerListings.Model.Http

/-! ## Sending -/

section Sending

variable {mapped : Int → List UInt8} {n : Nat} {R : List UInt8} {c c' : HttpConn}

/-- A response of the bytes `R` is prepared, `n` of them from the write buffer, and the
connection is to be kept. -/
structure Loaded (mapped : Int → List UInt8) (n : Nat) (R : List UInt8) (c : HttpConn) : Prop where
  writeIdx : c.mWriteIdx = n
  bytes : c.iovBytes mapped = R
  linger : c.mLinger = true

/-- `unmap` leaves `m_linger` alone. -/
theorem unmap_linger (c : HttpConn) : c.unmap.1.mLinger = c.mLinger := by
  unfold HttpConn.unmap
  split <;> rfl

/-- A connection that is kept is ready for the next request. -/
theorem finishWrite_linger (h : c.mLinger = true) :
    c.finishWrite = (true, c.unmap.1.init, c.unmap.2 ++ modfd c.unmap.1.init.mSockfd .epollin) := by
  rw [← unmap_linger] at h
  unfold HttpConn.finishWrite
  exact if_pos h

/-- Two calls of `write` go the same way. -/
structure SameWay (c c' : HttpConn) (call call' : WriteCall) : Prop where
  ending : call.ending = call'.ending
  ret : call.ret = call'.ret
  sent : call.sent = call'.sent
  waiting : call.ending = .waiting → call.conn = c ∧ call'.conn = c'
  finished : call.ending = .finished → call.conn = c.unmap.1.init ∧ call'.conn = c'.unmap.1.init

/-- The loop of `write` depends on the response alone. -/
theorem writeLoop_sameWay (h : Loaded mapped n R c) (h' : Loaded mapped n R c') (ws : List WritevResult) :
    ∀ toSend haveSent : Int, SameWay c c' (c.writeLoop mapped toSend haveSent ws)
      (c'.writeLoop mapped toSend haveSent ws) := by
  induction ws with
  | nil => exact fun _ _ => ⟨rfl, rfl, rfl, nofun, nofun⟩
  | cons r ws ih =>
    intro toSend haveSent
    cases r with
    | eagain => exact ⟨rfl, rfl, rfl, fun _ => ⟨rfl, rfl⟩, nofun⟩
    | error => exact ⟨rfl, rfl, rfl, nofun, nofun⟩
    | accepted k =>
      unfold HttpConn.writeLoop
      by_cases hdone : toSend - k ≤ haveSent + k
      · simp only [if_pos hdone, finishWrite_linger h.linger, finishWrite_linger h'.linger, h.bytes,
          h'.bytes]
        exact ⟨rfl, rfl, rfl, nofun, fun _ => ⟨rfl, rfl⟩⟩
      · simp only [if_neg hdone, h.bytes, h'.bytes]
        have hrest := ih (toSend - k) (haveSent + k)
        exact ⟨hrest.ending, hrest.ret, congrArg (R.take k ++ ·) hrest.sent, hrest.waiting,
          hrest.finished⟩

/-- Two objects with the same response write it in the same way. -/
theorem write_sameWay (hn : n ≠ 0) (h : Loaded mapped n R c) (h' : Loaded mapped n R c')
    (ws : List WritevResult) : SameWay c c' (c.write mapped ws) (c'.write mapped ws) := by
  unfold HttpConn.write
  rw [h.writeIdx, h'.writeIdx, if_neg hn, if_neg hn]
  exact writeLoop_sameWay h h' ws n 0

/-- Where the response of one object is sent, that of the other one is, and both objects are
reset. -/
theorem send_same (hn : n ≠ 0) (h : Loaded mapped n R c) (h' : Loaded mapped n R c')
    (writes : List (List WritevResult)) : ∀ {sent : List UInt8} {d : HttpConn},
    c.send mapped writes = some (sent, d) →
      ∃ d' : HttpConn, c'.send mapped writes = some (sent, d'.init) := by
  induction writes with
  | nil => nofun
  | cons ws rest ih =>
    intro sent d hsend
    have hway := write_sameWay hn h h' ws
    rw [HttpConn.send] at hsend ⊢
    simp only [← hway.ending, ← hway.ret, ← hway.sent]
    cases hend : (c.write mapped ws).ending with
    | waiting =>
      obtain ⟨hconn, hconn'⟩ := hway.waiting hend
      simp only [hend, hconn] at hsend
      obtain ⟨⟨later, d₁⟩, hlater, heq⟩ := Option.map_eq_some_iff.mp hsend
      obtain ⟨rfl, rfl⟩ := Prod.mk.inj heq
      obtain ⟨d', hd'⟩ := ih hlater
      exact ⟨d', by simp only [hconn', hd', Option.map_some]⟩
    | finished =>
      obtain ⟨-, hconn'⟩ := hway.finished hend
      simp only [hend] at hsend
      by_cases hret : (c.write mapped ws).ret = some true
      · rw [if_pos hret] at hsend ⊢
        obtain ⟨rfl, -⟩ := Prod.mk.inj (Option.some.inj hsend)
        exact ⟨c'.unmap.1, by rw [hconn']⟩
      · rw [if_neg hret] at hsend
        cases hsend
    | running =>
      simp only [hend] at hsend
      cases hsend
    | failed =>
      simp only [hend] at hsend
      cases hsend

end Sending

/-! ## Receiving -/

section Receiving

variable {c : HttpConn} {s : List UInt8} {h : HeadState} {free : Nat} {fs : FileSystem}

/-- The read index counts the bytes received. -/
theorem Tracks.readIdx (ht : Tracks c s h free) : c.mReadIdx = s.length := by
  obtain ⟨s₀, pre, v, y, rfl, -, hpos, hat, -⟩ := ht
  rw [hat.readIdx, hpos, ← List.length_append]

/-- A chunk that leaves room in the buffer is taken whole. -/
theorem read_chunk {data : List UInt8} (hne : data ≠ []) (hroom : c.mReadIdx + data.length < readBufferSize) :
    c.read [.data data, .eagain] = c.receive data >>= fun c' => pure (true, c') := by
  have htake : data.take (readBufferSize - c.mReadIdx) = data := List.take_of_length_le (by omega)
  rw [HttpConn.read, if_neg (by omega), HttpConn.readData, htake]
  exact if_neg (by rwa [List.length_eq_zero_iff])

/-- What `process_read` leaves alone as long as the request is incomplete. -/
theorem replySide_of_noRequest {c' : HttpConn} (hread : c.processRead fs = .ok (.noRequest, c')) :
    replySide c' = replySide c := by
  generalize hr : (HttpCode.noRequest, c') = r at hread
  cases (processRead_end fs c).result hread with
  | noRequest h =>
    obtain ⟨-, rfl⟩ := Prod.mk.inj hr
    exact h
  | badRequest h => cases (Prod.mk.inj hr).1
  | @doRequest c₁ _ h hdo =>
    subst hr
    generalize hr : (HttpCode.noRequest, c') = r at hdo
    cases (doRequest_sought fs c₁).result hdo with
    | noResource m => cases (Prod.mk.inj hr).1
    | forbidden m st => cases (Prod.mk.inj hr).1
    | directory m st => cases (Prod.mk.inj hr).1
    | file m path st => cases (Prod.mk.inj hr).1

/-- Received bytes leave what is about the reply alone. -/
theorem receive_replySide {c' : HttpConn} {data : List UInt8} (h : c.receive data = .ok c') :
    replySide c' = replySide c := by
  obtain ⟨m, -, h⟩ := bind_eq_ok.mp h
  obtain rfl := Except.ok.inj h
  rfl

/-- The handling of a delivery whose bytes are taken. -/
theorem turn_read {d : Delivery} {c₁ : HttpConn} (hne : d.data ≠ [])
    (hroom : c.mReadIdx + d.data.length < readBufferSize) (hreceive : c.receive d.data = .ok c₁) :
    c.turn d = c₁.process d.files >>= fun r =>
      if r.2 = modfd r.1.mSockfd .epollout then
        match r.1.send d.mapped d.writes with
        | some p => pure (some p.1, p.2)
        | none => pure (none, r.1)
      else pure (none, r.1) := by
  have hread : c.read [.data d.data, .eagain] = .ok (true, c₁) := by
    rw [read_chunk hne hroom, hreceive]
    rfl
  rw [HttpConn.turn, hread, ok_bind]
  cases hprocess : c₁.process d.files with
  | error e => simp only [Bool.not_true, Bool.false_eq_true, if_false, hprocess, error_bind]
  | ok r =>
    simp only [Bool.not_true, Bool.false_eq_true, if_false, hprocess, ok_bind]
    split
    · cases r.1.send d.mapped d.writes with
      | none => rfl
      | some p => rfl
    · rfl

/-- A delivery that does not complete the request. -/
theorem turn_incomplete {d : Delivery} {st : State HeadState} (ht : Tracks c s h free)
    (hsize : s.length + free = readBufferSize) (hne : d.data ≠ []) (hdata : d.data.length < free)
    (hread : readHead (s ++ d.data) = .ok st) :
    ∃ c', c.turn d = .ok (none, c') ∧ Tracks c' (s ++ d.data) st.ctl (free - d.data.length) ∧
      replySide c' = replySide c := by
  obtain ⟨c₁, hreceive, hout⟩ := processRead_head d.files d.data ht hdata.le
  rw [hread] at hout
  obtain ⟨c₂, hprocess, ht'⟩ := hout
  have hroom : c.mReadIdx + d.data.length < readBufferSize := by
    rw [ht.readIdx]
    omega
  refine ⟨c₂, ?_, ht', (replySide_of_noRequest hprocess).trans (receive_replySide hreceive)⟩
  have hcall : c₁.process d.files = .ok (c₂, modfd c₂.mSockfd .epollin) := by
    rw [HttpConn.process, hprocess]
    rfl
  have hdiffer : modfd c₂.mSockfd .epollin ≠ modfd c₂.mSockfd .epollout := by
    intro heq
    cases (List.cons.inj heq).1
  rw [turn_read hne hroom hreceive, hcall, ok_bind]
  exact if_neg hdiffer

end Receiving

/-! ## Answering -/

section Answering

variable {c : HttpConn} {s : List UInt8} {h : HeadState} {free : Nat} {fs : FileSystem}
  {url : List UInt8}

/-- The size of the file that a request for `url` asks for. -/
def servedSize (fs : FileSystem) (url : List UInt8) : Nat :=
  ((fs.stat (requestPath url)).map FileStat.stSize).getD 0

/-- The text of the response in the write buffer. -/
def servedText (fs : FileSystem) (url : List UInt8) : List UInt8 :=
  replyText true (servedSize fs url) (requestCode fs url)

/-- The response. -/
def servedBytes (mapped : Int → List UInt8) (fs : FileSystem) (url : List UInt8) : List UInt8 :=
  servedText fs url ++
    if requestCode fs url = .fileRequest then
      (mapped (fs.mmap (requestPath url) (servedSize fs url))).take (servedSize fs url)
    else []

/-- `process_write` prepares no response for an empty file. -/
def AsksEmpty (fs : FileSystem) (url : List UInt8) : Prop :=
  requestCode fs url = .fileRequest ∧ servedSize fs url = 0

/-- `process_read` has answered a request for `url` on a connection that is to be kept. -/
structure Asked (fs : FileSystem) (url : List UInt8) (r : HttpCode × HttpConn) : Prop where
  code : r.1 = requestCode fs url
  written : Written r.2 []
  linger : r.2.mLinger = true
  file : r.1 = .fileRequest → r.2.mFileStat.stSize = servedSize fs url ∧
    r.2.mFileAddress = fs.mmap (requestPath url) (servedSize fs url)

/-- The write buffer is cleared. -/
def Cleared (o : ReplySide) : Prop :=
  o.writeIdx = 0 ∧ o.writeBuf.length = writeBufferSize

/-- A cleared write buffer has nothing written. -/
theorem cleared_iff : Cleared (replySide c) ↔ Written c [] := by
  constructor
  · rintro ⟨hidx, hlen⟩
    exact ⟨hidx, by simp, hlen⟩
  · intro hw
    exact ⟨hw.writeIdx, hw.length⟩

/-- `do_request` leaves the write buffer alone. -/
theorem Sought.written {r : HttpCode × HttpConn} (h : Sought fs c r) (hw : Written c []) :
    Written r.2 [] := by
  cases h with
  | noResource m => exact ⟨hw.writeIdx, hw.text, hw.length⟩
  | forbidden m st => exact ⟨hw.writeIdx, hw.text, hw.length⟩
  | directory m st => exact ⟨hw.writeIdx, hw.text, hw.length⟩
  | file m path st => exact ⟨hw.writeIdx, hw.text, hw.length⟩

/-- Neither parsing nor `do_request` writes to the write buffer. -/
theorem processRead_written {r : HttpCode × HttpConn} (hw : Written c [])
    (hread : c.processRead fs = .ok r) : Written r.2 [] := by
  cases (processRead_end fs c).result hread with
  | noRequest h => exact cleared_iff.mp (h ▸ cleared_iff.mpr hw)
  | badRequest h => exact cleared_iff.mp (h ▸ cleared_iff.mpr hw)
  | @doRequest c₁ _ h hdo =>
    exact ((doRequest_sought fs c₁).result hdo).written (cleared_iff.mp (h ▸ cleared_iff.mpr hw))

/-- The call of `process_read` that completes a request. -/
theorem processRead_asked (fs : FileSystem) {data : List UInt8} (ht : Tracks c s h free)
    (hdata : data.length ≤ free) (hw : Written c []) {head : HeadState}
    (hread : readHead (s ++ data) = .error (.request head)) (hlinger : head.linger = true) (hurl : head.url = some url) :
    ∃ c₁ r, c.receive data = .ok c₁ ∧ c₁.processRead fs = .ok r ∧ Asked fs url r := by
  obtain ⟨c₁, hreceive, hout⟩ := processRead_head fs data ht hdata
  rw [hread] at hout
  obtain ⟨c₂, hprocess, hshows, hreal⟩ := hout
  have hstr := hshows.url
  rw [hurl] at hstr
  obtain ⟨m, st, a, hdo, -, hfile⟩ :=
    doRequest_eq fs hstr (by rw [hreal]; exact terminated_zeros _)
  rw [hdo] at hprocess
  have hw₁ : Written c₁ [] := cleared_iff.mp (receive_replySide hreceive ▸ cleared_iff.mpr hw)
  refine ⟨c₁, _, hreceive, hprocess, rfl, processRead_written hw₁ hprocess,
    hshows.linger.trans hlinger, fun hcode => ?_⟩
  obtain ⟨hst, rfl⟩ := hfile hcode
  have hsize : servedSize fs url = st.stSize := by
    rw [servedSize, hst]
    rfl
  rw [hsize]
  exact ⟨rfl, rfl⟩

/-- Every request has an answer. -/
theorem requestCode_answered (fs : FileSystem) (url : List UInt8) : Answered (requestCode fs url) := by
  unfold requestCode Answered
  repeat' split
  all_goals simp

/-- The text depends on the size of a file only where there is one. -/
theorem replyText_of_ne {ret : HttpCode} (hret : ret ≠ .fileRequest) (linger : Bool) (n n' : Nat) :
    replyText linger n ret = replyText linger n' ret := by
  cases ret with
  | fileRequest => exact absurd rfl hret
  | _ => rfl

/-- An answer has bytes. -/
theorem servedText_pos (fs : FileSystem) (url : List UInt8) : (servedText fs url).length ≠ 0 := by
  have hstatus : ∀ (status : Int) (title rest : List UInt8), (statusLine status title ++ rest).length ≠ 0 := by
    intro status title rest
    have hhead : (bytes "HTTP/1.1").length = 8 := by decide
    simp only [statusLine, List.length_append, hhead]
    omega
  unfold servedText
  rcases requestCode_answered fs url with hcode | hcode | hcode | hcode | hcode
  · rw [hcode, replyText, pageText, List.append_assoc]
    exact hstatus _ _ _
  · rw [hcode, replyText, pageText, List.append_assoc]
    exact hstatus _ _ _
  · rw [hcode, replyText, pageText, List.append_assoc]
    exact hstatus _ _ _
  · rw [hcode, replyText, pageText, List.append_assoc]
    exact hstatus _ _ _
  · rw [hcode, replyText]
    exact hstatus _ _ _

/-- The response that is prepared for a request. -/
theorem Asked.loaded {r : HttpCode × HttpConn} (ha : Asked fs url r) (hfull : ¬ AsksEmpty fs url)
    (mapped : Int → List UInt8) :
    ∃ c', r.2.processWrite r.1 = .ok (true, c') ∧
      Loaded mapped (servedText fs url).length (servedBytes mapped fs url) c' := by
  obtain ⟨ret, c⟩ := r
  obtain rfl : ret = requestCode fs url := ha.code
  have hsize : requestCode fs url = .fileRequest → c.mFileStat.stSize ≠ 0 := by
    intro hcode h0
    exact hfull ⟨hcode, (ha.file hcode).1.symm.trans h0⟩
  obtain ⟨c', hwrite, honly, htext⟩ := processWrite_text ha.written (requestCode_answered fs url) hsize
  have hp := processWrite_prepared ha.written hwrite
  have hlinger : c.mLinger = true := ha.linger
  have hsame : replyText c.mLinger c.mFileStat.stSize (requestCode fs url) = servedText fs url := by
    rw [hlinger, servedText]
    by_cases hcode : requestCode fs url = .fileRequest
    · rw [(ha.file hcode).1]
    · exact replyText_of_ne hcode true _ _
  rw [hsame] at htext
  refine ⟨c', hwrite, htext.writeIdx, ?_, ?_⟩
  · have hheader : c'.mWriteBuf.take c'.mWriteIdx = servedText fs url := htext.header
    unfold HttpConn.iovBytes servedBytes
    by_cases hcode : requestCode fs url = .fileRequest
    · obtain ⟨hcount, hiv₁⟩ := hp.file hcode
      obtain ⟨hstat, haddress⟩ := ha.file hcode
      obtain ⟨m, i, iv₀, iv₁, n, rfl⟩ := honly
      rw [hcount, hiv₁, hp.iv0, if_pos hcode, ← haddress, ← hstat, ← hheader]
      simp [HttpConn.iovecBytes]
    · rw [hp.page hcode, hp.iv0, if_neg hcode, ← hheader]
      simp [HttpConn.iovecBytes]
  · obtain ⟨m, i, iv₀, iv₁, n, rfl⟩ := honly
    exact hlinger

/-- No response is prepared for an empty file. -/
theorem Asked.empty {r : HttpCode × HttpConn} (ha : Asked fs url r) (hempty : AsksEmpty fs url) :
    ∃ c', r.2.processWrite r.1 = .ok (false, c') := by
  obtain ⟨ret, c⟩ := r
  obtain rfl : ret = requestCode fs url := ha.code
  rw [hempty.1]
  obtain ⟨c', hwrite, -⟩ := processWrite_empty ha.written ((ha.file hempty.1).1.trans hempty.2)
  exact ⟨c', hwrite⟩

/-- A delivery that completes a request for an empty file ends the connection. -/
theorem turn_empty {d : Delivery} {c₁ : HttpConn} {r : HttpCode × HttpConn} (hopen : c.mSockfd ≠ -1)
    (hne : d.data ≠ []) (hroom : c.mReadIdx + d.data.length < readBufferSize)
    (hreceive : c.receive d.data = .ok c₁) (hread : c₁.processRead d.files = .ok r)
    (ha : Asked d.files url r) (hempty : AsksEmpty d.files url) :
    ∃ c', c.turn d = .ok (none, c') := by
  obtain ⟨c₂, hwrite⟩ := ha.empty hempty
  have hcode : r.1 ≠ .noRequest := by
    rw [ha.code]
    exact requestCode_ne_noRequest _ _
  have hsock₁ : c₁.mSockfd = c.mSockfd := congrArg ReplySide.sockfd (receive_replySide hreceive)
  have hsock₂ : c₂.mSockfd = c.mSockfd :=
    processWrite_socket r.1 (processRead_socket d.files hsock₁ _ hread) _ hwrite
  have hcall : c₁.process d.files =
      .ok (c₂.closeConn.1, c₂.closeConn.2 ++ modfd c₂.closeConn.1.mSockfd .epollout) := by
    obtain ⟨ret, c₃⟩ := r
    rw [HttpConn.process, hread]
    simp only [ok_bind, if_neg hcode, hwrite]
    rfl
  have hclosed : ¬ c₂.closeConn.2 ++ modfd c₂.closeConn.1.mSockfd .epollout =
      modfd c₂.closeConn.1.mSockfd .epollout := by
    rw [HttpConn.closeConn, if_pos (by rwa [hsock₂])]
    intro heq
    cases (List.cons.inj heq).1
  rw [turn_read hne hroom hreceive, hcall, ok_bind]
  exact ⟨_, if_neg hclosed⟩

/-- A delivery that completes a request for anything else: the response is sent. -/
theorem turn_loaded {d : Delivery} {c₁ : HttpConn} {r : HttpCode × HttpConn} (hne : d.data ≠ [])
    (hroom : c.mReadIdx + d.data.length < readBufferSize) (hreceive : c.receive d.data = .ok c₁)
    (hread : c₁.processRead d.files = .ok r) (ha : Asked d.files url r)
    (hfull : ¬ AsksEmpty d.files url) :
    ∃ c₂, Loaded d.mapped (servedText d.files url).length (servedBytes d.mapped d.files url) c₂ ∧
      c.turn d = match c₂.send d.mapped d.writes with
        | some p => .ok (some p.1, p.2)
        | none => .ok (none, c₂) := by
  obtain ⟨c₂, hwrite, hloaded⟩ := ha.loaded hfull d.mapped
  have hcode : r.1 ≠ .noRequest := by
    rw [ha.code]
    exact requestCode_ne_noRequest _ _
  have hcall : c₁.process d.files = .ok (c₂, modfd c₂.mSockfd .epollout) := by
    obtain ⟨ret, c₃⟩ := r
    rw [HttpConn.process, hread]
    simp only [ok_bind, if_neg hcode, hwrite]
    rfl
  refine ⟨c₂, hloaded, ?_⟩
  rw [turn_read hne hroom hreceive, hcall, ok_bind]
  exact if_pos rfl

end Answering

end ServerListings.Interface
