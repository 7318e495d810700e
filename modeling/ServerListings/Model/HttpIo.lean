import ServerListings.Model.HttpReply

/-!
# Receiving, sending and processing (listing 15-5)

`read`, `write` and `process`. The results of the system calls that a call of `read` or
`write` makes are a list, one element for each call.
-/

set_option autoImplicit false

namespace ServerListings.Model.Http

open Lib.CMem

/-- A result of `recv`: bytes that are there, no bytes yet, the end of the stream, or
another error. -/
inductive RecvResult
  | data (bytes : List UInt8)
  | eagain
  | eof
  | error
  deriving DecidableEq, Repr

/-- The loop of `http_conn::read`. A `recv` into no space returns 0. -/
def HttpConn.readData (c : HttpConn) : List RecvResult → Checked (Bool × HttpConn)
  | [] | .eagain :: _ => pure (true, c)
  | .eof :: _ | .error :: _ => pure (false, c)
  | .data bytes :: rest => do
    let bytes := bytes.take (readBufferSize - c.mReadIdx)
    if bytes.length = 0 then pure (false, c)
    else
      let c ← c.receive bytes
      c.readData rest

/-- `http_conn::read`. -/
def HttpConn.read (c : HttpConn) (rs : List RecvResult) : Checked (Bool × HttpConn) :=
  if c.mReadIdx ≥ readBufferSize then pure (false, c) else c.readData rs

/-- A result of `writev`: the number of bytes taken over by the socket, or an error. -/
inductive WritevResult
  | accepted (k : Nat)
  | eagain
  | error
  deriving DecidableEq, Repr

/-- How far a call of `write` has come: it is between two `writev` calls, or it has returned
to wait for room in the socket, after an error, or because it takes the response to be
sent. -/
inductive WriteEnd
  | running
  | waiting
  | failed
  | finished
  deriving DecidableEq, Repr

/-- A call of `write`: its end and the value it returned, the object and the effects it left
behind, the bytes the socket accepted and the results of `writev` it did not use. -/
structure WriteCall where
  ending : WriteEnd
  ret : Option Bool
  conn : HttpConn
  effects : List Effect
  sent : List UInt8
  rest : List WritevResult

/-- The bytes that an `iovec` designates; `mapped` is the memory behind file addresses. -/
def HttpConn.iovecBytes (mapped : Int → List UInt8) (c : HttpConn) (iov : Iovec) : List UInt8 :=
  match iov.base with
  | .writeBuf => c.mWriteBuf.take iov.len
  | .file address => (mapped address).take iov.len

/-- The bytes that `m_iv` and `m_iv_count` designate. -/
def HttpConn.iovBytes (mapped : Int → List UInt8) (c : HttpConn) : List UInt8 :=
  (([c.mIv0, c.mIv1].take c.mIvCount).map (c.iovecBytes mapped)).flatten

/-- The end of `http_conn::write` when the response counts as sent. -/
def HttpConn.finishWrite (c : HttpConn) : Bool × HttpConn × List Effect :=
  let (c, effects) := c.unmap
  if c.mLinger then
    let c := c.init
    (true, c, effects ++ modfd c.mSockfd .epollin)
  else
    (false, c, effects ++ modfd c.mSockfd .epollin)

/-- The loop of `http_conn::write`. Its counters stay in the range of `int`: a `writev` that
leaves the loop running has taken fewer bytes than the write buffer has, and no `writev`
takes more than `INT_MAX` less a page. -/
def HttpConn.writeLoop (mapped : Int → List UInt8) (c : HttpConn) :
    Int → Int → List WritevResult → WriteCall
  | _, _, [] => ⟨.running, none, c, [], [], []⟩
  | _, _, .eagain :: rest => ⟨.waiting, some true, c, modfd c.mSockfd .epollout, [], rest⟩
  | _, _, .error :: rest =>
    let (c, effects) := c.unmap
    ⟨.failed, some false, c, effects, [], rest⟩
  | bytesToSend, bytesHaveSend, .accepted k :: rest =>
    let bytesToSend := bytesToSend - k
    let bytesHaveSend := bytesHaveSend + k
    let sent := (c.iovBytes mapped).take k
    if bytesToSend ≤ bytesHaveSend then
      let (ret, c, effects) := c.finishWrite
      ⟨.finished, some ret, c, effects, sent, rest⟩
    else
      let call := c.writeLoop mapped bytesToSend bytesHaveSend rest
      { call with sent := sent ++ call.sent }

/-- `http_conn::write`. -/
def HttpConn.write (mapped : Int → List UInt8) (c : HttpConn) (ws : List WritevResult) : WriteCall :=
  if c.mWriteIdx = 0 then
    let effects := modfd c.mSockfd .epollin
    ⟨.finished, some true, c.init, effects, [], ws⟩
  else
    c.writeLoop mapped c.mWriteIdx 0 ws

/-- `http_conn::process`. -/
def HttpConn.process (fs : FileSystem) (c : HttpConn) : Checked (HttpConn × List Effect) := do
  let (readRet, c) ← c.processRead fs
  if readRet = .noRequest then
    pure (c, modfd c.mSockfd .epollin)
  else do
    let (writeRet, c) ← c.processWrite readRet
    if !writeRet then
      let (c, effects) := c.closeConn
      pure (c, effects ++ modfd c.mSockfd .epollout)
    else
      pure (c, modfd c.mSockfd .epollout)

end ServerListings.Model.Http
