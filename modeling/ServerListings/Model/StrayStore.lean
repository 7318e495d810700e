import ServerListings.Model.WebServer

/-!
# Behaviour that C++ does not define (listings 15-4, 15-5 and 15-6)

`WebServer.Step` has no step where an access leaves its array. Here the server goes on there.
A negative body length makes `parse_content` store its NUL in front of `m_read_buf`, where the
object has `m_address`, which nothing reads, and in front of that `m_sockfd`. Such a call of
`process` goes on with the members as they are then. After any other access of this kind every
state can follow.
-/

set_option autoImplicit false

namespace ServerListings.Model.Http

open Lib.CMem

/-- The bytes of `m_sockfd` and of `m_address`. -/
def sockfdSize : Int := 4
def addressSize : Int := 16

/-- The `int` whose byte `k`, counted from the lowest one, is set to zero. -/
def clearByte (n : Int) (k : Nat) : Int := toInt (n - n / 256 ^ k % 256 * 256 ^ k)

/-- The subscript that `parse_content` computes for the line at `text` lies in front of the read
buffer, or the sum that it compares with the read index is no `int`. -/
def HttpConn.Strays (c : HttpConn) (text : Nat) : Prop :=
  (text : Int) + c.mContentLength < 0 ∨ intMax < c.mContentLength + c.mCheckedIdx

instance (c : HttpConn) (text : Nat) : Decidable (c.Strays text) :=
  inferInstanceAs (Decidable (_ ∨ _))

/-- The call of `parse_content` of this kind that the loop of `process_read` comes to: the object
before the call and the start of its line. -/
def HttpConn.strayLoop : Nat → LineStatus → HttpConn → Option (HttpConn × Nat)
  | 0, _, _ => none
  | fuel + 1, lineStatus, c =>
    match c.nextLine lineStatus with
    | .ok (.lineOk, c) =>
      let text := c.mStartLine
      let c := { c with mStartLine := c.mCheckedIdx }
      if c.mCheckState = .checkStateContent ∧ c.Strays text then some (c, text)
      else
        match c.dispatch text with
        | .ok (.again lineStatus c) => HttpConn.strayLoop fuel lineStatus c
        | _ => none
    | _ => none

/-- The same for a call of `process_read`. -/
def HttpConn.strayCall (c : HttpConn) : Option (HttpConn × Nat) :=
  HttpConn.strayLoop (c.mReadIdx - c.mCheckedIdx + 2) .lineOk c

/-- The store of a NUL at the subscript `i` of `m_read_buf` that is less than 0. -/
def HttpConn.storeInFront (c : HttpConn) (i : Int) : Checked HttpConn :=
  if -addressSize ≤ i then pure c
  else if -(addressSize + sockfdSize) ≤ i then
    pure { c with mSockfd := clearByte c.mSockfd (i + addressSize + sockfdSize).toNat }
  else .error .outOfBounds

/-- What `process` does with the result of `process_read`. -/
def HttpConn.answer (c : HttpConn) (readRet : HttpCode) : Checked (HttpConn × List Effect) :=
  if readRet = .noRequest then
    pure (c, modfd c.mSockfd .epollin)
  else do
    let (writeRet, c) ← c.processWrite readRet
    if !writeRet then
      let (c, effects) := c.closeConn
      pure (c, effects ++ modfd c.mSockfd .epollout)
    else
      pure (c, modfd c.mSockfd .epollout)

/-- `process` reads and then answers. -/
theorem HttpConn.process_eq (fs : FileSystem) (c : HttpConn) :
    c.process fs = c.processRead fs >>= fun r => r.2.answer r.1 := rfl

/-- `http_conn::process`, going on behind a store in front of the buffer. `parse_content` returns
`GET_REQUEST` after it, and `process_read` calls `do_request`. -/
def HttpConn.processStray (fs : FileSystem) (c : HttpConn) : Checked (HttpConn × List Effect) :=
  match c.strayCall with
  | none => c.process fs
  | some (c, text) => do
    let _ ← addInt c.mContentLength c.mCheckedIdx
    let c ← c.storeInFront (text + c.mContentLength)
    let (readRet, c) ← c.doRequest fs
    c.answer readRet

end ServerListings.Model.Http

namespace ServerListings.Model.WebServer

open Lib.CMem ServerListings.Model.Http

namespace Server

variable {W : Type}

/-- The call of `process` by a worker, going on behind a store in front of the read buffer. -/
def workStray [DecidableEq W] (s : Server W) (w : W) (fd : Int) (fs : FileSystem) : Checked (Server W) := do
  let (c, effects) ← (s.users fd).processStray fs
  let s := { s with working := Function.update s.working w none }
  pure (s.setUser fd c effects)

/-- `accept` returns a descriptor that was not open. -/
def FreshAccept (s : Server W) (input : Input) : Prop :=
  ∀ connfd, input.accepted = some connfd → 0 ≤ connfd ∧ s.descriptors connfd = none

/-- The handling of the event or the call of `process` makes an access that C++ does not
define, and not one in front of a read buffer. A `writev` whose result is missing is none. -/
def Undefined [DecidableEq W] (s : Server W) : Action W → Prop
  | .handle d input => ∃ rest e, s.pending = d :: rest ∧ s.FreshAccept input ∧
      { s with pending := rest }.handleEvent input d = .error e ∧ e ≠ .outOfFuel
  | .process w fs => ∃ fd e, s.working w = some fd ∧ s.workStray w fd fs = .error e
  | .wait _ | .take _ => False

/-- The action stays inside the arrays: `accept` returns an index of `users` or the client is
turned away, and `process` finds room in the read buffer for a terminator and comes to no call
of `parse_content` that strays. -/
def Defined (s : Server W) : Action W → Prop
  | .handle d input => d.fd = s.listenfd → s.userCount < maxFd →
      ∀ connfd, input.accepted = some connfd → connfd < maxFd
  | .process w _ => ∀ fd, s.working w = some fd →
      (s.users fd).mReadIdx < readBufferSize ∧ (s.users fd).strayCall = none
  | .wait _ | .take _ => True

end Server

/-- The steps of the server, with those whose behaviour is not defined. -/
inductive Turn {W : Type} [DecidableEq W] : Server W → Action W → Server W → Prop where
  | step {s s' : Server W} (a : Action W) : Step s a s' → Turn s a s'
  | stray {s s' : Server W} (w : W) (fd : Int) (fs : FileSystem) :
      s.working w = some fd → (s.users fd).strayCall ≠ none → s.workStray w fd fs = .ok s' →
      Turn s (.process w fs) s'
  | undefined {s s' : Server W} (a : Action W) : s.Undefined a → Turn s a s'

end ServerListings.Model.WebServer
