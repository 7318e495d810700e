import ServerListings.Lib.LineReader

/-!
# The CGI server on the process pool (listing 15-2)

The class `cgi_conn`. What the process does to its surroundings is a list of effects; a child
that `fork` makes has a list of its own. The client address is left out, which no function
reads.
-/

set_option autoImplicit false

namespace ServerListings.Model

open Lib.CMem Lib.LineReader

/-- What `process` does to its surroundings. `recv` has the number of bytes that came. -/
inductive CgiEffect where
  | recv (n : Nat)
  | access (fileName : List UInt8)
  | fork
  | removefd (epollfd fd : Int)
  | closeStdout
  | dup (fd : Int)
  | execl (fileName : List UInt8)
  | exit
  deriving DecidableEq, Repr

/-- How the `recv` calls of one call of `process` end, when they end before the buffer is full:
`EAGAIN`, the end of the stream, or another error. -/
inductive RecvEnd where
  | again
  | closed
  | failed
  deriving DecidableEq, Repr

/-- What the socket has for one call of `process`: the bytes in the portions in which they come. -/
structure CgiInput where
  portions : List (List UInt8)
  last : RecvEnd
  deriving DecidableEq, Repr

/-- The files that `access` finds, and whether `fork` succeeds. -/
structure CgiSystem where
  hasFile : List UInt8 → Bool
  forks : Bool

/-- `cgi_conn`, with the static member `m_epollfd`. -/
structure CgiConn where
  mEpollfd : Int
  mSockfd : Int
  mBuf : List UInt8
  mReadIdx : Nat
  deriving DecidableEq, Repr

/-- What a call of `process` leaves behind: the object, whether the connection was removed, and
the effects of the process and of the child that it forked. -/
structure CgiCall where
  conn : CgiConn
  removed : Bool
  effects : List CgiEffect
  child : List CgiEffect
  deriving DecidableEq, Repr

namespace CgiConn

/-- `BUFFER_SIZE`. -/
def bufferSize : Nat := 1024

/-- `cgi_conn::init`. -/
def init (epollfd sockfd : Int) : CgiConn := ⟨epollfd, sockfd, List.replicate bufferSize 0, 0⟩

/-- The call of `removefd` in `process`. -/
def remove (c : CgiConn) : CgiCall := ⟨c, true, [.removefd c.mEpollfd c.mSockfd], []⟩

/-- The scan for the end of the line. The first argument counts the iterations that the loop
condition `idx < m_read_idx` still allows. -/
def scanLoop (buf : List UInt8) : Nat → Nat → Checked Nat
  | 0, idx => pure idx
  | n + 1, idx => do
    if 1 ≤ idx then do
      let before ← load buf (idx - 1)
      if before = CR then do
        let b ← load buf idx
        if b = LF then pure idx else scanLoop buf n (idx + 1)
      else scanLoop buf n (idx + 1)
    else scanLoop buf n (idx + 1)

/-- The part of `process` behind the end of the line, which is at `idx`. -/
def startProgram (sys : CgiSystem) (c : CgiConn) (idx : Nat) : Checked CgiCall := do
  let buf ← store c.mBuf (idx - 1) 0
  let c := { c with mBuf := buf }
  let fileName ← fetch c.mBuf 0
  let r := c.remove
  if !sys.hasFile fileName then
    pure { r with effects := .access fileName :: r.effects }
  else if !sys.forks then
    pure { r with effects := [.access fileName, .fork] ++ r.effects }
  else do
    -- the child runs the program that the buffer names
    let name ← fetch c.mBuf 0
    pure { r with
      effects := [.access fileName, .fork] ++ r.effects
      child := [.closeStdout, .dup c.mSockfd, .execl name, .exit] }

/-- The end of the loop of `process` when no bytes come. -/
def noBytes (c : CgiConn) : RecvEnd → CgiCall
  | .again => ⟨c, false, [], []⟩
  | .closed => c.remove
  | .failed => c.remove

/-- The room that is left for `recv`. -/
def room (c : CgiConn) : Checked Nat :=
  if c.mReadIdx ≤ bufferSize - 1 then pure (bufferSize - 1 - c.mReadIdx) else .error .outOfBounds

/-- The loop of `process`. A `recv` into no room is taken to return 0, as it does at the end of the
stream, though a system may also let it fail with `EAGAIN`. What of a portion has no room is not
asked for any more, as the buffer is full then. -/
def processLoop (sys : CgiSystem) (last : RecvEnd) : List (List UInt8) → CgiConn → Checked CgiCall
  | [], c => do
    let room ← c.room
    if room = 0 then pure c.remove else pure (c.noBytes last)
  | portion :: portions, c => do
    let room ← c.room
    let data := portion.take room
    if data.length = 0 then pure c.remove
    else do
      let buf ← copyIn c.mBuf c.mReadIdx data
      let idx := c.mReadIdx
      let c := { c with mBuf := buf, mReadIdx := c.mReadIdx + data.length }
      -- printf reads the buffer as a string
      let _ ← fetch c.mBuf 0
      let idx ← scanLoop c.mBuf data.length idx
      let r ← if idx = c.mReadIdx then processLoop sys last portions c else startProgram sys c idx
      pure { r with effects := .recv data.length :: r.effects }

/-- `cgi_conn::process`. -/
def process (sys : CgiSystem) (c : CgiConn) (input : CgiInput) : Checked CgiCall :=
  processLoop sys input.last input.portions c

/-- The calls of `process` for one connection, which is known to `epoll` until it is removed. -/
def serve (sys : CgiSystem) : CgiConn → List CgiInput → Checked CgiCall
  | c, [] => pure ⟨c, false, [], []⟩
  | c, input :: inputs => do
    let r ← c.process sys input
    if r.removed then pure r
    else do
      let rest ← serve sys r.conn inputs
      pure { rest with effects := r.effects ++ rest.effects, child := r.child ++ rest.child }

end CgiConn

end ServerListings.Model
