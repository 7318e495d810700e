import ServerListings.Lib.CMem

/-!
# The chat server with poll (listing 9-7)

The loop of `main`: a call of `poll` is a step, and so is each round of the loop over `fds`. With
a round comes what `accept` or `recv` returns there. The pointer `write_buf` is the descriptor
whose element of `users` it points into. `send` takes the whole string. At most `USER_LIMIT`
clients are connected, so that their descriptors are far below `FD_LIMIT`.
-/

set_option autoImplicit false

namespace ServerListings.Model.PollChat

open Lib.CMem

def USER_LIMIT : Nat := 5
def BUFFER_SIZE : Nat := 64

def POLLIN : BitVec 16 := 0x0001#16
def POLLOUT : BitVec 16 := 0x0004#16
def POLLERR : BitVec 16 := 0x0008#16
def POLLHUP : BitVec 16 := 0x0010#16
def POLLNVAL : BitVec 16 := 0x0020#16
def POLLRDHUP : BitVec 16 := 0x2000#16

/-- `flags & flag`, as a condition. -/
def has (flags flag : BitVec 16) : Bool := flags &&& flag != 0#16

structure PollFd where
  fd : Int
  events : BitVec 16
  revents : BitVec 16
  deriving DecidableEq, Repr

/-- The customer data, without the address. -/
structure ClientData where
  writeBuf : Option Int
  buf : List UInt8
  deriving DecidableEq, Repr

/-- `fds` are the elements of the array up to `user_counter`, and `i` is the index of the loop
over them. `running` is false when the loop around `poll` has been left. -/
structure Server where
  listenfd : Int
  fds : List PollFd
  users : Int → ClientData
  i : Nat
  running : Bool

/-- What the server does: `accept` of a client that it keeps, `recv` of data, `send` and `close`. -/
inductive Happening
  | accepted (fd : Int)
  | received (fd : Int) (data : List UInt8)
  | sent (fd : Int) (text : List UInt8)
  | closed (fd : Int)
  deriving DecidableEq, Repr

/-- What `accept` or `recv` returns in a round. -/
inductive Outcome
  | nothing
  | conn (connfd : Int)
  | data (data : List UInt8)
  | eof
  | again
  | failed
  deriving DecidableEq, Repr

inductive Action
  | poll (revents : Int → BitVec 16)
  | pollFailure
  | handle (o : Outcome)

/-- The branches of a round. -/
inductive Branch
  | accept
  | error
  | leave
  | receive
  | send
  | none
  deriving DecidableEq, Repr

/-- The server before its loop. The elements of `users` are not initialized. -/
def start (listenfd : Int) (users : Int → ClientData) : Server :=
  { listenfd := listenfd
    fds := [⟨listenfd, POLLIN ||| POLLERR, 0⟩]
    users := users
    i := 1
    running := true }

/-- The branch for an element of `fds`. -/
def branch (listenfd : Int) (e : PollFd) : Branch :=
  if e.fd = listenfd ∧ has e.revents POLLIN = true then .accept
  else if has e.revents POLLERR then .error
  else if has e.revents POLLRDHUP then .leave
  else if has e.revents POLLIN then .receive
  else if has e.revents POLLOUT then .send
  else .none

/-- `poll` reports what was registered, and `POLLERR`, `POLLHUP` and `POLLNVAL`. -/
def Reported (events revents : BitVec 16) : Prop :=
  revents &&& ~~~(events ||| (POLLERR ||| POLLHUP ||| POLLNVAL)) = 0#16

instance (events revents : BitVec 16) : Decidable (Reported events revents) :=
  inferInstanceAs (Decidable (_ = _))

namespace Server

def userCounter (s : Server) : Nat := s.fds.length - 1

/-- To the next round. -/
def next (s : Server) : Server := { s with i := s.i + 1 }

def poll (s : Server) (revents : Int → BitVec 16) : Server :=
  { s with fds := s.fds.map fun e => { e with revents := revents e.fd }, i := 0 }

def accept (s : Server) (connfd : Int) : Server × List Happening :=
  if s.userCounter ≥ USER_LIMIT then
    (s.next, [.sent connfd (bytes "too many users\n"), .closed connfd])
  else
    ({ s.next with fds := s.fds ++ [⟨connfd, POLLIN ||| POLLRDHUP ||| POLLERR, 0⟩] },
      [.accepted connfd])

/-- `close` of a client. Its elements of `users` and `fds` become copies of the last ones, and
the same round is made again. -/
def remove (s : Server) (e : PollFd) : Server × List Happening :=
  match s.fds.getLast? with
  | none => (s, [])
  | some last =>
    ({ s with
      users := Function.update s.users e.fd (s.users last.fd)
      fds := (s.fds.set s.i last).dropLast }, [.closed e.fd])

/-- The loop that prepares the other clients for `send`. -/
def notify (s : Server) (connfd : Int) : Server :=
  { s with
    fds := s.fds.take 1 ++ s.fds.tail.map fun e =>
      if e.fd = connfd then e else { e with events := e.events ||| ~~~POLLIN ||| POLLOUT }
    users := fun d =>
      if d ≠ connfd ∧ d ∈ s.fds.tail.map PollFd.fd then { s.users d with writeBuf := some connfd }
      else s.users d }

/-- The content of the read buffer of a client. -/
def fill (s : Server) (connfd : Int) (buf : List UInt8) : Server :=
  { s with users := Function.update s.users connfd { s.users connfd with buf := buf } }

/-- `memset` and `recv`. -/
def receive (s : Server) (e : PollFd) : Outcome → Server × List Happening
  | .data data =>
    let s := s.fill e.fd (data ++ List.replicate (BUFFER_SIZE - data.length) 0)
    ((s.notify e.fd).next, [.received e.fd data])
  | .failed => (s.fill e.fd (List.replicate BUFFER_SIZE 0)).remove e
  | _ => ((s.fill e.fd (List.replicate BUFFER_SIZE 0)).next, [])

def send (s : Server) (e : PollFd) : Server × List Happening :=
  match (s.users e.fd).writeBuf with
  | none => (s.next, [])
  | some x =>
    ({ s.next with
      fds := s.fds.set s.i { e with events := e.events ||| ~~~POLLOUT ||| POLLIN }
      users := Function.update s.users e.fd { s.users e.fd with writeBuf := none } },
      [.sent e.fd (cstr (s.users x).buf)])

/-- A round for the element `e`. -/
def round (s : Server) (e : PollFd) (o : Outcome) : Server × List Happening :=
  match branch s.listenfd e with
  | .accept =>
    match o with
    | .conn connfd => s.accept connfd
    | _ => (s.next, [])
  | .error => (s.next, [])
  | .leave => s.remove e
  | .receive => s.receive e o
  | .send => s.send e
  | .none => (s.next, [])

/-- The outcome is one of those of the branch. -/
def Fits (s : Server) (b : Branch) : Outcome → Prop
  | .nothing => b ≠ .accept ∧ b ≠ .receive
  | .conn connfd => b = .accept ∧ ∀ e ∈ s.fds, e.fd ≠ connfd
  | .data data => b = .receive ∧ data ≠ [] ∧ data.length ≤ BUFFER_SIZE - 1
  | .eof => b = .receive
  | .again => b = .receive
  | .failed => b = .accept ∨ b = .receive

/-- The process is at the statement of the action. -/
def Enabled (s : Server) : Action → Prop
  | .poll revents => s.running = true ∧ s.fds.length ≤ s.i ∧
      ∀ e ∈ s.fds, Reported e.events (revents e.fd)
  | .pollFailure => s.running = true ∧ s.fds.length ≤ s.i
  | .handle o => ∃ e ∈ s.fds[s.i]?, s.Fits (branch s.listenfd e) o

def perform (s : Server) : Action → Server × List Happening
  | .poll revents => (s.poll revents, [])
  | .pollFailure => ({ s with running := false }, [])
  | .handle o =>
    match s.fds[s.i]? with
    | none => (s, [])
    | some e => s.round e o

def happens (s : Server) (a : Action) : List Happening := (s.perform a).2

instance (s : Server) (b : Branch) (o : Outcome) : Decidable (s.Fits b o) := by
  cases o <;> unfold Fits <;> infer_instance

instance (s : Server) (a : Action) : Decidable (s.Enabled a) := by
  cases a <;> unfold Enabled <;> infer_instance

end Server

/-- The steps of the server. -/
def Step (s : Server) (a : Action) (s' : Server) : Prop := s.Enabled a ∧ s' = (s.perform a).1

end ServerListings.Model.PollChat
