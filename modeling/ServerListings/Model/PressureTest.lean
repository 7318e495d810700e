import ServerListings.Lib.CMem
import ServerListings.Lib.Traffic

/-!
# The pressure test (listing 16-4)

The tool and the servers it is connected to. A step is an event of the batch or something that a
server or the network does; what comes while an event is handled comes before or after it. The
signal that `send` can raise on a connection that was reset is left out.
-/

set_option autoImplicit false

namespace ServerListings.Model.PressureTest

open Lib.CMem Lib.Readiness

/-- Each client connection keeps sending this request to the server. -/
def request : List UInt8 :=
  bytes "GET http://localhost/index.html HTTP/1.1\r\nConnection: keep-alive\r\n\r\nxxxxxxxxxxxx"

def bufferSize : Nat := 2048

def maxEvents : Nat := 10000

/-- What is registered beside `EPOLLET | EPOLLERR`. -/
inductive Interest
  | epollin
  | epollout
  deriving DecidableEq, Repr

/-- An open connection. `ready` says that it is in the ready list, and `room` is the number of
bytes that `send` takes. -/
structure Conn where
  interest : Interest
  ready : Bool
  input : Stream
  room : Nat
  deriving DecidableEq, Repr

/-- The bit of an event that decides what is done. -/
inductive Kind
  | epollin
  | epollout
  | epollerr
  deriving DecidableEq, Repr

structure Event where
  fd : Int
  kind : Kind
  deriving DecidableEq, Repr

/-- What can be seen of a run. The string that is printed for a chunk is missing if no NUL byte
ends it in the buffer. -/
inductive Happening
  | arrived (fd : Int) (data : List UInt8)
  | sent (fd : Int) (data : List UInt8)
  | received (fd : Int) (chunk : List UInt8) (content : Option (List UInt8))
  deriving DecidableEq, Repr

structure Tool where
  conns : Int → Option Conn
  batch : List Event

/-- What `send` returns: a number of bytes, or 0 or -1. -/
inductive SendResult
  | sent (n : Nat)
  | failed
  deriving DecidableEq, Repr

/-- The results of the calls for an event. -/
structure Input where
  recv : Recv
  sends : List SendResult

inductive Action
  | arrive (fd : Int) (data : List UInt8)
  | shutdown (fd : Int)
  | acknowledge (fd : Int) (n : Nat)
  | wait (batch : List Event)
  | handle (input : Input)

/-- The outcome of an iteration of `start_conn`: no socket, no connection, or a connection. -/
inductive ConnectResult
  | noSocket
  | refused
  | connected (fd : Int) (room : Nat)

namespace Conn

/-- What the connection is registered for is possible. -/
def can (c : Conn) : Bool :=
  match c.interest with
  | .epollin => c.input.readable
  | .epollout => decide (0 < c.room)

/-- `epoll_ctl` with `EPOLL_CTL_MOD`, which looks at the socket. -/
def modify (c : Conn) (interest : Interest) : Conn :=
  let c := { c with interest := interest }
  { c with ready := c.can }

/-- `addfd`. -/
def add (room : Nat) : Conn := modify ⟨.epollout, false, ⟨[], false⟩, room⟩ .epollout

/-- Something is there to read, which is noticed by a connection that is registered for it. -/
def inputChange (c : Conn) (f : Stream → Stream) : Conn :=
  { c with input := f c.input, ready := c.ready || decide (c.interest = .epollin) }

/-- There is more room, which is noticed likewise. -/
def outputChange (c : Conn) (n : Nat) : Conn :=
  { c with room := c.room + n, ready := c.ready || decide (c.interest = .epollout) }

end Conn

/-- `start_conn`. -/
def startConn : List ConnectResult → (Int → Option Conn) → Int → Option Conn
  | [], conns => conns
  | .noSocket :: rs, conns => startConn rs conns
  | .refused :: rs, conns => startConn rs conns
  | .connected fd room :: rs, conns =>
    startConn rs (Function.update conns fd (some (Conn.add room)))

def start (rs : List ConnectResult) : Tool := ⟨startConn rs fun _ => none, []⟩

/-- `write_nbytes`, with the bytes that are sent. -/
def writeNbytes : List SendResult → List UInt8 → Bool × List UInt8
  | [], _ => (false, [])
  | .failed :: _, _ => (false, [])
  | .sent n :: rs, buffer =>
    if (buffer.drop n).length ≤ 0 then (true, buffer.take n)
    else
      let r := writeNbytes rs (buffer.drop n)
      (r.1, buffer.take n ++ r.2)

/-- The results of the `send` calls of `write_nbytes` for a connection with `room`. -/
def Sends : List SendResult → List UInt8 → Nat → Prop
  | [], _, _ => False
  | .failed :: rs, _, _ => rs = []
  | .sent n :: rs, buffer, room => 0 < n ∧ n ≤ buffer.length ∧ n ≤ room ∧
      if buffer.length ≤ n then rs = [] else Sends rs (buffer.drop n) (room - n)

/-- The string that `read_once` prints. The buffer is cleared before the bytes come. -/
def content (chunk : List UInt8) : Option (List UInt8) :=
  (fetch (chunk ++ List.replicate (bufferSize - chunk.length) 0) 0).toOption

namespace Tool

def setConn (s : Tool) (fd : Int) (c : Conn) : Tool :=
  { s with conns := Function.update s.conns fd (some c) }

/-- `close_conn`. -/
def closeConn (s : Tool) (fd : Int) : Tool := { s with conns := Function.update s.conns fd none }

/-- The branch for `EPOLLIN`, with `read_once`. After `close_conn` the `epoll_ctl` call fails. -/
def readEvent (s : Tool) (fd : Int) (c : Conn) : Recv → Tool × List Happening
  | .data chunk =>
    let c := { c with input := c.input.drop chunk.length }
    (s.setConn fd (c.modify .epollout), [.received fd chunk (content chunk)])
  | _ => (s.closeConn fd, [])

/-- The branch for `EPOLLOUT`. -/
def writeEvent (s : Tool) (fd : Int) (c : Conn) (sends : List SendResult) : Tool × List Happening :=
  let r := writeNbytes sends request
  let c := { c with room := c.room - r.2.length }
  (if r.1 then s.setConn fd (c.modify .epollin) else s.closeConn fd, [.sent fd r.2])

/-- The body of the loop over the events. -/
def serve (s : Tool) (e : Event) (input : Input) : Tool × List Happening :=
  match s.conns e.fd with
  | none => (s, [])
  | some c =>
    match e.kind with
    | .epollin => s.readEvent e.fd c input.recv
    | .epollout => s.writeEvent e.fd c input.sends
    | .epollerr => (s.closeConn e.fd, [])

/-- An event that `epoll_wait` can return. -/
def Reported (s : Tool) (e : Event) : Prop :=
  ∃ c ∈ s.conns e.fd,
    (e.kind = .epollin ∧ c.interest = .epollin ∧ c.can = true ∧ c.ready = true) ∨
      (e.kind = .epollout ∧ c.interest = .epollout ∧ c.can = true ∧ c.ready = true) ∨
      e.kind = .epollerr

/-- What `recv` can return for at most `bufferSize` bytes. -/
def Returns (c : Conn) : Recv → Prop
  | .data chunk => chunk ≠ [] ∧ chunk.length ≤ bufferSize ∧ chunk <+: c.input.inbox
  | .again => c.input.inbox = [] ∧ c.input.closed = false
  | .ended => c.input.inbox = [] ∧ c.input.closed = true
  | .failed => True

def deliver (s : Tool) (batch : List Event) : Tool where
  batch := batch
  conns fd := (s.conns fd).map fun c => { c with ready := c.ready && decide (fd ∉ batch.map Event.fd) }

def Enabled (s : Tool) : Action → Prop
  | .arrive fd data => data ≠ [] ∧ ∃ c ∈ s.conns fd, c.input.closed = false
  | .shutdown fd => ∃ c ∈ s.conns fd, c.input.closed = false
  | .acknowledge fd n => 0 < n ∧ s.conns fd ≠ none
  | .wait batch => s.batch = [] ∧ batch ≠ [] ∧ batch.length ≤ maxEvents ∧
      (batch.map Event.fd).Nodup ∧ ∀ e ∈ batch, s.Reported e
  | .handle input => ∃ e ∈ s.batch.head?, ∃ c ∈ s.conns e.fd,
      (e.kind = .epollin → Returns c input.recv) ∧ (e.kind = .epollout → Sends input.sends request c.room)

instance (c : Conn) (r : Recv) : Decidable (Returns c r) :=
  match r with
  | .data chunk =>
    inferInstanceAs (Decidable (chunk ≠ [] ∧ chunk.length ≤ bufferSize ∧ chunk <+: c.input.inbox))
  | .again => inferInstanceAs (Decidable (c.input.inbox = [] ∧ c.input.closed = false))
  | .ended => inferInstanceAs (Decidable (c.input.inbox = [] ∧ c.input.closed = true))
  | .failed => .isTrue trivial

def decidableSends : (rs : List SendResult) → (buffer : List UInt8) → (room : Nat) →
    Decidable (Sends rs buffer room)
  | [], _, _ => .isFalse id
  | .failed :: rs, _, _ => inferInstanceAs (Decidable (rs = []))
  | .sent n :: rs, buffer, room =>
    have := decidableSends rs (buffer.drop n) (room - n)
    inferInstanceAs (Decidable (0 < n ∧ n ≤ buffer.length ∧ n ≤ room ∧
      if buffer.length ≤ n then rs = [] else Sends rs (buffer.drop n) (room - n)))

instance (rs : List SendResult) (buffer : List UInt8) (room : Nat) : Decidable (Sends rs buffer room) :=
  decidableSends rs buffer room

instance (s : Tool) (e : Event) : Decidable (s.Reported e) := by
  unfold Reported
  infer_instance

instance (s : Tool) (a : Action) : Decidable (s.Enabled a) := by
  cases a <;> unfold Enabled <;> infer_instance

def perform (s : Tool) : Action → Tool × List Happening
  | .arrive fd data =>
    ({ s with conns := Function.update s.conns fd ((s.conns fd).map fun c =>
        c.inputChange fun k => { k with inbox := k.inbox ++ data }) }, [.arrived fd data])
  | .shutdown fd =>
    ({ s with conns := Function.update s.conns fd ((s.conns fd).map fun c =>
        c.inputChange fun k => { k with closed := true }) }, [])
  | .acknowledge fd n =>
    ({ s with conns := Function.update s.conns fd ((s.conns fd).map fun c => c.outputChange n) }, [])
  | .wait batch => (s.deliver batch, [])
  | .handle input =>
    match s.batch with
    | [] => (s, [])
    | e :: rest => { s with batch := rest }.serve e input

def happens (s : Tool) (a : Action) : List Happening := (s.perform a).2

end Tool

/-- The steps of the tool and of its surroundings. -/
def Step (s : Tool) (a : Action) (s' : Tool) : Prop := s.Enabled a ∧ s' = (s.perform a).1

end ServerListings.Model.PressureTest
