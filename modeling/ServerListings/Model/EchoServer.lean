import ServerListings.Model.RecvLoop

/-!
# The echo server for TCP and UDP (listing 9-8)

A step is an event of the batch or something that clients do; what arrives while an event is
handled arrives before or after it. Both sockets that are not connections are edge-triggered too,
with one `accept` and one `recvfrom` for each event.
-/

set_option autoImplicit false

namespace ServerListings.Model.EchoServer

open Lib.Readiness ServerListings.Model

/-- A UDP message with the address of its sender. -/
structure Datagram where
  sender : Nat
  data : List UInt8
  deriving DecidableEq, Repr

/-- What can be seen of a run. `echoed` are the bytes that `send` takes, and `replied` those that
`sendto` is called with. -/
inductive Happening
  | traffic (t : Traffic Int)
  | echoed (fd : Int) (data : List UInt8)
  | datagram (g : Datagram)
  | replied (g : Datagram)
  deriving DecidableEq, Repr

/-- `listenReady` and `udpReady` say that the sockets are in the ready list. `backlog` counts the
connections that wait for `accept`, and `datagrams` are the messages that wait for `recvfrom`.
`running` is false when the loop has been left. -/
structure Server where
  listenfd : Int
  udpfd : Int
  listenReady : Bool
  udpReady : Bool
  backlog : Nat
  datagrams : List Datagram
  table : Table Int
  batch : List (Report Int)
  running : Bool

/-- What the calls for an event return: `accept`, whether `recvfrom` succeeds, and `recv` with the
number of bytes that the `send` after it takes, which is 0 if it fails. -/
structure Input where
  accepted : Option (Int × Stream)
  recvfrom : Bool
  results : List (Recv × Nat)

inductive Action
  | connect
  | arrive (fd : Int) (data : List UInt8)
  | shutdown (fd : Int)
  | message (g : Datagram)
  | wait (batch : List (Report Int))
  | fail
  | handle (input : Input)

def MAX_EVENT_NUMBER : Nat := 1024

def TCP_BUFFER_SIZE : Nat := 512

def UDP_BUFFER_SIZE : Nat := 1024

def start (listenfd udpfd : Int) : Server where
  listenfd := listenfd
  udpfd := udpfd
  listenReady := false
  udpReady := false
  backlog := 0
  datagrams := []
  table := Table.empty Int
  batch := []
  running := true

/-- `send` after a `recv`. -/
def got (fd : Int) (chunk : List UInt8) (n : Nat) : List Happening :=
  [.traffic (.received fd chunk), .echoed fd (chunk.take n)]

/-- The whole buffer but its last byte is sent back, of which the message is the beginning. -/
def reply (g : Datagram) : Datagram :=
  let data := g.data.take (UDP_BUFFER_SIZE - 1)
  { g with data := data ++ List.replicate (UDP_BUFFER_SIZE - 1 - data.length) 0 }

namespace Server

/-- `epoll_wait` reports a connection with `EPOLLIN` if it can be read. -/
def Reported (s : Server) (d : Report Int) : Prop :=
  (d.fd = s.listenfd ∧ d.readable = true ∧ s.listenReady = true ∧ 0 < s.backlog) ∨
    (d.fd = s.udpfd ∧ d.readable = true ∧ s.udpReady = true ∧ s.datagrams ≠ []) ∨
    ∃ e ∈ s.table.entries d.fd, ∃ k ∈ s.table.streams d.fd, d.readable = k.readable ∧
      (d.readable = true → e.ready = true)

def deliver (s : Server) (batch : List (Report Int)) : Server :=
  { s with
    batch := batch
    listenReady := s.listenReady && decide (s.listenfd ∉ batch.map Report.fd)
    udpReady := s.udpReady && decide (s.udpfd ∉ batch.map Report.fd)
    table := s.table.report (batch.map Report.fd) Entry.waiting }

/-- The branch for the listening socket. If `accept` fails, `addfd` does nothing. -/
def accept (s : Server) : Option (Int × Stream) → Server × List Happening
  | none => (s, [])
  | some (connfd, k) =>
    ({ s with backlog := s.backlog - 1, table := s.table.add connfd k },
      [.traffic (.opened connfd k)])

/-- The branch for the UDP socket. An empty message is not answered. -/
def udp (s : Server) : Server × List Happening :=
  match s.datagrams with
  | [] => (s, [])
  | g :: gs =>
    ({ s with datagrams := gs }, if g.data.length > 0 then [.replied (reply g)] else [])

/-- The body of the loop over the events. -/
def serve (s : Server) (d : Report Int) (input : Input) : Server × List Happening :=
  if d.fd = s.listenfd then s.accept input.accepted
  else if d.fd = s.udpfd then if input.recvfrom then s.udp else (s, [])
  else if d.readable then
    let r := recvLoop d.fd (got d.fd) input.results s.table
    ({ s with table := r.1 }, r.2)
  else (s, [])

def Enabled (s : Server) : Action → Prop
  | .connect => True
  | .arrive fd data => data ≠ [] ∧ ∃ k ∈ s.table.streams fd, k.closed = false
  | .shutdown fd => ∃ k ∈ s.table.streams fd, k.closed = false
  | .message _ => True
  | .wait batch => s.running = true ∧ s.batch = [] ∧ batch ≠ [] ∧ batch.length ≤ MAX_EVENT_NUMBER ∧
      (batch.map Report.fd).Nodup ∧ ∀ d ∈ batch, s.Reported d
  | .fail => s.running = true ∧ s.batch = []
  | .handle input => ∃ d ∈ s.batch.head?,
      (∀ a ∈ input.accepted, 0 < s.backlog ∧ a.1 ≠ s.listenfd ∧ a.1 ≠ s.udpfd ∧
        s.table.streams a.1 = none) ∧
      (d.fd ≠ s.listenfd → d.fd ≠ s.udpfd → d.readable = true →
        Drains (TCP_BUFFER_SIZE - 1) d.fd (input.results.map Prod.fst) s.table)

def perform (s : Server) : Action → Server × List Happening
  | .connect => ({ s with backlog := s.backlog + 1, listenReady := true }, [])
  | .arrive fd data =>
    ({ s with table := s.table.change fd fun k => { k with inbox := k.inbox ++ data } },
      [.traffic (.arrived fd data)])
  | .shutdown fd =>
    ({ s with table := s.table.change fd fun k => { k with closed := true } },
      [.traffic (.ended fd)])
  | .message g => ({ s with datagrams := s.datagrams ++ [g], udpReady := true }, [.datagram g])
  | .wait batch => (s.deliver batch, [])
  | .fail => ({ s with running := false }, [])
  | .handle input =>
    match s.batch with
    | [] => (s, [])
    | d :: rest => { s with batch := rest }.serve d input

def happens (s : Server) (a : Action) : List Happening := (s.perform a).2

instance (s : Server) (d : Report Int) : Decidable (s.Reported d) := by
  unfold Reported
  infer_instance

instance (s : Server) (a : Action) : Decidable (s.Enabled a) := by
  cases a <;> unfold Enabled <;> infer_instance

end Server

/-- The steps of the server and of its clients. -/
def Step (s : Server) (a : Action) (s' : Server) : Prop := s.Enabled a ∧ s' = (s.perform a).1

end ServerListings.Model.EchoServer
