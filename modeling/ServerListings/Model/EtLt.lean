import ServerListings.Lib.CMem
import ServerListings.Model.RecvLoop

/-!
# Level-triggered and edge-triggered events (listing 9-3)

The server with `lt`, which `main` calls, and with `et`, which stands in a comment beside it. A step
is an event of the batch or something that clients do; what arrives while an event is handled
arrives before or after it. The listening socket is edge-triggered in both.
-/

set_option autoImplicit false

namespace ServerListings.Model.EtLt

open Lib.CMem Lib.Readiness ServerListings.Model

inductive Workflow
  | lt
  | et
  deriving DecidableEq, Repr

inductive Happening
  | traffic (t : Traffic Int)
  | printed (fd : Int) (content : List UInt8)
  deriving DecidableEq, Repr

/-- `listenReady` says that the listening socket is in the ready list, and `backlog` counts the
connections that wait for `accept`. `running` is false when the loop has been left. -/
structure Server where
  workflow : Workflow
  listenfd : Int
  listenReady : Bool
  backlog : Nat
  table : Table Int
  batch : List (Report Int)
  running : Bool

inductive Action
  | connect
  | arrive (fd : Int) (data : List UInt8)
  | shutdown (fd : Int)
  | wait (batch : List (Report Int))
  | fail
  | handle (accepted : Option (Int × Stream)) (results : List Recv)

def MAX_EVENT_NUMBER : Nat := 1024

def BUFFER_SIZE : Nat := 10

def start (w : Workflow) (listenfd : Int) : Server where
  workflow := w
  listenfd := listenfd
  listenReady := false
  backlog := 0
  table := Table.empty Int
  batch := []
  running := true

/-- The string in `buf`, which was cleared before the bytes came. -/
def content (chunk : List UInt8) : List UInt8 :=
  cstr (chunk ++ List.replicate (BUFFER_SIZE - chunk.length) 0)

def got (fd : Int) (chunk : List UInt8) (_ : Unit) : List Happening :=
  [.traffic (.received fd chunk), .printed fd (content chunk)]

/-- The branch of `lt` for a connection, with one `recv`. -/
def ltRecv (fd : Int) (T : Table Int) : List Recv → Table Int × List Happening
  | .data chunk :: _ => (T.receive fd chunk.length, got fd chunk ())
  | _ => (T.remove fd, [])

/-- The branch of `et` for a connection. -/
def etRecv (fd : Int) (T : Table Int) (results : List Recv) : Table Int × List Happening :=
  recvLoop fd (got fd) (results.map fun r => (r, ())) T

namespace Workflow

def recv : Workflow → Int → Table Int → List Recv → Table Int × List Happening
  | .lt => ltRecv
  | .et => etRecv

/-- What the `recv` calls can return. -/
def Fits (fd : Int) (T : Table Int) (results : List Recv) : Workflow → Prop
  | .lt => results.length = 1 ∧ ∀ r ∈ results, T.Returns fd (BUFFER_SIZE - 1) r
  | .et => Drains (BUFFER_SIZE - 1) fd results T

/-- The entries after a batch. A level-triggered one stays in the ready list. -/
def report (T : Table Int) (fds : List Int) : Workflow → Table Int
  | .lt => T
  | .et => T.report fds Entry.waiting

instance (fd : Int) (T : Table Int) (results : List Recv) (w : Workflow) :
    Decidable (w.Fits fd T results) := by
  cases w <;> unfold Fits <;> infer_instance

end Workflow

namespace Server

/-- `epoll_wait` reports a connection with `EPOLLIN` if it can be read. -/
def Reported (s : Server) (d : Report Int) : Prop :=
  (d.fd = s.listenfd ∧ d.readable = true ∧ s.listenReady = true ∧ 0 < s.backlog) ∨
    ∃ e ∈ s.table.entries d.fd, ∃ k ∈ s.table.streams d.fd, d.readable = k.readable ∧
      (d.readable = true → e.ready = true)

def deliver (s : Server) (batch : List (Report Int)) : Server :=
  { s with
    batch := batch
    listenReady := s.listenReady && decide (s.listenfd ∉ batch.map Report.fd)
    table := s.workflow.report s.table (batch.map Report.fd) }

/-- The branch for the listening socket. If `accept` fails, `addfd` does nothing. -/
def accept (s : Server) : Option (Int × Stream) → Server × List Happening
  | none => (s, [])
  | some (connfd, k) =>
    ({ s with backlog := s.backlog - 1, table := s.table.add connfd k },
      [.traffic (.opened connfd k)])

/-- The body of the loop of `lt` or of `et`. -/
def serve (s : Server) (d : Report Int) (accepted : Option (Int × Stream)) (results : List Recv) :
    Server × List Happening :=
  if d.fd = s.listenfd then s.accept accepted
  else if d.readable then
    let r := s.workflow.recv d.fd s.table results
    ({ s with table := r.1 }, r.2)
  else (s, [])

def Enabled (s : Server) : Action → Prop
  | .connect => True
  | .arrive fd data => data ≠ [] ∧ ∃ k ∈ s.table.streams fd, k.closed = false
  | .shutdown fd => ∃ k ∈ s.table.streams fd, k.closed = false
  | .wait batch => s.running = true ∧ s.batch = [] ∧ batch ≠ [] ∧ batch.length ≤ MAX_EVENT_NUMBER ∧
      (batch.map Report.fd).Nodup ∧ ∀ d ∈ batch, s.Reported d
  | .fail => s.running = true ∧ s.batch = []
  | .handle accepted results => ∃ d ∈ s.batch.head?,
      (∀ a ∈ accepted, 0 < s.backlog ∧ a.1 ≠ s.listenfd ∧ s.table.streams a.1 = none) ∧
      (d.fd ≠ s.listenfd → d.readable = true → s.workflow.Fits d.fd s.table results)

def perform (s : Server) : Action → Server × List Happening
  | .connect => ({ s with backlog := s.backlog + 1, listenReady := true }, [])
  | .arrive fd data =>
    ({ s with table := s.table.change fd fun k => { k with inbox := k.inbox ++ data } },
      [.traffic (.arrived fd data)])
  | .shutdown fd =>
    ({ s with table := s.table.change fd fun k => { k with closed := true } },
      [.traffic (.ended fd)])
  | .wait batch => (s.deliver batch, [])
  | .fail => ({ s with running := false }, [])
  | .handle accepted results =>
    match s.batch with
    | [] => (s, [])
    | d :: rest => { s with batch := rest }.serve d accepted results

def happens (s : Server) (a : Action) : List Happening := (s.perform a).2

instance (s : Server) (d : Report Int) : Decidable (s.Reported d) := by
  unfold Reported
  infer_instance

instance (s : Server) (a : Action) : Decidable (s.Enabled a) := by
  cases a <;> unfold Enabled <;> infer_instance

end Server

/-- The steps of the server and of its clients. -/
def Step (s : Server) (a : Action) (s' : Server) : Prop := s.Enabled a ∧ s' = (s.perform a).1

end ServerListings.Model.EtLt
