import ServerListings.Lib.CMem
import ServerListings.Lib.Readiness

/-!
# Worker threads behind one-shot events (listing 9-4)

The loop of `main` and the worker threads that it creates, each as far as it has come. A thread
gets the address of `fds_for_new_worker`, a variable of the block in which `main` creates the
thread: it is another object in every round, and it is gone when `main` leaves the block. What a
thread reads through the address after that can be anything. `worker` has no `return` at its end,
and is taken to end there all the same. The clients send bytes and close their side.
-/

set_option autoImplicit false

namespace ServerListings.Model.OneShot

open Lib.CMem Lib.Readiness

def MAX_EVENT_NUMBER : Nat := 1024
def BUFFER_SIZE : Nat := 1024

/-- The argument of a worker. -/
structure Fds where
  epollfd : Int
  sockfd : Int
  deriving DecidableEq, Repr

/-- The places of a worker: before it reads `sockfd` from its argument, before it reads `epollfd`
from there, at `recv`, at the `printf` of a content, at `close`, at `reset_oneshot`, or at its
end. The argument is the object with the number `arg`. -/
inductive Worker
  | created (arg : Nat)
  | begun (arg : Nat) (sockfd : Int)
  | receiving (sockfd epollfd : Int) (buf : List UInt8)
  | printing (sockfd epollfd : Int) (buf : List UInt8)
  | closing (sockfd : Int)
  | resetting (sockfd epollfd : Int)
  | ended
  deriving DecidableEq, Repr

/-- The connection that a worker has read from its argument, until its last use of it. -/
def Worker.sockfd : Worker → Option Int
  | .begun _ fd => some fd
  | .receiving fd _ _ => some fd
  | .printing fd _ _ => some fd
  | .closing fd => some fd
  | .resetting fd _ => some fd
  | .created _ => none
  | .ended => none

/-- The epoll table that a worker has read from its argument, until its last use of it. -/
def Worker.epollfd : Worker → Option Int
  | .receiving _ e _ => some e
  | .printing _ e _ => some e
  | .resetting _ e => some e
  | _ => none

/-- The argument that a worker has not read to its end. -/
def Worker.arg : Worker → Option Nat
  | .created n => some n
  | .begun n _ => some n
  | _ => none

/-- An event that `epoll_wait` returned, with or without `EPOLLIN`. -/
structure Delivered where
  fd : Int
  epollin : Bool
  deriving DecidableEq, Repr

/-- What a call of `recv` returns: bytes, 0, `EAGAIN`, or another error. -/
inductive RecvResult
  | data (chunk : List UInt8)
  | zero
  | eagain
  | error
  deriving DecidableEq, Repr

/-- `table` has the connections and their entries, and `batch` is what is left of the events. While
`main` is in the block, `fdsForNewWorker` is its variable with its number, and `objects` is the
number of the next one. The workers are in the order in which they were created. -/
structure Server where
  listenfd : Int
  epollfd : Int
  table : Table Int
  batch : List Delivered
  fdsForNewWorker : Option (Nat × Fds)
  objects : Nat
  workers : List Worker

/-- What can be seen of a run: the bytes that a connection starts with and that arrive, those
that a worker receives, what it prints, and that a connection is closed. -/
inductive Happening
  | accepted (fd : Int) (inbox : List UInt8)
  | arrived (fd : Int) (data : List UInt8)
  | received (t : Nat) (fd : Int) (chunk : List UInt8)
  | printed (t : Nat) (text : List UInt8)
  | closed (fd : Int)
  deriving DecidableEq, Repr

/-- A client, `main` or worker `t` goes on. `accepted` is what `accept` returns, and `created` says
whether `pthread_create` succeeds. `main` leaves the block of `fds_for_new_worker` in a step of its
own. `r` is what `recv` returns, if the worker is there, and `stray` what the worker reads
of an object that is gone. -/
inductive Action
  | arrive (fd : Int) (data : List UInt8)
  | shutdown (fd : Int)
  | wait (batch : List Delivered)
  | handle (accepted : Option (Int × Stream)) (created : Bool)
  | leave
  | work (t : Nat) (r : RecvResult) (stray : Int)

/-- The server before its loop. -/
def start (listenfd epollfd : Int) : Server where
  listenfd := listenfd
  epollfd := epollfd
  table := Table.empty Int
  batch := []
  fdsForNewWorker := none
  objects := 0
  workers := []

/-- `recv` into the array. -/
def fill (buf chunk : List UInt8) : List UInt8 := chunk ++ buf.drop chunk.length

namespace Server

/-- `epoll_wait` reports an event of the listening socket, or of an enabled entry, `EPOLLIN` only
if it is in the ready list and the connection can be read. -/
def Reported (s : Server) (d : Delivered) : Prop :=
  d.fd = s.listenfd ∨ ∃ e ∈ s.table.entries d.fd, e.armed = true ∧
    (d.epollin = true → e.ready = true ∧ ∃ k ∈ s.table.streams d.fd, k.readable = true)

/-- `epoll_wait`: `EPOLLONESHOT` disables the entries that are reported. -/
def deliver (s : Server) (batch : List Delivered) : Server :=
  { s with batch := batch, table := s.table.report (batch.map Delivered.fd) Entry.disabled }

/-- `addfd` with `oneshot`, of what `accept` returned. -/
def addfd (s : Server) (connfd : Int) (k : Stream) : Server := { s with table := s.table.add connfd k }

/-- `reset_oneshot`, which does nothing for a descriptor that is not registered or not that of the
epoll table. -/
def resetOneshot (s : Server) (epollfd fd : Int) : Server :=
  if epollfd = s.epollfd then { s with table := s.table.enable fd } else s

/-- `close`, which also takes the descriptor out of the epoll table. -/
def closeSocket (s : Server) (fd : Int) : Server := { s with table := s.table.remove fd }

def setWorker (s : Server) (t : Nat) (w : Worker) : Server :=
  { s with workers := s.workers.set t w }

/-- The object with the number, if it is still there. -/
def argument (s : Server) (arg : Nat) : Option Fds :=
  match s.fdsForNewWorker with
  | none => none
  | some (n, v) => if n = arg then some v else none

/-- A field of the object with the number, or what is read there when it is gone. -/
def load (s : Server) (arg : Nat) (field : Fds → Int) (stray : Int) : Int :=
  ((s.argument arg).map field).getD stray

/-- The branch for `EPOLLIN`. -/
def startWorker (s : Server) (sockfd : Int) (created : Bool) : Server :=
  { s with
    fdsForNewWorker := some (s.objects, ⟨s.epollfd, sockfd⟩)
    objects := s.objects + 1
    workers := if created then s.workers ++ [.created s.objects] else s.workers }

/-- The branch for the listening socket. -/
def accept (s : Server) : Option (Int × Stream) → Server × List Happening
  | none => (s, [])
  | some (connfd, k) => (s.addfd connfd k, [.accepted connfd k.inbox])

/-- The body of the loop over the events. -/
def handle (s : Server) (d : Delivered) (accepted : Option (Int × Stream)) (created : Bool) :
    Server × List Happening :=
  if d.fd = s.listenfd then s.accept accepted
  else if d.epollin then (s.startWorker d.fd created, [])
  else (s, [])

/-- The branches after `recv`. -/
def receive (s : Server) (t : Nat) (fd epollfd : Int) (buf : List UInt8) :
    RecvResult → Server × List Happening
  | .data chunk =>
    ({ s.setWorker t (.printing fd epollfd (fill buf chunk)) with
        table := s.table.receive fd chunk.length }, [.received t fd chunk])
  | .zero => (s.setWorker t (.closing fd), [])
  | .eagain => (s.setWorker t (.resetting fd epollfd), [])
  | .error => (s, [])

/-- The next statements of a worker. -/
def work (s : Server) (t : Nat) (r : RecvResult) (stray : Int) : Worker → Server × List Happening
  | .created n => (s.setWorker t (.begun n (s.load n Fds.sockfd stray)), [])
  | .begun n fd =>
    (s.setWorker t (.receiving fd (s.load n Fds.epollfd stray) (List.replicate BUFFER_SIZE 0)), [])
  | .receiving fd e buf => s.receive t fd e buf r
  | .printing fd e buf => (s.setWorker t (.receiving fd e buf), [.printed t (cstr buf)])
  | .closing fd => ((s.closeSocket fd).setWorker t .ended, [.closed fd])
  | .resetting fd e => ((s.resetOneshot e fd).setWorker t .ended, [])
  | .ended => (s, [])

/-- What `recv` can return for a descriptor: only errors if it is closed. -/
def Fits (s : Server) (fd : Int) : RecvResult → Prop
  | .data chunk => chunk ≠ [] ∧ chunk.length ≤ BUFFER_SIZE - 1 ∧ ∃ k ∈ s.table.streams fd, chunk <+: k.inbox
  | .zero => ∃ k ∈ s.table.streams fd, k.inbox = [] ∧ k.closed = true
  | .eagain => ∃ k ∈ s.table.streams fd, k.inbox = [] ∧ k.closed = false
  | .error => True

/-- The worker has a statement left, and `r` fits if that is `recv`. -/
def CanWork (s : Server) (r : RecvResult) : Worker → Prop
  | .receiving fd _ _ => s.Fits fd r
  | .ended => False
  | _ => True

/-- The action is possible. `main` goes on with its loop when it is not in the block. `accept`
returns a descriptor that is not open. -/
def Enabled (s : Server) : Action → Prop
  | .arrive fd data => data ≠ [] ∧ ∃ k ∈ s.table.streams fd, k.closed = false
  | .shutdown fd => ∃ k ∈ s.table.streams fd, k.closed = false
  | .wait batch => s.fdsForNewWorker = none ∧ s.batch = [] ∧ batch ≠ [] ∧
      batch.length ≤ MAX_EVENT_NUMBER ∧ (batch.map Delivered.fd).Nodup ∧ ∀ d ∈ batch, s.Reported d
  | .handle accepted _ => s.fdsForNewWorker = none ∧ s.batch ≠ [] ∧ ∀ a ∈ accepted,
      a.1 ≠ s.listenfd ∧ a.1 ≠ s.epollfd ∧ s.table.streams a.1 = none
  | .leave => s.fdsForNewWorker ≠ none
  | .work t r _ => ∃ w ∈ s.workers[t]?, s.CanWork r w

def perform (s : Server) : Action → Server × List Happening
  | .arrive fd data => ({ s with table := s.table.change fd fun k => { k with inbox := k.inbox ++ data } }, [.arrived fd data])
  | .shutdown fd => ({ s with table := s.table.change fd fun k => { k with closed := true } }, [])
  | .wait batch => (s.deliver batch, [])
  | .handle accepted created =>
    match s.batch with
    | [] => (s, [])
    | d :: rest => { s with batch := rest }.handle d accepted created
  | .leave => ({ s with fdsForNewWorker := none }, [])
  | .work t r stray =>
    match s.workers[t]? with
    | none => (s, [])
    | some w => s.work t r stray w

def happens (s : Server) (a : Action) : List Happening := (s.perform a).2

instance (s : Server) (d : Delivered) : Decidable (s.Reported d) := by
  unfold Reported
  infer_instance

instance (s : Server) (fd : Int) (r : RecvResult) : Decidable (s.Fits fd r) := by
  cases r <;> unfold Fits <;> infer_instance

instance (s : Server) (r : RecvResult) (w : Worker) : Decidable (s.CanWork r w) := by
  cases w <;> unfold CanWork <;> infer_instance

instance (s : Server) (a : Action) : Decidable (s.Enabled a) := by
  cases a <;> unfold Enabled <;> infer_instance

end Server

/-- The steps of the clients, of `main` and of the workers. -/
def Step (s : Server) (a : Action) (s' : Server) : Prop := s.Enabled a ∧ s' = (s.perform a).1

end ServerListings.Model.OneShot
