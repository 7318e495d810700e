import Mathlib.Logic.Function.Basic
import ServerListings.Model.HttpIo

/-!
# The web server (listings 15-6 and 15-3)

The event loop of `main`, the work queue of `threadpool<http_conn>` and its workers. The
state holds what these share with the kernel: the open descriptors and the epoll table. The
handling of one event, a worker's removal of a request from the queue and a worker's call of
`process` are one step each; the loop over the events is repeated for every batch.

Where the behaviour of a call is undefined, there is no step: a run of `Step` stops there, and
what is shown of such runs says nothing of the real server behind that point. `StrayStore` has the
steps that the server takes all the same when `parse_content` stores in front of `m_read_buf`.
-/

set_option autoImplicit false

namespace ServerListings.Model.WebServer

open Lib.CMem ServerListings.Model.Http

/-- `MAX_FD`. -/
def maxFd : Int := 65536

/-- `MAX_EVENT_NUMBER`. -/
def maxEventNumber : Nat := 10000

/-- What an open descriptor is: a client that `accept` returned, or something else. -/
inductive Descriptor
  | client
  | other
  deriving DecidableEq, Repr

/-- An entry of the epoll table. A one-shot entry has no interest after it was delivered,
until `EPOLL_CTL_MOD` sets one. -/
structure Registration where
  interest : Option Interest
  oneShot : Bool
  deriving DecidableEq, Repr

/-- The flags of an event that the program tests: one of `EPOLLRDHUP`, `EPOLLHUP` and
`EPOLLERR`; `EPOLLIN`; `EPOLLOUT`. -/
structure Events where
  closing : Bool
  readable : Bool
  writable : Bool
  deriving DecidableEq, Repr

/-- An `epoll_event`. -/
structure Delivered where
  fd : Int
  events : Events
  deriving DecidableEq, Repr

/-- The server with the workers `W`. `users` are the objects of the array of this name,
`pending` the events of the batch that `main` has not handled yet, `queue` the descriptors of
the objects in `m_workqueue`, and `working` those of the objects that workers have taken. -/
structure Server (W : Type) where
  users : Int → HttpConn
  userCount : Int
  descriptors : Int → Option Descriptor
  epoll : Int → Option Registration
  listenfd : Int
  pending : List Delivered
  queue : List Int
  maxRequests : Nat
  working : W → Option Int

namespace Server

variable {W : Type}

/-- What an effect of a member function does to the state. `epoll_ctl` fails on a descriptor
that is not open or not registered, and on one that is registered already. -/
def applyEffect (s : Server W) : Effect → Server W
  | .epollAdd fd oneShot =>
    if (s.descriptors fd).isNone ∨ (s.epoll fd).isSome then s
    else { s with epoll := Function.update s.epoll fd (some ⟨some .epollin, oneShot⟩) }
  | .epollMod fd ev =>
    if (s.epoll fd).isNone then s
    else { s with epoll := Function.update s.epoll fd (some ⟨some ev, true⟩) }
  | .epollDel fd => { s with epoll := Function.update s.epoll fd none }
  | .close fd =>
    { s with
      descriptors := Function.update s.descriptors fd none
      epoll := Function.update s.epoll fd none }
  | .userCount change => { s with userCount := s.userCount + change }
  | .munmap _ _ => s

def applyEffects (s : Server W) (effects : List Effect) : Server W := effects.foldl applyEffect s

/-- The object `users[fd]` after a call of a member function, with the effects of the call. -/
def setUser (s : Server W) (fd : Int) (c : HttpConn) (effects : List Effect) : Server W :=
  { s with users := Function.update s.users fd c }.applyEffects effects

/-- `users[fd].close_conn()`. -/
def closeConn (s : Server W) (fd : Int) : Server W :=
  let (c, effects) := (s.users fd).closeConn
  s.setUser fd c effects

/-- `show_error`. -/
def showError (s : Server W) (connfd : Int) : Server W := s.applyEffect (.close connfd)

/-- `threadpool::append`. -/
def append (s : Server W) (fd : Int) : Bool × Server W :=
  if s.queue.length > s.maxRequests then (false, s)
  else (true, { s with queue := s.queue ++ [fd] })

/-- What the system calls of one iteration of the event loop return: the descriptor that
`accept` returned, if it did not fail, and the results of `recv` and of `writev`. `mapped` is
the memory behind file addresses. -/
structure Input where
  accepted : Option Int
  recvs : List RecvResult
  writevs : List WritevResult
  mapped : Int → List UInt8

/-- The branch of the event loop for the listening socket. -/
def acceptClient (s : Server W) (accepted : Option Int) : Checked (Server W) :=
  match accepted with
  | none => pure s
  | some connfd =>
    let s := { s with descriptors := Function.update s.descriptors connfd (some .client) }
    if s.userCount ≥ maxFd then
      pure (s.showError connfd)
    else if connfd < 0 ∨ connfd ≥ maxFd then
      .error .outOfBounds
    else
      let (c, effects) := (s.users connfd).initConn connfd
      pure (s.setUser connfd c effects)

/-- The branch of the event loop for `EPOLLIN`. The result of `append` is dropped. -/
def readClient (s : Server W) (sockfd : Int) (recvs : List RecvResult) : Checked (Server W) := do
  let (ok, c) ← (s.users sockfd).read recvs
  let s := s.setUser sockfd c []
  if ok then pure (s.append sockfd).2 else pure (s.closeConn sockfd)

/-- The branch of the event loop for `EPOLLOUT`. -/
def writeClient (s : Server W) (sockfd : Int) (mapped : Int → List UInt8)
    (writevs : List WritevResult) : Checked (Server W) :=
  let call := (s.users sockfd).write mapped writevs
  let s := s.setUser sockfd call.conn call.effects
  match call.ret with
  | none => .error .outOfFuel
  | some ok => if ok then pure s else pure (s.closeConn sockfd)

/-- The body of the loop over the events of a batch. -/
def handleEvent (s : Server W) (input : Input) (d : Delivered) : Checked (Server W) :=
  if d.fd = s.listenfd then s.acceptClient input.accepted
  else if d.events.closing then pure (s.closeConn d.fd)
  else if d.events.readable then s.readClient d.fd input.recvs
  else if d.events.writable then s.writeClient d.fd input.mapped input.writevs
  else pure s

/-- `epoll_wait` reports an event that the entry of its descriptor asks for. -/
def Reported (s : Server W) (d : Delivered) : Prop :=
  ∃ r i, s.epoll d.fd = some r ∧ r.interest = some i ∧
    (d.events.readable → i = .epollin) ∧ (d.events.writable → i = .epollout) ∧
    (d.events.closing ∨ d.events.readable ∨ d.events.writable)

/-- The state after `epoll_wait` returned a batch: one-shot entries lose their interest. -/
def deliver (s : Server W) (batch : List Delivered) : Server W :=
  { s with
    pending := batch
    epoll := fun fd =>
      if fd ∈ batch.map Delivered.fd then
        (s.epoll fd).map fun r => if r.oneShot then { r with interest := none } else r
      else s.epoll fd }

/-- `request->process()` of the request that the worker has taken; it has none afterwards. -/
def work [DecidableEq W] (s : Server W) (w : W) (fd : Int) (fs : FileSystem) : Checked (Server W) := do
  let (c, effects) ← (s.users fd).process fs
  let s := { s with working := Function.update s.working w none }
  pure (s.setUser fd c effects)

end Server

/-- A step of the server. -/
inductive Action (W : Type)
  | wait (batch : List Delivered)
  | handle (d : Delivered) (input : Server.Input)
  | take (w : W)
  | process (w : W) (fs : FileSystem)

/-- The steps: `epoll_wait` after a batch is handled, the next event of the batch, a worker's
removal of the first request, and a worker's call of `process`. `accept` returns a descriptor
that was not open. -/
inductive Step {W : Type} [DecidableEq W] : Server W → Action W → Server W → Prop where
  | wait {s : Server W} (batch : List Delivered) :
      s.pending = [] → batch.length ≤ maxEventNumber → (batch.map Delivered.fd).Nodup →
      (∀ d ∈ batch, s.Reported d) → Step s (.wait batch) (s.deliver batch)
  | handle {s s' : Server W} (d : Delivered) (rest : List Delivered) (input : Server.Input) :
      s.pending = d :: rest →
      (∀ connfd, input.accepted = some connfd → 0 ≤ connfd ∧ s.descriptors connfd = none) →
      { s with pending := rest }.handleEvent input d = .ok s' → Step s (.handle d input) s'
  | take {s : Server W} (w : W) (fd : Int) (rest : List Int) :
      s.working w = none → s.queue = fd :: rest →
      Step s (.take w) { s with queue := rest, working := Function.update s.working w (some fd) }
  | process {s s' : Server W} (w : W) (fd : Int) (fs : FileSystem) :
      s.working w = some fd → s.work w fd fs = .ok s' → Step s (.process w fs) s'

/-- The server before its event loop: only the listening socket is registered. -/
structure Initial {W : Type} (s : Server W) : Prop where
  clients : ∀ fd, s.descriptors fd ≠ some .client
  negative : s.descriptors (-1) = none
  listening : s.descriptors s.listenfd = some .other
  registered : s.epoll = Function.update (fun _ => none) s.listenfd (some ⟨some .epollin, false⟩)
  userCount : s.userCount = 0
  pending : s.pending = []
  queue : s.queue = []
  working : ∀ w, s.working w = none

/-- The default of `thread_number`. -/
def defaultThreadNumber : Nat := 8

/-- The default of `max_requests`. -/
def defaultMaxRequests : Nat := 10000

/-- The server as `main` sets it up: the descriptors below the listening socket are the
standard streams, the one above it is that of the epoll table. -/
def Server.start (users : Int → HttpConn) : Server (Fin defaultThreadNumber) where
  users := users
  userCount := 0
  descriptors := fun fd => if 0 ≤ fd ∧ fd ≤ 4 then some .other else none
  epoll := Function.update (fun _ => none) 3 (some ⟨some .epollin, false⟩)
  listenfd := 3
  pending := []
  queue := []
  maxRequests := defaultMaxRequests
  working := fun _ => none

/-- The server starts in an initial state. -/
theorem initial_start (users : Int → HttpConn) : Initial (Server.start users) := by
  refine ⟨?_, rfl, rfl, rfl, rfl, rfl, rfl, fun _ => rfl⟩
  intro fd
  simp only [Server.start]
  split <;> simp

end ServerListings.Model.WebServer
