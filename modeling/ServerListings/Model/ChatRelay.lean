import ServerListings.Lib.EdgeTriggered
import ServerListings.Model.ChatServer

/-!
# The relay of the chat server (listing 13-4)

The children in `run_child`, the loop of `main` that passes a number on to the other children,
the two directions of each pipe and the shared memory, for a fixed set of clients. The
descriptors are registered with `EPOLLET`: what arrives raises the edge of its descriptor, and
`epoll_wait` returns the descriptors with an edge, in any order, and clears their edges. Every
`recv` of a pipe reads one number. The pipes and the sockets to the clients take all that is
sent.
-/

set_option autoImplicit false

namespace ServerListings.Model

namespace ChatRelay

open ChatServer Lib.EdgeTriggered

/-- The clients with the number that each child was forked with, in the order of `users`. -/
structure Clients (C : Type) where
  idx : C → Nat
  users : List C
  idx_injective : Function.Injective idx
  users_nodup : users.Nodup
  mem_users : ∀ c, c ∈ users

/-- The descriptors that a child listens to. -/
inductive Source
  | connfd
  | pipefd
  deriving DecidableEq, Repr

instance : Fintype Source := ⟨{.connfd, .pipefd}, by intro x; cases x <;> decide⟩

/-- Where a child is in `run_child`. -/
inductive Pc
  /-- In `epoll_wait` or at the head of the loop over the events. -/
  | ready
  /-- Between `memset` and `recv`. -/
  | cleared
  /-- Before `send` of `idx` to the parent. -/
  | notify
  /-- Before `send` of a segment to the client, with the local variable `client`. -/
  | forward (client : Nat)
  deriving DecidableEq, Repr

/-- A child with the socket of its client. `inbox` is what the socket has not handed out.
`received` and `sent` are the history of the socket: the chunks of `recv`, and the numbers and
the contents of the segments that were sent. -/
structure Child where
  inbox : List UInt8
  edge : Source → Bool
  events : List Source
  pc : Pc
  received : List (List UInt8)
  sent : List (Nat × List UInt8)

/-- The loop of the parent over `users` after it read `child` from the pipe of `sockfd`, with
the elements of `users` that are left. -/
structure Broadcast (C : Type) where
  child : Nat
  sockfd : C
  rest : List C
  deriving DecidableEq

/-- `toParent` and `toChild` are the two directions of the pipe of each child, `edge` and
`events` belong to the parent. `shareMem i` is the segment of `BUFFER_SIZE` bytes at
`share_mem + i * BUFFER_SIZE`. -/
structure State (C : Type) where
  children : C → Child
  shareMem : Nat → List UInt8
  toParent : C → List Nat
  toChild : C → List Nat
  edge : C → Bool
  events : List C
  broadcast : Option (Broadcast C)

/-- A child that has not received anything. -/
def Child.create : Child :=
  { inbox := [], edge := fun _ => false, events := [], pc := .ready, received := [], sent := [] }

/-- The state in which the children were forked. -/
def create (C : Type) (shareMem : Nat → List UInt8) : State C :=
  { children := fun _ => Child.create
    shareMem := shareMem
    toParent := fun _ => []
    toChild := fun _ => []
    edge := fun _ => false
    events := []
    broadcast := none }

/-- A step of a client, of a child or of the parent. -/
inductive Action (C : Type)
  | arrive (c : C) (data : List UInt8)
  | childWait (c : C) (events : List Source)
  | clear (c : C)
  | recvClient (c : C)
  | notify (c : C)
  | recvPipe (c : C)
  | forward (c : C) (client : Nat)
  | parentWait (events : List C)
  | parentRecv (sockfd : C)
  | parentSend (b : Broadcast C)

namespace State

variable {C : Type}

/-- The process or the client of the action is at the statement of the action. -/
def Enabled (s : State C) : Action C → Prop
  | .arrive _ data => data ≠ []
  | .childWait c events => (s.children c).pc = .ready ∧ (s.children c).events = [] ∧
      Returned (s.children c).edge events
  | .clear c => (s.children c).pc = .ready ∧ (s.children c).events.head? = some .connfd
  | .recvClient c => (s.children c).pc = .cleared
  | .notify c => (s.children c).pc = .notify
  | .recvPipe c => (s.children c).pc = .ready ∧ (s.children c).events.head? = some .pipefd
  | .forward c client => (s.children c).pc = .forward client
  | .parentWait events => s.broadcast = none ∧ s.events = [] ∧ Returned s.edge events
  | .parentRecv sockfd => s.broadcast = none ∧ s.events.head? = some sockfd
  | .parentSend b => s.broadcast = some b

variable [DecidableEq C]

instance [Fintype C] (s : State C) (a : Action C) : Decidable (s.Enabled a) := by
  cases a <;> unfold Enabled <;> infer_instance

/-- An assignment to members of a child. -/
def updateChild (s : State C) (c : C) (f : Child → Child) : State C :=
  { s with children := Function.update s.children c (f (s.children c)) }

/-- Data of the client of `c` reaches the socket. -/
def arrive (s : State C) (c : C) (data : List UInt8) : State C :=
  s.updateChild c fun k =>
    { k with inbox := k.inbox ++ data, edge := Function.update k.edge .connfd true }

def childWait (s : State C) (c : C) (events : List Source) : State C :=
  s.updateChild c fun k => { k with events := events, edge := fun _ => false }

/-- `memset` of the segment. -/
def clear (p : Clients C) (s : State C) (c : C) : State C :=
  let s := s.updateChild c fun k => { k with events := k.events.tail, pc := .cleared }
  { s with shareMem :=
      Function.update s.shareMem (p.idx c) (List.replicate BUFFER_SIZE 0) }

/-- `recv` from the client into the segment, at most `BUFFER_SIZE - 1` bytes. -/
def recvClient (p : Clients C) (s : State C) (c : C) : State C :=
  let inbox := (s.children c).inbox
  -- an edge may stand for data that an earlier `recv` has taken: `EAGAIN`
  if inbox = [] then s.updateChild c fun k => { k with pc := .ready }
  else
    let data := inbox.take (BUFFER_SIZE - 1)
    let s := s.updateChild c fun k =>
      { k with
        inbox := inbox.drop (BUFFER_SIZE - 1), pc := .notify, received := k.received ++ [data] }
    { s with shareMem :=
        Function.update s.shareMem (p.idx c) (data ++ (s.shareMem (p.idx c)).drop data.length) }

/-- `send` of `idx` to the parent. -/
def notify (p : Clients C) (s : State C) (c : C) : State C :=
  let s := s.updateChild c fun k => { k with pc := .ready }
  { s with
    toParent := Function.update s.toParent c (s.toParent c ++ [p.idx c])
    edge := Function.update s.edge c true }

/-- `recv` of a number from the parent. -/
def recvPipe (s : State C) (c : C) : State C :=
  match s.toChild c with
  | [] => s.updateChild c fun k => { k with events := k.events.tail }
  | client :: rest =>
    let s := s.updateChild c fun k => { k with events := k.events.tail, pc := .forward client }
    { s with toChild := Function.update s.toChild c rest }

/-- `send` of the segment of `client` to the client of `c`. -/
def forward (s : State C) (c : C) (client : Nat) : State C :=
  s.updateChild c fun k =>
    { k with pc := .ready, sent := k.sent ++ [(client, s.shareMem client)] }

def parentWait (s : State C) (events : List C) : State C :=
  { s with events := events, edge := fun _ => false }

/-- `recv` of a number from a child. With it the loop over `users` begins. -/
def parentRecv (p : Clients C) (s : State C) (sockfd : C) : State C :=
  match s.toParent sockfd with
  | [] => { s with events := s.events.tail }
  | child :: rest =>
    { s with
      toParent := Function.update s.toParent sockfd rest
      events := s.events.tail
      broadcast := some ⟨child, sockfd, p.users⟩ }

/-- A round of the loop over `users`. -/
def parentSend (s : State C) (b : Broadcast C) : State C :=
  match b.rest with
  | [] => { s with broadcast := none }
  | j :: rest =>
    let s : State C := { s with broadcast := some { b with rest := rest } }
    if j = b.sockfd then s
    else
      let s := s.updateChild j fun k => { k with edge := Function.update k.edge .pipefd true }
      { s with toChild := Function.update s.toChild j (s.toChild j ++ [b.child]) }

def perform (p : Clients C) (s : State C) : Action C → State C
  | .arrive c data => s.arrive c data
  | .childWait c events => s.childWait c events
  | .clear c => s.clear p c
  | .recvClient c => s.recvClient p c
  | .notify c => s.notify p c
  | .recvPipe c => s.recvPipe c
  | .forward c client => s.forward c client
  | .parentWait events => s.parentWait events
  | .parentRecv sockfd => s.parentRecv p sockfd
  | .parentSend b => s.parentSend b

end State

/-- A step of the relay. -/
def Step {C : Type} [DecidableEq C] (p : Clients C) (s : State C) (a : Action C) (s' : State C) : Prop :=
  s.Enabled a ∧ s' = s.perform p a

end ChatRelay

end ServerListings.Model
