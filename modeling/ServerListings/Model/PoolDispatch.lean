import Mathlib.Data.Fintype.Basic
import Mathlib.Logic.Function.Basic
import ServerListings.Lib.EdgeTriggered
import ServerListings.Model.ProcessPool

/-!
# New connections in the process pool (listing 15-1)

The listening socket with its accept queue, the branch of `run_parent` for it and the branch of
`run_child` for the pipe to the parent, while all children live. `addfd` registers descriptors
with `EPOLLET`: what arrives raises the edge of its descriptor, and `epoll_wait` returns
descriptors with an edge, in any order, and clears their edges. Signals are left to
`ProcessPool`, and the pipes take all that is sent.
-/

set_option autoImplicit false

namespace ServerListings.Model.PoolDispatch

open Lib.EdgeTriggered ServerListings.Model.ProcessPool

/-- The descriptor that the parent listens to. -/
inductive ListenSource
  | listenfd
  deriving DecidableEq, Repr

/-- The descriptors that a child listens to: the pipe to the parent and its connections. -/
inductive ChildSource (C : Type)
  | pipefd
  | connfd (client : C)
  deriving DecidableEq, Repr

instance : Fintype ListenSource := ⟨{.listenfd}, fun x => by cases x; decide⟩

instance {C : Type} [DecidableEq C] [Fintype C] : Fintype (ChildSource C) where
  elems := insert .pipefd (Finset.univ.image .connfd)
  complete x := by cases x <;> simp

/-- A child. `unread` is the number of notifications in its pipe, `accepting` is true between
`recv` and `accept`, and `conns` are the clients that it has accepted. -/
structure Child (C : Type) where
  unread : Nat
  edge : ChildSource C → Bool
  events : List (ChildSource C)
  accepting : Bool
  conns : List C

/-- `queue` is the accept queue of the listening socket. `edge`, `events` and
`subProcessCounter` belong to the parent. -/
structure State (n : Nat) (C : Type) where
  queue : List C
  edge : ListenSource → Bool
  events : List ListenSource
  subProcessCounter : Fin n
  children : Fin n → Child C

/-- A step of a client, of the parent or of a child. -/
inductive Action (n : Nat) (C : Type)
  | arrive (client : C)
  | parentWait (batch : List ListenSource)
  | dispatch
  | childWait (i : Fin n) (batch : List (ChildSource C))
  | recv (i : Fin n)
  | accept (i : Fin n)
  | request (i : Fin n) (client : C)
  | process (i : Fin n) (client : C)

/-- A child before its loop. -/
def Child.create (C : Type) : Child C :=
  { unread := 0, edge := fun _ => false, events := [], accepting := false, conns := [] }

/-- The processes before their loops. -/
def create (n : Nat) (C : Type) : State (n + 1) C :=
  { queue := []
    edge := fun _ => false
    events := []
    subProcessCounter := ⟨0, n.succ_pos⟩
    children := fun _ => Child.create C }

namespace State

variable {n : Nat} {C : Type} [DecidableEq C]

/-- An assignment to members of a child. -/
def updateChild (s : State n C) (i : Fin n) (f : Child C → Child C) : State n C :=
  { s with children := Function.update s.children i (f (s.children i)) }

/-- A client connects. -/
def arrive (s : State n C) (client : C) : State n C :=
  { s with queue := s.queue ++ [client], edge := Function.update s.edge .listenfd true }

def parentWait (s : State n C) (batch : List ListenSource) : State n C :=
  { s with events := batch, edge := remaining s.edge batch }

/-- The branch of `run_parent` for `m_listenfd`. All children live, so the loop finds one. -/
def dispatch (p : Children n) (s : State n C) : State n C :=
  let i := choose p.pid s.subProcessCounter
  let s := { s with events := s.events.tail, subProcessCounter := following i }
  s.updateChild i fun k =>
    { k with unread := k.unread + 1, edge := Function.update k.edge .pipefd true }

def childWait (s : State n C) (i : Fin n) (batch : List (ChildSource C)) : State n C :=
  s.updateChild i fun k => { k with events := batch, edge := remaining k.edge batch }

/-- `recv` of a notification. With an empty pipe it fails with `EAGAIN`, and `accept` is called
all the same. -/
def recv (s : State n C) (i : Fin n) : State n C :=
  s.updateChild i fun k =>
    { k with unread := k.unread - 1, events := k.events.tail, accepting := true }

/-- `accept` and `init` of the new connection. -/
def accept (s : State n C) (i : Fin n) : State n C :=
  match s.queue with
  | [] => s.updateChild i fun k => { k with accepting := false }
  | client :: rest =>
    let s := s.updateChild i fun k => { k with accepting := false, conns := k.conns ++ [client] }
    { s with queue := rest }

/-- Data of a client that was accepted arrives. -/
def request (s : State n C) (i : Fin n) (client : C) : State n C :=
  s.updateChild i fun k => { k with edge := Function.update k.edge (.connfd client) true }

/-- The branch of `run_child` for a connection, without what `process` does with it. -/
def process (s : State n C) (i : Fin n) : State n C :=
  s.updateChild i fun k => { k with events := k.events.tail }

/-- The process or the client of the action is at the statement of the action. -/
def Enabled (s : State n C) : Action n C → Prop
  | .arrive _ => True
  | .parentWait batch => s.events = [] ∧ Fetched s.edge batch
  | .dispatch => s.events.head? = some .listenfd
  | .childWait i batch => (s.children i).accepting = false ∧ (s.children i).events = [] ∧
      Fetched (s.children i).edge batch
  | .recv i => (s.children i).accepting = false ∧ (s.children i).events.head? = some .pipefd
  | .accept i => (s.children i).accepting = true
  | .request i client => client ∈ (s.children i).conns
  | .process i client => (s.children i).accepting = false ∧
      (s.children i).events.head? = some (.connfd client)

instance (s : State n C) (a : Action n C) : Decidable (s.Enabled a) := by
  cases a <;> unfold State.Enabled <;> infer_instance

def perform (p : Children n) (s : State n C) : Action n C → State n C
  | .arrive client => s.arrive client
  | .parentWait batch => s.parentWait batch
  | .dispatch => s.dispatch p
  | .childWait i batch => s.childWait i batch
  | .recv i => s.recv i
  | .accept i => s.accept i
  | .request i client => s.request i client
  | .process i _ => s.process i

end State

/-- A step of the pool. -/
def Step {n : Nat} {C : Type} [DecidableEq C] (p : Children n) (s : State n C) (a : Action n C)
    (s' : State n C) : Prop :=
  s.Enabled a ∧ s' = s.perform p a

end ServerListings.Model.PoolDispatch
