import Mathlib.Data.Finset.Basic
import ServerListings.Lib.CArray

/-!
# The connection tables of the chat server (listing 13-4)

The parent process: the table `users`, the table `sub_process` from process ids to positions in
it, the descriptors that are open and those that are registered in `epollfd`. What the kernel
returns is part of an event. A child keeps the number that it was forked with; it is in the list
until `waitpid` has returned it.
-/

set_option autoImplicit false

namespace ServerListings.Model

open Lib.CMem

namespace ChatServer

def USER_LIMIT : Nat := 5

def BUFFER_SIZE : Nat := 1024

def PROCESS_LIMIT : Nat := 65536

/-- `client_data`. -/
structure ClientData where
  address : Nat
  connfd : Int
  pid : Nat
  pipefd : Int × Int
  deriving DecidableEq, Repr

/-- A child that was forked and not yet reaped, with the number that it runs `run_child` with. -/
structure Child where
  pid : Nat
  idx : Int
  exited : Bool
  deriving DecidableEq, Repr

/-- The parent process and its children. -/
structure State where
  users : CArray ClientData (USER_LIMIT + 1)
  subProcess : CArray Int PROCESS_LIMIT
  userCount : Int
  epoll : Finset Int
  opened : Finset Int
  children : List Child

/-- What the kernel returns while a connection is accepted: the results of `accept`, of
`socketpair` and of `fork`, which may fail. -/
structure Accepted where
  address : Nat
  connfd : Int
  pipefd : Int × Int
  pid : Option Nat
  deriving DecidableEq, Repr

/-- The tables before the event loop. The elements of `users` are whatever `new` found. -/
def create (users : CArray ClientData (USER_LIMIT + 1)) (opened : Finset Int) (listenfd sigPipe : Int) :
    State :=
  { users := users
    subProcess := ⟨fun _ => -1⟩
    userCount := 0
    epoll := {listenfd, sigPipe}
    opened := opened
    children := [] }

namespace State

/-- A descriptor that the kernel gives to the process. -/
def openFd (s : State) (fd : Int) : State := { s with opened := insert fd s.opened }

/-- `close`. It also takes the descriptor out of the epoll set. -/
def closeFd (s : State) (fd : Int) : State :=
  { s with opened := s.opened.erase fd, epoll := s.epoll.erase fd }

def addfd (s : State) (fd : Int) : State := { s with epoll := insert fd s.epoll }

/-- `epoll_ctl` with `EPOLL_CTL_DEL`. -/
def delfd (s : State) (fd : Int) : State := { s with epoll := s.epoll.erase fd }

/-- An assignment to members of an element of `users`. -/
def updateUser (s : State) (i : Int) (f : ClientData → ClientData) : Checked State := do
  let u ← s.users.get i
  let users ← s.users.set i (f u)
  pure { s with users := users }

/-- An assignment to an element of `sub_process`. -/
def setSubProcess (s : State) (pid : Int) (v : Int) : Checked State := do
  let subProcess ← s.subProcess.set pid v
  pure { s with subProcess := subProcess }

end State

/-- The branch of the parent after `fork` succeeded. The child runs with the present number. -/
def registerUser (s : State) (r : Accepted) (pid : Nat) : Checked State := do
  let s : State := { s with children := s.children ++ [⟨pid, s.userCount, false⟩] }
  let s := s.closeFd r.connfd
  let u ← s.users.get s.userCount
  let s := s.closeFd u.pipefd.2
  let s := s.addfd u.pipefd.1
  let s ← s.updateUser s.userCount fun u => { u with pid := pid }
  let s ← s.setSubProcess pid s.userCount
  pure { s with userCount := s.userCount + 1 }

/-- The branch of the event loop for a new connection. -/
def acceptClient (s : State) (r : Accepted) : Checked State :=
  if r.connfd < 0 then pure s
  else
    let s := s.openFd r.connfd
    if (USER_LIMIT : Int) ≤ s.userCount then pure (s.closeFd r.connfd)
    else do
      let s ← s.updateUser s.userCount fun u => { u with address := r.address, connfd := r.connfd }
      let s := (s.openFd r.pipefd.1).openFd r.pipefd.2
      let s ← s.updateUser s.userCount fun u => { u with pipefd := r.pipefd }
      match r.pid with
      | none => pure (s.closeFd r.connfd)
      | some pid => registerUser s r pid

/-- One round of the loop of `SIGCHLD`, in which `waitpid` returned `pid`. -/
def reapChild (s : State) (pid : Nat) : Checked State := do
  let s := { s with children := s.children.filter fun c => c.pid ≠ pid }
  let delUser ← s.subProcess.get pid
  let s ← s.setSubProcess pid (-1)
  if delUser < 0 ∨ (USER_LIMIT : Int) < delUser then pure s
  else do
    -- the descriptor is read behind the used part of the table
    let stale ← s.users.get s.userCount
    let s := s.delfd stale.pipefd.1
    let gone ← s.users.get delUser
    let s := s.closeFd gone.pipefd.1
    let s := { s with userCount := s.userCount - 1 }
    let last ← s.users.get s.userCount
    let s ← s.updateUser delUser fun _ => last
    let moved ← s.users.get delUser
    s.setSubProcess moved.pid delUser

/-- What happens in the server: a connection is accepted, a child ends, `waitpid` returns it. -/
inductive Event
  | accept (r : Accepted)
  | exit (pid : Nat)
  | reap (pid : Nat)
  deriving DecidableEq, Repr

def handle (s : State) : Event → Checked State
  | .accept r => acceptClient s r
  | .exit pid =>
    pure { s with children := s.children.map fun c => if c.pid = pid then { c with exited := true } else c }
  | .reap pid => reapChild s pid

/-- The branch of the event loop for `SIGCHLD`, in which `waitpid` returns these children. -/
def handleSigchld (s : State) (pids : List Nat) : Checked State := pids.foldlM reapChild s

/-- What the kernel promises of the results while a connection is accepted: new descriptors, and
a process id below the limit that no child has that is not yet reaped. -/
def Fresh (s : State) (r : Accepted) : Prop :=
  r.connfd ∉ s.opened ∧ r.pipefd.1 ∉ s.opened ∧ r.pipefd.2 ∉ s.opened ∧
    r.connfd ≠ r.pipefd.1 ∧ r.connfd ≠ r.pipefd.2 ∧ r.pipefd.1 ≠ r.pipefd.2 ∧
    ∀ pid ∈ r.pid, 0 < pid ∧ pid < PROCESS_LIMIT ∧ ∀ c ∈ s.children, c.pid ≠ pid

instance (s : State) (r : Accepted) : Decidable (Fresh s r) := by
  unfold Fresh
  infer_instance

/-- The events that may happen. -/
def Possible (s : State) : Event → Prop
  | .accept r => 0 ≤ r.connfd → Fresh s r
  | .exit pid => ∃ c ∈ s.children, c.pid = pid ∧ c.exited = false
  | .reap pid => ∃ c ∈ s.children, c.pid = pid ∧ c.exited = true

instance (s : State) (e : Event) : Decidable (Possible s e) := by
  cases e <;> (unfold Possible; infer_instance)

def Step (s : State) (e : Event) (s' : State) : Prop := Possible s e ∧ handle s e = .ok s'

end ChatServer

end ServerListings.Model
