import ServerListings.Lib.CArray
import ServerListings.Model.LstTimer

/-!
# The server that closes inactive connections (listing 11-3)

The branches of the event loop of `main` with the list of timers of listing 11-2. A timer is made
at an address where no object is, and `delete` takes the object away. The global `epollfd` that
`cb_func` uses is never set, so its `epoll_ctl` fails; `close` alone takes the descriptor out of
the epoll set. The callbacks of `tick` do not touch the list, and are made behind its loop.

`main` deletes a timer after it has put it into the list. `Disposal` says whether it does.
-/

set_option autoImplicit false

namespace ServerListings.Model

namespace InactiveServer

open Lib.CMem

def FD_LIMIT : Nat := 65535

def TIMESLOT : Int := 5

/-- Whether `main` deletes the timer that it has added. -/
inductive Disposal
  | deleted
  | kept
  deriving DecidableEq, Repr

/-- `client_data`. -/
structure ClientData where
  sockfd : Int
  timer : Option Ptr
  deriving DecidableEq, Repr

/-- The server with the open client connections `clients`. `now` is the last value of the clock,
and `touched` the time of the last `accept` or successful read of a descriptor. -/
structure Server where
  users : CArray ClientData FD_LIMIT
  memory : Memory
  timerLst : SortTimerLst
  clients : List Int
  now : Int
  touched : Int → Int

/-- The server before its event loop. The elements of `users` are whatever `new` found. -/
def start (users : CArray ClientData FD_LIMIT) (now : Int) : Server :=
  { users := users
    memory := ⟨fun _ => none, 0, []⟩
    timerLst := SortTimerLst.create
    clients := []
    now := now
    touched := fun _ => now }

/-- The address of `cb_func`. -/
def cbFuncAddress : Nat := 1

/-- What the event loop finds: a connection with the descriptor that `accept` returns and the
address that `new` returns, the results of `recv` for a client, or a tick. An `accept` that fails is
left out: `main` does not test for it and uses `users[-1]` then. -/
inductive Event
  | accept (connfd : Int) (timer : Ptr)
  | data (sockfd : Int)
  | again (sockfd : Int)
  | readError (sockfd : Int)
  | peerClose (sockfd : Int)
  | tick
  deriving DecidableEq, Repr

namespace Server

/-- `close` of a client connection. -/
def closeFd (s : Server) (fd : Int) : Server := { s with clients := s.clients.filter (· ≠ fd) }

/-- `cb_func` for the element of `users` with this number. -/
def cbFunc (s : Server) (i : Int) : Checked Server := do
  let u ← s.users.get i
  pure (s.closeFd u.sockfd)

/-- The branch for a new connection. -/
def acceptClient (d : Disposal) (s : Server) (cur connfd : Int) (p : Ptr) : Checked Server := do
  let users ← s.users.set connfd { sockfd := connfd, timer := some p }
  let m := s.memory.make p ⟨cur + 3 * TIMESLOT, some cbFuncAddress, connfd.toNat, none, none⟩
  let (l, m) ← s.timerLst.addTimer m (some p)
  let m ← match d with
    | .deleted => m.delete (some p)
    | .kept => pure m
  pure { s with
    users := users, memory := m, timerLst := l, clients := connfd :: s.clients,
    touched := Function.update s.touched connfd cur }

/-- The connection is closed and its timer is removed. -/
def dropClient (s : Server) (sockfd : Int) : Checked Server := do
  let u ← s.users.get sockfd
  let s ← s.cbFunc sockfd
  if u.timer.isSome then do
    let (l, m) ← s.timerLst.delTimer s.memory u.timer
    pure { s with memory := m, timerLst := l }
  else pure s

/-- The branch for data of a client. -/
def readData (s : Server) (cur sockfd : Int) : Checked Server := do
  let u ← s.users.get sockfd
  let s : Server := { s with touched := Function.update s.touched sockfd cur }
  if u.timer.isSome then do
    let m ← s.memory.setExpire u.timer (cur + 3 * TIMESLOT)
    let (l, m) ← s.timerLst.adjustTimer m u.timer
    pure { s with memory := m, timerLst := l }
  else pure s

/-- `timer_handler`. -/
def timerHandler (s : Server) (cur : Int) : Checked Server := do
  let (l, m) ← s.timerLst.tick s.memory cur
  let calls := m.calls.drop s.memory.calls.length
  calls.foldlM (fun s c => s.cbFunc c.2) { s with memory := m, timerLst := l }

/-- The handling of an event at the time `cur`. -/
def handle (d : Disposal) (s : Server) (cur : Int) (e : Event) : Checked Server := do
  let s : Server := { s with now := cur }
  match e with
  | .accept connfd p => s.acceptClient d cur connfd p
  | .data sockfd => s.readData cur sockfd
  | .again _ => pure s
  | .readError sockfd => s.dropClient sockfd
  | .peerClose sockfd => s.dropClient sockfd
  | .tick => s.timerHandler cur

/-- What can happen: the clock does not go back, `accept` returns a descriptor that is not open,
`new` an address where no object is, and the other events are about an open connection. -/
def Allowed (s : Server) (cur : Int) (e : Event) : Prop :=
  s.now ≤ cur ∧
    match e with
    | .accept connfd p => connfd ∉ s.clients ∧ s.memory.nodes p = none
    | .data sockfd | .again sockfd | .readError sockfd | .peerClose sockfd => sockfd ∈ s.clients
    | .tick => True

end Server

/-- The handling of an event that is possible in the state, if it is defined. -/
def Step (d : Disposal) (s : Server) (a : Int × Event) (s' : Server) : Prop :=
  s.Allowed a.1 a.2 ∧ s.handle d a.1 a.2 = .ok s'

end InactiveServer

end ServerListings.Model
