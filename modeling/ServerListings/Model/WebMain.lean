import ServerListings.Model.ThreadPool
import ServerListings.Model.WebServer

/-!
# The lifetime of the web server (listings 15-6 and 15-3)

`main` of listing 15-6 from its event loop to its end, one statement at a time, beside the workers
of the thread pool. `main` is one more thread of the pool, which calls `append` in the loop. The
handling of an event is reduced to what it asks of the pool: whether `append` is called. The
worker threads are detached: they end with the process. What a worker does with an object that
was deleted is undefined, and there is no step for it.
-/

set_option autoImplicit false

namespace ServerListings.Model.WebMain

open ThreadPool WebServer

/-- What `epoll_wait` returns. -/
inductive WaitResult
  | events (batch : List Delivered)
  | interrupted
  | failed
  deriving DecidableEq, Repr

/-- Where `main` is. -/
inductive MainPc
  /-- In `epoll_wait`. -/
  | waiting
  /-- In the loop over the events of which these are left. -/
  | handling (rest : List Delivered)
  /-- In `append`, with these events left. -/
  | appending (rest : List Delivered)
  | closeListenfd
  | deleteUsers
  | deletePool
  | returning
  /-- The process has ended. -/
  | ended
  deriving DecidableEq, Repr

/-- The process. `epollfd` and `listenfd` say whether the descriptors are open, `users` and
`pool` whether the objects exist. `waitFailed` records that `epoll_wait` has failed with an error
other than `EINTR`. The threads of the pool are `main` and the workers `W`. -/
structure Process (W : Type) where
  listener : Int
  main : MainPc
  epollfd : Bool
  listenfd : Bool
  users : Bool
  pool : Bool
  threads : Pool (Option W) Int
  waitFailed : Bool

/-- The process before the event loop. -/
def start (W : Type) (listener : Int) (maxRequests : Nat) : Process W :=
  { listener := listener
    main := .waiting
    epollfd := true
    listenfd := true
    users := true
    pool := true
    threads := ThreadPool.create Int (fun t : Option W => t.isSome) maxRequests
    waitFailed := false }

/-- The branch of the loop over the events that calls `append`. `readOk` is the result of
`users[sockfd].read()`. -/
def appends (listener : Int) (d : Delivered) (readOk : Bool) : Bool :=
  if d.fd = listener then false
  else if d.events.closing then false
  else if d.events.readable then readOk
  else false

/-- The worker is at the call of `process` of an `http_conn`. -/
def processes : Pc Int → Bool
  | .runProcess (some _) => true
  | _ => false

/-- A step of `main` or of a worker. -/
inductive Action (W : Type)
  | wait (result : WaitResult)
  | handle (readOk : Bool)
  | main
  | teardown
  | work (w : W)
  deriving DecidableEq, Repr

namespace Process

variable {W : Type} [DecidableEq W]

/-- `epoll_wait` returns. After `EINTR` the loop over the events has nothing to do. -/
def wait (s : Process W) (result : WaitResult) : Option (Process W) :=
  match s.main, result with
  | .waiting, .events batch => some { s with main := .handling batch }
  | .waiting, .interrupted => some { s with main := .handling [] }
  | .waiting, .failed => some { s with main := .ended, waitFailed := true }
  | _, _ => none

/-- `main` handles the next event. -/
def handle (s : Process W) (readOk : Bool) : Option (Process W) :=
  match s.main with
  | .handling (d :: rest) =>
    if appends s.listener d readOk then
      (s.threads.append none (some d.fd)).map fun threads =>
        { s with main := .appending rest, threads := threads }
    else some { s with main := .handling rest }
  | _ => none

/-- `main` makes a step in `append`. -/
def inAppend (release : MutexCall) (s : Process W) : Option (Process W) :=
  match s.main with
  | .appending rest =>
    (s.threads.advance release none).map fun threads =>
      { s with
        main := if threads.pc none = .idle then .handling rest else .appending rest
        threads := threads }
  | _ => none

/-- The statements behind the loop over the events. They are in the body of `while (true)`. -/
def teardown (s : Process W) : Option (Process W) :=
  match s.main with
  | .handling [] => some { s with main := .closeListenfd, epollfd := false }
  | .closeListenfd => some { s with main := .deleteUsers, listenfd := false }
  | .deleteUsers => some { s with main := .deletePool, users := false }
  | .deletePool =>
    -- the destructor sets `m_stop`, which no worker is woken up for
    some { s with main := .returning, pool := false, threads := { s.threads with stop := true } }
  | .returning => some { s with main := .ended }
  | _ => none

/-- A worker makes a step. -/
def work (release : MutexCall) (s : Process W) (w : W) : Option (Process W) :=
  if s.main = .ended ∨ s.pool = false ∨ (s.users = false ∧ processes (s.threads.pc (some w))) then none
  else (s.threads.advance release (some w)).map fun threads => { s with threads := threads }

def perform (release : MutexCall) (s : Process W) : Action W → Option (Process W)
  | .wait result => s.wait result
  | .handle readOk => s.handle readOk
  | .main => s.inAppend release
  | .teardown => s.teardown
  | .work w => s.work release w

end Process

def Step {W : Type} [DecidableEq W] (release : MutexCall) (s : Process W) (a : Action W)
    (s' : Process W) : Prop := s.perform release a = some s'

end ServerListings.Model.WebMain
