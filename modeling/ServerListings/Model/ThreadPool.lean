import Mathlib.Logic.Function.Basic

/-!
# The thread pool (listings 14-2 and 15-3)

`sem` and `locker` of listing 14-2 and `threadpool` of listing 15-3, for any set of threads that
call `append` and any set of workers in `run`. One statement of one thread is one step; a thread
that has to wait for the mutex or the semaphore has no step. `sem_wait` is not interrupted. A
request is a pointer, which may be null.

The body of `locker::unlock` is a parameter: listing 14-2 calls `pthread_mutex_lock` in it, and
documents that it releases the mutex.
-/

set_option autoImplicit false

namespace ServerListings.Model

namespace ThreadPool

/-- The functions for a default mutex. -/
inductive MutexCall
  | pthreadMutexLock
  | pthreadMutexUnlock
  deriving DecidableEq, Repr

/-- A call by the thread `t`, if it returns. `pthread_mutex_lock` waits for a mutex that has an
owner, also for one that the caller owns. -/
def MutexCall.perform {T : Type} (call : MutexCall) (owner : Option T) (t : T) :
    Option (Option T) :=
  match call with
  | .pthreadMutexLock => if owner.isNone then some (some t) else none
  | .pthreadMutexUnlock => some none

/-- The call in `locker::lock`. -/
def lock : MutexCall := .pthreadMutexLock

/-- The call in `locker::unlock`. -/
def unlock : MutexCall := .pthreadMutexLock

/-- What `locker::unlock` is documented to call. -/
def unlockDocumented : MutexCall := .pthreadMutexUnlock

/-- Where a thread is. -/
inductive Pc (R : Type)
  /-- Not in a function of the pool. -/
  | idle
  /-- In `append`: in `m_queuelocker.lock()`. -/
  | appendLock (request : Option R)
  /-- Before the comparison with `m_max_requests`. -/
  | appendTest (request : Option R)
  /-- In `m_queuelocker.unlock()` before `return false`. -/
  | appendRefuse (request : Option R)
  /-- Before `push_back`. -/
  | appendPush (request : Option R)
  /-- In `m_queuelocker.unlock()` after `push_back`. -/
  | appendUnlock (request : Option R)
  /-- Before `m_queuestat.post()`. -/
  | appendPost (request : Option R)
  /-- In `run`: before the test of `m_stop`. -/
  | runTest
  /-- In `m_queuestat.wait()`. -/
  | runWait
  /-- In `m_queuelocker.lock()`. -/
  | runLock
  /-- Before the test of `m_workqueue.empty()`. -/
  | runEmpty
  /-- In `m_queuelocker.unlock()` before `continue`. -/
  | runSkip
  /-- Before `front` and `pop_front`. -/
  | runFront
  /-- In `m_queuelocker.unlock()` after `pop_front`. -/
  | runUnlock (request : Option R)
  /-- Before the test of `request` and `request->process()`. -/
  | runProcess (request : Option R)
  /-- `run` has returned. -/
  | stopped
  deriving DecidableEq, Repr

/-- The pool with its threads. `pushed`, `popped`, `processed` and `returned` are the history:
what was put into the queue and by whom, what was taken out of it, the calls of `process`, and
the calls of `append` that have returned. -/
structure Pool (T R : Type) where
  maxRequests : Nat
  stop : Bool
  queuestat : Nat
  queuelocker : Option T
  workqueue : List (Option R)
  pc : T → Pc R
  pushed : List (T × Option R)
  popped : List (Option R)
  processed : List R
  returned : List (T × Option R × Bool)

/-- The pool after its constructor. The threads for which `worker` holds begin with `run`. -/
def create {T : Type} (R : Type) (worker : T → Bool) (maxRequests : Nat) : Pool T R :=
  { maxRequests := maxRequests
    stop := false
    queuestat := 0
    queuelocker := none
    workqueue := []
    pc := fun t => if worker t then .runTest else .idle
    pushed := []
    popped := []
    processed := []
    returned := [] }

namespace Pool

variable {T R : Type} [DecidableEq T]

/-- The thread goes on at `v`. -/
def goto (s : Pool T R) (t : T) (v : Pc R) : Pool T R :=
  { s with pc := Function.update s.pc t v }

/-- The thread goes on at `v` when the call for the mutex has returned. -/
def mutexCall (s : Pool T R) (call : MutexCall) (t : T) (v : Pc R) : Option (Pool T R) :=
  (call.perform s.queuelocker t).map fun owner => { s.goto t v with queuelocker := owner }

/-- A call of `append` has returned. -/
def ret (s : Pool T R) (t : T) (request : Option R) (value : Bool) : Pool T R :=
  { s with returned := s.returned ++ [(t, request, value)] }

/-- A thread begins a call of `append`. -/
def append (s : Pool T R) (t : T) (request : Option R) : Option (Pool T R) :=
  match s.pc t with
  | .idle => some (s.goto t (.appendLock request))
  | _ => none

/-- The next statement of a thread inside `append` or `run`, if it need not wait. `release` is
the call in `locker::unlock`. -/
def advance (release : MutexCall) (s : Pool T R) (t : T) : Option (Pool T R) :=
  match s.pc t with
  | .idle => none
  | .appendLock request => s.mutexCall lock t (.appendTest request)
  | .appendTest request =>
    if s.maxRequests < s.workqueue.length then some (s.goto t (.appendRefuse request))
    else some (s.goto t (.appendPush request))
  | .appendRefuse request => (s.mutexCall release t .idle).map fun s => s.ret t request false
  | .appendPush request =>
    some { s.goto t (.appendUnlock request) with
      workqueue := s.workqueue ++ [request], pushed := s.pushed ++ [(t, request)] }
  | .appendUnlock request => s.mutexCall release t (.appendPost request)
  | .appendPost request =>
    some (Pool.ret { s.goto t .idle with queuestat := s.queuestat + 1 } t request true)
  | .runTest => if s.stop then some (s.goto t .stopped) else some (s.goto t .runWait)
  | .runWait =>
    if s.queuestat = 0 then none
    else some { s.goto t .runLock with queuestat := s.queuestat - 1 }
  | .runLock => s.mutexCall lock t .runEmpty
  | .runEmpty =>
    if s.workqueue = [] then some (s.goto t .runSkip) else some (s.goto t .runFront)
  | .runSkip => s.mutexCall release t .runTest
  | .runFront =>
    match s.workqueue with
    | [] => none
    | request :: rest =>
      some { s.goto t (.runUnlock request) with
        workqueue := rest, popped := s.popped ++ [request] }
  | .runUnlock request => s.mutexCall release t (.runProcess request)
  | .runProcess request =>
    match request with
    | none => some (s.goto t .runTest)
    | some r => some { s.goto t .runTest with processed := s.processed ++ [r] }
  | .stopped => none

end Pool

/-- What a thread does: it calls `append`, or it makes the next step inside the pool. -/
inductive Action (T R : Type)
  | append (t : T) (request : Option R)
  | advance (t : T)
  deriving DecidableEq, Repr

/-- The state after an action, if the thread can take it. -/
def perform {T R : Type} [DecidableEq T] (release : MutexCall) (s : Pool T R) :
    Action T R → Option (Pool T R)
  | .append t request => s.append t request
  | .advance t => s.advance release t

def Step {T R : Type} [DecidableEq T] (release : MutexCall) (s : Pool T R) (a : Action T R)
    (s' : Pool T R) : Prop := perform release s a = some s'

end ThreadPool

end ServerListings.Model
