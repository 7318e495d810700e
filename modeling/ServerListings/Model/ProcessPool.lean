import Mathlib.Data.Fintype.Basic
import Mathlib.Data.List.FinRange

/-!
# The parent of the process pool (listing 15-1)

`run_parent`: the round robin for new connections and the handling of `SIGCHLD`, `SIGTERM` and
`SIGINT`. An event of a batch, and a signal of those that a `recv` from the signal pipe
returned, are one step each. Between the steps children end; `waitpid` returns the pids of
children that have ended, each one once.
-/

set_option autoImplicit false

namespace ServerListings.Model.ProcessPool

/-- The children that the constructor has forked, with their pids and the ends of their pipes
that the parent keeps (`m_pipefd[0]`). -/
structure Children (n : Nat) where
  pid : Fin n → Int
  pipefd : Fin n → Int
  pid_pos : ∀ i, 0 < pid i
  pid_injective : Function.Injective pid
  pipefd_injective : Function.Injective pipefd

/-- A byte of the signal pipe. -/
inductive Signal
  | sigchld
  | sigterm
  | sigint
  | other
  deriving DecidableEq, Repr

/-- An event of a batch. With an event of the signal pipe comes what `recv` reads from it, or
nothing if it fails. -/
inductive Ready
  | listenfd
  | sigPipe (signals : List Signal)
  | other
  deriving DecidableEq, Repr

/-- The parent. `mPid` are the members `m_pid` of the array `m_sub_process`, `events` the events
of the batch that are left and `signals` the signals of a `recv` that are left; `running` is
false when the loop has been left. `exited` and `reaped` are the children that have ended and
those that were waited for. -/
structure Parent (n : Nat) where
  mPid : Fin n → Int
  mStop : Bool
  subProcessCounter : Fin n
  events : List Ready
  signals : List Signal
  running : Bool
  exited : Fin n → Bool
  reaped : Fin n → Bool

/-- What the parent does: a call of `epoll_wait`, `kill`, `send` and `close`, a pid that
`waitpid` returns, and the end of the handling of a `SIGCHLD`. -/
inductive Happening
  | epollWait
  | kill (pid : Int)
  | send (fd : Int)
  | reap (pid : Int)
  | close (fd : Int)
  | sigchldDone
  deriving DecidableEq, Repr

inductive Action (n : Nat)
  | exit (i : Fin n)
  | wait (batch : List Ready)
  | fail
  | event
  | signal (waited : List Int)
  | leave

section RoundRobin

variable {n : Nat}

/-- `(i + 1) % m_process_number`. -/
def following (i : Fin n) : Fin n := ⟨(i + 1) % n, Nat.mod_lt _ (Nat.zero_lt_of_lt i.isLt)⟩

/-- The loop that looks for a child, from `i` on. It comes back to `start` after `n` rounds. -/
def chooseLoop (mPid : Fin n → Int) (start : Fin n) : Nat → Fin n → Fin n
  | 0, i => i
  | rounds + 1, i =>
    if mPid i ≠ -1 then i
    else if following i = start then following i
    else chooseLoop mPid start rounds (following i)

def choose (mPid : Fin n → Int) (start : Fin n) : Fin n := chooseLoop mPid start n start

end RoundRobin

namespace Parent

variable {n : Nat}

/-- The branch for the listening socket. -/
def dispatch (p : Children n) (s : Parent n) : Parent n × List Happening :=
  let i := choose s.mPid s.subProcessCounter
  if s.mPid i = -1 then ({ s with mStop := true, events := [] }, [])
  else ({ s with subProcessCounter := following i }, [.send (p.pipefd i)])

/-- The loop over the children for a pid that `waitpid` returned. -/
def join (p : Children n) (mPid : Fin n → Int) (pid : Int) : (Fin n → Int) × List Happening :=
  (fun i => if mPid i = pid then -1 else mPid i,
    ((List.finRange n).filter fun i => mPid i = pid).map fun i => .close (p.pipefd i))

/-- The loop over `waitpid`. -/
def joinLoop (p : Children n) (mPid : Fin n → Int) : List Int → (Fin n → Int) × List Happening
  | [] => (mPid, [])
  | pid :: waited =>
    let (mPid, closed) := join p mPid pid
    let (mPid, rest) := joinLoop p mPid waited
    (mPid, .reap pid :: closed ++ rest)

/-- The case of `SIGCHLD`. -/
def handleSigchld (p : Children n) (s : Parent n) (waited : List Int) : Parent n × List Happening :=
  let (mPid, log) := joinLoop p s.mPid waited
  ({ s with
    mPid := mPid
    mStop := (List.finRange n).all fun i => mPid i = -1
    reaped := fun i => s.reaped i || decide (p.pid i ∈ waited) }, log ++ [.sigchldDone])

/-- The case of `SIGTERM` and `SIGINT`. -/
def killAll (s : Parent n) : List Happening :=
  ((List.finRange n).filter fun i => s.mPid i ≠ -1).map fun i => .kill (s.mPid i)

/-- The handling of a signal. -/
def handleSignal (p : Children n) (s : Parent n) (waited : List Int) : Signal → Parent n × List Happening
  | .sigchld => s.handleSigchld p waited
  | .sigterm | .sigint => (s, s.killAll)
  | .other => (s, [])

/-- The handling of an event. The signals that were read are handled one by one afterwards. -/
def handleEvent (p : Children n) (s : Parent n) : Ready → Parent n × List Happening
  | .listenfd => s.dispatch p
  | .sigPipe signals => ({ s with signals := signals }, [])
  | .other => (s, [])

/-- `waitpid` returns these pids one after the other. -/
def Waited (p : Children n) (s : Parent n) (waited : List Int) : Prop :=
  waited.Nodup ∧ ∀ pid ∈ waited, ∃ i, p.pid i = pid ∧ s.exited i = true ∧ s.reaped i = false

/-- The process is at the statement of the action. -/
def Enabled (p : Children n) (s : Parent n) : Action n → Prop
  | .exit i => s.exited i = false
  | .wait _ | .fail => s.running = true ∧ s.mStop = false ∧ s.events = [] ∧ s.signals = []
  | .event => s.events ≠ [] ∧ s.signals = []
  | .signal waited => s.signals ≠ [] ∧
      if s.signals.head? = some .sigchld then s.Waited p waited else waited = []
  | .leave => s.running = true ∧ s.mStop = true ∧ s.events = [] ∧ s.signals = []

instance (p : Children n) (s : Parent n) (waited : List Int) : Decidable (s.Waited p waited) :=
  inferInstanceAs (Decidable (_ ∧ _))

instance (p : Children n) (s : Parent n) (a : Action n) : Decidable (s.Enabled p a) := by
  cases a <;> unfold Enabled <;> infer_instance

/-- What an action does. -/
def perform (p : Children n) (s : Parent n) : Action n → Parent n × List Happening
  | .exit i => ({ s with exited := Function.update s.exited i true }, [])
  | .wait batch => ({ s with events := batch }, [.epollWait])
  | .fail => ({ s with running := false }, [.epollWait])
  | .event =>
    match s.events with
    | [] => (s, [])
    | e :: events => handleEvent p { s with events := events } e
  | .signal waited =>
    match s.signals with
    | [] => (s, [])
    | g :: signals => handleSignal p { s with signals := signals } waited g
  | .leave => ({ s with running := false }, [])

def happens (p : Children n) (s : Parent n) (a : Action n) : List Happening := (s.perform p a).2

/-- The steps of the parent and its children. -/
def Step (p : Children n) (s : Parent n) (a : Action n) (s' : Parent n) : Prop :=
  s.Enabled p a ∧ s' = (s.perform p a).1

end Parent

/-- The parent before its loop. Children may have ended already. -/
def Children.start {n : Nat} (p : Children (n + 1)) (exited : Fin (n + 1) → Bool) : Parent (n + 1) :=
  { mPid := p.pid
    mStop := false
    subProcessCounter := 0
    events := []
    signals := []
    running := true
    exited := exited
    reaped := fun _ => false }

end ServerListings.Model.ProcessPool
