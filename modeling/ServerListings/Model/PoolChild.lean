import ServerListings.Lib.EventLoop
import ServerListings.Model.CgiConn
import ServerListings.Model.ProcessPool

/-!
# A child of the process pool with its CGI connections (listings 15-1 and 15-2)

`run_child` with `cgi_conn` in place of the template parameter. A step is an event of a batch, a
signal handler, or something that clients, programs or other processes do. The handling of an
event is one step, in which `process` is called at most once; what arrives meanwhile arrives
before or after it. A `recv` into a full buffer is taken to return 0, as in `CgiConn`. The
descriptors are below `USER_PRE_PROCESS`.
-/

set_option autoImplicit false

namespace ServerListings.Model.PoolChild

open Lib.CMem Lib.Readiness ServerListings.Model ServerListings.Model.ProcessPool

/-- `table` has the connections and their entries. `pipefd` is the end of the pipe to the parent
and `sigfd` is `sig_pipefd[0]`, whose unread bytes are `signals`; `sigEntry` is its entry.
`pending` are the signals whose handler has not run yet. `programs` counts the CGI programs that
run, `zombies` those that have ended and were not waited for. `running` is false when the loop has
been left. -/
structure Child where
  epollfd : Int
  pipefd : Int
  sigfd : Int
  users : Int → CgiConn
  table : Table Int
  pending : Signal → Bool
  signals : List Signal
  sigEntry : Entry
  programs : Nat
  zombies : Nat
  batch : List (Report Int)
  mStop : Bool
  running : Bool

/-- What can be seen of a run: the bytes that a connection starts with and that arrive, a call of
`process` with the system and the input that it found and what it did, one that ends in a fault,
and a signal. -/
inductive Happening
  | accepted (fd : Int) (inbox : List UInt8)
  | arrived (fd : Int) (data : List UInt8)
  | called (fd : Int) (sys : CgiSystem) (input : CgiInput) (effects child : List CgiEffect)
  | fault (fd : Int)
  | raised (g : Signal)

/-- What the calls of an iteration return, whichever of them are made. -/
structure Input where
  accepted : Option (Int × Stream)
  sys : CgiSystem
  cgi : CgiInput

inductive Action
  | arrive (fd : Int) (data : List UInt8)
  | shutdown (fd : Int)
  | exit
  | raise (g : Signal)
  | signal (g : Signal)
  | wait (batch : List (Report Int))
  | fail
  | handle (input : Input)
  | leave

def MAX_EVENT_NUMBER : Nat := 10000

/-- The size of the array `signals`. -/
def signalsSize : Nat := 1024

/-- A child before its loop. The elements of `users` are not initialized. -/
def start (epollfd pipefd sigfd : Int) (users : Int → CgiConn) : Child where
  epollfd := epollfd
  pipefd := pipefd
  sigfd := sigfd
  users := users
  table := Table.empty Int
  pending := fun _ => false
  signals := []
  sigEntry := Entry.enable false
  programs := 0
  zombies := 0
  batch := []
  mStop := false
  running := true

namespace Child

/-- `epoll_wait` reports an event of the pipe to the parent, the signal pipe with unread bytes, or
a connection, with `EPOLLIN` if it can be read. The last two are reported once for each change. -/
def Reported (s : Child) (d : Report Int) : Prop :=
  d.fd = s.pipefd ∨
    (d.fd = s.sigfd ∧ d.readable = true ∧ s.sigEntry.ready = true ∧ s.signals ≠ []) ∨
    ∃ e ∈ s.table.entries d.fd, ∃ k ∈ s.table.streams d.fd, d.readable = k.readable ∧
      (d.readable = true → e.ready = true)

def deliver (s : Child) (batch : List (Report Int)) : Child :=
  { s with
    batch := batch
    sigEntry := if s.sigfd ∈ batch.map Report.fd then Entry.waiting else s.sigEntry
    table := s.table.report (batch.map Report.fd) Entry.waiting }

/-- `sig_handler`, which writes a byte into the signal pipe. -/
def sigHandler (s : Child) (g : Signal) : Child :=
  { s with
    pending := Function.update s.pending g false
    signals := s.signals ++ [g]
    sigEntry := s.sigEntry.notify }

/-- The branch for the pipe to the parent: `addfd` and `init`. -/
def accept (s : Child) : Option (Int × Stream) → Child × List Happening
  | none => (s, [])
  | some (connfd, k) =>
    ({ s with
      table := s.table.add connfd k
      users := Function.update s.users connfd (CgiConn.init s.epollfd connfd) },
      [.accepted connfd k.inbox])

/-- The loop over the signals that were read. -/
def handleSignals (s : Child) : List Signal → Child
  | [] => s
  | .sigchld :: gs => { s with zombies := 0 }.handleSignals gs
  | .sigterm :: gs => { s with mStop := true }.handleSignals gs
  | .sigint :: gs => { s with mStop := true }.handleSignals gs
  | .other :: gs => s.handleSignals gs

/-- The branch for the signal pipe. -/
def readSignals (s : Child) : Child :=
  { s with signals := s.signals.drop signalsSize }.handleSignals (s.signals.take signalsSize)

/-- After a call of `process`, which has received all there was, or has removed the connection. -/
def processed (s : Child) (fd : Int) (r : CgiCall) : Child :=
  { s with
    users := Function.update s.users fd r.conn
    programs := if r.child = [] then s.programs else s.programs + 1
    table := if r.removed then s.table.remove fd else s.table.drain fd }

/-- The branch for a connection. -/
def process (s : Child) (fd : Int) (sys : CgiSystem) (input : CgiInput) : Child × List Happening :=
  match (s.users fd).process sys input with
  | .ok r => (s.processed fd r, [.called fd sys input r.effects r.child])
  | .error _ => (s, [.fault fd])

/-- The body of the loop over the events. -/
def handle (s : Child) (d : Report Int) (input : Input) : Child × List Happening :=
  if d.fd = s.pipefd ∧ d.readable = true then s.accept input.accepted
  else if d.fd = s.sigfd ∧ d.readable = true then (s.readSignals, [])
  else if d.readable then s.process d.fd input.sys input.cgi
  else (s, [])

/-- What the calls of `recv` can return for a connection. A failing one may leave bytes behind. -/
def Fits (s : Child) (fd : Int) (input : CgiInput) : Prop :=
  ∃ k ∈ s.table.streams fd, (∀ p ∈ input.portions, p ≠ []) ∧
    (input.last = .failed ∧ input.portions.flatten <+: k.inbox ∨
      input.last = .closed ∧ input.portions.flatten = k.inbox ∧ k.closed = true ∨
      input.last = .again ∧ input.portions.flatten = k.inbox ∧ k.closed = false)

/-- The action is possible. `accept` returns a descriptor that is not open, and `recv` what the
connection has. -/
def Enabled (s : Child) : Action → Prop
  | .arrive fd data => data ≠ [] ∧ ∃ k ∈ s.table.streams fd, k.closed = false
  | .shutdown fd => ∃ k ∈ s.table.streams fd, k.closed = false
  | .exit => 0 < s.programs
  | .raise g => g ≠ .other
  | .signal g => s.pending g = true
  | .wait batch => s.running = true ∧ s.mStop = false ∧ s.batch = [] ∧ batch ≠ [] ∧
      batch.length ≤ MAX_EVENT_NUMBER ∧ (batch.map Report.fd).Nodup ∧ ∀ d ∈ batch, s.Reported d
  | .fail => s.running = true ∧ s.mStop = false ∧ s.batch = []
  | .handle input => ∃ d ∈ s.batch.head?,
      (∀ a ∈ input.accepted, a.1 ≠ s.pipefd ∧ a.1 ≠ s.sigfd ∧ s.table.streams a.1 = none) ∧
      (d.fd ≠ s.pipefd → d.fd ≠ s.sigfd → d.readable = true → s.Fits d.fd input.cgi)
  | .leave => s.running = true ∧ s.mStop = true ∧ s.batch = []

def perform (s : Child) : Action → Child × List Happening
  | .arrive fd data =>
    ({ s with table := s.table.change fd fun k => { k with inbox := k.inbox ++ data } },
      [.arrived fd data])
  | .shutdown fd => ({ s with table := s.table.change fd fun k => { k with closed := true } }, [])
  | .exit =>
    ({ s with
      programs := s.programs - 1
      zombies := s.zombies + 1
      pending := Function.update s.pending .sigchld true }, [])
  | .raise g => ({ s with pending := Function.update s.pending g true }, [.raised g])
  | .signal g => (s.sigHandler g, [])
  | .wait batch => (s.deliver batch, [])
  | .fail => ({ s with running := false }, [])
  | .handle input =>
    match s.batch with
    | [] => (s, [])
    | d :: rest => { s with batch := rest }.handle d input
  | .leave => ({ s with running := false }, [])

def happens (s : Child) (a : Action) : List Happening := (s.perform a).2

instance (s : Child) (d : Report Int) : Decidable (s.Reported d) := by
  unfold Reported
  infer_instance

instance (s : Child) (fd : Int) (input : CgiInput) : Decidable (s.Fits fd input) := by
  unfold Fits
  infer_instance

instance (s : Child) (a : Action) : Decidable (s.Enabled a) := by
  cases a <;> unfold Enabled <;> infer_instance

end Child

/-- The steps of a child and of those around it. -/
def Step (s : Child) (a : Action) (s' : Child) : Prop := s.Enabled a ∧ s' = (s.perform a).1

end ServerListings.Model.PoolChild
