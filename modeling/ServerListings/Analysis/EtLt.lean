import ServerListings.Interface.EtLtSteps

/-!
# The two workflows do the same

When only the outside can go on, `lt` and `et` have received the same bytes and closed the same
connections. The listening socket is edge-triggered with one `accept` for each event, and there
connections are forgotten.
-/

set_option autoImplicit false

namespace ServerListings.Analysis.EtLt

open Lib.CMem Lib.Readiness Lib.Transition ServerListings.Model ServerListings.Model.EtLt
open ServerListings.Interface.RecvLoop ServerListings.Interface.EtLt

section Runs

variable {s s' : Server} {a : Action} {rest : List (Report Int)} {log : List Happening}
  {w : Workflow} {listenfd : Int}

/-! ## What is printed -/

/-- The strings that are printed for a connection, and the bytes that are received from it. -/
def contentsOf (log : List Happening) (fd : Int) : List (List UInt8) :=
  log.filterMap fun
    | .printed x content => if x = fd then some content else none
    | _ => none

def chunksOf (log : List Happening) (fd : Int) : List (List UInt8) :=
  log.filterMap fun
    | .traffic (.received x chunk) => if x = fd then some chunk else none
    | _ => none

def Printed (log : List Happening) : Prop := ∀ fd, contentsOf log fd = (chunksOf log fd).map cstr

/-- What `printf` shows of a chunk is the string in it. -/
theorem content_eq (chunk : List UInt8) : content chunk = cstr chunk := by
  unfold content
  cases BUFFER_SIZE - chunk.length with
  | zero => rw [List.replicate_zero, List.append_nil]
  | succ n => exact cstr_append_zero chunk _

/-- Texts are printed as they should be in a longer log. -/
theorem printed_append {log es : List Happening} (h : Printed log) (hes : Printed es) :
    Printed (log ++ es) := by
  intro fd
  unfold contentsOf chunksOf
  rw [List.filterMap_append, List.filterMap_append, List.map_append]
  exact congrArg₂ (· ++ ·) (h fd) (hes fd)

/-- A chunk is printed up to its first NUL. -/
theorem printed_got (fd : Int) (chunk : List UInt8) : Printed (got fd chunk ()) := by
  intro x
  by_cases hx : fd = x <;> simp [contentsOf, chunksOf, got, hx, content_eq]

/-- Both workflows print what they receive. -/
theorem printed_recv (w : Workflow) (fd : Int) (T : Table Int) (results : List Recv) :
    Printed (w.recv fd T results).2 := by
  cases w with
  | et =>
    exact recvLoop_log (fun _ => rfl) _ (fun chunk _ _ _ h => printed_append (printed_got fd chunk) h) T
  | lt =>
    cases results with
    | nil => exact fun _ => rfl
    | cons r rs =>
      cases r with
      | data chunk => exact printed_got fd chunk
      | _ => exact fun _ => rfl

/-- A step prints what it receives. -/
theorem printed_happens (s : Server) (a : Action) : Printed (s.happens a) := by
  cases a with
  | handle accepted results =>
    cases hb : s.batch with
    | nil =>
      simp only [Server.happens, Server.perform, hb]
      exact fun _ => rfl
    | cons d rest =>
      simp only [Server.happens, Server.perform, hb, Server.serve]
      split
      · cases accepted <;> exact fun _ => rfl
      · split
        · exact printed_recv s.workflow d.fd s.table results
        · exact fun _ => rfl
  | _ => exact fun _ => rfl

/-- In every run each chunk is printed up to its first NUL. -/
theorem logged_printed {cond : Server → Action → Prop}
    (h : Logged Step cond Server.happens (start w listenfd) log s) : Printed log :=
  h.invariant (I := fun log _ => Printed log) (fun _ => rfl)
    fun _ s a _ hp _ _ => printed_append hp (printed_happens s a)

/-! ## When nothing is left to do -/

/-- The action is one of the clients or of the network. -/
def FromOutside (_ : Server) : Action → Prop
  | .wait batch => ∃ d ∈ batch, d.readable = false
  | .handle _ _ => False
  | _ => True

/-- Everything that arrived was received, and the connections are closed that their clients have
closed. What was printed are the bytes that were received. -/
structure Settled (log : List Happening) (s : Server) : Prop where
  printed : ∀ fd, contentsOf log fd = (chunksOf log fd).map cstr
  received : ∀ fd k, .opened fd k ∈ trafficOf log →
    (ledger (trafficOf log) fd).received = (ledger (trafficOf log) fd).arrived
  closed : ∀ fd k, .opened fd k ∈ trafficOf log →
    (s.table.Open fd ↔ (ledger (trafficOf log) fd).ended = false)

/-- The next report can be handled. -/
theorem exists_handle (hne : s.batch ≠ []) : ∃ results, s.Enabled (.handle none results) := by
  obtain ⟨d, rest, hb⟩ := List.exists_cons_of_ne_nil hne
  refine ⟨[.failed], d, by rw [hb]; rfl, nofun, fun _ _ => ?_⟩
  cases s.workflow with
  | lt => exact ⟨rfl, fun r hr => by rw [List.mem_singleton.mp hr]; trivial⟩
  | et => exact ⟨trivial, rfl⟩

/-- When only the outside can go on, everything was received. -/
theorem settled_of_stuck (h : Logged Step Careful Server.happens (start w listenfd) log s)
    (hstuck : ∀ a, s.Enabled a → FromOutside s a) (hrunning : s.running = true) : Settled log s := by
  have hkept := logged_kept h
  have hwatched := hkept.watching
  have hempty : s.batch = [] := by
    by_contra hne
    obtain ⟨results, henabled⟩ := exists_handle hne
    exact hstuck _ henabled
  have hquiet : ∀ fd k, s.table.streams fd = some k → k.inbox = [] ∧ k.closed = false := by
    intro fd k hk
    refine Stream.readable_eq_false.mp (Bool.eq_false_of_not_eq_true fun hread => ?_)
    obtain ⟨e, he⟩ := hwatched.edge.registered.exists_entry hk
    have hready : e.ready = true := by
      refine (hwatched.edge.noticed fd k e hk he hread).resolve_right ?_
      rintro ⟨-, hdue⟩
      rw [Due, hempty] at hdue
      cases hdue
    have henabled : s.Enabled (.wait [⟨fd, true⟩]) := by
      refine ⟨hrunning, hempty, List.cons_ne_nil _ _, (show 1 ≤ 1024 by omega), List.nodup_singleton _, fun d hd => ?_⟩
      obtain rfl := List.mem_singleton.mp hd
      exact .inr ⟨e, he, k, hk, hread.symm, fun _ => hready⟩
    obtain ⟨d, hd, hout⟩ := hstuck _ henabled
    obtain rfl := List.mem_singleton.mp hd
    cases hout
  have hopened : ∀ fd k, .opened fd k ∈ trafficOf log →
      (ledger (trafficOf log) fd).received = (ledger (trafficOf log) fd).arrived ∧
        (s.table.Open fd ↔ (ledger (trafficOf log) fd).ended = false) := by
    intro fd k hmem
    cases hk : s.table.streams fd with
    | none =>
      obtain ⟨hreceived, hended⟩ := hkept.complete fd k hmem hk
      refine ⟨hreceived, iff_of_false ?_ (by simp [hended])⟩
      rintro ⟨k', hk'⟩
      rw [hk] at hk'
      cases hk'
    | some k' =>
      obtain ⟨-, harrived, hended⟩ := hkept.tracked fd k' hk
      obtain ⟨hinbox, hclosed⟩ := hquiet fd k' hk
      rw [hinbox, List.append_nil] at harrived
      exact ⟨harrived.symm, iff_of_true ⟨k', hk⟩ (hended.trans hclosed)⟩
  exact ⟨logged_printed h, fun fd k hmem => (hopened fd k hmem).1, fun fd k hmem => (hopened fd k hmem).2⟩

/-- The descriptor is of a client that does the same in both runs: it sends the same bytes, in
whatever parts, and closes its side in both or in neither. -/
structure SameClient (log log' : List Happening) (fd : Int) : Prop where
  opened : ∃ k, .opened fd k ∈ trafficOf log
  opened' : ∃ k, .opened fd k ∈ trafficOf log'
  arrived : (ledger (trafficOf log) fd).arrived = (ledger (trafficOf log') fd).arrived
  ended : (ledger (trafficOf log) fd).ended = (ledger (trafficOf log') fd).ended

/-- When only the outside can go on, `lt` and `et` have received everything that was sent on the
last accepted connection of each descriptor, and for clients that do the same they have received the
same and closed the same connections. Connections that were not accepted are left out. -/
theorem lt_et_agree {log' : List Happening}
    (h : Logged Step Careful Server.happens (start .lt listenfd) log s)
    (hstuck : ∀ a, s.Enabled a → FromOutside s a) (hrunning : s.running = true)
    (h' : Logged Step Careful Server.happens (start .et listenfd) log' s')
    (hstuck' : ∀ a, s'.Enabled a → FromOutside s' a) (hrunning' : s'.running = true) :
    Settled log s ∧ Settled log' s' ∧ ∀ fd, SameClient log log' fd →
      (ledger (trafficOf log) fd).received = (ledger (trafficOf log') fd).received ∧
        (s.table.Open fd ↔ s'.table.Open fd) := by
  have hsettled := settled_of_stuck h hstuck hrunning
  have hsettled' := settled_of_stuck h' hstuck' hrunning'
  refine ⟨hsettled, hsettled', fun fd hsame => ?_⟩
  obtain ⟨k, hk⟩ := hsame.opened
  obtain ⟨k', hk'⟩ := hsame.opened'
  constructor
  · rw [hsettled.received fd k hk, hsettled'.received fd k' hk', hsame.arrived]
  · rw [hsettled.closed fd k hk, hsettled'.closed fd k' hk', hsame.ended]

/-! ## A client that sends twelve bytes -/

instance (s : Server) (a : Action) : Decidable (Careful s a) :=
  match a with
  | .handle _ results => inferInstanceAs (Decidable (fails results = false))
  | .connect | .arrive _ _ | .shutdown _ | .wait _ | .fail => .isTrue trivial

/-- The step function of the server. -/
def follow : Server → Action → Option Server := attempt Server.Enabled fun s a => (s.perform a).1

/-- What the step function does is a step. -/
theorem step_of_follow (h : follow s a = some s') : Step s a s' := attempt_eq_some h

def nine : List UInt8 := List.replicate 9 97

/-- The connection is accepted, and a report comes when the bytes are there. -/
def twelveBytes : List Action :=
  [.connect, .wait [⟨3, true⟩], .handle (some (5, ⟨[], false⟩)) [], .arrive 5 (nine ++ [98, 98, 98]),
    .wait [⟨5, true⟩]]

def byLt : List Action :=
  twelveBytes ++ [.handle none [.data nine], .wait [⟨5, true⟩], .handle none [.data [98, 98, 98]]]

def byEt : List Action := twelveBytes ++ [.handle none [.data nine, .data [98, 98, 98], .again]]

def openedFd : Traffic Int → Option Int
  | .opened fd _ => some fd
  | _ => none

/-- What is tested of a run to know that only the outside can go on. -/
def quiet (r : List Happening × Server) : Bool :=
  decide (r.2.running = true ∧ r.2.batch = [] ∧ r.2.listenReady = false ∧
    (trafficOf r.1).filterMap openedFd = [5] ∧ ∀ k ∈ r.2.table.streams 5, k.readable = false)

/-- In a quiet state only the outside can go on. -/
theorem fromOutside_of_quiet (h : Logged Step Careful Server.happens (start w listenfd) log s)
    (hquiet : quiet (log, s) = true) (ha : s.Enabled a) : FromOutside s a := by
  obtain ⟨-, hempty, hlisten, hopened, hread⟩ := of_decide_eq_true hquiet
  cases a with
  | handle accepted results =>
    obtain ⟨d, hd, -⟩ := ha
    rw [hempty] at hd
    cases hd
  | wait batch =>
    obtain ⟨-, -, hne, -, -, hrep⟩ := ha
    obtain ⟨d, hd⟩ := List.exists_mem_of_ne_nil _ hne
    refine ⟨d, hd, ?_⟩
    rcases hrep d hd with ⟨-, -, hready, -⟩ | ⟨e, -, k, hk, heq, -⟩
    · rw [hlisten] at hready
      cases hready
    · obtain ⟨k', hmem⟩ := ((logged_kept h).tracked d.fd k hk).opened
      have hfd : d.fd ∈ (trafficOf log).filterMap openedFd := List.mem_filterMap.mpr ⟨_, hmem, rfl⟩
      rw [hopened] at hfd
      rw [heq]
      exact hread k (List.mem_singleton.mp hfd ▸ hk)
  | _ => trivial

/-- Twelve bytes, which come in different parts in the two runs. -/
theorem lt_et_agree_twelveBytes : ∃ log log' s s',
    (ledger (trafficOf log) 5).arrived = nine ++ [98, 98, 98] ∧ SameClient log log' 5 ∧
      Settled log s ∧ Settled log' s' ∧
      (ledger (trafficOf log) 5).received = (ledger (trafficOf log') 5).received ∧
        (s.table.Open 5 ↔ s'.table.Open 5) := by
  have hlt : (loggedSchedule follow Careful Server.happens (start .lt 3) byLt).any (fun r =>
      quiet r && decide (ledger (trafficOf r.1) 5 =
        ⟨nine ++ [98, 98, 98], nine ++ [98, 98, 98], false⟩)) = true := by
    decide +kernel
  have het : (loggedSchedule follow Careful Server.happens (start .et 3) byEt).any (fun r =>
      quiet r && decide (ledger (trafficOf r.1) 5 =
        ⟨nine ++ [98, 98, 98], nine ++ [98, 98, 98], false⟩)) = true := by
    decide +kernel
  obtain ⟨log, s, h, htest⟩ := exists_logged (fun _ _ _ => step_of_follow) hlt
  obtain ⟨log', s', h', htest'⟩ := exists_logged (fun _ _ _ => step_of_follow) het
  obtain ⟨hquiet, hledger⟩ := Bool.and_eq_true_iff.mp htest
  obtain ⟨hquiet', hledger'⟩ := Bool.and_eq_true_iff.mp htest'
  replace hledger := of_decide_eq_true hledger
  replace hledger' := of_decide_eq_true hledger'
  have hopened : ∀ (log : List Happening) (s : Server), quiet (log, s) = true →
      ∃ k, .opened 5 k ∈ trafficOf log := by
    intro log s hq
    have hmem : (5 : Int) ∈ (trafficOf log).filterMap openedFd := by
      rw [(of_decide_eq_true hq).2.2.2.1]
      exact List.mem_cons_self
    obtain ⟨e, he, heq⟩ := List.mem_filterMap.mp hmem
    cases e with
    | opened fd k =>
      obtain rfl := Option.some.inj heq
      exact ⟨k, he⟩
    | _ => cases heq
  have hsame : SameClient log log' 5 :=
    ⟨hopened log s hquiet, hopened log' s' hquiet', by rw [hledger, hledger'], by rw [hledger, hledger']⟩
  obtain ⟨hs, hs', hagree⟩ := lt_et_agree h (fun _ => fromOutside_of_quiet h hquiet)
    (of_decide_eq_true hquiet).1 h' (fun _ => fromOutside_of_quiet h' hquiet')
    (of_decide_eq_true hquiet').1
  exact ⟨log, log', s, s', by rw [hledger], hsame, hs, hs', hagree 5 hsame⟩

/-! ## Connections that are not accepted -/

/-- Of the connections that wait for `accept`, `base` are more than those that are going to be
accepted for the reports of the listening socket. -/
def Waiting (base : Nat) (s : Server) : Prop :=
  Behind base s.backlog s.listenReady (s.batch.map Report.fd) s.listenfd

/-- One client is accepted for an event, and no more wait than before. -/
theorem Waiting.accept {base : Nat}
    (h : Behind base s.backlog s.listenReady (s.listenfd :: rest.map Report.fd) s.listenfd)
    (accepted : Option (Int × Stream)) : Waiting base ({ s with batch := rest }.accept accepted).1 := by
  cases accepted with
  | none => exact h.serve (Nat.le_succ _)
  | some y => exact h.serve (show s.backlog ≤ s.backlog - 1 + 1 by omega)

/-- Every step leaves as many clients waiting. -/
theorem Waiting.step {base : Nat} (h : Waiting base s) (hwatching : Watching s) (hs : Step s a s') :
    Waiting base s' := by
  obtain ⟨henabled, rfl⟩ := hs
  cases a with
  | connect => exact h.put
  | arrive fd data => exact h
  | shutdown fd => exact h
  | fail => exact h
  | wait batch =>
    obtain ⟨-, hempty, -, -, hnodup, hrep⟩ := henabled
    rw [Waiting, hempty] at h
    refine h.report hnodup fun hmem => ?_
    obtain ⟨d, hd, hl⟩ := List.mem_map.mp hmem
    rcases hrep d hd with ⟨-, -, hready, -⟩ | ⟨e, -, k, hk, -⟩
    · exact hready
    · exact absurd ⟨k, hk⟩ (Watched.apart hwatching d.fd hl)
  | handle accepted results =>
    obtain ⟨d, rest, hb⟩ := exists_next henabled
    rw [Waiting, hb, List.map_cons] at h
    simp only [Server.perform, hb]
    have hhandles := handles hb henabled
    generalize ({ s with batch := rest } : Server).serve d accepted results = after at hhandles ⊢
    cases hhandles with
    | listening hl =>
      rw [hl] at h
      exact Waiting.accept h accepted
    | connection hne hread hfits => exact h.other hne.symm
    | nothing hne hin => exact h.other hne.symm

/-- In every run no connection is forgotten that can be read. -/
theorem run_watching {cond : Server → Action → Prop} (h : Run Step cond (start w listenfd) s) :
    Watching s :=
  h.invariant watching_start fun _ _ _ hw hs _ => hw.step hs

/-- The connections that wait for `accept` while no event of the listening socket is left are never
made up for: from then on there are always as many that wait. -/
theorem run_backlog {cond : Server → Action → Prop} (h : Run Step cond (start w listenfd) s)
    (hready : s.listenReady = false) (hbatch : s.listenfd ∉ s.batch.map Report.fd)
    (h' : Run Step cond s s') : s.backlog ≤ s'.backlog := by
  suffices hboth : Watching s' ∧ Waiting s.backlog s' from hboth.2.le
  apply h'.invariant (I := fun s' => Watching s' ∧ Waiting s.backlog s')
  · refine ⟨run_watching h, ?_⟩
    rw [Waiting, hready]
    exact behind_quiet hbatch
  · exact fun s a s' hboth hs _ => ⟨hboth.1.step hs, hboth.2.step hboth.1 hs⟩

/-- Two clients connect before the first event is reported. -/
def twoConnect : List Action := [.connect, .connect, .wait [⟨3, true⟩], .handle (some (5, ⟨[], false⟩)) []]

/-- Another one connects, and there is another event. -/
def oneMore : List Action := [.connect, .wait [⟨3, true⟩], .handle (some (6, ⟨[], false⟩)) []]

/-- Two clients connect at once, and one of them waits. -/
theorem run_backlog_twoConnect : ∃ s s' : Server, s.batch = [] ∧ s.listenReady = false ∧ s.backlog = 1 ∧
    s'.table.Open 6 ∧ s.backlog ≤ s'.backlog := by
  have hrun : (loggedSchedule follow Careful Server.happens (start .lt 3) twoConnect).any (fun r =>
      decide (r.2.batch = [] ∧ r.2.listenReady = false ∧ r.2.backlog = 1) &&
        (loggedSchedule follow Careful Server.happens r.2 oneMore).any fun r =>
          (r.2.table.streams 6).isSome) = true := by
    decide +kernel
  obtain ⟨log, s, h, htest⟩ := exists_logged (fun _ _ _ => step_of_follow) hrun
  obtain ⟨htest, hmore⟩ := Bool.and_eq_true_iff.mp htest
  obtain ⟨hempty, hready, hone⟩ := of_decide_eq_true htest
  obtain ⟨log', s', h', hopen⟩ := exists_logged (fun _ _ _ => step_of_follow) hmore
  refine ⟨s, s', hempty, hready, hone, Option.isSome_iff_exists.mp hopen, ?_⟩
  exact run_backlog h.run hready (by rw [hempty]; exact List.not_mem_nil) h'.run

end Runs

end ServerListings.Analysis.EtLt
