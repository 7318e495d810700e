import ServerListings.Interface.EchoSteps

/-!
# What the echo server sends back

When only the outside can go on, a TCP client has got back what it has sent, if `send` takes the
bytes. A UDP message is answered with a whole buffer, and in the order in which the messages came.
The listening socket and the UDP socket are served once for each event, and there connections and
messages are left behind.
-/

set_option autoImplicit false

namespace ServerListings.Analysis.EchoServer

open Lib.Readiness Lib.Transition ServerListings.Model ServerListings.Model.EchoServer
open ServerListings.Interface.RecvLoop ServerListings.Interface.Echo

section Runs

variable {s s' : Server} {a : Action} {d : Report Int} {rest : List (Report Int)}
  {log es : List Happening} {input : Input} {listenfd udpfd : Int}

/-! ## Two clients -/

/-- The test whether a chunk that was received has been sent back whole. -/
def decidableWhole : (p : Recv × Nat) → Decidable (∀ chunk, p.1 = .data chunk → chunk.length ≤ p.2)
  | (.data chunk, n) =>
    decidable_of_iff (chunk.length ≤ n) ⟨fun h _ hc => Recv.data.inj hc ▸ h, fun h => h chunk rfl⟩
  | (.again, _) | (.ended, _) | (.failed, _) => .isTrue (by simp)

instance (s : Server) (a : Action) : Decidable (Careful s a) :=
  match a with
  | .handle input =>
    have := decidableWhole
    inferInstanceAs (Decidable (fails (input.results.map Prod.fst) = false ∧
      ∀ p ∈ input.results, ∀ chunk, p.1 = .data chunk → chunk.length ≤ p.2))
  | .connect | .arrive _ _ | .shutdown _ | .message _ | .wait _ | .fail => .isTrue trivial

/-- The step function of the server. -/
def follow : Server → Action → Option Server := attempt Server.Enabled fun s a => (s.perform a).1

/-- What the step function does is a step. -/
theorem step_of_follow (h : follow s a = some s') : Step s a s' := attempt_eq_some h

/-- A client sends two bytes with TCP, and another one sends a byte and an empty message with UDP. -/
def greeting : List Action :=
  [.connect, .wait [⟨3, true⟩], .handle ⟨some (5, ⟨[], false⟩), true, []⟩, .arrive 5 [104, 105],
    .message ⟨1, [104]⟩, .message ⟨1, []⟩, .wait [⟨5, true⟩, ⟨4, true⟩],
    .handle ⟨none, true, [(.data [104, 105], 2), (.again, 0)]⟩, .handle ⟨none, true, []⟩]

/-- Another message comes. -/
def oneMessage : List Action := [.message ⟨2, [98]⟩, .wait [⟨4, true⟩], .handle ⟨none, true, []⟩]

/-! ## TCP -/

/-- The bytes that are sent to a connection. -/
def echo (fd : Int) (bs : List UInt8) : Happening → List UInt8
  | .traffic (.opened x _) => if x = fd then [] else bs
  | .echoed x data => if x = fd then bs ++ data else bs
  | _ => bs

def echoedTo (log : List Happening) (fd : Int) : List UInt8 := log.foldl (echo fd) []

/-- A part of a log that sends back what it receives. -/
def Echoes (es : List Happening) : Prop :=
  ∀ fd (l : Ledger), es.foldl (echo fd) l.received = ((trafficOf es).foldl (Ledger.note fd) l).received

/-- Nothing was received and nothing was sent. -/
theorem echoes_nil : Echoes [] := fun _ _ => rfl

/-- What is echoed in two parts is echoed as a whole. -/
theorem Echoes.append (h : Echoes log) (hes : Echoes es) : Echoes (log ++ es) := by
  intro fd l
  rw [List.foldl_append, h fd l, trafficOf_append, List.foldl_append, hes fd]

/-- A chunk is sent back as a whole when `send` takes all bytes. -/
theorem echoes_got {fd : Int} {chunk : List UInt8} {n : Nat} (hn : chunk.length ≤ n) :
    Echoes (got fd chunk n) := by
  intro x l
  have htraffic : trafficOf (got fd chunk n) = [.received fd chunk] := rfl
  rw [htraffic, got, List.take_of_length_le hn]
  by_cases hx : fd = x <;> simp [echo, Ledger.note, hx]

/-- A careful step sends back what it receives. -/
theorem echoes_happens (ha : s.Enabled a) (hcareful : Careful s a) : Echoes (s.happens a) := by
  cases a with
  | connect => exact echoes_nil
  | message g => exact fun _ _ => rfl
  | fail => exact echoes_nil
  | wait batch => exact echoes_nil
  | arrive fd data =>
    intro x l
    by_cases hx : fd = x <;> simp [Server.happens, Server.perform, echo, trafficOf, traffic, Ledger.note, hx]
  | shutdown fd =>
    intro x l
    by_cases hx : fd = x <;> simp [Server.happens, Server.perform, echo, trafficOf, traffic, Ledger.note, hx]
  | handle input =>
    obtain ⟨d, rest, hb⟩ := exists_next ha
    simp only [Server.happens, Server.perform, hb]
    have hhandles := handles hb ha
    generalize ({ s with batch := rest } : Server).serve d input = after at hhandles ⊢
    cases hhandles with
    | listening hl =>
      cases input.accepted with
      | none => exact echoes_nil
      | some y =>
        intro x l
        by_cases hx : y.1 = x <;> simp [Server.accept, echo, trafficOf, traffic, Ledger.note, hx]
    | udp hl hu =>
      unfold Server.udp
      dsimp only
      cases s.datagrams with
      | nil => exact echoes_nil
      | cons g gs =>
        dsimp only
        split <;> exact fun _ _ => rfl
    | connection hne hread hdrains =>
      refine recvLoop_log echoes_nil _ (fun chunk n es hmem hes => Echoes.append ?_ hes) _
      exact echoes_got (hcareful.2 _ hmem chunk rfl)
    | nothing _ hd => exact echoes_nil

/-- What holds in every careful run. -/
structure Kept (log : List Happening) (s : Server) : Prop where
  watching : Watching s
  tracked : Tracked (trafficOf log) s.table
  complete : Complete (trafficOf log) s.table
  echoes : Echoes log

/-- It holds in every careful run. -/
theorem logged_kept (h : Logged Step Careful Server.happens (start listenfd udpfd) log s) :
    Kept log s := by
  apply h.invariant (I := Kept)
  · exact ⟨watching_start, tracked_empty, complete_nil, echoes_nil⟩
  · intro log s a s' hkept hs hcareful
    exact ⟨hkept.watching.step hs, tracked_step hkept.tracked hs,
      complete_step hkept.complete hkept.tracked hs hcareful,
      hkept.echoes.append (echoes_happens hs.1 hcareful)⟩

/-- The action is one of the clients or of the network. -/
def FromOutside (_ : Server) : Action → Prop
  | .wait batch => ∃ d ∈ batch, d.readable = false
  | .handle _ => False
  | _ => True

/-- The connection has got back everything that was sent on it, and is closed if its client has
closed it. -/
structure Echoed (log : List Happening) (s : Server) (fd : Int) : Prop where
  echoed : echoedTo log fd = (ledger (trafficOf log) fd).arrived
  closed : s.table.Open fd ↔ (ledger (trafficOf log) fd).ended = false

/-- The next event can be handled. -/
theorem exists_handle (hne : s.batch ≠ []) : ∃ input, s.Enabled (.handle input) := by
  obtain ⟨d, rest, hb⟩ := List.exists_cons_of_ne_nil hne
  exact ⟨⟨none, true, [(.failed, 0)]⟩, d, by rw [hb]; rfl, nofun, fun _ _ _ => ⟨trivial, rfl⟩⟩

/-- When only the outside can go on, the last accepted connection of a descriptor has got back what
was sent on it, and is closed exactly if its client has closed it. -/
theorem run_echoed (h : Logged Step Careful Server.happens (start listenfd udpfd) log s)
    (hstuck : ∀ a, s.Enabled a → FromOutside s a) (hrunning : s.running = true) (fd : Int) (k : Stream)
    (hopened : .opened fd k ∈ trafficOf log) : Echoed log s fd := by
  have hkept := logged_kept h
  have hwatching := hkept.watching
  have hempty : s.batch = [] := by
    by_contra hne
    obtain ⟨input, henabled⟩ := exists_handle hne
    exact hstuck _ henabled
  have hquiet : ∀ k, s.table.streams fd = some k → k.inbox = [] ∧ k.closed = false := by
    intro k hk
    refine Stream.readable_eq_false.mp (Bool.eq_false_of_not_eq_true fun hread => ?_)
    obtain ⟨e, he⟩ := hwatching.edge.registered.exists_entry hk
    have hready : e.ready = true := by
      refine (hwatching.edge.noticed fd k e hk he hread).resolve_right fun hdue => ?_
      rw [Due, hempty] at hdue
      cases hdue
    have henabled : s.Enabled (.wait [⟨fd, true⟩]) := by
      refine ⟨hrunning, hempty, nofun, (show 1 ≤ 1024 by omega), List.nodup_singleton _, fun d hd => ?_⟩
      obtain rfl := List.mem_singleton.mp hd
      exact .inr (.inr ⟨e, he, k, hk, hread.symm, fun _ => hready⟩)
    obtain ⟨d, hd, hout⟩ := hstuck _ henabled
    obtain rfl := List.mem_singleton.mp hd
    cases hout
  have hechoed : echoedTo log fd = (ledger (trafficOf log) fd).received :=
    hkept.echoes fd ⟨[], [], false⟩
  cases hk : s.table.streams fd with
  | none =>
    obtain ⟨hreceived, hended⟩ := hkept.complete fd k hopened hk
    refine ⟨hechoed.trans hreceived, iff_of_false ?_ (by rw [hended]; nofun)⟩
    rintro ⟨k', hk'⟩
    rw [hk] at hk'
    cases hk'
  | some k' =>
    obtain ⟨-, harrived, hended⟩ := hkept.tracked fd k' hk
    obtain ⟨hinbox, hclosed⟩ := hquiet k' hk
    rw [hinbox, List.append_nil] at harrived
    exact ⟨hechoed.trans harrived.symm, iff_of_true ⟨k', hk⟩ (hended.trans hclosed)⟩

def openedFd : Traffic Int → Option Int
  | .opened fd _ => some fd
  | _ => none

/-- A run in which only the outside can go on. -/
theorem fromOutside_of_idle (h : Logged Step Careful Server.happens (start listenfd udpfd) log s)
    (hbatch : s.batch = []) (hlisten : s.listenReady = false) (hudp : s.udpReady = false) {fd : Int}
    (hopened : (trafficOf log).filterMap openedFd = [fd])
    (hread : ∀ k ∈ s.table.streams fd, k.readable = false) (ha : s.Enabled a) : FromOutside s a := by
  cases a with
  | handle input =>
    obtain ⟨d, hd, -⟩ := ha
    rw [hbatch] at hd
    cases hd
  | wait batch =>
    obtain ⟨-, -, hne, -, -, hrep⟩ := ha
    obtain ⟨d, hd⟩ := List.exists_mem_of_ne_nil _ hne
    refine ⟨d, hd, ?_⟩
    rcases hrep d hd with ⟨-, -, hready, -⟩ | ⟨-, -, hready, -⟩ | ⟨e, -, k, hk, heq, -⟩
    · rw [hlisten] at hready
      cases hready
    · rw [hudp] at hready
      cases hready
    · obtain ⟨k', hmem⟩ := ((logged_kept h).tracked d.fd k hk).opened
      have hfd : d.fd ∈ (trafficOf log).filterMap openedFd := List.mem_filterMap.mpr ⟨_, hmem, rfl⟩
      rw [hopened] at hfd
      rw [heq]
      exact hread k (List.mem_singleton.mp hfd ▸ hk)
  | _ => trivial

/-- Two bytes are sent back. -/
theorem run_echoed_greeting : ∃ log s, (ledger (trafficOf log) 5).arrived = [104, 105] ∧ Echoed log s 5 := by
  have hrun : (loggedSchedule follow Careful Server.happens (start 3 4) greeting).any (fun r =>
      decide ((ledger (trafficOf r.1) 5).arrived = [104, 105] ∧ r.2.running = true ∧ r.2.batch = [] ∧
        r.2.listenReady = false ∧ r.2.udpReady = false ∧ .opened 5 ⟨[], false⟩ ∈ trafficOf r.1 ∧
        (trafficOf r.1).filterMap openedFd = [5] ∧
        ∀ k ∈ r.2.table.streams 5, k.readable = false)) = true := by
    decide +kernel
  obtain ⟨log, s, h, htest⟩ := exists_logged (fun _ _ _ => step_of_follow) hrun
  obtain ⟨harrived, hrunning, hbatch, hlisten, hudp, hmem, hopened, hread⟩ := of_decide_eq_true htest
  exact ⟨log, s, harrived, run_echoed h
    (fun _ => fromOutside_of_idle h hbatch hlisten hudp hopened hread) hrunning 5 _ hmem⟩

/-! ## UDP -/

/-- The messages that came, and the replies. -/
def messagesOf (log : List Happening) : List Datagram :=
  log.filterMap fun
    | .datagram g => some g
    | _ => none

def repliesOf (log : List Happening) : List Datagram :=
  log.filterMap fun
    | .replied g => some g
    | _ => none

/-- The messages that were read, `handled`, are the first ones, and those of them with any bytes
were answered. -/
def Answered (log : List Happening) (s : Server) (handled : List Datagram) : Prop :=
  messagesOf log = handled ++ s.datagrams ∧
    repliesOf log = (handled.filter fun g => g.data.length > 0).map reply

/-- Nothing of UDP happens. -/
theorem Answered.same {handled : List Datagram} (h : Answered log s handled)
    (hes : messagesOf es = [] ∧ repliesOf es = []) (hs : s'.datagrams = s.datagrams) :
    Answered (log ++ es) s' handled := by
  obtain ⟨hmessages, hreplies⟩ := h
  unfold Answered messagesOf repliesOf at *
  rw [List.filterMap_append, List.filterMap_append, hes.1, hes.2, List.append_nil, List.append_nil, hs]
  exact ⟨hmessages, hreplies⟩

/-- One message is read and answered. -/
theorem Answered.udp {handled : List Datagram} (h : Answered log s handled) :
    ∃ handled', Answered (log ++ s.udp.2) s.udp.1 handled' := by
  cases hg : s.datagrams with
  | nil =>
    refine ⟨handled, ?_⟩
    have hudp : s.udp = (s, []) := by rw [Server.udp, hg]
    rw [hudp]
    exact h.same ⟨rfl, rfl⟩ rfl
  | cons g gs =>
    refine ⟨handled ++ [g], ?_, ?_⟩
    · have hnone : messagesOf s.udp.2 = [] := by
        rw [Server.udp, hg]
        dsimp only
        split <;> rfl
      rw [messagesOf, List.filterMap_append, ← messagesOf, ← messagesOf, hnone, List.append_nil, h.1,
        udp_fields, hg, List.append_assoc]
      rfl
    · have hreply : repliesOf s.udp.2 = ([g].filter fun g => g.data.length > 0).map reply := by
        rw [Server.udp, hg]
        dsimp only
        by_cases hlen : g.data.length > 0
        · simp [hlen, repliesOf]
        · simp [hlen, repliesOf]
      rw [repliesOf, List.filterMap_append, ← repliesOf, ← repliesOf, hreply, h.2, List.filter_append,
        List.map_append]

/-- Every step keeps the messages answered in order. -/
theorem Answered.step {handled : List Datagram} (h : Answered log s handled) (hs : Step s a s') :
    ∃ handled', Answered (log ++ s.happens a) s' handled' := by
  obtain ⟨henabled, rfl⟩ := hs
  cases a with
  | message g =>
    refine ⟨handled, ?_, ?_⟩
    · rw [messagesOf, List.filterMap_append, ← messagesOf, h.1, List.append_assoc]
      rfl
    · rw [repliesOf, List.filterMap_append, ← repliesOf, h.2]
      exact List.append_nil _
  | handle input =>
    obtain ⟨d, rest, hb⟩ := exists_next henabled
    simp only [Server.happens, Server.perform, hb]
    have hhandles := handles hb henabled
    generalize ({ s with batch := rest } : Server).serve d input = after at hhandles ⊢
    cases hhandles with
    | listening hl =>
      cases input.accepted with
      | none => exact ⟨handled, h.same ⟨rfl, rfl⟩ rfl⟩
      | some y => exact ⟨handled, h.same ⟨rfl, rfl⟩ rfl⟩
    | udp hl hu => exact Answered.udp (s := { s with batch := rest }) h
    | connection hne hread hdrains =>
      refine ⟨handled, h.same ?_ rfl⟩
      have hnone : ∀ es : List Happening, messagesOf es = [] ∧ repliesOf es = [] →
          ∀ chunk n, messagesOf (got d.fd chunk n ++ es) = [] ∧ repliesOf (got d.fd chunk n ++ es) = [] :=
        fun es hes chunk n => hes
      exact recvLoop_log (P := fun es => messagesOf es = [] ∧ repliesOf es = []) ⟨rfl, rfl⟩ _
        (fun chunk n es _ hes => hnone es hes chunk n) _
    | nothing _ hd => exact ⟨handled, h.same ⟨rfl, rfl⟩ rfl⟩
  | _ => exact ⟨handled, h.same ⟨rfl, rfl⟩ rfl⟩

/-- An answer has always the same length. -/
theorem length_reply (g : Datagram) : (reply g).data.length = UDP_BUFFER_SIZE - 1 := by
  simp only [reply, List.length_append, List.length_replicate, List.length_take]
  omega

/-- In every run, the UDP messages are read in the order in which they came, and a message with any
bytes is answered with a whole buffer. -/
theorem run_replies {cond : Server → Action → Prop}
    (h : Logged Step cond Server.happens (start listenfd udpfd) log s) :
    (∃ handled, Answered log s handled) ∧ ∀ g ∈ repliesOf log, g.data.length = UDP_BUFFER_SIZE - 1 := by
  have hanswered : ∃ handled, Answered log s handled := by
    apply h.invariant (I := fun log s => ∃ handled, Answered log s handled)
    · exact ⟨[], rfl, rfl⟩
    · rintro log s a s' ⟨handled, hans⟩ hs _
      exact hans.step hs
  refine ⟨hanswered, fun g hg => ?_⟩
  obtain ⟨handled, -, hreplies⟩ := hanswered
  rw [hreplies] at hg
  obtain ⟨g', -, rfl⟩ := List.mem_map.mp hg
  exact length_reply g'

/-- Of two messages one is empty and gets no answer. -/
theorem run_replies_greeting : ∃ log s, (messagesOf log).length = 2 ∧ (repliesOf log).length = 1 ∧
    (∃ handled, Answered log s handled) ∧
      ∀ g ∈ repliesOf log, g.data.length = UDP_BUFFER_SIZE - 1 := by
  have hrun : (loggedSchedule follow Careful Server.happens (start 3 4) greeting).any (fun r =>
      decide ((messagesOf r.1).length = 2 ∧ (repliesOf r.1).length = 1)) = true := by
    decide +kernel
  obtain ⟨log, s, h, htest⟩ := exists_logged (fun _ _ _ => step_of_follow) hrun
  obtain ⟨hmessages, hreplies⟩ := of_decide_eq_true htest
  exact ⟨log, s, hmessages, hreplies, run_replies h⟩

/-! ## What is left behind -/

/-- Of the connections and of the messages that wait, `base` and `base'` are more than the events
that are still to come for them. -/
structure Left (base base' : Nat) (s : Server) : Prop where
  connections : Behind base s.backlog s.listenReady (s.batch.map Report.fd) s.listenfd
  messages : Behind base' s.datagrams.length s.udpReady (s.batch.map Report.fd) s.udpfd

/-- Every step leaves as many clients and messages waiting. -/
theorem Left.step {base base' : Nat} (h : Left base base' s) (hne : s.listenfd ≠ s.udpfd)
    (hwatching : Watching s) (hs : Step s a s') : Left base base' s' := by
  obtain ⟨henabled, rfl⟩ := hs
  cases a with
  | connect => exact ⟨h.connections.put, h.messages⟩
  | message g =>
    refine ⟨h.connections, ?_⟩
    show Behind base' (s.datagrams ++ [g]).length true (s.batch.map Report.fd) s.udpfd
    rw [List.length_append]
    exact h.messages.put
  | arrive fd data => exact ⟨h.connections, h.messages⟩
  | shutdown fd => exact ⟨h.connections, h.messages⟩
  | fail => exact ⟨h.connections, h.messages⟩
  | wait batch =>
    obtain ⟨-, hempty, -, -, hnodup, hrep⟩ := henabled
    obtain ⟨hconnections, hmessages⟩ := h
    rw [hempty] at hconnections hmessages
    refine ⟨hconnections.report hnodup fun hmem => ?_, hmessages.report hnodup fun hmem => ?_⟩
    · obtain ⟨d, hd, hl⟩ := List.mem_map.mp hmem
      rcases hrep d hd with ⟨-, -, hready, -⟩ | ⟨hu, -⟩ | ⟨e, -, k, hk, -⟩
      · exact hready
      · exact absurd (hl.symm.trans hu) hne
      · exact absurd ⟨k, hk⟩ (Watched.apart hwatching d.fd (.inl hl))
    · obtain ⟨d, hd, hu⟩ := List.mem_map.mp hmem
      rcases hrep d hd with ⟨hl, -⟩ | ⟨-, -, hready, -⟩ | ⟨e, -, k, hk, -⟩
      · exact absurd (hl.symm.trans hu) hne
      · exact hready
      · exact absurd ⟨k, hk⟩ (Watched.apart hwatching d.fd (.inr hu))
  | handle input =>
    obtain ⟨d, rest, hb⟩ := exists_next henabled
    obtain ⟨hconnections, hmessages⟩ := h
    rw [hb, List.map_cons] at hconnections hmessages
    simp only [Server.perform, hb]
    have hhandles := handles hb henabled
    generalize ({ s with batch := rest } : Server).serve d input = after at hhandles ⊢
    cases hhandles with
    | listening hl =>
      rw [hl] at hconnections hmessages
      have hother := hmessages.other hne.symm
      cases input.accepted with
      | none => exact ⟨hconnections.serve (Nat.le_succ _), hother⟩
      | some y => exact ⟨hconnections.serve (show s.backlog ≤ s.backlog - 1 + 1 by omega), hother⟩
    | udp hl hu =>
      rw [hu] at hconnections hmessages
      rw [udp_fields]
      refine ⟨hconnections.other hne, hmessages.serve ?_⟩
      show s.datagrams.length ≤ s.datagrams.tail.length + 1
      rw [List.length_tail]
      omega
    | connection hnot hread hdrains =>
      exact ⟨hconnections.other fun heq => hnot (.inl heq.symm),
        hmessages.other fun heq => hnot (.inr heq.symm)⟩
    | nothing hl hd =>
      refine ⟨hconnections.other (Ne.symm hl), ?_⟩
      by_cases hu : d.fd = s.udpfd
      · rw [hu] at hmessages
        exact hmessages.serve (Nat.le_succ _)
      · exact hmessages.other (Ne.symm hu)

/-- No event of the listening socket or of the UDP socket is left. -/
structure Quiet (s : Server) : Prop where
  listenReady : s.listenReady = false
  udpReady : s.udpReady = false
  batch : s.listenfd ∉ s.batch.map Report.fd ∧ s.udpfd ∉ s.batch.map Report.fd

/-- The connections and the messages that wait while no event of their sockets is left are never
made up for: from then on there are always as many that wait. -/
theorem run_leftBehind {cond : Server → Action → Prop} (hne : listenfd ≠ udpfd)
    (h : Run Step cond (start listenfd udpfd) s) (hquiet : Quiet s) (h' : Run Step cond s s') :
    s.backlog ≤ s'.backlog ∧ s.datagrams.length ≤ s'.datagrams.length := by
  have hfds : s.listenfd = listenfd ∧ s.udpfd = udpfd := by
    apply h.invariant (I := fun s => s.listenfd = listenfd ∧ s.udpfd = udpfd) ⟨rfl, rfl⟩
    intro s a s' hfds hs _
    rw [(step_fds hs).1, (step_fds hs).2]
    exact hfds
  suffices hall : (s'.listenfd ≠ s'.udpfd ∧ Watching s') ∧ Left s.backlog s.datagrams.length s' from
    ⟨hall.2.connections.le, hall.2.messages.le⟩
  apply h'.invariant (I := fun s' =>
    (s'.listenfd ≠ s'.udpfd ∧ Watching s') ∧ Left s.backlog s.datagrams.length s')
  · refine ⟨⟨by rwa [hfds.1, hfds.2], run_watching h⟩, ?_, ?_⟩
    · rw [hquiet.listenReady]
      exact behind_quiet hquiet.batch.1
    · rw [hquiet.udpReady]
      exact behind_quiet hquiet.batch.2
  · rintro s a s' ⟨⟨hne, hwatching⟩, hleft⟩ hs _
    refine ⟨⟨?_, hwatching.step hs⟩, hleft.step hne hwatching hs⟩
    rwa [(step_fds hs).1, (step_fds hs).2]

/-- Two messages come at once, and one of them waits. -/
theorem run_leftBehind_greeting : ∃ s s' : Server, s.datagrams.length = 1 ∧ Quiet s ∧
    s'.datagrams = [⟨2, [98]⟩] ∧ s.backlog ≤ s'.backlog ∧ s.datagrams.length ≤ s'.datagrams.length := by
  have hrun : (loggedSchedule follow Careful Server.happens (start 3 4) greeting).any (fun r =>
      decide (r.2.datagrams.length = 1 ∧ r.2.listenReady = false ∧ r.2.udpReady = false ∧
        r.2.listenfd ∉ r.2.batch.map Report.fd ∧ r.2.udpfd ∉ r.2.batch.map Report.fd) &&
        (loggedSchedule follow Careful Server.happens r.2 oneMessage).any fun r =>
          decide (r.2.datagrams = [⟨2, [98]⟩])) = true := by
    decide +kernel
  obtain ⟨log, s, h, htest⟩ := exists_logged (fun _ _ _ => step_of_follow) hrun
  obtain ⟨htest, hmore⟩ := Bool.and_eq_true_iff.mp htest
  obtain ⟨hone, hlisten, hudp, hbatch⟩ := of_decide_eq_true htest
  obtain ⟨log', s', h', hlast⟩ := exists_logged (fun _ _ _ => step_of_follow) hmore
  have hquiet : Quiet s := ⟨hlisten, hudp, hbatch⟩
  exact ⟨s, s', hone, hquiet, of_decide_eq_true hlast, run_leftBehind (by decide) h.run hquiet h'.run⟩

end Runs

end ServerListings.Analysis.EchoServer
