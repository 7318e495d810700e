import ServerListings.Interface.PressureSteps

/-!
# What the pressure test sends

On each connection requests and responses take turns: a request is sent as a whole before the next
bytes are read, and what the next `recv` returns counts as the response. Only the last request of a
connection that was closed can be cut off. No connection waits for something that is there already.
-/

set_option autoImplicit false

namespace ServerListings.Analysis.PressureTest

open Lib.CMem Lib.Readiness Lib.Transition ServerListings.Model.PressureTest
open ServerListings.Interface.Pressure

section Runs

variable {s s' : Tool} {a : Action} {e : Event} {rest : List Event} {c : Conn} {input : Input}
  {fd x : Int} {rs : List ConnectResult} {log es : List Happening}

/-- The bytes that are sent on a connection. -/
def sentTo (log : List Happening) (fd : Int) : List UInt8 :=
  log.flatMap fun
    | .sent x data => if x = fd then data else []
    | _ => []

/-- What the `recv` calls return for a connection. -/
def chunksOf (log : List Happening) (fd : Int) : List (List UInt8) :=
  log.filterMap fun
    | .received x chunk _ => if x = fd then some chunk else none
    | _ => none

def arrivedFor (log : List Happening) (fd : Int) : List UInt8 :=
  log.flatMap fun
    | .arrived x data => if x = fd then data else []
    | _ => []

/-- The first requests, and a part of another one. -/
def requests (n : Nat) (part : List UInt8) : List UInt8 := (List.replicate n request).flatten ++ part

/-- The requests and the responses of a connection. -/
structure Alternating (log : List Happening) (s : Tool) (fd : Int) (n : Nat) (part : List UInt8) :
    Prop where
  sent : sentTo log fd = requests n part
  cut : part <+: request ∧ part.length < request.length
  turn : (chunksOf log fd).length ≤ n ∧ n ≤ (chunksOf log fd).length + 1
  whole : ∀ c, s.conns fd = some c → part = [] ∧
    n = (chunksOf log fd).length + if c.interest = .epollin then 1 else 0
  received : ∀ c, s.conns fd = some c → arrivedFor log fd = (chunksOf log fd).flatten ++ c.input.inbox

/-- What was sent in a longer log. -/
theorem sentTo_append (log es : List Happening) (fd : Int) :
    sentTo (log ++ es) fd = sentTo log fd ++ sentTo es fd := List.flatMap_append

/-- The chunks of a longer log. -/
theorem chunksOf_append (log es : List Happening) (fd : Int) :
    chunksOf (log ++ es) fd = chunksOf log fd ++ chunksOf es fd := List.filterMap_append

/-- What has arrived in a longer log. -/
theorem arrivedFor_append (log es : List Happening) (fd : Int) :
    arrivedFor (log ++ es) fd = arrivedFor log fd ++ arrivedFor es fd := List.flatMap_append

/-- One more whole request. -/
theorem requests_succ (n : Nat) : requests n [] ++ request = requests (n + 1) [] := by
  unfold requests
  rw [List.append_nil, List.append_nil, List.replicate_succ', List.flatten_append]
  rfl

/-- At first nothing was sent. -/
theorem alternating_start (fd : Int) : Alternating [] (start rs) fd 0 [] where
  sent := rfl
  cut := ⟨List.nil_prefix, List.length_pos_iff.mpr request_ne_nil⟩
  turn := ⟨le_rfl, Nat.zero_le 1⟩
  whole := by
    intro c hc
    obtain ⟨room, rfl⟩ := startConn_spec rs (fun _ => none) (fun _ _ h => by cases h) fd c hc
    exact ⟨rfl, rfl⟩
  received := by
    intro c hc
    obtain ⟨room, rfl⟩ := startConn_spec rs (fun _ => none) (fun _ _ h => by cases h) fd c hc
    rfl

/-- What does not concern the connection, or only brings bytes. -/
theorem Alternating.congr {n : Nat} {part : List UInt8} (h : Alternating log s fd n part)
    (hsent : sentTo es fd = []) (hchunks : chunksOf es fd = [])
    (hconn : ∀ c', s'.conns fd = some c' → ∃ c, s.conns fd = some c ∧ c'.interest = c.interest ∧
      c'.input.inbox = c.input.inbox ++ arrivedFor es fd) :
    Alternating (log ++ es) s' fd n part where
  sent := by rw [sentTo_append, hsent, List.append_nil, h.sent]
  cut := h.cut
  turn := by
    rw [chunksOf_append, hchunks, List.append_nil]
    exact h.turn
  whole := by
    intro c' hc'
    obtain ⟨c, hc, hinterest, -⟩ := hconn c' hc'
    rw [chunksOf_append, hchunks, List.append_nil, hinterest]
    exact h.whole c hc
  received := by
    intro c' hc'
    obtain ⟨c, hc, -, hinbox⟩ := hconn c' hc'
    rw [arrivedFor_append, chunksOf_append, hchunks, List.append_nil, h.received c hc, hinbox,
      List.append_assoc]

/-- The connections after a change of one of them. -/
theorem Alternating.update {n : Nat} {part : List UInt8} (h : Alternating log s fd n part)
    {o : Option Conn} (hx : x ≠ fd) (hconns : s'.conns = Function.update s.conns x o)
    (hsent : sentTo es fd = []) (hchunks : chunksOf es fd = []) (harrived : arrivedFor es fd = []) :
    Alternating (log ++ es) s' fd n part := by
  refine h.congr hsent hchunks fun c' hc' => ?_
  rw [hconns, Function.update_of_ne hx.symm] at hc'
  exact ⟨c', hc', rfl, by rw [harrived, List.append_nil]⟩

/-- An event of the connection is handled. -/
theorem Alternating.handled {n : Nat} {part : List UInt8} (h : Alternating log s e.fd n part)
    (hc : s.conns e.fd = some c) (hagrees : Agrees e c) {o : Option Conn}
    (hhandles : Handles s e c input o es) (hconns : s'.conns = Function.update s.conns e.fd o) :
    ∃ n' part', Alternating (log ++ es) s' e.fd n' part' := by
  obtain ⟨hpart, hn⟩ := h.whole c hc
  subst hpart
  have hafter : s'.conns e.fd = o := by rw [hconns, Function.update_self]
  cases hhandles with
  | received chunk hkind hrecv =>
    rw [hagrees.1 hkind, if_pos rfl] at hn
    have hchunks : chunksOf (log ++ [.received e.fd chunk (content chunk)]) e.fd =
        chunksOf log e.fd ++ [chunk] := by
      rw [chunksOf_append]
      simp [chunksOf]
    have hlen : (chunksOf log e.fd ++ [chunk]).length = n := by
      rw [List.length_append, hn]
      rfl
    refine ⟨n, [], ?_, h.cut, ?_, fun c' hc' => ?_, fun c' hc' => ?_⟩
    · rw [sentTo_append, h.sent]
      exact List.append_nil _
    · rw [hchunks, hlen]
      exact ⟨le_rfl, Nat.le_succ n⟩
    · obtain rfl := Option.some.inj (hafter.symm.trans hc')
      rw [hchunks, hlen]
      exact ⟨rfl, rfl⟩
    · obtain rfl := Option.some.inj (hafter.symm.trans hc')
      obtain ⟨-, -, rest, hrest⟩ := hrecv
      have harrived : arrivedFor (log ++ [.received e.fd chunk (content chunk)]) e.fd =
          arrivedFor log e.fd := by
        rw [arrivedFor_append]
        exact List.append_nil _
      rw [harrived, hchunks, h.received c hc, List.flatten_append, List.append_assoc, ← hrest]
      show _ = _ ++ (_ ++ (c.input.inbox.drop chunk.length))
      rw [← hrest, List.drop_left]
      simp
  | written hkind hsent =>
    rw [hagrees.2 hkind] at hn
    have hchunks : chunksOf (log ++ [.sent e.fd request]) e.fd = chunksOf log e.fd := by
      rw [chunksOf_append]
      exact List.append_nil _
    refine ⟨n + 1, [], ?_, h.cut, ?_, fun c' hc' => ?_, fun c' hc' => ?_⟩
    · rw [sentTo_append, h.sent, ← requests_succ]
      simp [sentTo]
    · rw [hchunks, hn]
      exact ⟨Nat.le_succ _, le_rfl⟩
    · obtain rfl := Option.some.inj (hafter.symm.trans hc')
      rw [hchunks, hn]
      exact ⟨rfl, rfl⟩
    · obtain rfl := Option.some.inj (hafter.symm.trans hc')
      rw [arrivedFor_append, hchunks]
      exact (List.append_nil _).trans (h.received c hc)
  | unwritten part hkind hpart hlen =>
    refine ⟨n, part, ?_, ⟨hpart, hlen⟩, ?_, fun c' hc' => ?_, fun c' hc' => ?_⟩
    · rw [sentTo_append, h.sent]
      simp [sentTo, requests]
    · rw [chunksOf_append]
      simpa [chunksOf] using h.turn
    · cases hafter.symm.trans hc'
    · cases hafter.symm.trans hc'
  | closed =>
    rw [List.append_nil]
    refine ⟨n, [], h.sent, h.cut, h.turn, fun c' hc' => ?_, fun c' hc' => ?_⟩
    · cases hafter.symm.trans hc'
    · cases hafter.symm.trans hc'

/-- An event of another connection sends and receives nothing here. -/
theorem handles_other {o : Option Conn} (hhandles : Handles s e c input o es) (hx : e.fd ≠ fd) :
    sentTo es fd = [] ∧ chunksOf es fd = [] ∧ arrivedFor es fd = [] := by
  cases hhandles <;> simp [sentTo, chunksOf, arrivedFor, hx]

/-- Every step keeps requests and chunks taking turns. -/
theorem Alternating.step {n : Nat} {part : List UInt8} (h : Alternating log s fd n part)
    (hwatching : Watching s) (hs : Step s a s') :
    ∃ n' part', Alternating (log ++ s.happens a) s' fd n' part' := by
  obtain ⟨henabled, rfl⟩ := hs
  cases a with
  | arrive x data =>
    by_cases hx : x = fd
    · subst hx
      refine ⟨n, part, h.congr rfl rfl fun c' hc' => ?_⟩
      replace hc' : Function.update s.conns x _ x = some c' := hc'
      rw [Function.update_self] at hc'
      obtain ⟨c, hc, rfl⟩ := Option.map_eq_some_iff.mp hc'
      refine ⟨c, hc, rfl, ?_⟩
      simp [arrivedFor, Tool.happens, Tool.perform, Conn.inputChange]
    · refine ⟨n, part, h.update hx rfl rfl rfl ?_⟩
      simp [arrivedFor, Tool.happens, Tool.perform, hx]
  | shutdown x =>
    refine ⟨n, part, h.congr rfl rfl fun c' hc' => ?_⟩
    replace hc' : Function.update s.conns x _ fd = some c' := hc'
    by_cases hx : fd = x
    · subst hx
      rw [Function.update_self] at hc'
      obtain ⟨c, hc, rfl⟩ := Option.map_eq_some_iff.mp hc'
      exact ⟨c, hc, rfl, (List.append_nil _).symm⟩
    · rw [Function.update_of_ne hx] at hc'
      exact ⟨c', hc', rfl, (List.append_nil _).symm⟩
  | acknowledge x m =>
    refine ⟨n, part, h.congr rfl rfl fun c' hc' => ?_⟩
    replace hc' : Function.update s.conns x _ fd = some c' := hc'
    by_cases hx : fd = x
    · subst hx
      rw [Function.update_self] at hc'
      obtain ⟨c, hc, rfl⟩ := Option.map_eq_some_iff.mp hc'
      exact ⟨c, hc, rfl, (List.append_nil _).symm⟩
    · rw [Function.update_of_ne hx] at hc'
      exact ⟨c', hc', rfl, (List.append_nil _).symm⟩
  | wait batch =>
    refine ⟨n, part, h.congr rfl rfl fun c' hc' => ?_⟩
    obtain ⟨c, hc, rfl⟩ := Option.map_eq_some_iff.mp hc'
    exact ⟨c, hc, rfl, (List.append_nil _).symm⟩
  | handle input =>
    obtain ⟨e, rest, c, hb, hc, hagrees⟩ := exists_next hwatching henabled
    obtain ⟨o, es, hhandles, heq⟩ := handles hc hb henabled
    simp only [Tool.happens, Tool.perform, hb, heq]
    by_cases hx : e.fd = fd
    · subst hx
      exact h.handled hc hagrees hhandles rfl
    · obtain ⟨hsent, hchunks, harrived⟩ := handles_other hhandles hx
      exact ⟨n, part, h.update hx rfl hsent hchunks harrived⟩

/-- What is printed for a chunk ends within the buffer, unless the chunk fills it without a NUL
byte. -/
def Printed (log : List Happening) : Prop :=
  ∀ fd chunk text, .received fd chunk text ∈ log →
    text = if chunk.length < bufferSize ∨ 0 ∈ chunk then some (cstr chunk) else none

/-- The texts of one step are printed as they should be. -/
theorem printed_happens (hwatching : Watching s) (ha : s.Enabled a) : Printed (s.happens a) := by
  intro fd chunk text hmem
  cases a with
  | handle input =>
    obtain ⟨e, rest, c, hb, hc, -⟩ := exists_next hwatching ha
    obtain ⟨o, es, hhandles, heq⟩ := handles hc hb ha
    simp only [Tool.happens, Tool.perform, hb, heq] at hmem
    cases hhandles with
    | received chunk' hkind hrecv =>
      obtain ⟨-, rfl, rfl⟩ := Happening.received.inj (List.mem_singleton.mp hmem)
      exact content_eq hrecv.2.1
    | written hkind hsent => cases List.mem_singleton.mp hmem
    | unwritten part hkind hpart hlen => cases List.mem_singleton.mp hmem
    | closed => cases hmem
  | arrive x data => cases List.mem_singleton.mp hmem
  | _ => cases hmem

/-- In every run requests and chunks take turns. -/
theorem logged_alternating {cond : Tool → Action → Prop}
    (h : Logged Step cond Tool.happens (start rs) log s) (fd : Int) :
    ∃ n part, Alternating log s fd n part := by
  suffices hboth : Watching s ∧ ∃ n part, Alternating log s fd n part from hboth.2
  apply h.invariant (I := fun log s => Watching s ∧ ∃ n part, Alternating log s fd n part)
  · exact ⟨watching_start, 0, [], alternating_start fd⟩
  · rintro log s a s' ⟨hwatching, n, part, halt⟩ hs _
    exact ⟨hwatching.step hs, halt.step hwatching hs⟩

/-- In every run the texts are printed as they should be. -/
theorem logged_printed {cond : Tool → Action → Prop}
    (h : Logged Step cond Tool.happens (start rs) log s) : Printed log := by
  suffices hboth : Watching s ∧ Printed log from hboth.2
  apply h.invariant (I := fun log s => Watching s ∧ Printed log)
  · exact ⟨watching_start, nofun⟩
  · rintro log s a s' ⟨hwatching, hprinted⟩ hs _
    refine ⟨hwatching.step hs, fun fd chunk text hmem => ?_⟩
    exact (List.mem_append.mp hmem).elim (hprinted fd chunk text)
      (printed_happens hwatching hs.1 fd chunk text)

/-- In every run, what was sent on a connection are whole requests, one more than the chunks that
`recv` has returned at most, and a part of another one if the connection was closed in the middle of
it. -/
theorem run_requests {cond : Tool → Action → Prop} (h : Logged Step cond Tool.happens (start rs) log s) :
    (∀ fd, ∃ n part, Alternating log s fd n part) ∧ Printed log :=
  ⟨logged_alternating h, logged_printed h⟩

/-! ## One connection -/

/-- The step function of the tool. -/
def follow : Tool → Action → Option Tool := attempt Tool.Enabled fun s a => (s.perform a).1

/-- What the step function does is a step. -/
theorem step_of_follow (h : follow s a = some s') : Step s a s' := attempt_eq_some h

/-- A request is sent in two parts, two bytes come back, and the next request is cut off. -/
def cutOff : List Action :=
  [.wait [⟨5, .epollout⟩], .handle ⟨.again, [.sent 60, .sent 20]⟩, .arrive 5 [79, 75],
    .wait [⟨5, .epollin⟩], .handle ⟨.data [79, 75], []⟩, .wait [⟨5, .epollout⟩],
    .handle ⟨.again, [.sent 18, .failed]⟩]

/-- One request was sent, and the connection is cut off in the middle of the second one. -/
theorem run_requests_cutOff : ∃ log s, sentTo log 5 = requests 1 (request.take 18) ∧
    (∀ fd, ∃ n part, Alternating log s fd n part) ∧ Printed log := by
  have hrun : (loggedSchedule follow (fun _ _ => True) Tool.happens (start [.connected 5 100]) cutOff).any
      (fun r => decide (sentTo r.1 5 = requests 1 (request.take 18))) = true := by
    decide +kernel
  obtain ⟨log, s, h, htest⟩ := exists_logged (fun _ _ _ => step_of_follow) hrun
  exact ⟨log, s, of_decide_eq_true htest, run_requests h⟩

/-! ## When only the servers can go on -/

/-- The action is one of a server or of the network. -/
def FromOutside (_ : Tool) : Action → Prop
  | .wait batch => ∃ e ∈ batch, e.kind = .epollerr
  | .handle _ => False
  | _ => True

/-- The connection waits for a response of which nothing is there, or for room to send a request. -/
def Waits (log : List Happening) (fd : Int) (c : Conn) : Prop :=
  (c.interest = .epollin ∧ arrivedFor log fd = (chunksOf log fd).flatten ∧ c.input.closed = false) ∨
    (c.interest = .epollout ∧ c.room = 0)

/-- An event can be handled. -/
theorem exists_handle (h : Watching s) (hne : s.batch ≠ []) : ∃ input, s.Enabled (.handle input) := by
  obtain ⟨e, rest, hb⟩ := List.exists_cons_of_ne_nil hne
  obtain ⟨c, hc, -⟩ := h.events e (by rw [hb]; exact List.mem_cons_self)
  exact ⟨⟨.failed, [.failed]⟩, e, by rw [hb]; rfl, c, hc, fun _ => trivial, fun _ => rfl⟩

/-- When only the outside can go on, each open connection waits for bytes that are not there, or for
room. -/
theorem run_waits {cond : Tool → Action → Prop} (h : Logged Step cond Tool.happens (start rs) log s)
    (hstuck : ∀ a, s.Enabled a → FromOutside s a) (hc : s.conns fd = some c) : Waits log fd c := by
  have hwatching := run_watching h.run
  have hempty : s.batch = [] := by
    by_contra hne
    obtain ⟨input, henabled⟩ := exists_handle hwatching hne
    exact hstuck _ henabled
  have hcannot : c.can = false := by
    refine Bool.eq_false_of_not_eq_true fun hcan => ?_
    have hready : c.ready = true := by
      refine (hwatching.noticed fd c hc hcan).resolve_right fun hdue => ?_
      rw [InBatch, hempty] at hdue
      cases hdue
    have hwait : ∀ kind, kind ≠ .epollerr → s.Reported ⟨fd, kind⟩ → False := by
      intro kind hkind hrep
      have henabled : s.Enabled (.wait [⟨fd, kind⟩]) := by
        refine ⟨hempty, List.cons_ne_nil _ _, (show 1 ≤ 10000 by omega), List.nodup_singleton _, fun e he => ?_⟩
        obtain rfl := List.mem_singleton.mp he
        exact hrep
      obtain ⟨e, he, herr⟩ := hstuck _ henabled
      obtain rfl := List.mem_singleton.mp he
      exact hkind herr
    cases hi : c.interest with
    | epollin => exact hwait .epollin (by decide) ⟨c, hc, .inl ⟨rfl, hi, hcan, hready⟩⟩
    | epollout => exact hwait .epollout (by decide) ⟨c, hc, .inr (.inl ⟨rfl, hi, hcan, hready⟩)⟩
  obtain ⟨n, part, halt⟩ := logged_alternating h fd
  unfold Conn.can at hcannot
  cases hi : c.interest with
  | epollin =>
    rw [hi] at hcannot
    obtain ⟨hinbox, hclosed⟩ := Stream.readable_eq_false.mp hcannot
    refine .inl ⟨hi, ?_, hclosed⟩
    rw [halt.received c hc, hinbox, List.append_nil]
  | epollout =>
    rw [hi] at hcannot
    exact .inr ⟨hi, Nat.eq_zero_of_not_pos (of_decide_eq_false hcannot)⟩

/-- A request is sent, and no response has come. -/
def oneRequest : List Action := [.wait [⟨5, .epollout⟩], .handle ⟨.again, [.sent 80]⟩]

/-- After one request the connection waits for the answer. -/
theorem run_waits_oneRequest : ∃ (log : List Happening) (s : Tool) (c : Conn), s.conns 5 = some c ∧
    sentTo log 5 = request ∧ Waits log 5 c := by
  have hrun : (loggedSchedule follow (fun _ _ => True) Tool.happens (start [.connected 5 100])
      oneRequest).any (fun r => decide (sentTo r.1 5 = request ∧ r.2.batch = [] ∧
        ∃ c ∈ r.2.conns 5, c.can = false)) = true := by
    decide +kernel
  obtain ⟨log, s, h, htest⟩ := exists_logged (fun _ _ _ => step_of_follow) hrun
  obtain ⟨hsent, hempty, c, hc, hcannot⟩ := of_decide_eq_true htest
  refine ⟨log, s, c, hc, hsent, run_waits h (fun a ha => ?_) hc⟩
  cases a with
  | handle input =>
    obtain ⟨e, he, -⟩ := ha
    rw [hempty] at he
    cases he
  | wait batch =>
    obtain ⟨-, hne, -, -, hrep⟩ := ha
    obtain ⟨e, he⟩ := List.exists_mem_of_ne_nil _ hne
    obtain ⟨c', hc', hkind⟩ := hrep e he
    have hfd : e.fd = 5 := by
      by_contra hfd
      have hnone : (start [.connected 5 100]).conns e.fd = none := by
        show Function.update (fun _ => none) 5 (some (Conn.add 100)) e.fd = none
        rw [Function.update_of_ne hfd]
      rw [run_none h.run hnone] at hc'
      cases hc'
    rw [hfd] at hc'
    obtain rfl := Option.some.inj (hc.symm.trans hc')
    refine ⟨e, he, ?_⟩
    rcases hkind with ⟨-, -, hcan, -⟩ | ⟨-, -, hcan, -⟩ | herr
    · rw [hcannot] at hcan
      cases hcan
    · rw [hcannot] at hcan
      cases hcan
    · exact herr
  | _ => trivial

end Runs

end ServerListings.Analysis.PressureTest
