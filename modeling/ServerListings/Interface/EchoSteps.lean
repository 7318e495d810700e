import ServerListings.Interface.RecvLoop
import ServerListings.Lib.Transition
import ServerListings.Model.EchoServer

/-!
# The steps of the echo server

The loop for a TCP connection receives everything, so no connection is forgotten that can be read
(`Watching`). The queues of the other two sockets are served once for each event.
-/

set_option autoImplicit false

namespace ServerListings.Interface.Echo

open Lib.Readiness Lib.Transition ServerListings.Model ServerListings.Model.EchoServer
open ServerListings.Interface.RecvLoop

section Steps

variable {s s' : Server} {a : Action} {d : Report Int} {rest : List (Report Int)} {log : List Happening}
  {input : Input} {listenfd udpfd : Int}

def traffic : Happening → Option (Traffic Int)
  | .traffic t => some t
  | _ => none

def trafficOf (log : List Happening) : List (Traffic Int) := log.filterMap traffic

/-- The traffic of a longer log. -/
theorem trafficOf_append (log es : List Happening) :
    trafficOf (log ++ es) = trafficOf log ++ trafficOf es := List.filterMap_append

/-- A chunk that is sent back is seen as received. -/
theorem got_traffic {fd : Int} (chunk : List UInt8) (n : Nat) :
    (got fd chunk n).filterMap traffic = [.received fd chunk] := rfl

/-- The sockets that are not connections. -/
def Special (s : Server) (x : Int) : Prop := x = s.listenfd ∨ x = s.udpfd

/-- No connection is forgotten that can be read. -/
def Watching (s : Server) : Prop := Watched (Special s) s.table s.batch (Due s.batch)

/-- Before the loop there are no connections. -/
theorem watching_start : Watching (start listenfd udpfd) := watched_empty

/-- What handling an event is. -/
inductive Handles (s : Server) (d : Report Int) (rest : List (Report Int)) (input : Input) :
    Server × List Happening → Prop
  | listening (h : d.fd = s.listenfd) :
      Handles s d rest input ({ s with batch := rest }.accept input.accepted)
  | udp (hne : d.fd ≠ s.listenfd) (h : d.fd = s.udpfd) :
      Handles s d rest input ({ s with batch := rest }.udp)
  | connection (hne : ¬ Special s d.fd) (hread : d.readable = true)
      (hdrains : Drains (TCP_BUFFER_SIZE - 1) d.fd (input.results.map Prod.fst) s.table) :
      Handles s d rest input
        ({ s with batch := rest, table := (recvLoop d.fd (got d.fd) input.results s.table).1 },
          (recvLoop d.fd (got d.fd) input.results s.table).2)
  | nothing (hne : d.fd ≠ s.listenfd) (h : d.fd = s.udpfd ∨ d.readable = false) :
      Handles s d rest input ({ s with batch := rest }, [])

/-- The branches for an event. -/
theorem handles (hb : s.batch = d :: rest) (ha : s.Enabled (.handle input)) :
    Handles s d rest input ({ s with batch := rest }.serve d input) := by
  obtain ⟨d', hd', -, hdrains⟩ := ha
  obtain rfl : d = d' := by
    rw [hb] at hd'
    exact Option.some.inj hd'
  rw [Server.serve]
  by_cases hl : d.fd = s.listenfd
  · rw [if_pos hl]
    exact .listening hl
  · rw [if_neg hl]
    by_cases hu : d.fd = s.udpfd
    · rw [if_pos hu]
      cases input.recvfrom with
      | true => exact .udp hl hu
      | false => exact .nothing hl (.inl hu)
    · rw [if_neg hu]
      cases hin : d.readable with
      | false => exact .nothing hl (.inr hin)
      | true => exact .connection (fun h => h.elim hl hu) hin (hdrains hl hu hin)

/-- There is an event to handle. -/
theorem exists_next (ha : s.Enabled (.handle input)) : ∃ d rest, s.batch = d :: rest := by
  obtain ⟨d, hd, -⟩ := ha
  exact ⟨d, s.batch.tail, (List.cons_head?_tail hd).symm⟩

/-- The branch for the UDP socket takes one message. -/
theorem udp_fields (s : Server) : s.udp.1 = { s with datagrams := s.datagrams.tail } := by
  obtain ⟨_, _, _, _, _, datagrams, _, _, _⟩ := s
  cases datagrams <;> rfl

/-- A batch is returned. -/
theorem Watching.deliver (h : Watching s) {batch : List (Report Int)} (hempty : s.batch = [])
    (hnodup : (batch.map Report.fd).Nodup) (hrep : ∀ d ∈ batch, s.Reported d) :
    Watching (s.deliver batch) := by
  rw [Watching, hempty] at h
  have hfound : ∀ d ∈ batch, Special s d.fd ∨
      ∃ k, s.table.streams d.fd = some k ∧ d.readable = k.readable := by
    intro d hd
    rcases hrep d hd with ⟨hl, -⟩ | ⟨hu, -⟩ | ⟨e, -, k, hk, hread, -⟩
    · exact .inl (.inl hl)
    · exact .inl (.inr hu)
    · exact .inr ⟨k, hk, hread⟩
  exact h.report (edge_report h hfound) rfl hnodup hfound

/-- Every step keeps the connections watched. -/
theorem Watching.step (h : Watching s) (hs : Step s a s') : Watching s' := by
  obtain ⟨henabled, rfl⟩ := hs
  cases a with
  | connect => exact h
  | message g => exact h
  | fail => exact h
  | arrive fd data => exact Watched.arrive h fd data
  | shutdown fd => exact Watched.hangUp h fd
  | wait batch =>
    obtain ⟨-, hempty, -, -, hnodup, hrep⟩ := henabled
    exact h.deliver hempty hnodup hrep
  | handle input =>
    obtain ⟨d, rest, hb⟩ := exists_next henabled
    have hnew := henabled
    obtain ⟨-, -, hnew, -⟩ := hnew
    rw [Watching, hb] at h
    simp only [Server.perform, hb]
    have hhandles := handles hb henabled
    generalize ({ s with batch := rest } : Server).serve d input = after at hhandles ⊢
    have hnext : (Special s d.fd ∨ d.readable = false) → Watching { s with batch := rest } := by
      intro hd
      exact h.next (fun ho => hd.resolve_left fun hs => h.apart d.fd hs ho) fun _ => due_rest
    cases hhandles with
    | listening hl =>
      have hrest := hnext (.inl (.inl hl))
      cases ha : input.accepted with
      | none => exact hrest
      | some y =>
        obtain ⟨-, hl, hu, hnone⟩ := hnew y (by rw [ha]; rfl)
        exact Watched.add hrest (fun hx => hx.elim hl hu) hnone y.2
    | udp hl hu =>
      rw [udp_fields]
      exact hnext (.inl (.inr hu))
    | connection hne hread hdrains =>
      refine h.finish (recvLoop_edge _ _ hdrains h.edge fun y hy => due_rest fun heq => absurd heq hy)
        (fun _ hx => recvLoop_streams_of_ne hx _ _) (recvLoop_open _ _)
    | nothing _ hd => exact hnext (hd.imp_left .inr)

/-- The two sockets stay the same. -/
theorem step_fds (hs : Step s a s') : s'.listenfd = s.listenfd ∧ s'.udpfd = s.udpfd := by
  obtain ⟨henabled, rfl⟩ := hs
  cases a with
  | handle input =>
    obtain ⟨d, rest, hb⟩ := exists_next henabled
    simp only [Server.perform, hb]
    have hhandles := handles hb henabled
    generalize ({ s with batch := rest } : Server).serve d input = after at hhandles ⊢
    cases hhandles with
    | listening hl => cases input.accepted <;> exact ⟨rfl, rfl⟩
    | udp hl hu =>
      rw [udp_fields]
      exact ⟨rfl, rfl⟩
    | connection hne hread hdrains => exact ⟨rfl, rfl⟩
    | nothing _ hd => exact ⟨rfl, rfl⟩
  | _ => exact ⟨rfl, rfl⟩

/-- In every run no connection is forgotten that can be read. -/
theorem run_watching {cond : Server → Action → Prop} (h : Run Step cond (start listenfd udpfd) s) :
    Watching s :=
  h.invariant watching_start fun _ _ _ hw hs _ => hw.step hs

/-! ## What is received -/

/-- The UDP socket has no part in the traffic of the connections. -/
theorem trafficOf_udp (s : Server) : trafficOf s.udp.2 = [] := by
  unfold Server.udp
  cases s.datagrams with
  | nil => rfl
  | cons g gs =>
    dsimp only
    split <;> rfl

/-- Every step keeps the account. -/
theorem tracked_step (h : Tracked (trafficOf log) s.table) (hs : Step s a s') :
    Tracked (trafficOf (log ++ s.happens a)) s'.table := by
  obtain ⟨henabled, rfl⟩ := hs
  rw [trafficOf_append]
  cases a with
  | connect => exact (List.append_nil _).symm ▸ h
  | message g => exact (List.append_nil _).symm ▸ h
  | fail => exact (List.append_nil _).symm ▸ h
  | wait batch => exact (List.append_nil _).symm ▸ h
  | arrive fd data => exact h.arrive fd data
  | shutdown fd => exact h.hangUp fd
  | handle input =>
    obtain ⟨d, rest, hb⟩ := exists_next henabled
    simp only [Server.happens, Server.perform, hb]
    have hhandles := handles hb henabled
    generalize ({ s with batch := rest } : Server).serve d input = after at hhandles ⊢
    cases hhandles with
    | listening hl =>
      cases input.accepted with
      | none => exact (List.append_nil _).symm ▸ h
      | some y => exact h.add y.1 y.2
    | udp hl hu =>
      rw [trafficOf_udp, List.append_nil, udp_fields]
      exact h
    | connection hne hread hdrains => exact recvLoop_tracked got_traffic _ _ _ hdrains h
    | nothing _ hd => exact (List.append_nil _).symm ▸ h

/-- No `recv` on an open connection fails, and `send` takes all bytes. -/
def Careful (_ : Server) : Action → Prop
  | .handle input => fails (input.results.map Prod.fst) = false ∧
      ∀ p ∈ input.results, ∀ chunk, p.1 = .data chunk → chunk.length ≤ p.2
  | _ => True

/-- A careful step closes no connection before everything was received. -/
theorem complete_step (h : Complete (trafficOf log) s.table) (htracked : Tracked (trafficOf log) s.table)
    (hs : Step s a s') (hcareful : Careful s a) : Complete (trafficOf (log ++ s.happens a)) s'.table := by
  obtain ⟨henabled, rfl⟩ := hs
  rw [trafficOf_append]
  cases a with
  | connect => exact (List.append_nil _).symm ▸ h
  | message g => exact (List.append_nil _).symm ▸ h
  | fail => exact (List.append_nil _).symm ▸ h
  | wait batch => exact (List.append_nil _).symm ▸ h
  | arrive fd data =>
    obtain ⟨-, k, hk, -⟩ := henabled
    exact h.arrive ⟨k, hk⟩ data
  | shutdown fd =>
    obtain ⟨k, hk, -⟩ := henabled
    exact h.hangUp ⟨k, hk⟩
  | handle input =>
    obtain ⟨d, rest, hb⟩ := exists_next henabled
    simp only [Server.happens, Server.perform, hb]
    have hhandles := handles hb henabled
    generalize ({ s with batch := rest } : Server).serve d input = after at hhandles ⊢
    cases hhandles with
    | listening hl =>
      cases input.accepted with
      | none => exact (List.append_nil _).symm ▸ h
      | some y => exact h.add y.1 y.2
    | udp hl hu =>
      rw [trafficOf_udp, List.append_nil, udp_fields]
      exact h
    | connection hne hread hdrains =>
      exact recvLoop_complete got_traffic _ _ _ hdrains hcareful.1 htracked h
    | nothing _ hd => exact (List.append_nil _).symm ▸ h

end Steps

end ServerListings.Interface.Echo
