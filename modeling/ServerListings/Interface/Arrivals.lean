import ServerListings.Interface.HttpBounds
import ServerListings.Interface.ServerSteps
import ServerListings.Model.StrayStore

/-!
# Clients that connect

While the batch is handled and a descriptor is free, a client can connect and send a byte
before a worker does anything. `arrived` is the state in which `main` has been told of the
byte and has not read it.
-/

set_option autoImplicit false

namespace ServerListings.Interface

open Lib.CMem Lib.Transition ServerListings.Model ServerListings.Model.Http ServerListings.Model.WebServer

/-- The event of a descriptor that can be read. -/
def readable (fd : Int) : Delivered := ⟨fd, ⟨false, true, false⟩⟩

/-- One byte that a client sent. -/
def oneByte : List RecvResult := [.data [71], .eagain]

/-- `main` appends every request it reads to the queue. -/
def Unrefused {W : Type} (s : Server W) (a : Action W) : Prop := ∀ fd, ¬ Refused s a fd

section Arrivals

variable {W : Type} {s : Server W} {fd : Int} {n : Nat}

/-- The server after it accepted the client `fd` and `epoll_wait` reported a byte of it. -/
def arrived (s : Server W) (fd : Int) : Server W :=
  (accepted { s.deliver [readable s.listenfd] with pending := [] } fd
    ((s.users fd).initConn fd).1).deliver [readable fd]

/-- The batch is handled, there are `n` clients, and the descriptors from `5 + n` on are
free. -/
structure Ready (n : Nat) (s : Server W) : Prop where
  owned : ∃ owner, Owned s owner
  listener : s.epoll s.listenfd = some ⟨some .epollin, false⟩
  pending : s.pending = []
  userCount : s.userCount = n
  free : ∀ fd : Int, 5 + n ≤ fd → s.descriptors fd = none

/-- The descriptor of a client is not the listening socket. -/
theorem Ready.ne_listenfd (h : Ready n s) (hfd : 5 + (n : Int) ≤ fd) : fd ≠ s.listenfd := by
  rintro rfl
  obtain ⟨owner, howned⟩ := h.owned
  have hfree := h.free _ hfd
  rw [howned.listening] at hfree
  cases hfree

/-- The server starts ready. -/
theorem ready_start (users : Int → HttpConn) : Ready 0 (Server.start users) := by
  refine ⟨⟨_, owned_initial (initial_start users)⟩, rfl, rfl, rfl, fun fd hfd => ?_⟩
  simp only [Server.start]
  rw [if_neg (by omega)]

/-- The first byte of a connection can be read. -/
theorem read_oneByte (c : HttpConn) (fd : Int) :
    ∃ c', (c.initConn fd).1.read oneByte = .ok (true, c') ∧ c'.mSockfd = fd := by
  have hroom : (c.initConn fd).1.mReadIdx + 1 < readBufferSize := Nat.lt_of_sub_eq_succ rfl
  obtain ⟨m, hm, -⟩ := receive_bounds [71] (bounded_init { c with mSockfd := fd }) hroom
  have hread : (c.initConn fd).1.read oneByte =
      (c.initConn fd).1.receive [71] >>= fun c' => c'.readData [.eagain] := by
    have htake : [71].take (readBufferSize - (c.initConn fd).1.mReadIdx) = [(71 : UInt8)] :=
      List.take_of_length_le (by rw [List.length_singleton]; omega)
    rw [HttpConn.read, if_neg (by omega), oneByte, HttpConn.readData, htake]
    exact if_neg (by rw [List.length_singleton]; omega)
  rw [hread, show (c.initConn fd).1.receive [71] = _ from hm, ok_bind, HttpConn.readData]
  exact ⟨_, rfl, rfl⟩

/-- A descriptor that is armed for reading can be reported. -/
theorem reported_readable {o : Bool} (h : s.epoll fd = some ⟨some .epollin, o⟩) :
    ∀ d ∈ [readable fd], s.Reported d := by
  intro d hd
  obtain rfl := List.mem_singleton.mp hd
  exact ⟨_, .epollin, h, rfl, fun _ => rfl, nofun, Or.inr (Or.inl rfl)⟩

/-- A batch of one report names no descriptor twice. -/
theorem nodup_readable (fd : Int) : ([readable fd].map Delivered.fd).Nodup :=
  List.pairwise_singleton _ fd

/-- Delivering one report leaves the others' interest. -/
theorem deliver_of_ne {x : Int} (hx : x ≠ fd) : (s.deliver [readable fd]).epoll x = s.epoll x :=
  if_neg (by simpa [readable] using hx)

/-- The listening socket is no one-shot entry. -/
theorem deliver_listener (h : s.epoll s.listenfd = some ⟨some .epollin, false⟩) :
    (s.deliver [readable s.listenfd]).epoll s.listenfd = some ⟨some .epollin, false⟩ := by
  simp only [Server.deliver, readable, List.map_cons, List.map_nil, List.mem_singleton, if_true, h]
  rfl

/-- After an arrival the listening socket is still armed. -/
theorem arrived_listener (h : Ready n s) :
    (arrived s (5 + n)).epoll s.listenfd = some ⟨some .epollin, false⟩ := by
  have hne : s.listenfd ≠ 5 + (n : Int) := (h.ne_listenfd le_rfl).symm
  rw [arrived, deliver_of_ne hne]
  exact (Function.update_of_ne hne ..).trans (deliver_listener h.listener)

variable [DecidableEq W]

/-- `epoll_wait` reports that one descriptor can be read. -/
theorem wait_readable {o : Bool} (hpending : s.pending = [])
    (h : s.epoll fd = some ⟨some .epollin, o⟩) :
    Step s (.wait [readable fd]) (s.deliver [readable fd]) := by
  apply Step.wait _ hpending
  · rw [List.length_singleton, maxEventNumber]
    omega
  · exact nodup_readable fd
  · exact reported_readable h

/-- The three steps of an arrival. -/
theorem run_arrived_defined (h : Ready n s) (hn : n + 5 < 65536) :
    Run Step (fun s a => s.Defined a ∧ Unrefused s a) s (arrived s (5 + n)) := by
  obtain ⟨owner, howned⟩ := h.owned
  have hfree := h.free (5 + n) le_rfl
  have hcount : s.userCount < maxFd := by
    rw [h.userCount, maxFd]
    omega
  obtain ⟨owner', -, howned'⟩ :=
    howned.deliver h.pending (nodup_readable _) (reported_readable h.listener)
  have htables : Tables ({ s.deliver [readable s.listenfd] with pending := [] } : Server W) :=
    (howned'.nextAccept (d := readable s.listenfd) rfl rfl).toTables
  have haccept : Step (s.deliver [readable s.listenfd])
      (.handle (readable s.listenfd) ⟨some (5 + n), [], [], fun _ => []⟩)
      (accepted { s.deliver [readable s.listenfd] with pending := [] } (5 + n)
        ((s.users (5 + n)).initConn (5 + n)).1) := by
    apply Step.handle _ [] _ rfl
    · rintro fd ⟨⟩
      exact ⟨by omega, hfree⟩
    · rw [Server.handleEvent]
      exact (if_pos rfl).trans (acceptClient_eq htables hfree (by omega) hcount (by rw [maxFd]; omega))
  refine ((Run.refl.step (wait_readable h.pending h.listener) ?_).step haccept ?_).step
    (wait_readable rfl (Function.update_self ..)) ?_
  · refine ⟨trivial, ?_⟩
    rintro fd ⟨d, input, c, ⟨⟩, -⟩
  · constructor
    · rintro - - connfd ⟨⟩
      rw [maxFd]
      omega
    · rintro fd ⟨d, input, c, ⟨⟩, hd, hfd, -⟩
      exact hfd hd.symm
  · refine ⟨trivial, ?_⟩
    rintro fd ⟨d, input, c, ⟨⟩, -⟩

/-- An arrival refuses nothing. -/
theorem run_arrived (h : Ready n s) (hn : n + 5 < 65536) : Run Step Unrefused s (arrived s (5 + n)) :=
  (run_arrived_defined h hn).mono fun _ _ hc => hc.2

/-- `main` reads the byte and calls `append`. -/
theorem step_oneByte {c : HttpConn} (hpending : s.pending = [readable fd]) (hfd : fd ≠ s.listenfd)
    (hread : (s.users fd).read oneByte = .ok (true, c)) :
    Step s (.handle (readable fd) ⟨none, oneByte, [], fun _ => []⟩)
      ((Server.setUser { s with pending := [] } fd c []).append fd).2 := by
  apply Step.handle _ [] _ hpending
  · rintro fd ⟨⟩
  · rw [Server.handleEvent]
    exact (if_neg hfd).trans (readClient_eq hread)

/-- The byte of the new client is read. -/
theorem step_arrived (h : Ready n s) :
    ∃ c, ((arrived s (5 + n)).users (5 + n)).read oneByte = .ok (true, c) ∧
      Step (arrived s (5 + n)) (.handle (readable (5 + n)) ⟨none, oneByte, [], fun _ => []⟩)
        ((Server.setUser { arrived s (5 + n) with pending := [] } (5 + n) c []).append (5 + n)).2 := by
  obtain ⟨c, hread, -⟩ := read_oneByte (s.users (5 + n)) (5 + n)
  have huser : (arrived s (5 + n)).users (5 + n) = ((s.users (5 + n)).initConn (5 + n)).1 :=
    Function.update_self ..
  rw [← huser] at hread
  exact ⟨c, hread, step_oneByte rfl (h.ne_listenfd le_rfl) hread⟩

/-- An arrival while the queue is not over its limit: the queue has one request more. -/
theorem run_queued (h : Ready n s) (hn : n + 5 < 65536) (hroom : s.queue.length ≤ s.maxRequests) :
    ∃ s', Run Step Unrefused s s' ∧ Ready (n + 1) s' ∧ s'.maxRequests = s.maxRequests ∧
      s'.queue.length = s.queue.length + 1 := by
  obtain ⟨c, -, hstep⟩ := step_arrived h
  have hrun := (run_arrived h hn).step hstep (by
    rintro fd ⟨d, input, c, -, -, -, -, -, -, hfull⟩
    exact absurd hroom (not_le.mpr hfull))
  let t := Server.setUser { arrived s (5 + n) with pending := [] } (5 + n) c []
  have hfits : ¬ t.queue.length > t.maxRequests := not_lt.mpr hroom
  rw [append_room hfits] at hrun
  refine ⟨_, hrun, ⟨run_owned h.owned hrun, arrived_listener h, rfl, ?_, ?_⟩, rfl, List.length_append⟩
  · rw [show Server.userCount _ = s.userCount + 1 from rfl, h.userCount]
    exact (Nat.cast_succ n).symm
  · intro fd hfd
    rw [Nat.cast_succ] at hfd
    exact (Function.update_of_ne (by omega) ..).trans (h.free fd (by omega))

/-- An arrival while the queue is over its limit: the new client is refused. -/
theorem step_refused (h : Ready n s) (hfull : s.queue.length > s.maxRequests) :
    ∃ a s', Step (arrived s (5 + n)) a s' ∧ Refused (arrived s (5 + n)) a (5 + n) := by
  obtain ⟨c, hread, hstep⟩ := step_arrived h
  exact ⟨_, _, hstep, _, _, c, rfl, rfl, h.ne_listenfd le_rfl, rfl, rfl, hread, hfull⟩

end Arrivals

end ServerListings.Interface
