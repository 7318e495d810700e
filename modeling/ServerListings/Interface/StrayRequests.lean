import ServerListings.Interface.Arrivals
import ServerListings.Model.ServerLog

/-!
# A request with a negative body length

Clients connect and stay, and some of them send a request. `strayRequest` has a body length of
-59, and `parse_content` stores a NUL in the lowest byte of `m_sockfd` for it, so `process` arms
the descriptor 0 for the client 5 and the descriptor 256 for the client 261.
-/

set_option autoImplicit false

namespace ServerListings.Interface

open Lib.CMem Lib.Transition ServerListings.Model ServerListings.Model.Http ServerListings.Model.WebServer

/-! ## Clients that connect and stay -/

section Clients

variable {W : Type} {s : Server W} {n : Nat} {fd : Int} {c : HttpConn} {rs : List RecvResult}

/-- The batch is handled, and `n` clients have connected and are waited for. -/
structure Joined (n : Nat) (s : Server W) : Prop extends Ready n s where
  listenfd : s.listenfd = 3
  queue : s.queue = []
  idle : ∀ w, s.working w = none
  armed : ∀ fd : Int, 5 ≤ fd → fd < 5 + n → Open s fd ∧ s.epoll fd = some ⟨some .epollin, true⟩ ∧
    s.users fd = ((default : HttpConn).initConn fd).1
  unused : ∀ fd : Int, 5 + n ≤ fd → s.users fd = default
  unregistered : s.epoll 0 = none
  room : 1 ≤ s.maxRequests

/-- Nobody has connected to the server as `main` sets it up. -/
theorem joined_start : Joined 0 (Server.start fun _ => default) where
  toReady := ready_start _
  listenfd := rfl
  queue := rfl
  idle := fun _ => rfl
  armed := fun fd h h' => absurd h' (by simpa using h)
  unused := fun _ _ => rfl
  unregistered := rfl
  room := by decide

variable [DecidableEq W]

/-- One more client connects. -/
theorem Joined.next (h : Joined n s) (hn : n + 5 < 65536) :
    ∃ s', Run Step (fun _ _ => True) s s' ∧ Joined (n + 1) s' := by
  obtain ⟨owner, howned⟩ := h.owned
  have hfree := h.free (5 + n) le_rfl
  have hne : 5 + (n : Int) ≠ s.listenfd := h.ne_listenfd le_rfl
  have hcount : s.userCount < maxFd := by
    rw [h.userCount, maxFd]
    omega
  obtain ⟨owner', -, howned'⟩ :=
    howned.deliver h.pending (nodup_readable _) (reported_readable h.listener)
  have htables : Tables ({ s.deliver [readable s.listenfd] with pending := [] } : Server W) :=
    (howned'.nextAccept (d := readable s.listenfd) rfl rfl).toTables
  have haccept : Step (s.deliver [readable s.listenfd])
      (.handle (readable s.listenfd) ⟨some (5 + n), [], [], fun _ => []⟩)
      (accepted { s.deliver [readable s.listenfd] with pending := [] } (5 + n)
        ((s.users (5 + n)).initConn (5 + n)).1) := by
    apply Step.handle _ [] _ rfl
    · rintro fd ⟨⟩
      exact ⟨by omega, hfree⟩
    · rw [Server.handleEvent]
      exact (if_pos rfl).trans (acceptClient_eq htables hfree (by omega) hcount (by rw [maxFd]; omega))
  have hrun : Run Step (fun _ _ => True) s (accepted
      { s.deliver [readable s.listenfd] with pending := [] } (5 + n)
      ((s.users (5 + n)).initConn (5 + n)).1) :=
    (Run.refl.step (wait_readable h.pending h.listener) trivial).step haccept trivial
  have hepoll : ∀ fd : Int, fd ≠ 5 + n → fd ≠ s.listenfd → (accepted
      { s.deliver [readable s.listenfd] with pending := [] } (5 + n)
      ((s.users (5 + n)).initConn (5 + n)).1).epoll fd = s.epoll fd :=
    fun fd hfd hl => (Function.update_of_ne hfd ..).trans (deliver_of_ne hl)
  have hlisten := h.listenfd
  refine ⟨_, hrun, ⟨run_owned h.owned hrun, ?_, rfl, ?_, ?_⟩, hlisten, h.queue, h.idle, ?_, ?_, ?_, h.room⟩
  · exact (Function.update_of_ne hne.symm ..).trans (deliver_listener h.listener)
  · show s.userCount + 1 = ((n + 1 : Nat) : Int)
    rw [h.userCount, Nat.cast_succ]
  · intro fd hfd
    rw [Nat.cast_succ] at hfd
    exact (Function.update_of_ne (by omega) ..).trans (h.free fd (by omega))
  · intro fd hle hlt
    rw [Nat.cast_succ] at hlt
    by_cases hfd : fd = 5 + n
    · subst hfd
      refine ⟨Function.update_self .., Function.update_self .., (Function.update_self ..).trans ?_⟩
      rw [h.unused _ le_rfl]
    · obtain ⟨hopen, harmed, huser⟩ := h.armed fd hle (by omega)
      exact ⟨(Function.update_of_ne hfd ..).trans hopen, (hepoll fd hfd (by omega)).trans harmed,
        (Function.update_of_ne hfd ..).trans huser⟩
  · intro fd hfd
    rw [Nat.cast_succ] at hfd
    exact (Function.update_of_ne (by omega) ..).trans (h.unused fd (by omega))
  · exact (hepoll 0 (by omega) (by omega)).trans h.unregistered

/-- Clients connect one after the other. -/
theorem exists_joined (n : Nat) (hn : n + 4 < 65536) :
    ∃ s, Run Step (fun _ _ => True) (Server.start fun _ => default) s ∧ Joined n s := by
  induction n with
  | zero => exact ⟨_, .refl, joined_start⟩
  | succ n ih =>
    obtain ⟨s, hrun, hjoined⟩ := ih (by omega)
    obtain ⟨s', hrun', hjoined'⟩ := hjoined.next (by omega)
    exact ⟨s', hrun.trans hrun', hjoined'⟩

/-! ## Requests that are read and taken -/

/-- The server after `main` has read from the client `fd` and queued its object `c`. -/
def requested (s : Server W) (fd : Int) (c : HttpConn) : Server W :=
  { s with
    users := Function.update s.users fd c
    epoll := (s.deliver [readable fd]).epoll
    pending := []
    queue := s.queue ++ [fd] }

/-- The server after a worker has taken the first request of the queue. -/
def given (s : Server W) (w : W) (fd : Int) (rest : List Int) : Server W :=
  { s with queue := rest, working := Function.update s.working w (some fd) }

omit [DecidableEq W] in
/-- The connection that was read is stored. -/
@[simp] theorem requested_users (s : Server W) (fd : Int) (c : HttpConn) :
    (requested s fd c).users = Function.update s.users fd c := rfl

omit [DecidableEq W] in
/-- The descriptor is put at the end of the queue. -/
@[simp] theorem requested_queue (s : Server W) (fd : Int) (c : HttpConn) :
    (requested s fd c).queue = s.queue ++ [fd] := rfl

/-- The worker has the descriptor. -/
@[simp] theorem given_working (s : Server W) (w : W) (fd : Int) (rest : List Int) :
    (given s w fd rest).working = Function.update s.working w (some fd) := rfl

/-- Taking a descriptor leaves the connections. -/
@[simp] theorem given_users (s : Server W) (w : W) (fd : Int) (rest : List Int) :
    (given s w fd rest).users = s.users := rfl

/-- A worker takes a request. -/
theorem step_given {w : W} {rest : List Int} (hidle : s.working w = none) (hq : s.queue = fd :: rest) :
    Step s (.take w) (given s w fd rest) := .take w fd rest hidle hq

omit [DecidableEq W] in
/-- The entry of the client is disarmed, the others are as they were. -/
theorem requested_epoll (harmed : s.epoll fd = some ⟨some .epollin, true⟩) :
    (requested s fd c).epoll = Function.update s.epoll fd (some ⟨none, true⟩) := by
  funext x
  by_cases hx : x = fd
  · subst hx
    show (if x ∈ [x] then (s.epoll x).map _ else s.epoll x) = _
    rw [if_pos List.mem_cons_self, harmed, Function.update_self]
    rfl
  · rw [Function.update_of_ne hx]
    exact deliver_of_ne hx

/-- A client sends something that `read` takes. -/
theorem run_requested (hpending : s.pending = []) (harmed : s.epoll fd = some ⟨some .epollin, true⟩)
    (hfd : fd ≠ s.listenfd) (hread : (s.users fd).read rs = .ok (true, c))
    (hroom : s.queue.length ≤ s.maxRequests) :
    Run Step (fun _ _ => True) s (requested s fd c) := by
  have hhandle : Step (s.deliver [readable fd]) (.handle (readable fd) ⟨none, rs, [], fun _ => []⟩)
      ((Server.setUser { s.deliver [readable fd] with pending := [] } fd c []).append fd).2 := by
    apply Step.handle _ [] _ rfl
    · rintro fd ⟨⟩
    · rw [Server.handleEvent]
      exact (if_neg hfd).trans (readClient_eq hread)
  let t := Server.setUser { s.deliver [readable fd] with pending := [] } fd c []
  have hfits : ¬ t.queue.length > t.maxRequests := not_lt.mpr hroom
  rw [append_room hfits] at hhandle
  exact (Run.refl.step (wait_readable hpending harmed) trivial).step hhandle trivial

end Clients

/-! ## The request -/

/-- A request without a body whose body length is -59. -/
def strayRequest : List UInt8 := bytes "GET\t/a\tHTTP/1.1\r\nContent-Length:-59\r\n\r\n"

/-- The object of a new client after `main` has read the request. -/
def afterStrayRequest (fd : Int) : Checked (Bool × HttpConn) :=
  ((default : HttpConn).initConn fd).1.read [.data strayRequest, .eagain]

/-- `read` takes the request, and `process` comes to a call of `parse_content` that strays. -/
theorem afterStrayRequest_stray (fd : Int) (h : fd = 5 ∨ fd = 261) :
    ((afterStrayRequest fd).map fun r => (r.1, r.2.strayCall.isSome)) = .ok (true, true) := by
  rcases h with rfl | rfl <;> decide +kernel

/-- The store takes the descriptor 5 for 0, and the descriptor 261 for 256. -/
theorem afterStrayRequest_process (fd x : Int) (h : (fd, x) = (5, 0) ∨ (fd, x) = (261, 256)) :
    ((afterStrayRequest fd >>= fun r => r.2.processStray noFiles).map fun r => (r.1.mSockfd, r.2)) =
      .ok (x, modfd x .epollout) := by
  rcases h with ⟨rfl, rfl⟩ | ⟨rfl, rfl⟩ <;> decide +kernel

/-- The array is left. -/
theorem afterStrayRequest_fault :
    ((afterStrayRequest 5 >>= fun r => r.2.process noFiles).map fun _ => ()) =
      .error .outOfBounds := by
  decide +kernel

/-- What `process` does to the object of a client that sent the request. -/
theorem exists_strayed {fd x : Int} (h : (fd, x) = (5, 0) ∨ (fd, x) = (261, 256)) :
    ∃ c c', afterStrayRequest fd = .ok (true, c) ∧
      c.strayCall ≠ none ∧ c.processStray noFiles = .ok (c', modfd x .epollout) ∧ c'.mSockfd = x := by
  have hfd : fd = 5 ∨ fd = 261 := h.imp (congrArg Prod.fst) (congrArg Prod.fst)
  have hread := afterStrayRequest_stray fd hfd
  have hprocess := afterStrayRequest_process fd x h
  cases hafter : afterStrayRequest fd with
  | error e =>
    rw [hafter] at hread
    cases hread
  | ok r =>
    obtain ⟨ok, c⟩ := r
    rw [hafter] at hread hprocess
    obtain ⟨rfl, hstray⟩ := Prod.mk.inj (Except.ok.inj hread)
    simp only [ok_bind] at hprocess
    cases hdone : c.processStray noFiles with
    | error e =>
      rw [hdone] at hprocess
      cases hprocess
    | ok r =>
      obtain ⟨c', effects⟩ := r
      rw [hdone] at hprocess
      obtain ⟨hsock, heffects⟩ := Prod.mk.inj (Except.ok.inj hprocess)
      refine ⟨c, c', rfl, Option.isSome_iff_ne_none.mp hstray, ?_, hsock⟩
      rw [hdone]
      exact congrArg (fun e => Except.ok (c', e)) heffects

/-! ## The runs -/

section Runs

variable {W : Type} [DecidableEq W] {s : Server W} {fd x : Int} {c c' : HttpConn} {w : W}

/-- The server after the call of `process` that has taken the descriptor for `x`. -/
def strayed (s : Server W) (w : W) (fd x : Int) (c : HttpConn) : Server W :=
  Server.setUser { s with working := Function.update s.working w none } fd c (modfd x .epollout)

/-- The other descriptor is armed if it is registered. -/
theorem strayed_armed {r : Registration} (h : s.epoll x = some r) :
    strayed s w fd x c =
      { s with
        users := Function.update s.users fd c
        epoll := Function.update s.epoll x (some ⟨some .epollout, true⟩)
        working := Function.update s.working w none } := by
  simp [strayed, Server.setUser, Server.applyEffects, modfd, Server.applyEffect, h]

/-- Nothing is armed if the other descriptor is not registered. -/
theorem strayed_unregistered (h : s.epoll x = none) :
    strayed s w fd x c =
      { s with
        users := Function.update s.users fd c
        working := Function.update s.working w none } := by
  simp [strayed, Server.setUser, Server.applyEffects, modfd, Server.applyEffect, h]

/-- The call of `process` for the request. -/
theorem turn_strayed (hw : s.working w = some fd) (huser : s.users fd = c) (hc : c.strayCall ≠ none)
    (hprocess : c.processStray noFiles = .ok (c', modfd x .epollout)) :
    Turn s (.process w noFiles) (strayed s w fd x c') := by
  refine .stray w fd noFiles hw (by rwa [huser]) ?_
  rw [Server.workStray, huser, hprocess]
  rfl

instance : NeZero defaultThreadNumber := ⟨by decide⟩

/-- The first client sends the request, and a worker takes it. -/
theorem exists_strayRequest : ∃ (s : Server (Fin defaultThreadNumber)) (c' : HttpConn),
    Run Step (fun _ _ => True) (Server.start fun _ => default) s ∧
      Turn s (.process 0 noFiles) (strayed s 0 5 0 c') ∧ c'.mSockfd = 0 ∧ Open s 5 ∧
      s.epoll 0 = none ∧ s.epoll 5 = some ⟨none, true⟩ ∧ s.pending = [] ∧ s.queue = [] ∧
      (∀ w, s.working w = some 5 ↔ w = 0) ∧ s.happens (.process 0 noFiles) = [] := by
  obtain ⟨s, hrun, h⟩ := exists_joined 1 (by decide)
  obtain ⟨c, c', hread, hstray, hprocess, hsock⟩ := exists_strayed (.inl rfl)
  obtain ⟨hopen, harmed, huser⟩ := h.armed 5 (by decide) (by decide)
  have hlisten := h.listenfd
  have hfault := afterStrayRequest_fault
  rw [hread, ok_bind] at hfault
  rw [afterStrayRequest, ← huser] at hread
  have hrequested := run_requested h.pending harmed (by omega) hread (by
    rw [h.queue]
    exact Nat.zero_le _)
  have htake : Step (requested s 5 c) (.take 0) (given (requested s 5 c) 0 5 []) :=
    step_given (h.idle 0) (by rw [requested_queue, h.queue, List.nil_append])
  have hturn : Turn (given (requested s 5 c) 0 5 []) (.process 0 noFiles)
      (strayed (given (requested s 5 c) 0 5 []) 0 5 0 c') :=
    turn_strayed (by simp) (by simp) hstray hprocess
  have hepoll := requested_epoll (c := c) harmed
  refine ⟨_, c', (hrun.trans hrequested).step htake trivial, hturn, hsock, hopen, ?_, ?_, rfl, rfl,
    fun w => ?_, ?_⟩
  · show (requested s 5 c).epoll 0 = none
    rw [hepoll, Function.update_of_ne (by decide)]
    exact h.unregistered
  · show (requested s 5 c).epoll 5 = _
    rw [hepoll, Function.update_self]
  · show Function.update s.working 0 (some 5) w = some 5 ↔ w = 0
    by_cases hw : w = 0
    · rw [hw, Function.update_self]
      simp
    · rw [Function.update_of_ne hw, h.idle w]
      simp [hw]
  · have hworking : (given (requested s 5 c) 0 5 []).working 0 = some 5 := by simp
    have huser' : (given (requested s 5 c) 0 5 []).users 5 = c := by simp
    simp only [Server.happens, hworking, Server.workHappens, huser']
    cases hdone : c.process noFiles with
    | error e => rfl
    | ok r =>
      rw [hdone] at hfault
      cases hfault

/-- Of 257 clients the last one sends the request, and another one a byte. Two workers take
their objects. -/
theorem exists_strayRequests : ∃ (s : Server (Fin defaultThreadNumber)) (c' : HttpConn),
    Run Step (fun _ _ => True) (Server.start fun _ => default) s ∧
      Turn s (.process 1 noFiles) (strayed s 1 261 256 c') ∧ s.working 0 = some 256 ∧
      s.epoll 256 = some ⟨none, true⟩ := by
  obtain ⟨s, hrun, h⟩ := exists_joined 257 (by decide)
  obtain ⟨c₁, hread₁, -⟩ := read_oneByte default 256
  obtain ⟨c, c', hread, hstray, hprocess, -⟩ := exists_strayed (.inr rfl)
  obtain ⟨-, harmed₁, huser₁⟩ := h.armed 256 (by decide) (by decide)
  obtain ⟨-, harmed, huser⟩ := h.armed 261 (by decide) (by decide)
  have hlisten := h.listenfd
  have hqueue := h.queue
  have hmax : 1 ≤ s.maxRequests := h.room
  rw [afterStrayRequest] at hread
  rw [← huser₁] at hread₁
  have hrun₁ := run_requested h.pending harmed₁ (by omega) hread₁ (by
    rw [hqueue]
    exact Nat.zero_le _)
  have hepoll₁ := requested_epoll (c := c₁) harmed₁
  have harmed₂ : (requested s 256 c₁).epoll 261 = some ⟨some .epollin, true⟩ := by
    rw [hepoll₁, Function.update_of_ne (by decide)]
    exact harmed
  have huser₂ : (requested s 256 c₁).users 261 = ((default : HttpConn).initConn 261).1 := by
    rw [requested_users, Function.update_of_ne (by decide)]
    exact huser
  rw [← huser₂] at hread
  have hrun₂ := run_requested (s := requested s 256 c₁) rfl harmed₂ (by
    show (261 : Int) ≠ s.listenfd
    omega) hread (by
    show (s.queue ++ [(256 : Int)]).length ≤ s.maxRequests
    rw [hqueue]
    exact hmax)
  have hepoll₂ := requested_epoll (s := requested s 256 c₁) (c := c) harmed₂
  let s₂ := requested (requested s 256 c₁) 261 c
  have hqueue₂ : s₂.queue = [256, 261] := by
    rw [requested_queue, requested_queue, hqueue]
    rfl
  have htake₁ : Step s₂ (.take 0) (given s₂ 0 256 [261]) := step_given (h.idle 0) hqueue₂
  have htake₂ : Step (given s₂ 0 256 [261]) (.take 1) (given (given s₂ 0 256 [261]) 1 261 []) := by
    refine step_given ?_ rfl
    rw [given_working, Function.update_of_ne (by decide)]
    exact h.idle 1
  have hturn : Turn (given (given s₂ 0 256 [261]) 1 261 []) (.process 1 noFiles)
      (strayed (given (given s₂ 0 256 [261]) 1 261 []) 1 261 256 c') :=
    turn_strayed (by simp) (by simp [s₂]) hstray hprocess
  refine ⟨_, c', (((hrun.trans hrun₁).trans hrun₂).step htake₁ trivial).step htake₂ trivial, hturn, ?_, ?_⟩
  · rw [given_working, given_working, Function.update_of_ne (by decide), Function.update_self]
  · show (requested (requested s 256 c₁) 261 c).epoll 256 = _
    rw [hepoll₂, Function.update_of_ne (by decide), hepoll₁, Function.update_self]

end Runs

end ServerListings.Interface
