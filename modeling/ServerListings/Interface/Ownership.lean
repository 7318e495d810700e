import ServerListings.Interface.HandlerEffects
import ServerListings.Lib.Custody

/-!
# Who owns a connection

An open connection can be armed in the epoll table, the subject of an event that `main` has
not handled yet, in the work queue, or taken by a worker. `Owned` says that these places
exclude one another, and what the tables of the kernel have to look like for that. The rules
of this module are about one change of the state each; between the removal of an event or a
request and the end of its handling, its connection is at no place.
-/

set_option autoImplicit false

namespace ServerListings.Interface

open Lib.CMem Lib.Custody ServerListings.Model ServerListings.Model.Http ServerListings.Model.WebServer

/-- The places of a connection. -/
inductive Place (W : Type)
  | armed
  | delivered
  | queued
  | taken (w : W)
  deriving DecidableEq, Repr

section Ownership

variable {W : Type}

/-- The descriptor is at a place. -/
def IsAt (s : Server W) (fd : Int) : Place W → Prop
  | .armed => ∃ i, s.epoll fd = some ⟨some i, true⟩
  | .delivered => fd ≠ s.listenfd ∧ fd ∈ s.pending.map Delivered.fd
  | .queued => fd ∈ s.queue
  | .taken w => s.working w = some fd

/-- The descriptor is that of a client connection that was not closed yet. -/
def Open (s : Server W) (fd : Int) : Prop := s.descriptors fd = some .client

/-- The tables of the kernel and the objects agree with one another: only the listening socket
and the open connections are registered, the connections as one-shot entries, and the object
of an open connection has its descriptor. -/
structure Tables (s : Server W) : Prop where
  socket : ∀ fd, Open s fd → (s.users fd).mSockfd = fd ∧ ∃ i, s.epoll fd = some ⟨i, true⟩
  registered : ∀ fd r, s.epoll fd = some r → fd = s.listenfd ∨ Open s fd
  listening : s.descriptors s.listenfd = some .other
  listener : ∀ r, s.epoll s.listenfd = some r → r.oneShot = false
  negative : s.descriptors (-1) = none

/-- The invariant: each connection has at most one place, only open connections have one, and
the queue and the batch hold nothing twice, and each event of the batch has a flag that `main`
tests. -/
structure Owned (s : Server W) (owner : Int → Option (Place W)) : Prop extends Tables s where
  places : Placed (IsAt s) owner
  open_of_at : ∀ fd p, IsAt s fd p → Open s fd
  pendingNodup : (s.pending.map Delivered.fd).Nodup
  flagged : ∀ d ∈ s.pending, d.events.closing ∨ d.events.readable ∨ d.events.writable
  queueNodup : s.queue.Nodup

variable {s s' : Server W} {owner : Int → Option (Place W)} {fd : Int} {c : HttpConn} {i : Interest}

/-- The listening socket is no connection. -/
theorem Tables.ne_listenfd (h : Tables s) (ho : Open s fd) : fd ≠ s.listenfd := by
  rintro rfl
  rw [Open, h.listening] at ho
  cases ho

/-- No connection has the descriptor -1. -/
theorem Tables.ne_negative (h : Tables s) (ho : Open s fd) : fd ≠ -1 := by
  rintro rfl
  rw [Open, h.negative] at ho
  cases ho

/-- A descriptor that is not open is not registered. -/
theorem Tables.epoll_none (h : Tables s) (hfd : s.descriptors fd = none) : s.epoll fd = none := by
  cases he : s.epoll fd with
  | none => rfl
  | some r =>
    rcases h.registered fd r he with rfl | ho
    · rw [h.listening] at hfd
      cases hfd
    · rw [ho] at hfd
      cases hfd

/-! ## Arming and closing -/

/-- `EPOLL_CTL_MOD` on an open connection. -/
theorem applyEffect_mod (h : Tables s) (ho : Open s fd) (i : Interest) :
    s.applyEffect (.epollMod fd i) =
      { s with epoll := Function.update s.epoll fd (some ⟨some i, true⟩) } := by
  obtain ⟨-, j, hj⟩ := h.socket fd ho
  simp only [Server.applyEffect, hj, Option.isNone_some, Bool.false_eq_true, if_false]

/-- Arming a connection that is at no place, or armed already. -/
theorem Owned.arm (h : Owned s owner) (ho : Open s fd) (hnone : owner fd = none) (i : Interest) :
    Owned (s.applyEffect (.epollMod fd i)) (Function.update owner fd (some .armed)) := by
  rw [applyEffect_mod h.toTables ho]
  have hat : ∀ x q, IsAt { s with epoll := Function.update s.epoll fd (some ⟨some i, true⟩) } x q ↔
      IsAt s x q ∨ (x = fd ∧ q = .armed) := by
    intro x q
    cases q with
    | armed =>
      by_cases hx : x = fd
      · simp only [IsAt, hx, Function.update_self, true_and, or_true, iff_true]
        exact ⟨i, rfl⟩
      · simp only [IsAt, Function.update_of_ne hx, hx, false_and, or_false]
    | _ => simp [IsAt]
  have hne := h.ne_listenfd ho
  refine ⟨⟨?_, ?_, h.listening, ?_, h.negative⟩, h.places.assign hnone hat, ?_, h.pendingNodup,
    h.flagged, h.queueNodup⟩
  · intro x hx
    refine ⟨(h.socket x hx).1, ?_⟩
    by_cases hxf : x = fd
    · exact ⟨some i, by rw [hxf]; exact Function.update_self ..⟩
    · obtain ⟨j, hj⟩ := (h.socket x hx).2
      exact ⟨j, (Function.update_of_ne hxf ..).trans hj⟩
  · intro x r hr
    by_cases hxf : x = fd
    · exact Or.inr (hxf ▸ ho)
    · exact h.registered x r ((Function.update_of_ne hxf ..).symm.trans hr)
  · intro r hr
    exact h.listener r ((Function.update_of_ne hne.symm ..).symm.trans hr)
  · intro x p hp
    rcases (hat x p).mp hp with hp | ⟨rfl, -⟩
    · exact h.open_of_at x p hp
    · exact ho

/-- The object of a connection changes, but not its socket. -/
theorem Owned.setConn (h : Owned s owner) (hc : c.mSockfd = fd) :
    Owned { s with users := Function.update s.users fd c } owner := by
  refine ⟨⟨?_, h.registered, h.listening, h.listener, h.negative⟩, h.places.congr fun x q => ?_,
    fun x p hp => h.open_of_at x p ?_, h.pendingNodup, h.flagged, h.queueNodup⟩
  · intro x hx
    refine ⟨?_, (h.socket x hx).2⟩
    by_cases hxf : x = fd
    · rw [hxf]
      exact (congrArg HttpConn.mSockfd (Function.update_self ..)).trans hc
    · exact (congrArg HttpConn.mSockfd (Function.update_of_ne hxf ..)).trans (h.socket x hx).1
  · cases q <;> rfl
  · cases p <;> exact hp

/-- The state after a connection was closed. -/
def closed (s : Server W) (fd : Int) (c : HttpConn) : Server W :=
  { s with
    users := Function.update s.users fd c
    userCount := s.userCount - 1
    descriptors := Function.update s.descriptors fd none
    epoll := Function.update s.epoll fd none }

/-- One connection is open no more. -/
theorem open_closed (x : Int) : Open (closed s fd c) x ↔ x ≠ fd ∧ Open s x := by
  by_cases hx : x = fd
  · simp [Open, closed, hx]
  · simp [Open, closed, hx]

/-- The tables agree after a connection was closed. -/
theorem Tables.closed (h : Tables s) (ho : Open s fd) (c : HttpConn) : Tables (closed s fd c) := by
  have hne := h.ne_listenfd ho
  refine ⟨?_, ?_, ?_, ?_, ?_⟩
  · intro x hx
    obtain ⟨hxf, hx⟩ := (open_closed x).mp hx
    obtain ⟨hsock, j, hj⟩ := h.socket x hx
    refine ⟨?_, j, (Function.update_of_ne hxf ..).trans hj⟩
    exact (congrArg HttpConn.mSockfd (Function.update_of_ne hxf ..)).trans hsock
  · intro x r hr
    have hxf : x ≠ fd := by
      rintro rfl
      cases (Function.update_self ..).symm.trans hr
    rcases h.registered x r ((Function.update_of_ne hxf ..).symm.trans hr) with hl | hx
    · exact Or.inl hl
    · exact Or.inr ((open_closed x).mpr ⟨hxf, hx⟩)
  · exact (Function.update_of_ne hne.symm ..).trans h.listening
  · intro r hr
    exact h.listener r ((Function.update_of_ne hne.symm ..).symm.trans hr)
  · exact (Function.update_of_ne (h.ne_negative ho).symm ..).trans h.negative

/-- Closing a connection that is at no place but the epoll table. -/
theorem Owned.close (h : Owned s owner) (ho : Open s fd) (c : HttpConn)
    (hplace : ∀ p, owner fd = some p → p = .armed) :
    Owned (closed s fd c) (Function.update owner fd none) := by
  have hat : ∀ x q, x ≠ fd → (IsAt (closed s fd c) x q ↔ IsAt s x q) := by
    intro x q hx
    cases q with
    | armed => simp only [IsAt, closed, Function.update_of_ne hx]
    | _ => rfl
  have hgone : ∀ q, ¬ IsAt (closed s fd c) fd q := by
    intro q hq
    cases q with
    | armed =>
      obtain ⟨j, hj⟩ := hq
      cases (Function.update_self ..).symm.trans hj
    | delivered => cases hplace _ ((h.places fd .delivered).mp hq)
    | queued => cases hplace _ ((h.places fd .queued).mp hq)
    | taken w => cases hplace _ ((h.places fd (.taken w)).mp hq)
  have hsub : ∀ x q, IsAt (closed s fd c) x q → x ≠ fd ∧ IsAt s x q := by
    intro x q hq
    by_cases hx : x = fd
    · exact absurd (hx ▸ hq) (hgone q)
    · exact ⟨hx, (hat x q hx).mp hq⟩
  refine ⟨h.toTables.closed ho c, ?_, ?_, h.pendingNodup, h.flagged, h.queueNodup⟩
  · apply h.places.release
    · intro x q hq
      exact (hsub x q hq).2
    · exact hgone
    · intro x q hx hq
      exact (hat x q hx).mpr hq
  · intro x p hp
    obtain ⟨hxf, hp⟩ := hsub x p hp
    exact (open_closed x).mpr ⟨hxf, h.open_of_at x p hp⟩

/-- What `close_conn` does to the server. -/
theorem setUser_removed (s : Server W) (fd : Int) (c : HttpConn) :
    s.setUser fd c (removefd fd ++ [.userCount (-1)]) = closed s fd c := by
  simp only [Server.setUser, Server.applyEffects, removefd, List.cons_append, List.nil_append,
    List.foldl_cons, List.foldl_nil, Server.applyEffect, Function.update_idem]
  rfl

/-- `close_conn` on the object of an open connection. -/
theorem closeConn_eq (h : Tables s) (ho : Open s fd) :
    s.closeConn fd = closed s fd { s.users fd with mSockfd := -1 } := by
  have hsock := (h.socket fd ho).1
  have hclose : (s.users fd).closeConn =
      ({ s.users fd with mSockfd := -1 }, removefd fd ++ [.userCount (-1)]) := by
    rw [HttpConn.closeConn, hsock, if_pos (h.ne_negative ho)]
  rw [Server.closeConn, hclose]
  exact setUser_removed s fd _

/-! ## The queue, the batch and the workers -/

/-- The effects that arm a descriptor also arm it in the model of the whole server. -/
theorem Owned.arms {effects : List Effect} (h : Owned s owner) (ho : Open s fd)
    (hnone : owner fd = none) (ha : Arms fd effects) :
    Owned (s.applyEffects effects) (Function.update owner fd (some .armed)) := by
  obtain ⟨i, hi⟩ := ha
  rw [hi]
  exact h.arm ho hnone i

/-- `append` of a connection that is at no place, while the queue is not over its limit. -/
theorem Owned.enqueue (h : Owned s owner) (ho : Open s fd) (hnone : owner fd = none) :
    Owned { s with queue := s.queue ++ [fd] } (Function.update owner fd (some .queued)) := by
  have hat : ∀ x q, IsAt { s with queue := s.queue ++ [fd] } x q ↔ IsAt s x q ∨ (x = fd ∧ q = .queued) := by
    intro x q
    cases q with
    | queued => simp [IsAt]
    | _ => simp [IsAt]
  refine ⟨⟨h.socket, h.registered, h.listening, h.listener, h.negative⟩, h.places.assign hnone hat, ?_,
    h.pendingNodup, h.flagged, ?_⟩
  · intro x p hp
    rcases (hat x p).mp hp with hp | ⟨rfl, -⟩
    · exact h.open_of_at x p hp
    · exact ho
  · rw [List.nodup_append]
    refine ⟨h.queueNodup, List.pairwise_singleton _ fd, ?_⟩
    rintro x hx y hy rfl
    rw [List.mem_singleton.mp hy] at hx
    exact h.places.not_rel hnone .queued hx

/-- The rest of a batch has events of other descriptors only. -/
theorem Owned.rest {d : Delivered} {rest : List Delivered} (h : Owned s owner)
    (hp : s.pending = d :: rest) :
    d.fd ∉ rest.map Delivered.fd ∧ (rest.map Delivered.fd).Nodup ∧
      ∀ e ∈ rest, e.events.closing ∨ e.events.readable ∨ e.events.writable := by
  have hnodup := h.pendingNodup
  rw [hp, List.map_cons, List.nodup_cons] at hnodup
  refine ⟨hnodup.1, hnodup.2, fun e he => ?_⟩
  apply h.flagged
  rw [hp]
  exact List.mem_cons_of_mem _ he

/-- `main` goes on to the next event of the batch: the connection of the event is at no place
then. -/
theorem Owned.nextEvent {d : Delivered} {rest : List Delivered} (h : Owned s owner)
    (hp : s.pending = d :: rest) (hd : d.fd ≠ s.listenfd) :
    Open s d.fd ∧ Owned { s with pending := rest } (Function.update owner d.fd none) := by
  have hat : IsAt s d.fd .delivered := ⟨hd, by rw [hp]; exact List.mem_cons_self⟩
  obtain ⟨hother, hnodup, hflag⟩ := h.rest hp
  have hsub : ∀ x q, IsAt { s with pending := rest } x q → IsAt s x q := by
    intro x q hq
    cases q with
    | delivered =>
      refine ⟨hq.1, ?_⟩
      rw [hp]
      exact List.mem_cons_of_mem _ hq.2
    | _ => exact hq
  refine ⟨h.open_of_at _ _ hat, ⟨h.socket, h.registered, h.listening, h.listener, h.negative⟩, ?_, ?_,
    hnodup, hflag, h.queueNodup⟩
  · apply h.places.release hsub
    · intro q hq
      obtain rfl := h.places.unique hat (hsub _ q hq)
      exact hother hq.2
    · intro x q hx hq
      cases q with
      | delivered =>
        refine ⟨hq.1, ?_⟩
        have hmem := hq.2
        rw [hp, List.map_cons, List.mem_cons] at hmem
        exact hmem.resolve_left hx
      | _ => exact hq
  · intro x p hx
    exact h.open_of_at x p (hsub x p hx)

/-- The same for an event of the listening socket. -/
theorem Owned.nextAccept {d : Delivered} {rest : List Delivered} (h : Owned s owner)
    (hp : s.pending = d :: rest) (hd : d.fd = s.listenfd) :
    Owned { s with pending := rest } owner := by
  obtain ⟨-, hnodup, hflag⟩ := h.rest hp
  have hat : ∀ x q, IsAt { s with pending := rest } x q ↔ IsAt s x q := by
    intro x q
    cases q with
    | delivered =>
      simp only [IsAt, hp, List.map_cons, List.mem_cons]
      constructor
      · rintro ⟨hx, hmem⟩
        exact ⟨hx, Or.inr hmem⟩
      · rintro ⟨hx, heq | hmem⟩
        · exact absurd (heq.trans hd) hx
        · exact ⟨hx, hmem⟩
    | _ => rfl
  exact ⟨⟨h.socket, h.registered, h.listening, h.listener, h.negative⟩, h.places.congr hat,
    fun x p hx => h.open_of_at x p ((hat x p).mp hx), hnodup, hflag, h.queueNodup⟩

/-- The state after `accept` returned a descriptor and `init` was called for it. -/
def accepted (s : Server W) (fd : Int) (c : HttpConn) : Server W :=
  { s with
    users := Function.update s.users fd c
    userCount := s.userCount + 1
    descriptors := Function.update s.descriptors fd (some .client)
    epoll := Function.update s.epoll fd (some ⟨some .epollin, true⟩) }

/-- One more connection is open. -/
theorem open_accepted (x : Int) : Open (accepted s fd c) x ↔ x = fd ∨ Open s x := by
  by_cases hx : x = fd
  · simp [Open, accepted, hx]
  · simp [Open, accepted, hx]

/-- The tables agree after a connection was accepted. -/
theorem Tables.accepted (h : Tables s) (hnew : s.descriptors fd = none) (hpos : 0 ≤ fd)
    (hc : c.mSockfd = fd) : Tables (accepted s fd c) := by
  have hlisten : s.listenfd ≠ fd := by
    rintro rfl
    rw [h.listening] at hnew
    cases hnew
  refine ⟨?_, ?_, ?_, ?_, ?_⟩
  · intro x hx
    by_cases hxf : x = fd
    · rw [hxf]
      refine ⟨?_, some .epollin, Function.update_self ..⟩
      exact (congrArg HttpConn.mSockfd (Function.update_self ..)).trans hc
    · obtain ⟨hsock, j, hj⟩ := h.socket x (((open_accepted x).mp hx).resolve_left hxf)
      refine ⟨?_, j, (Function.update_of_ne hxf ..).trans hj⟩
      exact (congrArg HttpConn.mSockfd (Function.update_of_ne hxf ..)).trans hsock
  · intro x r hr
    by_cases hxf : x = fd
    · exact Or.inr ((open_accepted x).mpr (Or.inl hxf))
    · rcases h.registered x r ((Function.update_of_ne hxf ..).symm.trans hr) with hl | hx
      · exact Or.inl hl
      · exact Or.inr ((open_accepted x).mpr (Or.inr hx))
  · exact (Function.update_of_ne hlisten ..).trans h.listening
  · intro r hr
    exact h.listener r ((Function.update_of_ne hlisten ..).symm.trans hr)
  · exact (Function.update_of_ne (by omega : (-1 : Int) ≠ fd) ..).trans h.negative

/-- A new connection is armed. -/
theorem Owned.accept (h : Owned s owner) (hnew : s.descriptors fd = none) (hpos : 0 ≤ fd)
    (hc : c.mSockfd = fd) : Owned (accepted s fd c) (Function.update owner fd (some .armed)) := by
  have hnone : owner fd = none := by
    apply h.places.eq_none
    intro p hp
    have hopen := h.open_of_at fd p hp
    rw [Open, hnew] at hopen
    cases hopen
  have hat : ∀ x q, IsAt (accepted s fd c) x q ↔ IsAt s x q ∨ (x = fd ∧ q = .armed) := by
    intro x q
    cases q with
    | armed =>
      by_cases hx : x = fd
      · simp only [IsAt, accepted, hx, Function.update_self, true_and, or_true, iff_true]
        exact ⟨.epollin, rfl⟩
      · simp only [IsAt, accepted, Function.update_of_ne hx, hx, false_and, or_false]
    | _ => simp [IsAt, accepted]
  refine ⟨h.toTables.accepted hnew hpos hc, h.places.assign hnone hat, ?_, h.pendingNodup, h.flagged,
    h.queueNodup⟩
  intro x p hp
  rcases (hat x p).mp hp with hp | ⟨rfl, -⟩
  · exact (open_accepted x).mpr (Or.inr (h.open_of_at x p hp))
  · exact (open_accepted x).mpr (Or.inl rfl)

/-- The connection is in the batch. -/
def InBatch (s : Server W) (batch : List Delivered) (fd : Int) : Prop :=
  fd ≠ s.listenfd ∧ fd ∈ batch.map Delivered.fd

section Deliver

variable {batch : List Delivered}

/-- The events that are reported are those of armed connections. -/
theorem InBatch.armed (hin : InBatch s batch fd) (h : Tables s) (hrep : ∀ d ∈ batch, s.Reported d) :
    IsAt s fd .armed := by
  obtain ⟨hne, hmem⟩ := hin
  obtain ⟨d, hd, rfl⟩ := List.mem_map.mp hmem
  obtain ⟨r, i, hr, hi, -⟩ := hrep d hd
  obtain ⟨j, hj⟩ := (h.socket d.fd ((h.registered d.fd r hr).resolve_left hne)).2
  rw [hr] at hj
  obtain rfl := Option.some.inj hj
  obtain rfl : j = some i := hi
  exact ⟨i, hr⟩

/-- A connection with an event is disarmed. -/
theorem InBatch.disarmed (hin : InBatch s batch fd) (harmed : IsAt s fd .armed) :
    (s.deliver batch).epoll fd = some ⟨none, true⟩ := by
  obtain ⟨i, hi⟩ := harmed
  simp only [Server.deliver, if_pos hin.2, hi]
  rfl

/-- The entry of the listening socket is no one-shot entry. -/
theorem deliver_epoll (h : Tables s) (hin : ¬ InBatch s batch fd) :
    (s.deliver batch).epoll fd = s.epoll fd := by
  by_cases hmem : fd ∈ batch.map Delivered.fd
  · obtain rfl : fd = s.listenfd := by
      by_contra hne
      exact hin ⟨hne, hmem⟩
    simp only [Server.deliver, if_pos hmem]
    cases he : s.epoll s.listenfd with
    | none => rfl
    | some r => simp [h.listener r he]
  · simp only [Server.deliver, if_neg hmem]

/-- The connections in the batch are at this place and no other. -/
theorem isAt_deliver (hin : InBatch s batch fd) (h : Owned s owner) (hrep : ∀ d ∈ batch, s.Reported d)
    (q : Place W) : IsAt (s.deliver batch) fd q ↔ q = .delivered := by
  have harmed := hin.armed h.toTables hrep
  have hone : ∀ q, IsAt s fd q → .armed = q := fun q hq => h.places.unique harmed hq
  cases q with
  | armed =>
    simp only [IsAt, hin.disarmed harmed]
    simp
  | delivered => exact ⟨fun _ => rfl, fun _ => hin⟩
  | queued =>
    constructor
    · intro hq
      cases hone .queued hq
    · intro hq
      cases hq
  | taken w =>
    constructor
    · intro hq
      cases hone (.taken w) hq
    · intro hq
      cases hq

/-- A connection without an event stays where it is. -/
theorem isAt_deliver_of_not (hin : ¬ InBatch s batch fd) (h : Tables s) (hempty : s.pending = [])
    (q : Place W) : IsAt (s.deliver batch) fd q ↔ IsAt s fd q := by
  cases q with
  | armed => simp only [IsAt, deliver_epoll h hin]
  | delivered =>
    simp only [IsAt, hempty, List.map_nil, List.not_mem_nil, and_false, iff_false]
    exact hin
  | _ => rfl

/-- The tables agree after a batch was returned. -/
theorem Tables.deliver (h : Tables s) (hrep : ∀ d ∈ batch, s.Reported d) : Tables (s.deliver batch) := by
  refine ⟨?_, ?_, h.listening, ?_, h.negative⟩
  · intro x hx
    obtain ⟨hsock, j, hj⟩ := h.socket x hx
    refine ⟨hsock, ?_⟩
    by_cases hin : InBatch s batch x
    · exact ⟨none, hin.disarmed (hin.armed h hrep)⟩
    · exact ⟨j, (deliver_epoll h hin).trans hj⟩
  · intro x r hr
    by_cases hin : InBatch s batch x
    · obtain ⟨i, hi⟩ := hin.armed h hrep
      exact h.registered x _ hi
    · exact h.registered x r ((deliver_epoll h hin).symm.trans hr)
  · intro r hr
    exact h.listener r ((deliver_epoll h fun hin => hin.1 rfl).symm.trans hr)

/-- `epoll_wait` returns a batch: the connections in it are not armed any more. -/
theorem Owned.deliver (h : Owned s owner) (hempty : s.pending = [])
    (hnodup : (batch.map Delivered.fd).Nodup) (hrep : ∀ d ∈ batch, s.Reported d) :
    ∃ owner', (∀ x, owner' x = none → owner x = none) ∧ Owned (s.deliver batch) owner' := by
  classical
  refine ⟨fun x => if InBatch s batch x then some .delivered else owner x, ?_,
    ⟨h.toTables.deliver hrep, ?_, ?_, hnodup, ?_, h.queueNodup⟩⟩
  · intro x hx
    by_cases hin : InBatch s batch x
    · simp only [if_pos hin] at hx
      cases hx
    · simpa only [if_neg hin] using hx
  · apply h.places.gather (InBatch s batch)
    · intro x q hin
      exact isAt_deliver hin h hrep q
    · intro x q hin
      exact isAt_deliver_of_not hin h.toTables hempty q
  · intro x p hp
    by_cases hin : InBatch s batch x
    · exact h.open_of_at x _ (hin.armed h.toTables hrep)
    · exact h.open_of_at x p ((isAt_deliver_of_not hin h.toTables hempty p).mp hp)
  · intro d hd
    obtain ⟨r, i, -, -, -, -, hflags⟩ := hrep d hd
    exact hflags

end Deliver

section Workers

variable [DecidableEq W] {w : W}

/-- A worker takes the first request of the queue. -/
theorem Owned.take {rest : List Int} (h : Owned s owner) (hidle : s.working w = none)
    (hq : s.queue = fd :: rest) :
    ∃ owner', (∀ x, owner' x = none → owner x = none) ∧
      Owned { s with queue := rest, working := Function.update s.working w (some fd) } owner' := by
  have hat : IsAt s fd .queued := by
    rw [IsAt, hq]
    exact List.mem_cons_self
  have hnodup := h.queueNodup
  rw [hq, List.nodup_cons] at hnodup
  have hsub : ∀ x q, IsAt { s with queue := rest } x q → IsAt s x q := by
    intro x q hx
    cases q with
    | queued =>
      rw [IsAt, hq]
      exact List.mem_cons_of_mem _ hx
    | _ => exact hx
  have hleave : Placed (IsAt { s with queue := rest }) (Function.update owner fd none) := by
    apply h.places.release hsub
    · intro q hx
      obtain rfl := h.places.unique hat (hsub _ q hx)
      exact hnodup.1 hx
    · intro x q hx hx'
      cases q with
      | queued =>
        rw [IsAt, hq, List.mem_cons] at hx'
        exact hx'.resolve_left hx
      | _ => exact hx'
  have hcome : ∀ x q,
      IsAt { s with queue := rest, working := Function.update s.working w (some fd) } x q ↔
        IsAt { s with queue := rest } x q ∨ (x = fd ∧ q = .taken w) := by
    intro x q
    cases q with
    | taken v =>
      by_cases hv : v = w
      · simp only [IsAt, hv, Function.update_self, hidle, Option.some.injEq, reduceCtorEq, and_true,
          false_or]
        exact eq_comm
      · simp only [IsAt, Function.update_of_ne hv, Place.taken.injEq, hv, and_false, or_false]
    | _ => simp [IsAt]
  refine ⟨_, ?_, ⟨h.socket, h.registered, h.listening, h.listener, h.negative⟩,
    hleave.assign (Function.update_self ..) hcome, ?_, h.pendingNodup, h.flagged, hnodup.2⟩
  · intro x hx
    by_cases hxf : x = fd
    · rw [hxf, Function.update_self] at hx
      cases hx
    · rwa [Function.update_of_ne hxf, Function.update_of_ne hxf] at hx
  · intro x p hx
    rcases (hcome x p).mp hx with hx | ⟨rfl, -⟩
    · exact h.open_of_at x p (hsub x p hx)
    · exact h.open_of_at x _ hat

/-- A worker is done with its request: the connection is at no place then. -/
theorem Owned.giveBack (h : Owned s owner) (hw : s.working w = some fd) :
    Open s fd ∧
      Owned { s with working := Function.update s.working w none } (Function.update owner fd none) := by
  have hat : IsAt s fd (.taken w) := hw
  have hsub : ∀ x q, IsAt { s with working := Function.update s.working w none } x q → IsAt s x q := by
    intro x q hx
    cases q with
    | taken v =>
      by_cases hv : v = w
      · simp only [IsAt, hv, Function.update_self] at hx
        cases hx
      · simpa only [IsAt, Function.update_of_ne hv] using hx
    | _ => exact hx
  refine ⟨h.open_of_at _ _ hat, ⟨h.socket, h.registered, h.listening, h.listener, h.negative⟩, ?_, ?_,
    h.pendingNodup, h.flagged, h.queueNodup⟩
  · apply h.places.release hsub
    · intro q hx
      obtain rfl := h.places.unique hat (hsub _ q hx)
      simp only [IsAt, Function.update_self] at hx
      cases hx
    · intro x q hx hx'
      cases q with
      | taken v =>
        have hv : v ≠ w := by
          rintro rfl
          exact hx (Option.some.inj (hx'.symm.trans hw))
        simpa only [IsAt, Function.update_of_ne hv] using hx'
      | _ => exact hx'
  · intro x p hx
    exact h.open_of_at x p (hsub x p hx)

end Workers

end Ownership

end ServerListings.Interface
