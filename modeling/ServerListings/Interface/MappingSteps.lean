import Mathlib.Data.List.Nodup
import ServerListings.Interface.FileMapping
import ServerListings.Interface.ServerFrames
import ServerListings.Interface.ServerSteps

/-!
# The mappings in the steps of the server

The objects are slots that hold at most one mapping each. A step of the server moves at most
one slot (`SlotMoved`), and a slot that is filled waits in the epoll table for room in the socket
(`HoldUnsent`). This needs that no `mmap` fails and that no connection is closed for an event
while its object holds a mapping (`NoneLost`).
-/

set_option autoImplicit false

namespace ServerListings.Interface

open Lib.CMem Lib.Custody ServerListings.Model ServerListings.Model.Http ServerListings.Model.WebServer
  ServerListings.Interface.ServerFrames

def takes (fd : Int) (m : Int × Nat) : Mapping := .mmap fd m.1 m.2

def gives (fd : Int) (m : Int × Nat) : Mapping := .munmap fd m.1 m.2

/-- What can happen to the slots, with the calls that are made. -/
inductive SlotMoved (slots slots' : Int → Option (Int × Nat)) (fd : Int) : List Mapping → Prop
  | same (h : slots' = slots) : SlotMoved slots slots' fd []
  | init (hnone : slots fd = none) (h : slots' = slots) : SlotMoved slots slots' fd [.init fd]
  | fill (m : Int × Nat) (hnone : slots fd = none)
      (h : slots' = Function.update slots fd (some m)) : SlotMoved slots slots' fd [takes fd m]
  | clear (m : Int × Nat) (hsome : slots fd = some m) (h : slots' = Function.update slots fd none) :
      SlotMoved slots slots' fd [gives fd m]

/-! ## The other connections -/

section Frame

variable {W : Type} {s s' s'' : Server W} {owner : Int → Option (Place W)} {fd x : Int} {c : HttpConn}
  {effects : List Effect}

/-- What the objects hold. -/
def slotsOf (s : Server W) (fd : Int) : Option (Int × Nat) := held (s.users fd)

/-- Only the connection `fd` is affected. -/
structure OnlyConn (s s' : Server W) (fd : Int) : Prop where
  users : ∀ x, x ≠ fd → s'.users x = s.users x
  epoll : ∀ x, x ≠ fd → s'.epoll x = s.epoll x
  pending : s'.pending = s.pending
  listenfd : s'.listenfd = s.listenfd

/-- Changes of one object one after the other. -/
theorem OnlyConn.trans (h : OnlyConn s s' fd) (h' : OnlyConn s' s'' fd) : OnlyConn s s'' fd :=
  ⟨fun x hx => (h'.users x hx).trans (h.users x hx), fun x hx => (h'.epoll x hx).trans (h.epoll x hx),
    h'.pending.trans h.pending, h'.listenfd.trans h.listenfd⟩

/-- The object of a connection is replaced. -/
theorem onlyConn_conn (s : Server W) (fd : Int) (c : HttpConn) :
    OnlyConn s { s with users := Function.update s.users fd c } fd :=
  ⟨fun _ hx => Function.update_of_ne hx .., fun _ _ => rfl, rfl, rfl⟩

/-- A connection is closed. -/
theorem onlyConn_closed (s : Server W) (fd : Int) (c : HttpConn) : OnlyConn s (closed s fd c) fd :=
  ⟨fun _ hx => Function.update_of_ne hx .., fun _ hx => Function.update_of_ne hx .., rfl, rfl⟩

/-- A connection is accepted. -/
theorem onlyConn_accepted (s : Server W) (fd : Int) (c : HttpConn) : OnlyConn s (accepted s fd c) fd :=
  ⟨fun _ hx => Function.update_of_ne hx .., fun _ hx => Function.update_of_ne hx .., rfl, rfl⟩

/-- A connection is armed. -/
theorem onlyConn_arms (s : Server W) (ha : Arms fd effects) : OnlyConn s (s.applyEffects effects) fd := by
  obtain ⟨i, hi⟩ := ha
  rw [hi]
  simp only [Server.applyEffect]
  split
  · exact ⟨fun _ _ => rfl, fun _ _ => rfl, rfl, rfl⟩
  · exact ⟨fun _ _ => rfl, fun _ hx => Function.update_of_ne hx .., rfl, rfl⟩

/-- A member function was called on the object. -/
theorem user_setUser (s : Server W) (fd : Int) (c : HttpConn) (effects : List Effect) :
    (s.setUser fd c effects).users fd = c := by
  rw [Server.setUser, (applyEffects_frame effects _).1]
  exact Function.update_self ..

/-- One slot changes with the object. -/
theorem OnlyConn.slots (h : OnlyConn s s' fd) :
    slotsOf s' = Function.update (slotsOf s) fd (held (s'.users fd)) := by
  funext x
  by_cases hx : x = fd
  · rw [hx, Function.update_self]
    rfl
  · rw [Function.update_of_ne hx, slotsOf, h.users x hx]
    rfl

/-- The slot of `fd` holds what it held. -/
theorem OnlyConn.slots_same (h : OnlyConn s s' fd) (heq : held (s'.users fd) = held (s.users fd)) :
    slotsOf s' = slotsOf s := by
  rw [h.slots, heq]
  exact Function.update_eq_self fd (slotsOf s)

/-! ## Waiting for room in the socket -/

/-- The response of the connection is prepared, and it is armed for `EPOLLOUT` or has been
reported, but not for `EPOLLIN`. -/
structure Unsent (s : Server W) (fd : Int) : Prop where
  writeIdx : (s.users fd).mWriteIdx ≠ 0
  place : s.epoll fd = some ⟨some .epollout, true⟩ ∨
    (fd ≠ s.listenfd ∧ ∃ d ∈ s.pending, d.fd = fd ∧ d.events.readable = false)

/-- The objects that hold a mapping wait. -/
def HoldUnsent (s : Server W) : Prop := ∀ fd, slotsOf s fd ≠ none → Unsent s fd

/-- A connection with an unsent response is armed or has an event. -/
theorem Unsent.isAt (h : Unsent s fd) : IsAt s fd .armed ∨ IsAt s fd .delivered := by
  rcases h.place with hp | ⟨hne, d, hd, rfl, -⟩
  · exact Or.inl ⟨_, hp⟩
  · exact Or.inr ⟨hne, List.mem_map_of_mem hd⟩

/-- A connection with an unsent response is open. -/
theorem Unsent.open (h : Unsent s fd) (howned : Owned s owner) : Open s fd := by
  rcases h.isAt with hat | hat
  · exact howned.open_of_at fd _ hat
  · exact howned.open_of_at fd _ hat

/-- A request that a worker has taken does not wait. -/
theorem HoldUnsent.taken {w : W} (h : HoldUnsent s) (howned : Owned s owner) (hw : s.working w = some fd) :
    slotsOf s fd = none := by
  by_contra hne
  rcases (h fd hne).isAt with hat | hat
  · cases howned.places.unique (show IsAt s fd (.taken w) from hw) hat
  · cases howned.places.unique (show IsAt s fd (.taken w) from hw) hat

/-- A free descriptor has an object that holds nothing. -/
theorem HoldUnsent.free (h : HoldUnsent s) (howned : Owned s owner) (hfree : s.descriptors fd = none) :
    slotsOf s fd = none := by
  by_contra hne
  have hopen := (h fd hne).open howned
  rw [Open, hfree] at hopen
  cases hopen

/-- A change of other connections leaves the response unsent. -/
theorem Unsent.congr (h : Unsent s x) (husers : s'.users x = s.users x)
    (hepoll : s'.epoll x = s.epoll x) (hlisten : s'.listenfd = s.listenfd)
    (hpending : ∀ d ∈ s.pending, d.fd = x → x ≠ s.listenfd → d ∈ s'.pending) : Unsent s' x := by
  refine ⟨?_, ?_⟩
  · rw [husers]
    exact h.writeIdx
  · rw [hepoll, hlisten]
    refine h.place.imp_right ?_
    rintro ⟨hne, d, hd, rfl, hread⟩
    exact ⟨hne, d, hpending d hd rfl hne, rfl, hread⟩

end Frame

/-! ## The handlers -/

section Handlers

variable {W : Type} {s s₁ s' : Server W} {owner : Int → Option (Place W)} {fd : Int}
  {events : List Mapping}

/-- A handler affects one connection and moves its slot; if the slot is filled afterwards, the
connection waits. -/
structure Turned (s s' : Server W) (fd : Int) (events : List Mapping) : Prop where
  others : OnlyConn s s' fd
  moved : SlotMoved (slotsOf s) (slotsOf s') fd events
  waits : slotsOf s' fd ≠ none → Unsent s' fd

/-- The slot is empty and stays so. -/
theorem turned_empty (hothers : OnlyConn s s' fd) (hnone : held (s.users fd) = none)
    (hnone' : held (s'.users fd) = none) : Turned s s' fd [] :=
  ⟨hothers, .same (hothers.slots_same (hnone'.trans hnone.symm)), fun h => absurd hnone' h⟩

/-- Nothing happens to a connection that is not open. -/
theorem turned_refl (hnone : slotsOf s fd = none) : Turned s s fd [] :=
  turned_empty ⟨fun _ _ => rfl, fun _ _ => rfl, rfl, rfl⟩ hnone hnone

/-- The slot may have held a mapping; it is empty afterwards. -/
theorem turned_giveBack (hothers : OnlyConn s s' fd) (hnone' : held (s'.users fd) = none) :
    Turned s s' fd (giveBack fd (held (s.users fd))) := by
  cases hheld : held (s.users fd) with
  | none => exact turned_empty hothers hheld hnone'
  | some m =>
    refine ⟨hothers, .clear m hheld ?_, fun h => absurd hnone' h⟩
    rw [hothers.slots, hnone']

/-- The other connections that waited still do. -/
theorem Turned.waitsAll (ht : Turned s₁ s' fd events) (hw : HoldUnsent s) (husers : s₁.users = s.users)
    (hepoll : s₁.epoll = s.epoll) (hlisten : s₁.listenfd = s.listenfd)
    (hpending : ∀ d ∈ s.pending, d.fd ≠ fd → d.fd ≠ s.listenfd → d ∈ s₁.pending) : HoldUnsent s' := by
  intro x hx
  by_cases hxf : x = fd
  · rw [hxf] at hx ⊢
    exact ht.waits hx
  · have huser : s'.users x = s.users x := by rw [ht.others.users x hxf, husers]
    rw [slotsOf, huser] at hx
    refine (hw x hx).congr huser ?_ ?_ ?_
    · rw [ht.others.epoll x hxf, hepoll]
    · rw [ht.others.listenfd, hlisten]
    · rintro d hd rfl hne
      rw [ht.others.pending]
      exact hpending d hd hxf hne

/-- `close_conn` changes one connection. -/
theorem onlyConn_closeConn (h : Tables s) (ho : Open s fd) : OnlyConn s (s.closeConn fd) fd := by
  rw [closeConn_eq h ho]
  exact onlyConn_closed s fd _

/-- `close_conn` leaves the mapping in the object. -/
theorem held_user_closeConn (s : Server W) (fd : Int) :
    held ((s.closeConn fd).users fd) = held (s.users fd) := by
  rw [show (s.closeConn fd).users fd = (s.users fd).closeConn.1 from user_setUser ..]
  exact held_closeConn _

/-- The branch for the listening socket. -/
theorem acceptClient_turned {connfd : Option Int} (h : Owned s owner)
    (hfree : ∀ x, s.descriptors x = none → slotsOf s x = none)
    (hnew : ∀ fd, connfd = some fd → 0 ≤ fd ∧ s.descriptors fd = none)
    (hok : s.acceptClient connfd = .ok s') : ∃ fd, Turned s s' fd (s.acceptMaps connfd) := by
  cases connfd with
  | none =>
    obtain rfl := Except.ok.inj hok
    exact ⟨-1, turned_refl (hfree (-1) h.negative)⟩
  | some fd =>
    obtain ⟨hpos, hfd⟩ := hnew fd rfl
    have hnone := hfree fd hfd
    by_cases hbusy : s.userCount ≥ maxFd
    · simp only [Server.acceptClient, if_pos hbusy] at hok
      obtain rfl := Except.ok.inj hok
      rw [Server.acceptMaps, if_pos hbusy]
      refine ⟨fd, turned_empty ⟨fun _ _ => rfl, fun x hx => ?_, rfl, rfl⟩ hnone hnone⟩
      exact Function.update_of_ne hx ..
    · have hrange : fd < maxFd := by
        by_contra hge
        simp only [Server.acceptClient, if_neg hbusy] at hok
        rw [if_pos (Or.inr (not_lt.mp hge))] at hok
        cases hok
      rw [acceptClient_eq h.toTables hfd hpos (not_le.mp hbusy) hrange] at hok
      obtain rfl := Except.ok.inj hok
      rw [Server.acceptMaps, if_neg hbusy]
      have huser : held ((accepted s fd ((s.users fd).initConn fd).1).users fd) = none := by
        rw [show (accepted s fd _).users fd = _ from Function.update_self ..]
        exact hnone
      refine ⟨fd, onlyConn_accepted s fd _, .init hnone ?_, fun hne => absurd huser hne⟩
      exact (onlyConn_accepted s fd _).slots_same (huser.trans hnone.symm)

/-- The branch for `EPOLLIN`. -/
theorem readClient_turned {rs : List RecvResult} (h : Owned s owner) (ho : Open s fd)
    (hnone : held (s.users fd) = none) (hok : s.readClient fd rs = .ok s') :
    Turned s s' fd (s.readMaps fd rs) := by
  obtain ⟨⟨ok, c⟩, hread, hok⟩ := bind_eq_ok.mp hok
  have hsock : c.mSockfd = fd := read_socket rs (h.socket fd ho).1 _ hread
  have hheld : held c = none := (held_congr ((read_replySide rs _).result hread)).trans hnone
  have hothers : OnlyConn s (s.setUser fd c []) fd := onlyConn_conn s fd c
  have huser : held ((s.setUser fd c []).users fd) = none := by rwa [user_setUser]
  rw [Server.readMaps, hread]
  cases ok with
  | false =>
    obtain rfl := Except.ok.inj hok
    show Turned s ((s.setUser fd c []).closeConn fd) fd (unmaps fd c.closeConn.2)
    rw [unmaps_closeConn]
    refine turned_empty (hothers.trans (onlyConn_closeConn (h.setConn hsock).toTables ho)) hnone ?_
    rw [held_user_closeConn, huser]
  | true =>
    obtain rfl := Except.ok.inj hok
    by_cases hfull : (s.setUser fd c []).queue.length > (s.setUser fd c []).maxRequests
    · rw [append_full hfull]
      exact turned_empty hothers hnone huser
    · rw [append_room hfull]
      exact turned_empty ⟨hothers.users, hothers.epoll, rfl, rfl⟩ hnone huser

/-- The connection is armed for `EPOLLOUT` with a response prepared. -/
theorem unsent_setUser {c : HttpConn} (h : Owned s owner) (ho : Open s fd) (hsock : c.mSockfd = fd)
    (hidx : c.mWriteIdx ≠ 0) : Unsent (s.setUser fd c (modfd fd .epollout)) fd := by
  have harm := applyEffect_mod (h.setConn hsock).toTables ho .epollout
  refine ⟨?_, Or.inl ?_⟩
  · rwa [user_setUser]
  · rw [show s.setUser fd c (modfd fd .epollout) =
      Server.applyEffect { s with users := Function.update s.users fd c } (.epollMod fd .epollout)
        from rfl, harm]
    exact Function.update_self ..

/-- The branch for `EPOLLOUT`. -/
theorem writeClient_turned {mapped : Int → List UInt8} {ws : List WritevResult} (h : Owned s owner)
    (ho : Open s fd) (hnone : owner fd = none)
    (hidx : held (s.users fd) ≠ none → (s.users fd).mWriteIdx ≠ 0)
    (hok : s.writeClient fd mapped ws = .ok s') : Turned s s' fd (s.writeMaps fd mapped ws) := by
  unfold Server.writeClient at hok
  cases hret : ((s.users fd).write mapped ws).ret with
  | none =>
    simp only [hret] at hok
    cases hok
  | some ok =>
    simp only [hret] at hok
    obtain ⟨hsock, hdone⟩ := write_done mapped (h.socket fd ho).1 ws hret
    have hwrote := write_wrote fd mapped ws hidx hret
    simp only [Server.writeMaps, hret]
    generalize (s.users fd).write mapped ws = call at *
    have h₁ := h.setConn hsock
    have huser : (s.setUser fd call.conn call.effects).users fd = call.conn := user_setUser ..
    have hothers : OnlyConn s (s.setUser fd call.conn call.effects) fd := by
      refine (onlyConn_conn s fd call.conn).trans ?_
      rcases hdone with harms | ⟨-, hidle⟩
      · exact onlyConn_arms _ harms
      · rw [Server.setUser, hidle]
        exact ⟨fun _ _ => rfl, fun _ _ => rfl, rfl, rfl⟩
    cases hwrote with
    | waits hconn heff =>
      obtain rfl := Except.ok.inj hok
      have hheld : held ((s.setUser fd call.conn call.effects).users fd) = held (s.users fd) := by
        rw [huser, hconn]
      rw [(h.socket fd ho).1] at heff
      rw [heff, unmaps_modfd, List.nil_append, if_neg (by simp), ← heff]
      refine ⟨hothers, .same (hothers.slots_same hheld), fun hne => ?_⟩
      rw [slotsOf, hheld] at hne
      rw [heff]
      refine unsent_setUser h ho hsock ?_
      rw [hconn]
      exact hidx hne
    | ends hconn hmaps =>
      rw [hmaps]
      cases ok with
      | true =>
        obtain rfl := Except.ok.inj hok
        rw [if_neg (by simp), List.append_nil]
        refine turned_giveBack hothers ?_
        rw [huser, hconn]
      | false =>
        obtain rfl := Except.ok.inj hok
        rw [if_pos rfl, unmaps_closeConn, List.append_nil]
        refine turned_giveBack (hothers.trans ?_) ?_
        · rcases hdone with harms | ⟨-, hidle⟩
          · exact onlyConn_closeConn (h₁.arms ho hnone harms).toTables
              ((open_of_arms h₁.toTables ho harms fd).mpr ho)
          · rw [Server.setUser, hidle]
            exact onlyConn_closeConn h₁.toTables ho
        · rw [held_user_closeConn, huser, hconn]

/-- A worker's call of `process`, of a connection whose object holds nothing. -/
theorem process_turned {fs : FileSystem} {c : HttpConn} {effects : List Effect} (h : Owned s owner)
    (ho : Open s fd) (hlaw : LawfulMmap fs) (hnone : held (s.users fd) = none)
    (hmade : ∀ a n, mmapCall fs (s.users fd) = some (a, n) → a ≠ -1)
    (hok : (s.users fd).process fs = .ok (c, effects)) :
    Turned s (s.setUser fd c effects) fd (s.workMaps fd fs) := by
  have huser : (s.setUser fd c effects).users fd = c := user_setUser ..
  have hothers : OnlyConn s (s.setUser fd c effects) fd := by
    rcases process_done (h.socket fd ho).1 (h.ne_negative ho) hok with ⟨-, harms⟩ | ⟨-, rfl⟩
    · exact (onlyConn_conn s fd c).trans (onlyConn_arms _ harms)
    · rw [setUser_closed h.toTables ho]
      exact onlyConn_closed s fd c
  simp only [Server.workMaps, hok, unmaps_process hok, List.append_nil]
  cases process_processed hlaw hnone hmade hok with
  | plain hcall hheld =>
    rw [hcall]
    refine turned_empty hothers hnone ?_
    rw [huser, hheld]
  | @mapped a n hcall hheld hidx heff =>
    simp only [hcall, if_neg (hmade a n hcall)]
    rw [(h.socket fd ho).1] at heff
    refine ⟨hothers, .fill (a, n) hnone ?_, fun _ => ?_⟩
    · rw [hothers.slots, huser, hheld]
    · rw [heff]
      refine unsent_setUser h ho ?_ hidx
      rcases process_done (h.socket fd ho).1 (h.ne_negative ho) hok with ⟨hsock, -⟩ | ⟨-, heff'⟩
      · exact hsock
      · rw [heff] at heff'
        cases heff'

end Handlers

/-! ## The steps -/

section Steps

variable {W : Type} {s s' : Server W} {owner : Int → Option (Place W)}

/-- No connection is closed for an event while its object holds a mapping, and the `mmap` that
`process` makes does not fail. -/
def NoneLost (s : Server W) : ServerListings.Model.WebServer.Action W → Prop
  | .handle d _ => d.fd ≠ s.listenfd → d.events.closing = true → (s.users d.fd).mFileAddress = 0
  | .process w fs => ∀ fd, s.working w = some fd →
      ∀ address length, mmapCall fs (s.users fd) = some (address, length) → address ≠ -1
  | .wait _ | .take _ => True

/-- What `mmap` does in a step. -/
def Lawful : ServerListings.Model.WebServer.Action W → Prop
  | .process _ fs => LawfulMmap fs
  | .handle _ _ | .wait _ | .take _ => True

/-- An object whose connection is reported for `EPOLLIN` holds nothing. -/
theorem HoldUnsent.reported {d : Delivered} {rest : List Delivered} (h : HoldUnsent s) (howned : Owned s owner)
    (hp : s.pending = d :: rest) (hd : d.fd ≠ s.listenfd) (hread : d.events.readable = true) :
    slotsOf s d.fd = none := by
  by_contra hne
  have hmem : d ∈ s.pending := by
    rw [hp]
    exact List.mem_cons_self
  have hat : IsAt s d.fd .delivered := ⟨hd, List.mem_map_of_mem hmem⟩
  rcases (h d.fd hne).place with harmed | ⟨-, e, he, hfd, hnoread⟩
  · cases howned.places.unique (show IsAt s d.fd .armed from ⟨_, harmed⟩) hat
  · rw [List.inj_on_of_nodup_map howned.pendingNodup he hmem hfd, hread] at hnoread
    cases hnoread

/-- `epoll_wait` reports a connection that waits, but not for `EPOLLIN`. -/
theorem HoldUnsent.deliver {batch : List Delivered} (h : HoldUnsent s) (htables : Tables s)
    (hempty : s.pending = []) (hrep : ∀ d ∈ batch, s.Reported d) : HoldUnsent (s.deliver batch) := by
  intro x hx
  have hw : Unsent s x := h x hx
  have harmed : s.epoll x = some ⟨some .epollout, true⟩ := by
    rcases hw.place with harmed | ⟨-, d, hd, -⟩
    · exact harmed
    · rw [hempty] at hd
      cases hd
  have hne : x ≠ s.listenfd := by
    rintro rfl
    cases htables.listener _ harmed
  refine ⟨hw.writeIdx, ?_⟩
  by_cases hmem : x ∈ batch.map Delivered.fd
  · obtain ⟨d, hd, rfl⟩ := List.mem_map.mp hmem
    refine Or.inr ⟨hne, d, hd, rfl, ?_⟩
    obtain ⟨r, i, hr, hi, hread, -⟩ := hrep d hd
    rw [harmed] at hr
    obtain rfl := Option.some.inj hr
    obtain rfl := Option.some.inj hi
    by_contra hreadable
    cases hread (Bool.not_eq_false _ ▸ hreadable)
  · exact Or.inl ((if_neg hmem).trans harmed)

/-- The handling of an event of a connection. -/
theorem handleEvent_turned {input : Server.Input} {d : Delivered} (h : Owned s owner) (ho : Open s d.fd)
    (hnone : owner d.fd = none) (hflag : d.events.closing ∨ d.events.readable ∨ d.events.writable)
    (hclose : d.events.closing = true → held (s.users d.fd) = none)
    (hread : d.events.readable = true → held (s.users d.fd) = none)
    (hidx : held (s.users d.fd) ≠ none → (s.users d.fd).mWriteIdx ≠ 0)
    (hok : s.handleEvent input d = .ok s') : Turned s s' d.fd (s.handleMaps input d) := by
  have hne := h.ne_listenfd ho
  rw [Server.handleEvent, if_neg hne] at hok
  rw [Server.handleMaps, if_neg hne]
  by_cases hclosing : d.events.closing
  · rw [if_pos hclosing] at hok ⊢
    obtain rfl := Except.ok.inj hok
    rw [unmaps_closeConn]
    refine turned_empty (onlyConn_closeConn h.toTables ho) (hclose hclosing) ?_
    rw [held_user_closeConn, hclose hclosing]
  rw [if_neg hclosing] at hok ⊢
  by_cases hreadable : d.events.readable
  · rw [if_pos hreadable] at hok ⊢
    exact readClient_turned h ho (hread hreadable) hok
  rw [if_neg hreadable] at hok ⊢
  have hwritable : d.events.writable = true := (hflag.resolve_left hclosing).resolve_left hreadable
  rw [if_pos hwritable] at hok ⊢
  exact writeClient_turned h ho hnone hidx hok

variable [DecidableEq W]

/-- Every step moves at most one slot, and the objects that hold a mapping wait afterwards. -/
theorem step_moves {a : ServerListings.Model.WebServer.Action W} (h : Owned s owner) (hw : HoldUnsent s)
    (hs : Step s a s') (hlaw : Lawful a) (hlost : NoneLost s a) :
    ∃ fd, SlotMoved (slotsOf s) (slotsOf s') fd (s.maps a) ∧ HoldUnsent s' := by
  cases hs with
  | wait batch hempty hlen hnodup hrep =>
    exact ⟨0, .same rfl, hw.deliver h.toTables hempty hrep⟩
  | take w fd rest hidle hq =>
    exact ⟨0, .same rfl, fun x hx => (hw x hx).congr rfl rfl rfl fun d hd _ _ => hd⟩
  | handle d rest input hp hnew hok =>
    have hrest : ∀ e ∈ s.pending, e ≠ d → e ∈ rest := by
      intro e he hed
      rw [hp] at he
      exact (List.mem_cons.mp he).resolve_left hed
    by_cases hd : d.fd = s.listenfd
    · have hfree : ∀ x, s.descriptors x = none → slotsOf s x = none := fun x hx => hw.free h hx
      have hbranch := hok
      rw [Server.handleEvent, if_pos hd] at hbranch
      obtain ⟨fd, hturned⟩ := acceptClient_turned (h.nextAccept hp hd) hfree hnew hbranch
      have hmaps : s.maps (.handle d input) = s.acceptMaps input.accepted := if_pos hd
      refine ⟨fd, hmaps ▸ hturned.moved, hturned.waitsAll hw rfl rfl rfl ?_⟩
      intro e he _ hne
      exact hrest e he fun heq => hne (heq ▸ hd)
    · obtain ⟨ho, hnext⟩ := h.nextEvent hp hd
      have hflag := h.flagged d (by rw [hp]; exact List.mem_cons_self)
      have hturned := handleEvent_turned hnext ho (Function.update_self ..) hflag
        (fun hclosing => held_eq_none.mpr (hlost hd hclosing)) (fun hread => hw.reported h hp hd hread)
        (fun hne => (hw d.fd hne).writeIdx) hok
      refine ⟨d.fd, hturned.moved, hturned.waitsAll hw rfl rfl rfl ?_⟩
      intro e he hne _
      exact hrest e he fun heq => hne (congrArg Delivered.fd heq)
  | process w fd fs hworks hok =>
    obtain ⟨ho, hback⟩ := h.giveBack hworks
    obtain ⟨⟨c, effects⟩, hprocess, hok⟩ := bind_eq_ok.mp hok
    obtain rfl := Except.ok.inj hok
    have hturned := process_turned hback ho hlaw (hw.taken h hworks) (hlost fd hworks) hprocess
    have hmaps : s.maps (.process w fs) = s.workMaps fd fs := by
      rw [Server.maps, hworks]
    refine ⟨fd, hmaps ▸ hturned.moved, hturned.waitsAll hw rfl rfl rfl fun e he _ _ => he⟩

end Steps

end ServerListings.Interface
