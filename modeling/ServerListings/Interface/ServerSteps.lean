import ServerListings.Interface.Ownership
import ServerListings.Lib.Transition

/-!
# The steps of the web server

Each step keeps the invariant `Owned`, and each handler but one puts the connection it was
called for at a place again or closes it. The exception is the branch for `EPOLLIN`, when
`append` refuses the request (`Refused`).
-/

set_option autoImplicit false

namespace ServerListings.Interface

open Lib.CMem Lib.Custody Lib.Transition ServerListings.Model ServerListings.Model.Http ServerListings.Model.WebServer

/-- The action handles an `EPOLLIN` event of the connection `fd`, its `read` returns true, and
the queue is over its limit. -/
def Refused {W : Type} (s : Server W) (a : Action W) (fd : Int) : Prop :=
  ∃ d input c, a = .handle d input ∧ d.fd = fd ∧ fd ≠ s.listenfd ∧ d.events.closing = false ∧
    d.events.readable = true ∧ (s.users fd).read input.recvs = .ok (true, c) ∧
    s.queue.length > s.maxRequests

section Handlers

variable {W : Type} {s s' : Server W} {owner : Int → Option (Place W)} {fd : Int} {lost : Prop}

/-- A state in which the invariant holds and the open connections at no place are some that
were at none before, and `fd` if `lost`. -/
def KeepsPlaces (s : Server W) (owner : Int → Option (Place W)) (fd : Int) (lost : Prop)
    (s' : Server W) : Prop :=
  ∃ owner', Owned s' owner' ∧ ∀ x, Open s' x → owner' x = none →
    (x ≠ fd ∧ Open s x ∧ owner x = none) ∨ (x = fd ∧ lost)

/-- The handler puts its connection at the place `p`. -/
theorem keeps_put {p : Place W} (hopen : ∀ x, x ≠ fd → Open s' x → Open s x)
    (h : Owned s' (Function.update owner fd (some p))) : KeepsPlaces s owner fd lost s' := by
  refine ⟨_, h, fun x hx hnone => ?_⟩
  by_cases hxf : x = fd
  · rw [hxf, Function.update_self] at hnone
    cases hnone
  · rw [Function.update_of_ne hxf] at hnone
    exact Or.inl ⟨hxf, hopen x hxf hx, hnone⟩

/-- The handler closes its connection, which is at no place but the epoll table. -/
theorem keeps_closed (h : Owned s owner) (ho : Open s fd) (c : HttpConn)
    (hplace : ∀ p, owner fd = some p → p = .armed) : KeepsPlaces s owner fd lost (closed s fd c) := by
  refine ⟨_, h.close ho c hplace, fun x hx hnone => ?_⟩
  by_cases hxf : x = fd
  · rw [Open, hxf, show (closed s fd c).descriptors fd = none from Function.update_self ..] at hx
    cases hx
  · rw [Function.update_of_ne hxf] at hnone
    exact Or.inl ⟨hxf, (Function.update_of_ne hxf ..).symm.trans hx, hnone⟩

/-- Closing an armed connection keeps the places of the others. -/
theorem keeps_close (h : Owned s owner) (ho : Open s fd) (hplace : ∀ p, owner fd = some p → p = .armed) :
    KeepsPlaces s owner fd lost (s.closeConn fd) := by
  rw [closeConn_eq h.toTables ho]
  exact keeps_closed h ho _ hplace

/-- A descriptor without owner has no place but possibly the armed one. -/
theorem armed_of_none (hnone : owner fd = none) : ∀ p, owner fd = some p → p = .armed := by
  rw [hnone]
  rintro p ⟨⟩

/-- `append` on a full queue changes nothing. -/
theorem append_full (h : s.queue.length > s.maxRequests) (fd : Int) : (s.append fd).2 = s :=
  congrArg Prod.snd (if_pos h)

/-- `append` with room puts the connection at the end of the queue. -/
theorem append_room (h : ¬ s.queue.length > s.maxRequests) (fd : Int) :
    (s.append fd).2 = { s with queue := s.queue ++ [fd] } := congrArg Prod.snd (if_neg h)

/-- The branch for `EPOLLIN` when `read` returns true. -/
theorem readClient_eq {rs : List RecvResult} {c : HttpConn}
    (hread : (s.users fd).read rs = .ok (true, c)) :
    s.readClient fd rs = .ok ((s.setUser fd c []).append fd).2 := by
  rw [Server.readClient, hread]
  rfl

/-- The branch for `EPOLLIN`. -/
theorem readClient_keeps {rs : List RecvResult} (h : Owned s owner) (ho : Open s fd)
    (hnone : owner fd = none) (hok : s.readClient fd rs = .ok s') :
    KeepsPlaces s owner fd
      (s.queue.length > s.maxRequests ∧ ∃ c, (s.users fd).read rs = .ok (true, c)) s' := by
  obtain ⟨⟨ok, c⟩, hread, hok⟩ := bind_eq_ok.mp hok
  have hc : c.mSockfd = fd := read_socket rs (h.socket fd ho).1 _ hread
  have h₁ : Owned (s.setUser fd c []) owner := h.setConn hc
  cases ok with
  | false =>
    obtain rfl := Except.ok.inj hok
    exact keeps_close h₁ ho (armed_of_none hnone)
  | true =>
    obtain rfl := Except.ok.inj hok
    by_cases hfull : (s.setUser fd c []).queue.length > (s.setUser fd c []).maxRequests
    · rw [append_full hfull]
      refine ⟨owner, h₁, fun x hx hx' => ?_⟩
      by_cases hxf : x = fd
      · exact Or.inr ⟨hxf, hfull, c, hread⟩
      · exact Or.inl ⟨hxf, hx, hx'⟩
    · rw [append_room hfull]
      exact keeps_put (fun x _ hx => hx) (h₁.enqueue ho hnone)

/-- The effects that arm a descriptor open nothing. -/
theorem open_of_arms {effects : List Effect} (h : Tables s) (ho : Open s fd) (ha : Arms fd effects)
    (x : Int) : Open (s.applyEffects effects) x ↔ Open s x := by
  obtain ⟨i, hi⟩ := ha
  rw [hi, applyEffect_mod h ho]
  exact Iff.rfl

/-- The branch for `EPOLLOUT`. -/
theorem writeClient_keeps {mapped : Int → List UInt8} {ws : List WritevResult} (h : Owned s owner)
    (ho : Open s fd) (hnone : owner fd = none) (hok : s.writeClient fd mapped ws = .ok s') :
    KeepsPlaces s owner fd lost s' := by
  unfold Server.writeClient at hok
  cases hret : ((s.users fd).write mapped ws).ret with
  | none =>
    simp only [hret] at hok
    cases hok
  | some ok =>
    simp only [hret] at hok
    obtain ⟨hsock, heff⟩ := write_done mapped (h.socket fd ho).1 ws hret
    have h₁ := h.setConn hsock
    rcases heff with harms | ⟨rfl, hidle⟩
    · have h₂ := h₁.arms ho hnone harms
      have hopen := open_of_arms h₁.toTables ho harms
      cases ok with
      | true =>
        obtain rfl := Except.ok.inj hok
        exact keeps_put (fun x _ hx => (hopen x).mp hx) h₂
      | false =>
        obtain rfl := Except.ok.inj hok
        obtain ⟨owner', howned, hlost⟩ := keeps_close h₂ ((hopen fd).mpr ho) (by
          intro p hp
          rw [Function.update_self] at hp
          exact (Option.some.inj hp).symm)
        refine ⟨owner', howned, fun x hx hx' => ?_⟩
        rcases hlost x hx hx' with ⟨hxf, hx, hx'⟩ | hx
        · rw [Function.update_of_ne hxf] at hx'
          exact Or.inl ⟨hxf, (hopen x).mp hx, hx'⟩
        · exact Or.inr hx
    · obtain rfl := Except.ok.inj hok
      have hsame : s.setUser fd ((s.users fd).write mapped ws).conn ((s.users fd).write mapped ws).effects =
          { s with users := Function.update s.users fd ((s.users fd).write mapped ws).conn } := hidle W _
      rw [hsame]
      exact keeps_close h₁ ho (armed_of_none hnone)

/-- `modfd` on the descriptor -1 fails. -/
theorem applyEffect_negative (h : Tables s) (i : Interest) : s.applyEffect (.epollMod (-1) i) = s := by
  simp only [Server.applyEffect, h.epoll_none h.negative, Option.isNone_none, if_true]

/-- `process` closes the connection and then calls `modfd` on the descriptor -1. -/
theorem setUser_closed (h : Tables s) (ho : Open s fd) (c : HttpConn) :
    s.setUser fd c (removefd fd ++ [.userCount (-1)] ++ modfd (-1) .epollout) = closed s fd c := by
  rw [Server.setUser, applyEffects_append]
  refine Eq.trans ?_ (applyEffect_negative (h.closed ho c) .epollout)
  rw [← setUser_removed]
  rfl

/-- A call of `process` by a worker that no longer counts as having the request. -/
theorem process_keeps {fs : FileSystem} {c : HttpConn} {effects : List Effect} (h : Owned s owner)
    (ho : Open s fd) (hnone : owner fd = none) (hok : (s.users fd).process fs = .ok (c, effects)) :
    KeepsPlaces s owner fd lost (s.setUser fd c effects) := by
  rcases process_done (h.socket fd ho).1 (h.ne_negative ho) hok with ⟨hsock, harms⟩ | ⟨-, rfl⟩
  · have h₁ := h.setConn hsock
    exact keeps_put (fun x _ hx => (open_of_arms h₁.toTables ho harms x).mp hx) (h₁.arms ho hnone harms)
  · rw [setUser_closed h.toTables ho]
    exact keeps_closed h ho c (armed_of_none hnone)

/-- A client whose `accept` succeeds gets a connection, unless there are too many. -/
theorem acceptClient_eq (h : Tables s) (hfree : s.descriptors fd = none) (hpos : 0 ≤ fd)
    (hcount : s.userCount < maxFd) (hmax : fd < maxFd) :
    s.acceptClient (some fd) = .ok (accepted s fd ((s.users fd).initConn fd).1) := by
  simp only [Server.acceptClient]
  rw [if_neg (by omega), if_neg (by omega)]
  refine congrArg Except.ok ?_
  simp only [HttpConn.initConn, Server.setUser, Server.applyEffects, addfd, List.cons_append,
    List.nil_append, List.foldl_cons, List.foldl_nil, Server.applyEffect, Function.update_self,
    h.epoll_none hfree, Option.isNone_some, Option.isSome_none, Bool.false_eq_true, or_self,
    if_false, accepted]

/-- The branch for the listening socket. -/
theorem acceptClient_keeps {connfd : Option Int} (h : Owned s owner)
    (hnew : ∀ fd, connfd = some fd → 0 ≤ fd ∧ s.descriptors fd = none)
    (hok : s.acceptClient connfd = .ok s') :
    ∃ owner', Owned s' owner' ∧ ∀ x, Open s' x → owner' x = none → Open s x ∧ owner x = none := by
  cases connfd with
  | none =>
    obtain rfl := Except.ok.inj hok
    exact ⟨owner, h, fun x hx hx' => ⟨hx, hx'⟩⟩
  | some fd =>
    obtain ⟨hpos, hfree⟩ := hnew fd rfl
    by_cases hbusy : s.userCount ≥ maxFd
    · simp only [Server.acceptClient, if_pos hbusy] at hok
      obtain rfl := Except.ok.inj hok
      have hsame : Server.showError { s with descriptors := Function.update s.descriptors fd (some .client) } fd =
          s := by
        simp only [Server.showError, Server.applyEffect, Function.update_idem]
        rw [Function.update_eq_self_iff.mpr hfree.symm,
          Function.update_eq_self_iff.mpr (h.epoll_none hfree).symm]
      rw [hsame]
      exact ⟨owner, h, fun x hx hx' => ⟨hx, hx'⟩⟩
    · have hrange : fd < maxFd := by
        by_contra hge
        simp only [Server.acceptClient, if_neg hbusy] at hok
        rw [if_pos (Or.inr (not_lt.mp hge))] at hok
        cases hok
      rw [acceptClient_eq h.toTables hfree hpos (not_le.mp hbusy) hrange] at hok
      obtain rfl := Except.ok.inj hok
      refine ⟨_, h.accept hfree hpos rfl, fun x hx hx' => ?_⟩
      by_cases hxf : x = fd
      · rw [hxf, Function.update_self] at hx'
        cases hx'
      · rw [Function.update_of_ne hxf] at hx'
        exact ⟨(Function.update_of_ne hxf ..).symm.trans hx, hx'⟩

end Handlers

section Steps

variable {W : Type} {s s' : Server W} {owner : Int → Option (Place W)}

/-- The handling of an event of a connection. -/
theorem handleEvent_keeps {input : Server.Input} {d : Delivered} (h : Owned s owner)
    (ho : Open s d.fd) (hnone : owner d.fd = none)
    (hflag : d.events.closing ∨ d.events.readable ∨ d.events.writable)
    (hok : s.handleEvent input d = .ok s') :
    KeepsPlaces s owner d.fd (Refused s (.handle d input : Action W) d.fd) s' := by
  have hne := h.ne_listenfd ho
  rw [Server.handleEvent, if_neg hne] at hok
  by_cases hclosing : d.events.closing
  · rw [if_pos hclosing] at hok
    obtain rfl := Except.ok.inj hok
    exact keeps_close h ho (armed_of_none hnone)
  rw [if_neg hclosing] at hok
  by_cases hreadable : d.events.readable
  · rw [if_pos hreadable] at hok
    obtain ⟨owner', howned, hlost⟩ := readClient_keeps h ho hnone hok
    refine ⟨owner', howned, fun x hx hx' => ?_⟩
    apply (hlost x hx hx').imp_right
    rintro ⟨hxf, hfull, c, hread⟩
    exact ⟨hxf, d, input, c, rfl, rfl, hne, Bool.not_eq_true _ ▸ hclosing, hreadable, hread, hfull⟩
  rw [if_neg hreadable] at hok
  rw [if_pos ((hflag.resolve_left hclosing).resolve_left hreadable)] at hok
  exact writeClient_keeps h ho hnone hok

/-- Every step keeps the invariant. A connection that is at no place after it was at none
before, or is one that `append` refuses in this step. -/
theorem step_owned [DecidableEq W] {a : Action W} (h : Owned s owner) (hs : Step s a s') :
    ∃ owner', Owned s' owner' ∧ ∀ x, Open s' x → owner' x = none →
      (Open s x ∧ owner x = none) ∨ Refused s a x := by
  cases hs with
  | wait batch hempty hlen hnodup hrep =>
    obtain ⟨owner', hsub, howned⟩ := h.deliver hempty hnodup hrep
    exact ⟨owner', howned, fun x hx hx' => Or.inl ⟨hx, hsub x hx'⟩⟩
  | handle d rest input hp hnew hok =>
    by_cases hd : d.fd = s.listenfd
    · rw [Server.handleEvent, if_pos hd] at hok
      obtain ⟨owner', howned, hlost⟩ := acceptClient_keeps (h.nextAccept hp hd) hnew hok
      exact ⟨owner', howned, fun x hx hx' => Or.inl (hlost x hx hx')⟩
    · obtain ⟨ho, hnext⟩ := h.nextEvent hp hd
      have hflag := h.flagged d (by rw [hp]; exact List.mem_cons_self)
      obtain ⟨owner', howned, hlost⟩ :=
        handleEvent_keeps hnext ho (Function.update_self ..) hflag hok
      refine ⟨owner', howned, fun x hx hx' => ?_⟩
      rcases hlost x hx hx' with ⟨hxd, hopen, hnone⟩ | ⟨rfl, hrefused⟩
      · rw [Function.update_of_ne hxd] at hnone
        exact Or.inl ⟨hopen, hnone⟩
      · exact Or.inr hrefused
  | take w fd rest hidle hq =>
    obtain ⟨owner', hsub, howned⟩ := h.take hidle hq
    exact ⟨owner', howned, fun x hx hx' => Or.inl ⟨hx, hsub x hx'⟩⟩
  | process w fd fs hw hok =>
    obtain ⟨ho, hback⟩ := h.giveBack hw
    obtain ⟨⟨c, effects⟩, hprocess, hok⟩ := bind_eq_ok.mp hok
    obtain rfl := Except.ok.inj hok
    have hkeeps : KeepsPlaces _ _ fd False _ :=
      process_keeps hback ho (Function.update_self ..) hprocess
    obtain ⟨owner', howned, hlost⟩ := hkeeps
    refine ⟨owner', howned, fun x hx hx' => ?_⟩
    rcases hlost x hx hx' with ⟨hxf, hopen, hnone⟩ | ⟨-, hfalse⟩
    · rw [Function.update_of_ne hxf] at hnone
      exact Or.inl ⟨hopen, hnone⟩
    · exact hfalse.elim

/-- The invariant along a run. -/
theorem run_owned [DecidableEq W] {cond : Server W → Action W → Prop}
    (h : ∃ owner, Owned s owner) (hrun : Run Step cond s s') : ∃ owner, Owned s' owner := by
  apply hrun.invariant (I := fun s => ∃ owner, Owned s owner) h
  rintro s a s' ⟨owner, howned⟩ hstep -
  obtain ⟨owner', howned', -⟩ := step_owned howned hstep
  exact ⟨owner', howned'⟩

/-- Before the event loop there are no connections. -/
theorem owned_initial (h : Initial s) : Owned s fun _ => none := by
  have hnone : ∀ fd p, ¬ IsAt s fd p := by
    intro fd p
    cases p with
    | armed =>
      rintro ⟨i, hi⟩
      rw [h.registered] at hi
      by_cases hfd : fd = s.listenfd
      · rw [hfd, Function.update_self] at hi
        cases hi
      · rw [Function.update_of_ne hfd] at hi
        cases hi
    | delivered => simp [IsAt, h.pending]
    | queued => simp [IsAt, h.queue]
    | taken w => simp [IsAt, h.working]
  refine ⟨⟨fun fd ho => absurd ho (h.clients fd), ?_, h.listening, ?_, h.negative⟩,
    fun fd p => ⟨fun hp => absurd hp (hnone fd p), by rintro ⟨⟩⟩,
    fun fd p hp => absurd hp (hnone fd p), ?_, ?_, ?_⟩
  · intro fd r hr
    by_contra hfd
    rw [h.registered, Function.update_of_ne fun heq => hfd (Or.inl heq)] at hr
    cases hr
  · intro r hr
    rw [h.registered, Function.update_self] at hr
    obtain rfl := Option.some.inj hr
    rfl
  · rw [h.pending]
    exact List.nodup_nil
  · rw [h.pending]
    rintro d ⟨⟩
  · rw [h.queue]
    exact List.nodup_nil

end Steps

end ServerListings.Interface
