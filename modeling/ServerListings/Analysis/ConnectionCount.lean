import Mathlib.Data.Finset.Card
import ServerListings.Lib.Histories
import ServerListings.Model.ServerLog
import ServerListings.Analysis.DefinedRuns
import ServerListings.Interface.StrayRequests

/-!
# When the user count is the number of open connections

Only two functions change `m_user_count`: `init`, which every accepted client gets unless there
are too many, and `close_conn`, whose test of `m_sockfd` lets it close and count only once. So
each step does one of four things to the descriptors (`Change`), and along a run the count
stays the number of the connections that were opened and not closed. A body length that makes
`parse_content` store into `m_sockfd` breaks the tie between an object and its descriptor.
-/

set_option autoImplicit false

namespace ServerListings.Analysis.ConnectionCount

open Lib.CMem Lib.Custody Lib.Histories Lib.Transition ServerListings.Model
  ServerListings.Model.Http ServerListings.Model.WebServer ServerListings.Interface
  ServerListings.Analysis.DefinedRuns

/-! ## The effects of a call -/

section Effects

variable {W : Type} {s : Server W} {fd : Int} {c : HttpConn} {effects : List Effect}

/-- Only the calls of `close` among the effects concern the descriptors. -/
theorem descriptors_applyEffects (fd : Int) (effects : List Effect) : ∀ s : Server W,
    (s.applyEffects effects).descriptors fd =
      if Happening.close fd ∈ closes effects then none else s.descriptors fd := by
  induction effects with
  | nil => exact fun s => rfl
  | cons e effects ih =>
    intro s
    have hrest := ih (s.applyEffect e)
    have hsame : (s.applyEffect e).descriptors fd = s.descriptors fd →
        closes (e :: effects) = closes effects →
        (s.applyEffects (e :: effects)).descriptors fd =
          if Happening.close fd ∈ closes (e :: effects) then none else s.descriptors fd := by
      intro hdesc hcloses
      rw [hcloses, ← hdesc]
      exact hrest
    cases e with
    | close x =>
      show ((s.applyEffect (.close x)).applyEffects effects).descriptors fd =
        if Happening.close fd ∈ Happening.close x :: closes effects then none else s.descriptors fd
      rw [hrest]
      by_cases hx : fd = x
      · rw [hx, if_pos List.mem_cons_self]
        split
        · rfl
        · exact Function.update_self ..
      · have hne : ¬ Happening.close fd = Happening.close x := fun heq =>
          hx (Happening.close.inj heq)
        simp only [List.mem_cons, hne, false_or]
        rw [show (s.applyEffect (.close x)).descriptors fd = s.descriptors fd from
          Function.update_of_ne hx ..]
    | epollAdd x oneShot =>
      refine hsame ?_ rfl
      simp only [Server.applyEffect]
      split <;> rfl
    | epollMod x i =>
      refine hsame ?_ rfl
      simp only [Server.applyEffect]
      split <;> rfl
    | epollDel x => exact hsame rfl rfl
    | userCount change => exact hsame rfl rfl
    | munmap a n => exact hsame rfl rfl

/-- Effects that leave the descriptors of every server alone close nothing. -/
theorem closes_of_same (h : ∀ s : Server Unit, (s.applyEffects effects).descriptors = s.descriptors) :
    closes effects = [] := by
  by_contra hne
  obtain ⟨x, hx⟩ := List.exists_mem_of_ne_nil _ hne
  obtain ⟨e, -, he⟩ := List.mem_filterMap.mp hx
  cases e with
  | close fd =>
    obtain rfl : Happening.close fd = x := Option.some.inj he
    let s : Server Unit :=
      ⟨fun _ => default, 0, fun _ => some .other, fun _ => none, 0, [], [], 0, fun _ => none⟩
    have hdesc := descriptors_applyEffects fd effects s
    rw [h s, if_pos hx] at hdesc
    cases hdesc
  | _ => cases he

/-- Arming a connection closes nothing. -/
theorem closes_of_arms (h : Arms fd effects) : closes effects = [] := by
  obtain ⟨i, hi⟩ := h
  refine closes_of_same fun s => ?_
  rw [hi]
  simp only [Server.applyEffect]
  split <;> rfl

/-- Effects that do nothing close nothing. -/
theorem closes_of_idle (h : Idle effects) : closes effects = [] :=
  closes_of_same fun s => by rw [h]

/-- `close_conn` on the object of an open connection closes its descriptor. -/
theorem closes_closeConn (hsock : c.mSockfd = fd) (hfd : fd ≠ -1) :
    closes c.closeConn.2 = [.close fd] := by
  rw [HttpConn.closeConn, if_pos (by rwa [hsock]), hsock]
  rfl

end Effects

/-! ## The steps -/

section Steps

variable {W : Type} {s s' : Server W} {owner : Int → Option (Place W)} {fd : Int}

/-- What a step can do to the descriptors and the user count, with the calls that it makes. -/
inductive Change (s s' : Server W) : List Happening → Prop
  | same (hd : s'.descriptors = s.descriptors) (hc : s'.userCount = s.userCount) : Change s s' []
  | turnedAway {fd : Int} (hfree : s.descriptors fd = none) (hd : s'.descriptors = s.descriptors)
      (hc : s'.userCount = s.userCount) : Change s s' [.accept fd, .close fd]
  | opened {fd : Int} (hfree : s.descriptors fd = none)
      (hd : s'.descriptors = Function.update s.descriptors fd (some .client))
      (hc : s'.userCount = s.userCount + 1) : Change s s' [.accept fd, .init fd]
  | closed {fd : Int} (ho : Open s fd) (hd : s'.descriptors = Function.update s.descriptors fd none)
      (hc : s'.userCount = s.userCount - 1) : Change s s' [.close fd]

/-- `close_conn` in `main`. -/
theorem closeConn_change (h : Tables s) (ho : Open s fd) :
    Change s (s.closeConn fd) (closes (s.users fd).closeConn.2) := by
  rw [closes_closeConn (h.socket fd ho).1 (h.ne_negative ho), closeConn_eq h ho]
  exact .closed ho rfl rfl

/-- The branch for the listening socket. -/
theorem acceptClient_change {connfd : Option Int} (h : Tables s)
    (hnew : ∀ fd, connfd = some fd → 0 ≤ fd ∧ s.descriptors fd = none)
    (hok : s.acceptClient connfd = .ok s') : Change s s' (s.acceptHappens connfd) := by
  cases connfd with
  | none =>
    obtain rfl := Except.ok.inj hok
    exact .same rfl rfl
  | some fd =>
    obtain ⟨hpos, hfree⟩ := hnew fd rfl
    by_cases hbusy : s.userCount ≥ maxFd
    · simp only [Server.acceptClient, if_pos hbusy] at hok
      obtain rfl := Except.ok.inj hok
      rw [Server.acceptHappens, if_pos hbusy]
      refine .turnedAway hfree ?_ rfl
      simp only [Server.showError, Server.applyEffect, Function.update_idem]
      exact Function.update_eq_self_iff.mpr hfree.symm
    · have hrange : fd < maxFd := by
        by_contra hge
        simp only [Server.acceptClient, if_neg hbusy] at hok
        rw [if_pos (Or.inr (not_lt.mp hge))] at hok
        cases hok
      rw [acceptClient_eq h hfree hpos (not_le.mp hbusy) hrange] at hok
      obtain rfl := Except.ok.inj hok
      rw [Server.acceptHappens, if_neg hbusy]
      exact .opened hfree rfl rfl

/-- The branch for `EPOLLIN`. -/
theorem readClient_change {rs : List RecvResult} (h : Owned s owner) (ho : Open s fd)
    (hok : s.readClient fd rs = .ok s') : Change s s' (s.readHappens fd rs) := by
  obtain ⟨⟨ok, c⟩, hread, hok⟩ := bind_eq_ok.mp hok
  have hc : c.mSockfd = fd := read_socket rs (h.socket fd ho).1 _ hread
  rw [Server.readHappens, hread]
  cases ok with
  | false =>
    obtain rfl := Except.ok.inj hok
    show Change s ((s.setUser fd c []).closeConn fd) (closes c.closeConn.2)
    rw [closes_closeConn hc (h.ne_negative ho),
      closeConn_eq (s := s.setUser fd c []) (h.setConn hc).toTables ho]
    exact .closed ho rfl rfl
  | true =>
    obtain rfl := Except.ok.inj hok
    by_cases hfull : (s.setUser fd c []).queue.length > (s.setUser fd c []).maxRequests
    · rw [append_full hfull]
      exact .same rfl rfl
    · rw [append_room hfull]
      exact .same rfl rfl

/-- Arming changes neither the descriptors nor the count. -/
theorem arms_same {effects : List Effect} (h : Tables s) (ho : Open s fd) (ha : Arms fd effects) :
    (s.applyEffects effects).descriptors = s.descriptors ∧
      (s.applyEffects effects).userCount = s.userCount := by
  obtain ⟨i, hi⟩ := ha
  rw [hi, applyEffect_mod h ho]
  exact ⟨rfl, rfl⟩

/-- The branch for `EPOLLOUT`. -/
theorem writeClient_change {mapped : Int → List UInt8} {ws : List WritevResult} (h : Owned s owner)
    (ho : Open s fd) (hnone : owner fd = none) (hok : s.writeClient fd mapped ws = .ok s') :
    Change s s' (s.writeHappens fd mapped ws) := by
  unfold Server.writeClient at hok
  cases hret : ((s.users fd).write mapped ws).ret with
  | none =>
    simp only [hret] at hok
    cases hok
  | some ok =>
    simp only [hret] at hok
    obtain ⟨hsock, heff⟩ := write_done mapped (h.socket fd ho).1 ws hret
    have h₁ := h.setConn hsock
    simp only [Server.writeHappens, hret]
    rcases heff with harms | ⟨rfl, hidle⟩
    · obtain ⟨hdesc, hcount⟩ := arms_same h₁.toTables ho harms
      rw [closes_of_arms harms]
      cases ok with
      | true =>
        obtain rfl := Except.ok.inj hok
        exact .same hdesc hcount
      | false =>
        obtain rfl := Except.ok.inj hok
        have ho₂ : Open (s.setUser fd ((s.users fd).write mapped ws).conn
            ((s.users fd).write mapped ws).effects) fd := (congrFun hdesc fd).trans ho
        have hclose := closeConn_eq (s := s.setUser fd ((s.users fd).write mapped ws).conn
          ((s.users fd).write mapped ws).effects) (h₁.arms ho hnone harms).toTables ho₂
        rw [if_pos rfl, List.nil_append, closes_closeConn hsock (h.ne_negative ho), hclose]
        refine .closed ho ?_ ?_
        · exact congrArg (fun d => Function.update d fd none) hdesc
        · exact congrArg (· - 1) hcount
    · obtain rfl := Except.ok.inj hok
      have hsame : s.setUser fd ((s.users fd).write mapped ws).conn ((s.users fd).write mapped ws).effects =
          { s with users := Function.update s.users fd ((s.users fd).write mapped ws).conn } :=
        hidle W _
      rw [closes_of_idle hidle, if_pos rfl, List.nil_append,
        closes_closeConn hsock (h.ne_negative ho), hsame, closeConn_eq h₁.toTables ho]
      exact .closed ho rfl rfl

/-- A worker's call of `process`. -/
theorem work_change [DecidableEq W] {w : W} {fs : FileSystem} (h : Owned s owner) (ho : Open s fd)
    (hok : s.work w fd fs = .ok s') : Change s s' (s.workHappens fd fs) := by
  obtain ⟨⟨c, effects⟩, hprocess, hok⟩ := bind_eq_ok.mp hok
  obtain rfl := Except.ok.inj hok
  rw [Server.workHappens, hprocess]
  have h₀ : Tables { s with working := Function.update s.working w none } :=
    ⟨h.socket, h.registered, h.listening, h.listener, h.negative⟩
  rcases process_done (h.socket fd ho).1 (h.ne_negative ho) hprocess with ⟨hsock, harms⟩ | ⟨-, rfl⟩
  · simp only [closes_of_arms harms]
    obtain ⟨i, hi⟩ := harms
    have hmod : ∀ t : Server W, (t.applyEffect (.epollMod fd i)).descriptors = t.descriptors ∧
        (t.applyEffect (.epollMod fd i)).userCount = t.userCount := by
      intro t
      simp only [Server.applyEffect]
      split <;> exact ⟨rfl, rfl⟩
    rw [Server.setUser, hi]
    exact .same (hmod _).1 (hmod _).2
  · have hclosed := setUser_closed h₀ ho c
    show Change s (Server.setUser { s with working := Function.update s.working w none } fd c _)
      [.close fd]
    rw [hclosed]
    exact .closed ho rfl rfl

/-- The handling of an event of a connection. -/
theorem handleEvent_change {input : Server.Input} {d : Delivered} (h : Owned s owner)
    (ho : Open s d.fd) (hnone : owner d.fd = none) (hok : s.handleEvent input d = .ok s') :
    Change s s' (s.handleHappens input d) := by
  have hne := h.ne_listenfd ho
  rw [Server.handleEvent, if_neg hne] at hok
  rw [Server.handleHappens, if_neg hne]
  by_cases hclosing : d.events.closing
  · rw [if_pos hclosing] at hok ⊢
    obtain rfl := Except.ok.inj hok
    exact closeConn_change h.toTables ho
  rw [if_neg hclosing] at hok ⊢
  by_cases hreadable : d.events.readable
  · rw [if_pos hreadable] at hok ⊢
    exact readClient_change h ho hok
  rw [if_neg hreadable] at hok ⊢
  by_cases hwritable : d.events.writable
  · rw [if_pos hwritable] at hok ⊢
    exact writeClient_change h ho hnone hok
  · rw [if_neg hwritable] at hok ⊢
    obtain rfl := Except.ok.inj hok
    exact .same rfl rfl

/-- Every step makes one of the changes. -/
theorem step_change [DecidableEq W] {a : ServerListings.Model.WebServer.Action W} (h : Owned s owner)
    (hs : Step s a s') : Change s s' (s.happens a) := by
  cases hs with
  | wait batch hempty hlen hnodup hrep => exact .same rfl rfl
  | take w fd rest hidle hq => exact .same rfl rfl
  | handle d rest input hp hnew hok =>
    show Change s s' (s.handleHappens input d)
    have hsame : ∀ {t : List Happening}, Change { s with pending := rest } s' t → Change s s' t := by
      intro t ht
      cases ht with
      | same hd hc => exact .same hd hc
      | turnedAway hfree hd hc => exact .turnedAway hfree hd hc
      | opened hfree hd hc => exact .opened hfree hd hc
      | closed ho hd hc => exact .closed ho hd hc
    apply hsame
    by_cases hd : d.fd = s.listenfd
    · rw [Server.handleEvent, if_pos hd] at hok
      have hchange := acceptClient_change (h.nextAccept hp hd).toTables hnew hok
      rwa [Server.handleHappens, if_pos hd]
    · obtain ⟨ho, hnext⟩ := h.nextEvent hp hd
      exact handleEvent_change hnext ho (Function.update_self ..) hok
  | process w fd fs hw hok =>
    rw [Server.happens, hw]
    exact work_change h (h.open_of_at fd (.taken w) hw) hok

end Steps

/-! ## Runs -/

section Runs

variable {W : Type} {s s' s₀ : Server W} {log t : List Happening}

/-- The log and the state agree on which connections are open, no descriptor is closed that was
not accepted since it was last closed, and the count is right. -/
structure Counted (log : List Happening) (s : Server W) : Prop where
  live : ∀ fd, Since (.accept fd) (.close fd) log ↔ Open s fd
  served : ∀ fd, Since (.init fd) (.close fd) log ↔ Open s fd
  guarded : ∀ fd, Guarded (.accept fd) (.close fd) log
  count : ∃ F : Finset Int, (∀ fd, fd ∈ F ↔ Open s fd) ∧ s.userCount = F.card

/-- The same connections are open where the descriptors are the same. -/
theorem open_congr (hd : s'.descriptors = s.descriptors) (x : Int) : Open s' x ↔ Open s x := by
  unfold Open
  rw [hd]

/-- A free descriptor is no connection. -/
theorem not_open_of_free {fd : Int} (hfree : s.descriptors fd = none) : ¬ Open s fd := by
  unfold Open
  rw [hfree]
  simp

/-- One more connection is open. -/
theorem open_update {fd : Int} (hd : s'.descriptors = Function.update s.descriptors fd (some .client))
    (x : Int) : Open s' x ↔ x = fd ∨ Open s x := by
  unfold Open
  rw [hd]
  by_cases hx : x = fd
  · simp [hx]
  · simp [hx]

/-- One connection is open no more. -/
theorem open_update_none {fd : Int} (hd : s'.descriptors = Function.update s.descriptors fd none)
    (x : Int) : Open s' x ↔ x ≠ fd ∧ Open s x := by
  unfold Open
  rw [hd]
  by_cases hx : x = fd
  · simp [hx]
  · simp [hx]

/-- Each change keeps the agreement: one case for each thing a step can do. -/
theorem Counted.change (h : Counted log s) (hchange : Change s s' t) : Counted (log ++ t) s' := by
  obtain ⟨F, hF, hcard⟩ := h.count
  have happend : ∀ a b : Happening, log ++ [a, b] = (log ++ [a]) ++ [b] := by simp
  cases hchange with
  | same hd hc =>
    rw [List.append_nil]
    exact ⟨fun x => (h.live x).trans (open_congr hd x).symm,
      fun x => (h.served x).trans (open_congr hd x).symm, h.guarded,
      F, fun x => (hF x).trans (open_congr hd x).symm, hc.trans hcard⟩
  | @turnedAway fd hfree hd hc =>
    have hno := not_open_of_free hfree
    rw [happend]
    refine ⟨fun x => ?_, fun x => ?_, fun x => ?_, F, fun x => (hF x).trans (open_congr hd x).symm,
      hc.trans hcard⟩
    · rw [since_concat, since_concat, h.live, open_congr hd]
      by_cases hx : x = fd
      · simp [hx, hno]
      · simp [Ne.symm hx]
    · rw [since_concat, since_concat, h.served, open_congr hd]
      by_cases hx : x = fd
      · simp [hx, hno]
      · simp [Ne.symm hx]
    · rw [guarded_concat, guarded_concat, since_concat]
      refine ⟨⟨h.guarded x, by simp⟩, fun heq => ?_⟩
      rw [Happening.close.inj heq]
      exact Or.inl rfl
  | @opened fd hfree hd hc =>
    have hno := not_open_of_free hfree
    rw [happend]
    refine ⟨fun x => ?_, fun x => ?_, fun x => ?_, insert fd F, fun x => ?_, ?_⟩
    · rw [since_concat, since_concat, h.live, open_update hd]
      simp [eq_comm]
    · rw [since_concat, since_concat, h.served, open_update hd]
      simp [eq_comm]
    · rw [guarded_concat, guarded_concat]
      exact ⟨⟨h.guarded x, by simp⟩, by simp⟩
    · rw [Finset.mem_insert, hF, open_update hd]
    · rw [Finset.card_insert_of_notMem (by rwa [hF]), hc, hcard]
      push_cast
      rfl
  | @closed fd ho hd hc =>
    refine ⟨fun x => ?_, fun x => ?_, fun x => ?_, F.erase fd, fun x => ?_, ?_⟩
    · rw [since_concat, h.live, open_update_none hd]
      simp [eq_comm]
    · rw [since_concat, h.served, open_update_none hd]
      simp [eq_comm]
    · rw [guarded_concat]
      refine ⟨h.guarded x, fun heq => ?_⟩
      rw [← Happening.close.inj heq, h.live]
      exact ho
    · rw [Finset.mem_erase, hF, open_update_none hd]
    · have hmem : fd ∈ F := (hF fd).mpr ho
      have hpos : 0 < F.card := Finset.card_pos.mpr ⟨fd, hmem⟩
      rw [hc, hcard, Finset.card_erase_of_mem hmem]
      omega

/-- At first no connection is counted. -/
theorem counted_initial (h : Initial s) : Counted [] s :=
  ⟨fun fd => iff_of_false not_since_nil (h.clients fd), fun fd => iff_of_false not_since_nil (h.clients fd),
    fun _ => guarded_nil, ∅, fun fd => iff_of_false (Finset.notMem_empty fd) (h.clients fd),
    by rw [h.userCount]; rfl⟩

variable [DecidableEq W]

/-- The agreement holds along every run of the steps. -/
theorem logged_counted {cond : Server W → ServerListings.Model.WebServer.Action W → Prop}
    (hinit : Initial s₀) (hrun : Logged Step cond Server.happens s₀ log s) :
    Counted log s ∧ ∃ owner, Owned s owner := by
  apply hrun.invariant (I := fun log s => Counted log s ∧ ∃ owner, Owned s owner)
    ⟨counted_initial hinit, _, owned_initial hinit⟩
  rintro log s a s' ⟨hcount, owner, howned⟩ hstep -
  obtain ⟨owner', howned', -⟩ := step_owned howned hstep
  exact ⟨hcount.change (step_change howned hstep), owner', howned'⟩

/-- In every state that is reached by defined turns, `m_user_count` is the number of the
descriptors that were given to `init` and not closed since, the object of each of them has its
descriptor, and every call of `close` is for a descriptor that was accepted and not closed
since. -/
theorem userCount_open (hinit : Initial s₀)
    (hrun : Logged Turn Server.Defined Server.happens s₀ log s) :
    (∃ F : Finset Int, (∀ fd, fd ∈ F ↔ Since (.init fd) (.close fd) log) ∧ s.userCount = F.card) ∧
      (∀ fd, Since (.init fd) (.close fd) log → (s.users fd).mSockfd = fd) ∧
      ∀ fd, Guarded (.accept fd) (.close fd) log := by
  obtain ⟨hcount, owner, howned⟩ :=
    logged_counted hinit (logged_defined (fun _ _ h => h) hinit hrun).1
  obtain ⟨F, hF, hcard⟩ := hcount.count
  refine ⟨⟨F, fun fd => (hF fd).trans (hcount.served fd).symm, hcard⟩, fun fd hfd => ?_,
    hcount.guarded⟩
  exact (howned.socket fd ((hcount.served fd).mp hfd)).1

/-- A client has connected and sent a byte. -/
theorem userCount_open_arrived :
    ∃ log, Logged Turn Server.Defined Server.happens (Server.start fun _ => default) log
        (arrived (Server.start fun _ => default) 5) ∧
      ∃ F : Finset Int, (∀ fd, fd ∈ F ↔ Since (.init fd) (.close fd) log) ∧
        (arrived (Server.start fun _ => default) 5).userCount = F.card := by
  have hrun : Run Turn Server.Defined (Server.start fun _ => default)
      (arrived (Server.start fun _ => default) 5) :=
    ((run_arrived_defined (ready_start _) (by omega)).mono fun _ _ h => h.1).embed
      fun _ _ _ => .step _
  obtain ⟨log, hlog⟩ := hrun.logged Server.happens
  exact ⟨log, hlog, (userCount_open (initial_start _) hlog).1⟩

/-- The first client sends a body length of -59: its object no longer has its descriptor, which
is open. -/
theorem socket_not_kept : ¬ ∀ (s₀ s : Server (Fin defaultThreadNumber)) (log : List Happening),
    Initial s₀ → Logged Turn (fun _ _ => True) Server.happens s₀ log s →
      ∀ fd, Since (.init fd) (.close fd) log → (s.users fd).mSockfd = fd := by
  intro hall
  obtain ⟨s, c', hrun, hturn, hsock, hopen, hzero, -, -, -, -, hnothing⟩ := exists_strayRequest
  obtain ⟨log, hlog⟩ := hrun.logged Server.happens
  obtain ⟨hcount, -⟩ := logged_counted (initial_start _) hlog
  have hlast := (hlog.embed fun _ _ _ => Turn.step _).step hturn trivial
  rw [hnothing, List.append_nil] at hlast
  have hkept := hall _ _ _ (initial_start _) hlast 5 ((hcount.served 5).mpr hopen)
  rw [strayed_unregistered hzero] at hkept
  have huser : Function.update s.users 5 c' 5 = c' := Function.update_self ..
  have hfive : c'.mSockfd = 5 := huser ▸ hkept
  rw [hsock] at hfive
  cases hfive

end Runs

end ServerListings.Analysis.ConnectionCount
