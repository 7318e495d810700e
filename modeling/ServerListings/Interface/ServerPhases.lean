import ServerListings.Interface.ReplyMessage
import ServerListings.Interface.ServerSteps

/-!
# The phases of a connection

The object of an open connection either waits for a request, and then its write buffer is
cleared, or it has a response prepared. `InPhase` says that the place of the connection agrees
with that: it waits for `EPOLLIN`, for `main` to read it or for a worker in the first case,
and for `EPOLLOUT` or for `main` to write it in the second.
-/

set_option autoImplicit false

namespace ServerListings.Interface.ServerPhases

open Lib.CMem Lib.Custody Lib.Transition ServerListings.Model ServerListings.Model.Http
  ServerListings.Model.WebServer

/-- The write buffer is cleared. -/
def Blank (c : HttpConn) : Prop := Written c []

/-- A response is prepared in the write buffer and in `m_iv`. -/
def Primed (c : HttpConn) : Prop := c.mWriteIdx ≠ 0 ∧ ∃ ret, Prepared ret c

/-- The effects arm the descriptor for `i`, and do nothing else to the server. -/
def ArmsFor (fd : Int) (i : Interest) (effects : List Effect) : Prop :=
  ∀ (W : Type) (s : Server W), s.applyEffects effects = s.applyEffect (.epollMod fd i)

/-- `process_read` asks for a regular file without bytes. -/
def AsksForEmpty (fs : FileSystem) (c : HttpConn) : Prop :=
  ∃ c', c.processRead fs = .ok (.fileRequest, c') ∧ c'.mFileStat.stSize = 0

/-! ## The member functions -/

section Objects

variable {c c' : HttpConn} {fd : Int} {effects : List Effect}

/-- A new object has no reply. -/
theorem blank_init (c : HttpConn) : Blank c.init := ⟨rfl, rfl, List.length_replicate⟩

/-- What leaves the reply alone leaves the object without one. -/
theorem Blank.of_replySide (h : Blank c) (hsame : replySide c' = replySide c) : Blank c' where
  writeIdx := (congrArg ReplySide.writeIdx hsame).trans h.writeIdx
  text := rfl
  length := (congrArg (·.writeBuf.length) hsame).trans h.length

/-- `modfd` arms the descriptor. -/
theorem armsFor_modfd (fd : Int) (i : Interest) : ArmsFor fd i (modfd fd i) := fun _ _ => rfl

/-- A call of `write` that returns true waits for room in the socket with the response as it
is, or goes back to reading with a cleared buffer. -/
inductive WriteEnds (fd : Int) (c : HttpConn) (call : WriteCall) : Prop
  | waiting (hconn : call.conn = c) (ha : ArmsFor fd .epollout call.effects)
  | again (hc : Blank call.conn) (hsock : call.conn.mSockfd = fd)
      (ha : ArmsFor fd .epollin call.effects)

/-- The last statements of `write` leave the object without a reply, armed for input. -/
theorem finishWrite_ends (h : c.mSockfd = fd) (hret : c.finishWrite.1 = true) :
    Blank c.finishWrite.2.1 ∧ c.finishWrite.2.1.mSockfd = fd ∧
      ArmsFor fd .epollin c.finishWrite.2.2 := by
  have hsock : c.unmap.1.mSockfd = fd := (unmap_socket c).trans h
  unfold HttpConn.finishWrite at hret ⊢
  by_cases hl : c.unmap.1.mLinger = true
  · simp only [if_pos hl]
    refine ⟨blank_init _, hsock, fun W s => ?_⟩
    rw [applyEffects_append, applyEffects_unmap]
    exact congrArg (fun x => s.applyEffect (.epollMod x .epollin)) hsock
  · simp only [if_neg hl] at hret
    cases hret

/-- How the loop of `write` leaves the object when it returns true. -/
theorem writeLoop_ends (mapped : Int → List UInt8) (h : c.mSockfd = fd) (ws : List WritevResult) :
    ∀ toSend haveSent : Int, (c.writeLoop mapped toSend haveSent ws).ret = some true →
      WriteEnds fd c (c.writeLoop mapped toSend haveSent ws) := by
  induction ws with
  | nil =>
    intro toSend haveSent hret
    cases hret
  | cons r ws ih =>
    intro toSend haveSent hret
    cases r with
    | eagain => exact .waiting rfl (h ▸ armsFor_modfd _ _)
    | error => cases hret
    | accepted k =>
      unfold HttpConn.writeLoop at hret ⊢
      by_cases hdone : toSend - k ≤ haveSent + k
      · simp only [if_pos hdone] at hret ⊢
        obtain ⟨hc, hsock, ha⟩ := finishWrite_ends h (Option.some.inj hret)
        exact .again hc hsock ha
      · simp only [if_neg hdone] at hret ⊢
        cases ih _ _ hret with
        | waiting hconn ha => exact .waiting hconn ha
        | again hc hsock ha => exact .again hc hsock ha

/-- How `write` leaves the object when it returns true. -/
theorem write_ends (mapped : Int → List UInt8) (h : c.mSockfd = fd) (ws : List WritevResult)
    (hret : (c.write mapped ws).ret = some true) : WriteEnds fd c (c.write mapped ws) := by
  unfold HttpConn.write at hret ⊢
  by_cases hidx : c.mWriteIdx = 0
  · simp only [if_pos hidx] at hret ⊢
    exact .again (blank_init c) h (h ▸ armsFor_modfd _ _)
  · simp only [if_neg hidx] at hret ⊢
    exact writeLoop_ends mapped h ws _ _ hret

/-- How a call of `process` on a cleared object ends: it waits for more bytes, it has prepared
a response, or it has closed the connection, and that only for an empty file. -/
inductive ProcessEnds (fs : FileSystem) (fd : Int) (c c' : HttpConn) (effects : List Effect) : Prop
  | more (hempty : ¬ AsksForEmpty fs c) (hc : Blank c') (hsock : c'.mSockfd = fd)
      (heff : effects = modfd fd .epollin)
  | answered (hempty : ¬ AsksForEmpty fs c) (hc : Primed c') (hsock : c'.mSockfd = fd)
      (heff : effects = modfd fd .epollout)
  | closed (hempty : AsksForEmpty fs c)
      (heff : effects = removefd fd ++ [.userCount (-1)] ++ modfd (-1) .epollout)

/-- Everything `process_read` does leaves a cleared write buffer cleared. -/
theorem processRead_blank {ret : HttpCode} (fs : FileSystem) (h : Blank c)
    (hread : c.processRead fs = .ok (ret, c')) : Blank c' := by
  have hmem : ∀ x : HttpConn, replySide x = replySide c → ∀ r, Sought fs x r → Blank r.2 := by
    intro x hx r hr
    have hxc := h.of_replySide hx
    cases hr <;> exact ⟨hxc.writeIdx, rfl, hxc.length⟩
  cases (processRead_end fs c).result hread with
  | noRequest hsame => exact h.of_replySide hsame
  | badRequest hsame => exact h.of_replySide hsame
  | doRequest hsame hdo => exact hmem _ hsame _ ((doRequest_sought fs _).result hdo)

/-- Every text that `process_write` writes has a status line. -/
theorem replyText_length (linger : Bool) (size : Nat) {ret : HttpCode} (hret : Answered ret) :
    (replyText linger size ret).length ≠ 0 := by
  have hversion : bytes "HTTP/1.1" ≠ [] := by decide
  rcases hret with rfl | rfl | rfl | rfl | rfl <;>
    simp [replyText, pageText, statusLine, hversion]

/-- How `process` leaves the object. -/
theorem process_ends {fs : FileSystem} (h : Blank c) (hsock : c.mSockfd = fd) (hfd : fd ≠ -1)
    (hok : c.process fs = .ok (c', effects)) : ProcessEnds fs fd c c' effects := by
  obtain ⟨⟨ret, c₁⟩, hread, hok⟩ := bind_eq_ok.mp hok
  have hs₁ : c₁.mSockfd = fd := processRead_socket fs hsock _ hread
  have hc₁ : Blank c₁ := processRead_blank fs h hread
  have hanswer := (processRead_answered fs c).result hread
  have hasks : AsksForEmpty fs c → ret = .fileRequest ∧ c₁.mFileStat.stSize = 0 := by
    rintro ⟨c₂, hread₂, hsize⟩
    rw [hread] at hread₂
    obtain ⟨rfl, rfl⟩ := Prod.mk.inj (Except.ok.inj hread₂)
    exact ⟨rfl, hsize⟩
  by_cases hmore : ret = .noRequest
  · simp only [if_pos hmore] at hok
    obtain ⟨rfl, rfl⟩ := Prod.mk.inj (Except.ok.inj hok)
    refine .more (fun hempty => ?_) hc₁ hs₁ (by rw [hs₁])
    rw [(hasks hempty).1] at hmore
    cases hmore
  · simp only [if_neg hmore] at hok
    obtain ⟨⟨ok, c₂⟩, hwrite, hok⟩ := bind_eq_ok.mp hok
    have hs₂ : c₂.mSockfd = fd := processWrite_socket ret hs₁ _ hwrite
    by_cases hempty : ret = .fileRequest ∧ c₁.mFileStat.stSize = 0
    · obtain ⟨rfl, hsize⟩ := hempty
      obtain ⟨c₃, hwrite₃, -⟩ := processWrite_empty hc₁ hsize
      rw [hwrite] at hwrite₃
      obtain ⟨rfl, rfl⟩ := Prod.mk.inj (Except.ok.inj hwrite₃)
      have hopen : c₂.mSockfd ≠ -1 := by rwa [hs₂]
      simp only [Bool.not_false, if_true, HttpConn.closeConn, if_pos hopen] at hok
      obtain ⟨rfl, rfl⟩ := Prod.mk.inj (Except.ok.inj hok)
      exact .closed ⟨c₁, hread, hsize⟩ (by rw [hs₂])
    · have hfile : ret = .fileRequest → c₁.mFileStat.stSize ≠ 0 :=
        fun hret hsize => hempty ⟨hret, hsize⟩
      obtain ⟨c₃, hwrite₃, -, htext⟩ := processWrite_text hc₁ (hanswer.resolve_left hmore) hfile
      rw [hwrite] at hwrite₃
      obtain ⟨rfl, rfl⟩ := Prod.mk.inj (Except.ok.inj hwrite₃)
      obtain ⟨rfl, rfl⟩ := Prod.mk.inj (Except.ok.inj hok)
      refine .answered (fun hasked => hempty (hasks hasked)) ⟨?_, ret, ?_⟩ hs₂ (by rw [hs₂])
      · rw [htext.writeIdx]
        exact replyText_length _ _ (hanswer.resolve_left hmore)
      · exact processWrite_prepared hc₁ hwrite

end Objects

/-! ## Places and phases -/

section Phases

variable {W : Type} {s s' : Server W} {owner : Int → Option (Place W)} {fd x : Int} {c : HttpConn}
  {i j : Interest}

/-- The connection is at a place that goes with an interest: its object is going to be read or
processed, or is going to be written. -/
inductive Waits (s : Server W) (fd : Int) : Interest → Prop
  | armed {i : Interest} (h : s.epoll fd = some ⟨some i, true⟩) : Waits s fd i
  | readable {d : Delivered} (hd : d ∈ s.pending) (hfd : d.fd = fd) (h : d.events.readable = true) :
      Waits s fd .epollin
  | writable {d : Delivered} (hd : d ∈ s.pending) (hfd : d.fd = fd) (h : d.events.writable = true) :
      Waits s fd .epollout
  | queued (h : fd ∈ s.queue) : Waits s fd .epollin
  | taken {w : W} (h : s.working w = some fd) : Waits s fd .epollin

/-- The object that goes with an interest. -/
def Suits : Interest → HttpConn → Prop
  | .epollin => Blank
  | .epollout => Primed

/-- The object of the connection suits the places that the connection is at. -/
def InPhase (s : Server W) (fd : Int) : Prop := ∀ i, Waits s fd i → Suits i (s.users fd)

/-- Every open connection is in phase. -/
def Phased (s : Server W) : Prop := ∀ fd, Open s fd → InPhase s fd

/-- A connection that waits for something is at a place. -/
theorem Waits.isAt (h : Waits s fd i) (hne : fd ≠ s.listenfd) : ∃ p, IsAt s fd p := by
  cases h with
  | armed h => exact ⟨.armed, _, h⟩
  | readable hd hfd _ => exact ⟨.delivered, hne, hfd ▸ List.mem_map_of_mem hd⟩
  | writable hd hfd _ => exact ⟨.delivered, hne, hfd ▸ List.mem_map_of_mem hd⟩
  | queued h => exact ⟨.queued, h⟩
  | taken h => exact ⟨.taken _, h⟩

/-- A connection at no place waits for nothing. -/
theorem not_waits (h : Owned s owner) (ho : Open s fd) (hnone : owner fd = none) : ¬ Waits s fd i := by
  intro hw
  obtain ⟨p, hp⟩ := hw.isAt (h.ne_listenfd ho)
  exact h.places.not_rel hnone p hp

/-- A connection waits for the same when its entry of the table, the batch, the queue and the
workers are the same. -/
theorem Waits.congr (h : Waits s' x i) (he : s'.epoll x = s.epoll x)
    (hp : ∀ d ∈ s'.pending, d ∈ s.pending) (hq : s'.queue = s.queue)
    (hw : s'.working = s.working) : Waits s x i := by
  cases h with
  | armed h => exact .armed (he.symm.trans h)
  | readable hd hfd h => exact .readable (hp _ hd) hfd h
  | writable hd hfd h => exact .writable (hp _ hd) hfd h
  | queued h => exact .queued (hq ▸ h)
  | taken h => exact .taken (hw ▸ h)

/-- What waits behind the next event has waited before. -/
theorem waits_rest {d : Delivered} {rest : List Delivered} (hp : s.pending = d :: rest)
    (h : Waits { s with pending := rest } x i) : Waits s x i := by
  refine h.congr rfl (fun e he => ?_) rfl rfl
  rw [hp]
  exact List.mem_cons_of_mem _ he

/-- Other objects do not change what is waited for. -/
theorem waits_setUsers (users : Int → HttpConn) (h : Waits { s with users := users } x i) :
    Waits s x i :=
  h.congr rfl (fun _ hd => hd) rfl rfl

/-- A request that is appended waits for a worker. -/
theorem waits_enqueue (h : Waits { s with queue := s.queue ++ [fd] } x i) :
    Waits s x i ∨ (x = fd ∧ i = .epollin) := by
  cases h with
  | armed h => exact .inl (.armed h)
  | readable hd hfd h => exact .inl (.readable hd hfd h)
  | writable hd hfd h => exact .inl (.writable hd hfd h)
  | queued h =>
    rcases List.mem_append.mp h with h | h
    · exact .inl (.queued h)
    · exact .inr ⟨List.mem_singleton.mp h, rfl⟩
  | taken h => exact .inl (.taken h)

/-- A worker comes to hold a request, or none. -/
theorem waits_working [DecidableEq W] {w : W} {o : Option Int}
    (h : Waits { s with working := Function.update s.working w o } x i) :
    Waits s x i ∨ (o = some x ∧ i = .epollin) := by
  cases h with
  | armed h => exact .inl (.armed h)
  | readable hd hfd h => exact .inl (.readable hd hfd h)
  | writable hd hfd h => exact .inl (.writable hd hfd h)
  | queued h => exact .inl (.queued h)
  | @taken v h =>
    replace h : Function.update s.working w o v = some x := h
    by_cases hv : v = w
    · rw [hv, Function.update_self] at h
      exact .inr ⟨h, rfl⟩
    · rw [Function.update_of_ne hv] at h
      exact .inl (.taken h)

/-- A change of one entry of the epoll table that arms the descriptor. -/
theorem Waits.of_armed (h : Waits s' x j) (hself : s'.epoll fd = some ⟨some i, true⟩)
    (hother : ∀ y, y ≠ fd → s'.epoll y = s.epoll y) (hp : s'.pending = s.pending)
    (hq : s'.queue = s.queue) (hw : s'.working = s.working) :
    Waits s x j ∨ (x = fd ∧ j = i) := by
  have hsub : ∀ d ∈ s'.pending, d ∈ s.pending := fun d hd => hp ▸ hd
  by_cases hx : x = fd
  · subst hx
    cases h with
    | armed h =>
      obtain ⟨hi, -⟩ := Registration.mk.inj (Option.some.inj (hself.symm.trans h))
      exact .inr ⟨rfl, (Option.some.inj hi).symm⟩
    | readable hd hfd h => exact .inl (.readable (hsub _ hd) hfd h)
    | writable hd hfd h => exact .inl (.writable (hsub _ hd) hfd h)
    | queued h => exact .inl (.queued (hq ▸ h))
    | taken h => exact .inl (.taken (hw ▸ h))
  · exact .inl (h.congr (hother x hx) hsub hq hw)

/-- The handler puts its connection, which was at no place, at one that goes with `i`. -/
theorem Phased.put (h : Phased s) (hopen : ∀ x, x ≠ fd → Open s' x → Open s x)
    (husers : s'.users = Function.update s.users fd c) (hnone : ∀ j, ¬ Waits s fd j)
    (hwaits : ∀ x j, Waits s' x j → Waits s x j ∨ (x = fd ∧ j = i)) (hc : Suits i c) : Phased s' := by
  intro x hx j hw
  rw [husers]
  by_cases hxf : x = fd
  · subst hxf
    rw [Function.update_self]
    rcases hwaits x j hw with hw | ⟨-, rfl⟩
    · exact absurd hw (hnone j)
    · exact hc
  · rw [Function.update_of_ne hxf]
    rcases hwaits x j hw with hw | ⟨heq, -⟩
    · exact h x (hopen x hxf hx) j hw
    · exact absurd heq hxf

/-- The handler leaves its connection at no place. -/
theorem Phased.leave (h : Phased s) (hopen : ∀ x, x ≠ fd → Open s' x → Open s x)
    (husers : s'.users = Function.update s.users fd c) (hnone : ∀ j, ¬ Waits s fd j)
    (hwaits : ∀ x j, Waits s' x j → Waits s x j) : Phased s' := by
  intro x hx j hw
  by_cases hxf : x = fd
  · exact absurd (hwaits x j hw) (hxf ▸ hnone j)
  · rw [husers, Function.update_of_ne hxf]
    exact h x (hopen x hxf hx) j (hwaits x j hw)

/-- The connection is closed, whatever became of its object before. -/
theorem phased_closed (h : ∀ x, x ≠ fd → Open s x → InPhase s x) (c : HttpConn) :
    Phased (closed s fd c) := by
  intro x hx j hw
  obtain ⟨hxf, hx⟩ := (open_closed x).mp hx
  show Suits j (Function.update s.users fd c x)
  rw [Function.update_of_ne hxf]
  exact h x hxf hx j (hw.congr (Function.update_of_ne hxf ..) (fun _ hd => hd) rfl rfl)

/-- Closing a connection leaves the others in phase. -/
theorem Phased.closed (h : Phased s) (c : HttpConn) : Phased (closed s fd c) :=
  phased_closed (fun x _ hx => h x hx) c

/-- The state after a member function armed the descriptor again. -/
theorem setUser_armed (ht : Tables s) (ho : Open s fd) {effects : List Effect}
    (ha : ArmsFor fd i effects) :
    s.setUser fd c effects =
      { s with
        users := Function.update s.users fd c
        epoll := Function.update s.epoll fd (some ⟨some i, true⟩) } := by
  obtain ⟨-, k, hk⟩ := ht.socket fd ho
  rw [Server.setUser, ha]
  simp only [Server.applyEffect, hk, Option.isNone_some, Bool.false_eq_true, if_false]

/-- The connection is armed with an object that suits the interest. -/
theorem Phased.arm (h : Phased s) (ht : Tables s) (ho : Open s fd) (hnone : ∀ j, ¬ Waits s fd j)
    {effects : List Effect} (ha : ArmsFor fd i effects) (hc : Suits i c) :
    Phased (s.setUser fd c effects) := by
  rw [setUser_armed ht ho ha]
  refine h.put (i := i) (fun y _ hy => hy) rfl hnone (fun y j hw => ?_) hc
  exact hw.of_armed (Function.update_self ..) (fun z hz => Function.update_of_ne hz ..) rfl rfl rfl

/-! ## The steps -/

/-- A client that is turned away leaves no trace. -/
theorem turned_away (h : Tables s) (hfree : s.descriptors fd = none) :
    Server.showError { s with descriptors := Function.update s.descriptors fd (some .client) } fd = s := by
  simp only [Server.showError, Server.applyEffect, Function.update_idem]
  rw [Function.update_eq_self_iff.mpr hfree.symm,
    Function.update_eq_self_iff.mpr (h.epoll_none hfree).symm]

/-- The branch for `EPOLLIN`. -/
theorem readClient_phased {rs : List RecvResult} (h : Owned s owner) (hph : Phased s)
    (ho : Open s fd) (hnone : owner fd = none) (hc : Blank (s.users fd))
    (hok : s.readClient fd rs = .ok s') : Phased s' := by
  have hidle : ∀ j, ¬ Waits s fd j := fun j => not_waits h ho hnone
  obtain ⟨⟨ok, c⟩, hread, hok⟩ := bind_eq_ok.mp hok
  have hc' : Blank c := hc.of_replySide ((read_replySide rs _).result hread)
  have hsock : c.mSockfd = fd := read_socket rs (h.socket fd ho).1 _ hread
  have hleave : Phased (s.setUser fd c []) :=
    hph.leave (fun _ _ hx => hx) rfl hidle fun _ _ hw =>
      waits_setUsers (Function.update s.users fd c) hw
  have h₁ : Owned (s.setUser fd c []) owner := h.setConn hsock
  cases ok with
  | false =>
    obtain rfl := Except.ok.inj hok
    rw [closeConn_eq h₁.toTables ho]
    exact hleave.closed _
  | true =>
    obtain rfl := Except.ok.inj hok
    by_cases hfull : (s.setUser fd c []).queue.length > (s.setUser fd c []).maxRequests
    · rw [append_full hfull]
      exact hleave
    · rw [append_room hfull]
      refine hph.put (i := .epollin) (fun _ _ hx => hx) rfl hidle ?_ hc'
      intro x j hw
      exact waits_enqueue (waits_setUsers (s := { s with queue := s.queue ++ [fd] })
        (Function.update s.users fd c) hw)

/-- The branch for `EPOLLOUT`. -/
theorem writeClient_phased {mapped : Int → List UInt8} {ws : List WritevResult}
    (h : Owned s owner) (hph : Phased s) (ho : Open s fd) (hnone : owner fd = none)
    (hc : Primed (s.users fd)) (hok : s.writeClient fd mapped ws = .ok s') : Phased s' := by
  have hidle : ∀ j, ¬ Waits s fd j := fun j => not_waits h ho hnone
  have hsocket := (h.socket fd ho).1
  unfold Server.writeClient at hok
  cases hret : ((s.users fd).write mapped ws).ret with
  | none =>
    simp only [hret] at hok
    cases hok
  | some ok =>
    simp only [hret] at hok
    cases ok with
    | true =>
      obtain rfl := Except.ok.inj hok
      cases write_ends mapped hsocket ws hret with
      | waiting hconn ha =>
        refine hph.arm h.toTables ho hidle ha ?_
        rw [hconn]
        exact hc
      | again hc' _ ha => exact hph.arm h.toTables ho hidle ha hc'
    | false =>
      obtain rfl := Except.ok.inj hok
      obtain ⟨hsock, heff⟩ := write_done mapped hsocket ws hret
      have h₁ := h.setConn hsock
      rcases heff with harms | ⟨-, hidle'⟩
      · obtain ⟨i, hi⟩ := harms
        have h₂ := h₁.arms ho hnone ⟨i, hi⟩
        have hopen := (open_of_arms h₁.toTables ho ⟨i, hi⟩ fd).mpr ho
        have heq : s.setUser fd ((s.users fd).write mapped ws).conn ((s.users fd).write mapped ws).effects =
            { s with
              users := Function.update s.users fd ((s.users fd).write mapped ws).conn
              epoll := Function.update s.epoll fd (some ⟨some i, true⟩) } := by
          rw [Server.setUser, hi]
          exact applyEffect_mod h₁.toTables ho i
        rw [show s.setUser fd ((s.users fd).write mapped ws).conn _ = _ from heq]
        rw [hi, applyEffect_mod h₁.toTables ho i] at h₂ hopen
        rw [closeConn_eq h₂.toTables hopen]
        refine phased_closed (fun x hx hx' j hw => ?_) _
        show Suits j (Function.update s.users fd _ x)
        rw [Function.update_of_ne hx]
        exact hph x hx' j (hw.congr (Function.update_of_ne hx ..) (fun _ hd => hd) rfl rfl)
      · have hsame : s.setUser fd ((s.users fd).write mapped ws).conn
            ((s.users fd).write mapped ws).effects =
            { s with users := Function.update s.users fd ((s.users fd).write mapped ws).conn } :=
          hidle' W _
        rw [hsame, closeConn_eq h₁.toTables ho]
        refine phased_closed (fun x hx hx' j hw => ?_) _
        show Suits j (Function.update s.users fd _ x)
        rw [Function.update_of_ne hx]
        exact hph x hx' j (waits_setUsers _ hw)

/-- The branch for the listening socket. -/
theorem acceptClient_phased {connfd : Option Int} (h : Owned s owner) (hph : Phased s)
    (hnew : ∀ fd, connfd = some fd → 0 ≤ fd ∧ s.descriptors fd = none)
    (hok : s.acceptClient connfd = .ok s') : Phased s' := by
  cases connfd with
  | none =>
    obtain rfl := Except.ok.inj hok
    exact hph
  | some fd =>
    obtain ⟨hpos, hfree⟩ := hnew fd rfl
    by_cases hbusy : s.userCount ≥ maxFd
    · simp only [Server.acceptClient, if_pos hbusy] at hok
      obtain rfl := Except.ok.inj hok
      rw [turned_away h.toTables hfree]
      exact hph
    · have hrange : fd < maxFd := by
        by_contra hge
        simp only [Server.acceptClient, if_neg hbusy] at hok
        rw [if_pos (Or.inr (not_lt.mp hge))] at hok
        cases hok
      rw [acceptClient_eq h.toTables hfree hpos (not_le.mp hbusy) hrange] at hok
      obtain rfl := Except.ok.inj hok
      have hidle : ∀ j, ¬ Waits s fd j := by
        intro j hw
        by_cases hl : fd = s.listenfd
        · rw [hl, h.listening] at hfree
          cases hfree
        · obtain ⟨p, hp⟩ := hw.isAt hl
          have hopen := h.open_of_at fd p hp
          rw [Open, hfree] at hopen
          cases hopen
      refine hph.put (i := .epollin) ?_ rfl hidle ?_ (blank_init _)
      · intro x hx ho
        exact ((open_accepted x).mp ho).resolve_left hx
      · intro x j hw
        exact hw.of_armed (Function.update_self ..) (fun y hy => Function.update_of_ne hy ..) rfl rfl rfl

/-- The handling of an event. -/
theorem handleEvent_phased {input : Server.Input} {d : Delivered} (h : Owned s owner)
    (hph : Phased s) (ho : Open s d.fd) (hnone : owner d.fd = none)
    (hread : d.events.readable = true → Blank (s.users d.fd))
    (hwrite : d.events.writable = true → Primed (s.users d.fd))
    (hok : s.handleEvent input d = .ok s') : Phased s' := by
  rw [Server.handleEvent, if_neg (h.ne_listenfd ho)] at hok
  by_cases hclosing : d.events.closing
  · rw [if_pos hclosing] at hok
    obtain rfl := Except.ok.inj hok
    rw [closeConn_eq h.toTables ho]
    exact hph.closed _
  rw [if_neg hclosing] at hok
  by_cases hreadable : d.events.readable
  · rw [if_pos hreadable] at hok
    exact readClient_phased h hph ho hnone (hread hreadable) hok
  rw [if_neg hreadable] at hok
  by_cases hwritable : d.events.writable
  · rw [if_pos hwritable] at hok
    exact writeClient_phased h hph ho hnone (hwrite hwritable) hok
  · rw [if_neg hwritable] at hok
    obtain rfl := Except.ok.inj hok
    exact hph

/-- A call of `process` by a worker that no longer counts as having the request. -/
theorem process_phased {fs : FileSystem} {effects : List Effect} (h : Owned s owner)
    (hph : Phased s) (ho : Open s fd) (hnone : owner fd = none) (hc : Blank (s.users fd))
    (hok : (s.users fd).process fs = .ok (c, effects)) : Phased (s.setUser fd c effects) := by
  have hidle : ∀ j, ¬ Waits s fd j := fun j => not_waits h ho hnone
  cases process_ends hc (h.socket fd ho).1 (h.ne_negative ho) hok with
  | more _ hc' _ heff =>
    rw [heff]
    exact hph.arm h.toTables ho hidle (armsFor_modfd _ _) hc'
  | answered _ hc' _ heff =>
    rw [heff]
    exact hph.arm h.toTables ho hidle (armsFor_modfd _ _) hc'
  | closed _ heff =>
    rw [heff, setUser_closed h.toTables ho]
    exact hph.closed c

/-- A batch is reported. -/
theorem deliver_phased {batch : List Delivered} (h : Owned s owner) (hph : Phased s)
    (hrep : ∀ d ∈ batch, s.Reported d) : Phased (s.deliver batch) := by
  intro x hx j hw
  refine hph x hx j ?_
  have harmed : ∀ d ∈ batch, d.fd = x → ∃ i, s.epoll x = some ⟨some i, true⟩ ∧
      (d.events.readable = true → i = .epollin) ∧ (d.events.writable = true → i = .epollout) := by
    rintro d hd rfl
    obtain ⟨r, i, hr, hi, hread, hwrite, -⟩ := hrep d hd
    obtain ⟨-, k, hk⟩ := h.socket d.fd hx
    rw [hr] at hk
    obtain rfl := Option.some.inj hk
    obtain rfl : k = some i := hi
    exact ⟨i, hr, hread, hwrite⟩
  cases hw with
  | armed hw =>
    by_cases hin : InBatch s batch x
    · rw [hin.disarmed (hin.armed h.toTables hrep)] at hw
      cases hw
    · exact .armed ((deliver_epoll h.toTables hin).symm.trans hw)
  | readable hd hfd hw =>
    obtain ⟨i, hi, hread, -⟩ := harmed _ hd hfd
    exact .armed (hread hw ▸ hi)
  | writable hd hfd hw =>
    obtain ⟨i, hi, -, hwrite⟩ := harmed _ hd hfd
    exact .armed (hwrite hw ▸ hi)
  | queued hw => exact .queued hw
  | taken hw => exact .taken hw

/-- Where no more is waited for, everything stays in phase. -/
theorem Phased.of_waits (h : Phased s) (hd : s'.descriptors = s.descriptors)
    (hu : s'.users = s.users) (hw : ∀ x j, Waits s' x j → Waits s x j) : Phased s' := by
  intro x hx j hwait
  rw [hu]
  rw [Open, hd] at hx
  exact h x hx j (hw x j hwait)

/-- Every step keeps all connections in phase. -/
theorem step_phased [DecidableEq W] {a : Action W} (h : Owned s owner) (hph : Phased s)
    (hs : Step s a s') : Phased s' := by
  cases hs with
  | wait batch _ _ _ hrep => exact deliver_phased h hph hrep
  | handle d rest input hp hnew hok =>
    have hrest : Phased { s with pending := rest } :=
      hph.of_waits rfl rfl fun _ _ => waits_rest hp
    by_cases hd : d.fd = s.listenfd
    · rw [Server.handleEvent, if_pos hd] at hok
      exact acceptClient_phased (h.nextAccept hp hd) hrest hnew hok
    · obtain ⟨ho, hnext⟩ := h.nextEvent hp hd
      have hmem : d ∈ s.pending := by
        rw [hp]
        exact List.mem_cons_self
      exact handleEvent_phased hnext hrest ho (Function.update_self ..)
        (fun hr => hph d.fd ho .epollin (.readable hmem rfl hr))
        (fun hw => hph d.fd ho .epollout (.writable hmem rfl hw)) hok
  | take w fd rest hidle hq =>
    refine hph.of_waits rfl rfl fun x j hw => ?_
    rcases waits_working (s := { s with queue := rest }) hw with hbefore | ⟨hx, rfl⟩
    · cases hbefore with
      | armed h => exact .armed h
      | readable hd hfd h => exact .readable hd hfd h
      | writable hd hfd h => exact .writable hd hfd h
      | queued h => exact .queued (by rw [hq]; exact List.mem_cons_of_mem _ h)
      | taken h => exact .taken h
    · obtain rfl := Option.some.inj hx
      exact .queued (by rw [hq]; exact List.mem_cons_self)
  | process w fd fs hw hok =>
    obtain ⟨ho, hback⟩ := h.giveBack hw
    obtain ⟨⟨c, effects⟩, hprocess, hok⟩ := bind_eq_ok.mp hok
    obtain rfl := Except.ok.inj hok
    refine process_phased hback (hph.of_waits rfl rfl fun x j hwait => ?_) ho (Function.update_self ..)
      (hph fd ho .epollin (.taken hw)) hprocess
    rcases waits_working hwait with hwait | ⟨hnone, -⟩
    · exact hwait
    · cases hnone

end Phases

end ServerListings.Interface.ServerPhases
