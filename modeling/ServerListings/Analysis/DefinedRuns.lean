import ServerListings.Analysis.ReadBufferSafety
import ServerListings.Interface.ServerFrames
import ServerListings.Interface.ServerPhases
import ServerListings.Model.StrayStore

/-!
# Runs whose behaviour is defined

`Turn` has a step for every event and every call of `process`, also where an access leaves its
array. `Sound` says that the objects of the open connections are in order. While it holds, a
turn that meets `Defined` is a step of the server: `process` faults on no other object than one
with a full read buffer or a call of `parse_content` that strays, and no handler faults but at
an accept beyond the array. So what holds in all runs of the steps holds in all runs whose turns
are defined.
-/

set_option autoImplicit false

namespace ServerListings.Analysis.DefinedRuns

open Lib.CMem Lib.Transition ServerListings.Model ServerListings.Model.Http
  ServerListings.Model.WebServer ServerListings.Interface ServerListings.Interface.ServerPhases
  ServerListings.Interface.ServerFrames ServerListings.Analysis.ReadBufferSafety

/-! ## The calls of `process_read` -/

section Calls

variable {c c' : HttpConn} {text fuel : Nat} {ls : LineStatus}

/-- A call of `parse_content` strays where its condition fails. -/
theorem strays_iff : c.Strays text ↔ ¬ ContentFits c text := by
  unfold HttpConn.Strays ContentFits
  omega

/-- Such a call faults, and the `switch` with it. -/
theorem dispatch_faults (h : Bounded c) (hstate : c.mCheckState = .checkStateContent)
    (hstrays : c.Strays text) : ∃ e, c.dispatch text = .error e := by
  obtain ⟨e, he⟩ := parseContent_faults h (strays_iff.mp hstrays)
  refine ⟨e, ?_⟩
  simp only [HttpConn.dispatch, hstate, he, error_bind]

/-- The loop ends where `parse_line` finds no line. -/
theorem strayLoop_stop (hline : c.nextLine ls = .ok (.lineOpen, c') ∨ c.nextLine ls = .ok (.lineBad, c')) :
    c.strayLoop (fuel + 1) ls = none := by
  rcases hline with hline | hline <;> rw [HttpConn.strayLoop, hline]

/-- The loop comes to a call of `parse_content` that strays. -/
theorem strayLoop_stray (fuel : Nat) (hline : c.nextLine ls = .ok (.lineOk, c'))
    (hstate : c'.mCheckState = .checkStateContent)
    (hstrays : { c' with mStartLine := c'.mCheckedIdx }.Strays c'.mStartLine) :
    c.strayLoop (fuel + 1) ls = some ({ c' with mStartLine := c'.mCheckedIdx }, c'.mStartLine) := by
  rw [HttpConn.strayLoop, hline]
  exact if_pos ⟨hstate, hstrays⟩

/-- The loop goes on as the `switch` says. -/
theorem strayLoop_next {next : Next} (fuel : Nat) (hline : c.nextLine ls = .ok (.lineOk, c'))
    (hfits : ¬ (c'.mCheckState = .checkStateContent ∧
      { c' with mStartLine := c'.mCheckedIdx }.Strays c'.mStartLine))
    (hnext : HttpConn.dispatch { c' with mStartLine := c'.mCheckedIdx } c'.mStartLine = .ok next) :
    c.strayLoop (fuel + 1) ls =
      match next with
      | .again ls c => c.strayLoop fuel ls
      | _ => none := by
  rw [HttpConn.strayLoop, hline]
  refine (if_neg hfits).trans ?_
  simp only [hnext]
  cases next <;> rfl

/-- The loop of `process_read` returns unless it comes to a call of `parse_content` that strays,
and there it faults. The induction is on the iterations left. -/
theorem readLoop_defined (fs : FileSystem) (fuel : Nat) : ∀ (ls : LineStatus) (c : HttpConn),
    Bounded c → budget ls c ≤ fuel →
    (c.strayLoop fuel ls = none →
      ∃ code c', c.readLoop fs fuel ls = .ok (code, c') ∧ Bounded c') ∧
    (c.strayLoop fuel ls ≠ none → ∃ e, c.readLoop fs fuel ls = .error e) := by
  induction fuel with
  | zero =>
    intro ls c _ hfuel
    unfold budget at hfuel
    split at hfuel <;> omega
  | succ fuel ih =>
    intro ls c hb hfuel
    obtain ⟨ls', c₁, hline, hb₁, ⟨hread, hstate, -⟩, hle, hlt⟩ := nextLine_bounds ls hb
    by_cases hok : ls' ≠ .lineOk
    · have hiter : c.iterate ls = .ok (.ret .noRequest c₁) := by
        simp only [HttpConn.iterate, hline, ok_bind, if_pos hok]
        rfl
      have hstop : c.strayLoop (fuel + 1) ls = none := by
        cases ls' with
        | lineOk => exact absurd rfl hok
        | lineBad => exact strayLoop_stop (.inr hline)
        | lineOpen => exact strayLoop_stop (.inl hline)
      exact ⟨fun _ => ⟨.noRequest, c₁, readLoop_ret hiter fuel, hb₁⟩, fun h => absurd hstop h⟩
    obtain rfl : ls' = .lineOk := not_not.mp hok
    obtain ⟨s, hs⟩ := hb₁.startLine_fetch
    have hiter : c.iterate ls =
        HttpConn.dispatch { c₁ with mStartLine := c₁.mCheckedIdx } c₁.mStartLine := by
      simp only [HttpConn.iterate, hline, ok_bind, if_neg hok, hs]
    by_cases hstray : c₁.mCheckState = .checkStateContent ∧
        { c₁ with mStartLine := c₁.mCheckedIdx }.Strays c₁.mStartLine
    · -- the call of `parse_content` faults, and with it the loop
      have hsome := strayLoop_stray fuel hline hstray.1 hstray.2
      obtain ⟨e, he⟩ := dispatch_faults hb₁.enterLine hstray.1 hstray.2
      have hfault : c.readLoop fs (fuel + 1) ls = .error e := by
        rw [HttpConn.readLoop, hiter, he, error_bind]
      exact ⟨fun h => absurd (hsome.symm.trans h) (by simp), fun _ => ⟨e, hfault⟩⟩
    · have hfits : c₁.mCheckState = .checkStateContent →
          ContentFits { c₁ with mStartLine := c₁.mCheckedIdx } c₁.mStartLine := by
        intro hcontent
        by_contra hbad
        exact hstray ⟨hcontent, strays_iff.mpr hbad⟩
      obtain ⟨next, hnext, hbounds⟩ := dispatch_bounds hb₁.enterLine hb₁.start_le hfits
      have hloop := strayLoop_next fuel hline hstray hnext
      rw [hnext] at hiter
      cases next with
      | ret code c' =>
        exact ⟨fun _ => ⟨code, c', readLoop_ret hiter fuel, hbounds.1⟩, fun h => absurd hloop h⟩
      | doRequest c' =>
        obtain ⟨ret, c'', hdo, hb', -⟩ := doRequest_bounds fs hbounds.1 hbounds.2.2
        exact ⟨fun _ => ⟨ret, c'', (readLoop_doRequest hiter fuel).trans hdo, hb'⟩,
          fun h => absurd hloop h⟩
      | again ls' c' =>
        obtain ⟨hb', hkeeps, hcontent⟩ := hbounds
        have hbudget : budget ls' c' ≤ fuel :=
          budget_again hread hstate hb₁.checked_le hkeeps.readIdx hkeeps.checkedIdx (hlt rfl) hle
            hcontent hfuel
        rw [hloop, readLoop_again hiter fuel]
        exact ih ls' c' hb' hbudget

/-- `process_read` returns exactly if it comes to no call of `parse_content` that strays. -/
theorem processRead_defined (fs : FileSystem) (h : Bounded c) :
    (c.strayCall = none → ∃ code c', c.processRead fs = .ok (code, c') ∧ Bounded c') ∧
      (c.strayCall ≠ none → ∃ e, c.processRead fs = .error e) :=
  readLoop_defined fs _ .lineOk c h (by simp [budget])

end Calls
/-! ## The objects of open connections -/

/-- The parser's invariant holds, or the read buffer is full. -/
def Sane (c : HttpConn) : Prop := Bounded c ∨ c.mReadIdx = readBufferSize

section Objects

variable {c c' : HttpConn}

/-- The parser's invariant says nothing of the descriptor. -/
theorem bounded_setSockfd (h : Bounded c) (fd : Int) : Bounded { c with mSockfd := fd } :=
  ⟨h.readBuf, h.realFile, h.start_le, h.checked_le, h.read_le, h.url, h.hasUrl, h.contentLength⟩

/-- The parser's invariant says nothing of the reply. -/
theorem bounded_of_onlyReply (h : Bounded c) (hsame : OnlyReply c c') : Bounded c' := by
  obtain ⟨m, i, iv₀, iv₁, n, rfl⟩ := hsame
  exact ⟨h.readBuf, h.realFile, h.start_le, h.checked_le, h.read_le, h.url, h.hasUrl, h.contentLength⟩

/-- `close_conn` keeps an object in order. -/
theorem sane_closeConn (h : Sane c) : Sane c.closeConn.1 := by
  unfold HttpConn.closeConn
  split
  · exact h.imp (fun hb => bounded_setSockfd hb _) fun hfull => hfull
  · exact h

/-- `unmap` keeps an object in order. -/
theorem sane_unmap (h : Sane c) : Sane c.unmap.1 := by
  unfold HttpConn.unmap
  split
  · exact h.imp (fun hb => ⟨hb.readBuf, hb.realFile, hb.start_le, hb.checked_le, hb.read_le, hb.url,
      hb.hasUrl, hb.contentLength⟩) fun hfull => hfull
  · exact h

/-- In a full buffer, `read` receives nothing more. -/
theorem readData_full (hfull : c.mReadIdx = readBufferSize) (rs : List RecvResult) :
    ∃ ok c', c.readData rs = .ok (ok, c') ∧ Sane c' := by
  cases rs with
  | nil => exact ⟨_, _, rfl, .inr hfull⟩
  | cons r rs =>
    cases r with
    | eagain => exact ⟨_, _, rfl, .inr hfull⟩
    | eof => exact ⟨_, _, rfl, .inr hfull⟩
    | error => exact ⟨_, _, rfl, .inr hfull⟩
    | data bytes =>
      have hzero : (bytes.take (readBufferSize - c.mReadIdx)).length = 0 := by
        rw [hfull, Nat.sub_self, List.take_zero]
        rfl
      exact ⟨_, _, if_pos hzero, .inr hfull⟩

/-- The end of a response keeps an object in order. -/
theorem finishWrite_sane (h : Sane c) : Sane c.finishWrite.2.1 := by
  unfold HttpConn.finishWrite
  by_cases hlinger : c.unmap.1.mLinger = true
  · simp only [if_pos hlinger]
    exact .inl (bounded_init _)
  · simp only [if_neg hlinger]
    exact sane_unmap h

/-- The loop of `read` returns. The induction is on the results of `recv`; the chunk that fills
the buffer is the last one. -/
theorem readData_sane (rs : List RecvResult) : ∀ c : HttpConn, Bounded c →
    ∃ ok c', c.readData rs = .ok (ok, c') ∧ Sane c' := by
  induction rs with
  | nil => exact fun c h => ⟨_, _, rfl, .inl h⟩
  | cons r rs ih =>
    intro c h
    cases r with
    | eagain => exact ⟨_, _, rfl, .inl h⟩
    | eof => exact ⟨_, _, rfl, .inl h⟩
    | error => exact ⟨_, _, rfl, .inl h⟩
    | data bytes =>
      have hread := h.read_le
      have htake : (bytes.take (readBufferSize - c.mReadIdx)).length ≤ readBufferSize - c.mReadIdx :=
        List.length_take_le _ _
      unfold HttpConn.readData
      by_cases hzero : (bytes.take (readBufferSize - c.mReadIdx)).length = 0
      · exact ⟨_, _, if_pos hzero, .inl h⟩
      simp only [if_neg hzero]
      by_cases hfit : c.mReadIdx + (bytes.take (readBufferSize - c.mReadIdx)).length < readBufferSize
      · obtain ⟨m, hreceive, hb⟩ := receive_bounds _ h hfit
        rw [hreceive, ok_bind]
        exact ih _ hb
      · have hfull : c.mReadIdx + (bytes.take (readBufferSize - c.mReadIdx)).length = readBufferSize := by
          have hlimit : readBufferSize = 2048 := rfl
          omega
        obtain ⟨m, hm⟩ : ∃ m, copyIn c.mReadBuf c.mReadIdx
            (bytes.take (readBufferSize - c.mReadIdx)) = .ok m := by
          refine ⟨_, if_pos ?_⟩
          rw [hfull, h.readBuf.length]
          exact Nat.le_refl _
        rw [HttpConn.receive_of_copyIn hm, ok_bind]
        exact readData_full hfull rs

/-- `read` returns, and leaves an object in order. -/
theorem read_sane (rs : List RecvResult) (h : Sane c) :
    ∃ ok c', c.read rs = .ok (ok, c') ∧ Sane c' := by
  unfold HttpConn.read
  split
  · exact ⟨_, _, rfl, h⟩
  · rename_i hroom
    exact readData_sane rs c (h.resolve_right fun hfull => hroom (Nat.le_of_eq hfull.symm))

/-- `write` leaves an object in order. The induction is on the results of `writev`. -/
theorem writeLoop_sane (mapped : Int → List UInt8) (h : Sane c) (ws : List WritevResult) :
    ∀ toSend haveSent : Int, Sane (c.writeLoop mapped toSend haveSent ws).conn := by
  induction ws with
  | nil => exact fun _ _ => h
  | cons r ws ih =>
    intro toSend haveSent
    cases r with
    | eagain => exact h
    | error => exact sane_unmap h
    | accepted k =>
      unfold HttpConn.writeLoop
      by_cases hdone : toSend - k ≤ haveSent + k
      · simp only [if_pos hdone]
        exact finishWrite_sane h
      · simp only [if_neg hdone]
        exact ih _ _

/-- `write` leaves the connection sane. -/
theorem write_sane (mapped : Int → List UInt8) (h : Sane c) (ws : List WritevResult) :
    Sane (c.write mapped ws).conn := by
  unfold HttpConn.write
  split
  · exact .inl (bounded_init c)
  · exact writeLoop_sane mapped h ws _ _

/-- `process_write` on an object with a cleared write buffer returns. -/
theorem processWrite_defined {ret : HttpCode} (h : Blank c) (hret : Answered ret) :
    ∃ ok c', c.processWrite ret = .ok (ok, c') ∧ OnlyReply c c' := by
  by_cases hempty : ret = .fileRequest ∧ c.mFileStat.stSize = 0
  · obtain ⟨rfl, hsize⟩ := hempty
    obtain ⟨c', hwrite, hsame⟩ := processWrite_empty h hsize
    exact ⟨_, _, hwrite, hsame⟩
  · obtain ⟨c', hwrite, hsame, -⟩ := processWrite_text h hret fun hfile hsize => hempty ⟨hfile, hsize⟩
    exact ⟨_, _, hwrite, hsame⟩

/-- `process` on an object that waits for a request returns if no call of `parse_content`
strays. -/
theorem process_defined (fs : FileSystem) (h : Bounded c) (hc : Blank c) (hstray : c.strayCall = none) :
    ∃ c' effects, c.process fs = .ok (c', effects) ∧ Sane c' := by
  obtain ⟨code, c₁, hread, hb₁⟩ := (processRead_defined fs h).1 hstray
  rw [HttpConn.process_eq, hread, ok_bind]
  unfold HttpConn.answer
  by_cases hmore : code = .noRequest
  · exact ⟨_, _, if_pos hmore, .inl hb₁⟩
  · obtain ⟨ok, c₂, hwrite, hsame⟩ := processWrite_defined (processRead_blank fs hc hread)
      (((processRead_answered fs c).result hread).resolve_left hmore)
    simp only [if_neg hmore, hwrite, ok_bind]
    have hb₂ : Sane c₂ := .inl (bounded_of_onlyReply hb₁ hsame)
    cases ok with
    | true => exact ⟨_, _, rfl, hb₂⟩
    | false => exact ⟨_, _, rfl, sane_closeConn hb₂⟩

end Objects

/-! ## The steps -/

/-- The objects of the open connections are in order. -/
def Sound {W : Type} (s : Server W) : Prop := ∀ fd, Open s fd → Sane (s.users fd)

section Steps

variable {W : Type} {s s' : Server W} {owner : Int → Option (Place W)} {fd : Int} {c : HttpConn}

/-- No effect of a member function opens a connection. -/
theorem open_of_applyEffects (effects : List Effect) : ∀ s : Server W,
    Open (s.applyEffects effects) fd → Open s fd := by
  induction effects with
  | nil => exact fun _ h => h
  | cons e effects ih =>
    intro s h
    have hopen : Open (s.applyEffect e) fd := ih _ h
    cases e with
    | close x =>
      by_cases hx : fd = x
      · rw [Open, hx, show (s.applyEffect (.close x)).descriptors x = none from
          Function.update_self ..] at hopen
        cases hopen
      · rwa [Open, show (s.applyEffect (.close x)).descriptors fd = s.descriptors fd from
          Function.update_of_ne hx ..] at hopen
    | epollAdd x oneShot =>
      simp only [Server.applyEffect] at hopen
      split at hopen <;> exact hopen
    | epollMod x i =>
      simp only [Server.applyEffect] at hopen
      split at hopen <;> exact hopen
    | epollDel x => exact hopen
    | userCount change => exact hopen
    | munmap a n => exact hopen

/-- A call of a member function changes its own object only. -/
theorem setUser_users (s : Server W) (fd : Int) (c : HttpConn) (effects : List Effect) :
    (s.setUser fd c effects).users = Function.update s.users fd c :=
  (applyEffects_frame effects _).1

/-- A call of a member function opens no connection. -/
theorem open_of_setUser {x : Int} (effects : List Effect) (h : Open (s.setUser fd c effects) x) :
    Open s x := open_of_applyEffects effects { s with users := Function.update s.users fd c } h

/-- A member function leaves the objects in order if it does so with its own. -/
theorem Sound.setUser (h : Sound s) (hc : Sane c) (effects : List Effect) :
    Sound (s.setUser fd c effects) := by
  intro x hx
  rw [setUser_users]
  by_cases hxf : x = fd
  · rw [hxf, Function.update_self]
    exact hc
  · rw [Function.update_of_ne hxf]
    exact h x (open_of_setUser effects hx)

/-- Closing a sane connection leaves the server sound. -/
theorem Sound.closeConn (h : Sound s) (hc : Sane (s.users fd)) : Sound (s.closeConn fd) :=
  h.setUser (sane_closeConn hc) _

/-- The branch for the listening socket. -/
theorem Sound.acceptClient {connfd : Option Int} (h : Sound s) (hok : s.acceptClient connfd = .ok s') :
    Sound s' := by
  cases connfd with
  | none =>
    obtain rfl := Except.ok.inj hok
    exact h
  | some fd =>
    have hnew : ∀ x, x ≠ fd →
        Open { s with descriptors := Function.update s.descriptors fd (some .client) } x → Open s x := by
      intro x hxf hx
      exact (Function.update_of_ne hxf ..).symm.trans hx
    unfold Server.acceptClient at hok
    simp only at hok
    split at hok
    · obtain rfl := Except.ok.inj hok
      intro x hx
      by_cases hxf : x = fd
      · rw [hxf, Open, show (Server.showError _ fd).descriptors fd = none from
          Function.update_self ..] at hx
        cases hx
      · exact h x (hnew x hxf (open_of_applyEffects [.close fd] _ hx))
    · split at hok
      · cases hok
      · obtain rfl := Except.ok.inj hok
        intro x hx
        rw [setUser_users]
        by_cases hxf : x = fd
        · rw [hxf, Function.update_self]
          exact .inl (bounded_init _)
        · rw [Function.update_of_ne hxf]
          exact h x (hnew x hxf (open_of_setUser _ hx))

/-- The handling of an event. -/
theorem Sound.handleEvent {input : Server.Input} {d : Delivered} (h : Sound s)
    (hc : d.fd ≠ s.listenfd → Sane (s.users d.fd)) (hok : s.handleEvent input d = .ok s') :
    Sound s' := by
  unfold Server.handleEvent at hok
  split at hok
  · exact h.acceptClient hok
  · rename_i hne
    replace hc := hc hne
    split at hok
    · obtain rfl := Except.ok.inj hok
      exact h.closeConn hc
    · split at hok
      · obtain ⟨ok, c, hread, hc'⟩ := read_sane input.recvs hc
        rw [Server.readClient, hread, ok_bind] at hok
        have hset : Sound (s.setUser d.fd c []) := h.setUser hc' []
        cases ok with
        | true =>
          obtain rfl := Except.ok.inj hok
          by_cases hfull : (s.setUser d.fd c []).queue.length > (s.setUser d.fd c []).maxRequests
          · rw [append_full hfull]
            exact hset
          · rw [append_room hfull]
            exact hset
        | false =>
          obtain rfl := Except.ok.inj hok
          refine hset.closeConn ?_
          rw [setUser_users, Function.update_self]
          exact hc'
      · split at hok
        · unfold Server.writeClient at hok
          have hc' := write_sane input.mapped hc input.writevs
          have hset : Sound (s.setUser d.fd ((s.users d.fd).write input.mapped input.writevs).conn
              ((s.users d.fd).write input.mapped input.writevs).effects) := h.setUser hc' _
          simp only at hok
          split at hok
          · cases hok
          · split at hok
            · obtain rfl := Except.ok.inj hok
              exact hset
            · obtain rfl := Except.ok.inj hok
              refine hset.closeConn ?_
              rw [setUser_users, Function.update_self]
              exact hc'
        · obtain rfl := Except.ok.inj hok
          exact h

/-- The invariant of the runs whose turns are defined. -/
structure Live (s : Server W) : Prop where
  owned : ∃ owner, Owned s owner
  phased : Phased s
  sound : Sound s

/-- Before the event loop there is no connection. -/
theorem live_initial (h : Initial s) : Live s :=
  ⟨⟨_, owned_initial h⟩, fun fd ho => absurd ho (h.clients fd), fun fd ho => absurd ho (h.clients fd)⟩

variable {w : W}

/-- The object of a connection that a worker has waits for a request, and the parser's invariant
holds of it if there is room in its read buffer. -/
theorem Live.taken (h : Live s) (hw : s.working w = some fd) :
    Blank (s.users fd) ∧ ((s.users fd).mReadIdx < readBufferSize → Bounded (s.users fd)) := by
  obtain ⟨owner, howned⟩ := h.owned
  have ho := howned.open_of_at fd (.taken w) hw
  refine ⟨h.phased fd ho .epollin (.taken hw), fun hroom => ?_⟩
  exact (h.sound fd ho).resolve_right fun hfull => absurd hfull (Nat.ne_of_lt hroom)

/-- The object of the connection whose event `main` handles next is in order. -/
theorem Live.handled (h : Live s) {d : Delivered} {rest : List Delivered} (hp : s.pending = d :: rest)
    (hd : d.fd ≠ s.listenfd) : Sane (s.users d.fd) := by
  obtain ⟨owner, howned⟩ := h.owned
  exact h.sound d.fd (howned.nextEvent hp hd).1

/-- A defined call of `process` returns. -/
theorem Live.process (h : Live s) (hw : s.working w = some fd) {fs : FileSystem}
    (ha : s.Defined (.process w fs)) :
    ∃ c effects, (s.users fd).process fs = .ok (c, effects) ∧ Sane c := by
  obtain ⟨hblank, hbounded⟩ := h.taken hw
  obtain ⟨hroom, hstray⟩ := ha fd hw
  exact process_defined fs (hbounded hroom) hblank hstray

/-- The handling of an event faults only at an accept beyond the array. -/
theorem handleEvent_defined {input : Server.Input} {d : Delivered} {rest : List Delivered} {e : Fault}
    (h : Live s) (hp : s.pending = d :: rest) (hfresh : s.FreshAccept input)
    (ha : s.Defined (.handle d input)) (hne : e ≠ .outOfFuel) :
    Server.handleEvent { s with pending := rest } input d ≠ .error e := by
  intro herror
  unfold Server.handleEvent at herror
  split at herror
  · rename_i hd
    unfold Server.acceptClient at herror
    cases haccepted : input.accepted with
    | none =>
      rw [haccepted] at herror
      cases herror
    | some connfd =>
      simp only [haccepted] at herror
      split at herror
      · cases herror
      · rename_i hcount
        have hrange := ha hd (not_le.mp hcount) connfd haccepted
        rw [if_neg (by have := (hfresh connfd haccepted).1; omega)] at herror
        cases herror
  · rename_i hd
    split at herror
    · cases herror
    · split at herror
      · obtain ⟨ok, c, hread, -⟩ := read_sane input.recvs (h.handled hp hd)
        rw [Server.readClient, show ({ s with pending := rest } : Server W).users = s.users from rfl,
          hread, ok_bind] at herror
        cases ok <;> cases herror
      · split at herror
        · unfold Server.writeClient at herror
          simp only at herror
          split at herror
          · exact hne (Except.error.inj herror).symm
          · split at herror <;> cases herror
        · cases herror

variable [DecidableEq W] {a : Action W}

/-- A defined step keeps the invariant. -/
theorem step_live (h : Live s) (hs : Step s a s') (ha : s.Defined a) : Live s' := by
  obtain ⟨owner, howned⟩ := h.owned
  obtain ⟨owner', howned', -⟩ := step_owned howned hs
  refine ⟨⟨owner', howned'⟩, step_phased howned h.phased hs, ?_⟩
  cases hs with
  | wait batch _ _ _ _ => exact h.sound
  | take w fd rest _ _ => exact h.sound
  | handle d rest input hp _ hok =>
    have hrest : Sound { s with pending := rest } := h.sound
    exact hrest.handleEvent (h.handled hp) hok
  | process w fd fs hw hok =>
    obtain ⟨c, effects, hprocess, hc⟩ := h.process hw ha
    rw [Server.work, hprocess, ok_bind] at hok
    obtain rfl := Except.ok.inj hok
    have hback : Sound { s with working := Function.update s.working w none } := h.sound
    exact hback.setUser hc effects

/-- Where a turn is defined, it is a step. -/
theorem turn_step (h : Live s) (ht : Turn s a s') (ha : s.Defined a) : Step s a s' := by
  cases ht with
  | step _ hs => exact hs
  | stray w fd fs hw hstray _ => exact absurd (ha fd hw).2 hstray
  | undefined a hundefined =>
    exfalso
    cases a with
    | wait batch => exact hundefined
    | take w => exact hundefined
    | handle d input =>
      obtain ⟨rest, e, hp, hfresh, herror, hne⟩ := hundefined
      exact handleEvent_defined h hp hfresh ha hne herror
    | process w fs =>
      obtain ⟨fd, e, hw, herror⟩ := hundefined
      obtain ⟨c, effects, hprocess, -⟩ := h.process hw ha
      rw [Server.workStray, HttpConn.processStray, (ha fd hw).2] at herror
      simp only [hprocess, ok_bind] at herror
      cases herror

/-! ## Runs -/

variable {s₀ : Server W} {cond : Server W → Action W → Prop}

/-- A run whose turns are defined is a run of the steps. -/
theorem run_defined (hdefined : ∀ s a, cond s a → s.Defined a) (hinit : Initial s₀)
    (hrun : Run Turn cond s₀ s) : Run Step cond s₀ s ∧ Live s := by
  induction hrun with
  | refl => exact ⟨.refl, live_initial hinit⟩
  | step _ ht hc ih =>
    have ha := hdefined _ _ hc
    have hs := turn_step ih.2 ht ha
    exact ⟨ih.1.step hs hc, step_live ih.2 hs ha⟩

/-- The same with the log of the run. -/
theorem logged_defined {ε : Type} {emit : Server W → Action W → List ε} {log : List ε}
    (hdefined : ∀ s a, cond s a → s.Defined a) (hinit : Initial s₀)
    (hrun : Logged Turn cond emit s₀ log s) : Logged Step cond emit s₀ log s ∧ Live s := by
  induction hrun with
  | refl => exact ⟨.refl, live_initial hinit⟩
  | step _ ht hc ih =>
    have ha := hdefined _ _ hc
    have hs := turn_step ih.2 ht ha
    exact ⟨ih.1.step hs hc, step_live ih.2 hs ha⟩

end Steps

end ServerListings.Analysis.DefinedRuns
