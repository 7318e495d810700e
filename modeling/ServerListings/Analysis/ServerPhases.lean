import ServerListings.Analysis.DefinedRuns
import ServerListings.Interface.Arrivals

/-!
# Every handler finds the object that it expects

`read` and `process` are only called for a connection whose write buffer is cleared, and
`write` only for one whose response is prepared. So the branch of `write` for an empty write
buffer is never taken, and `process_write` always has the whole buffer. As every page of the
program fits there, `process` has a response for everything but an empty file, and closes the
connection for that and for nothing else. All this is about runs that stay inside the arrays
(`Server.Defined`).
-/

set_option autoImplicit false

namespace ServerListings.Analysis.ServerPhases

open Lib.CMem Lib.Transition ServerListings.Model ServerListings.Model.Http
  ServerListings.Model.WebServer ServerListings.Interface ServerListings.Interface.ServerPhases
  ServerListings.Analysis.DefinedRuns

variable {W : Type}

/-- What `main` and the workers are going to call suits the objects they call it for, and so
does what the epoll table waits for. -/
structure InTurn (s : Server W) : Prop where
  processes : ∀ w fd, s.working w = some fd → Blank (s.users fd)
  queued : ∀ fd ∈ s.queue, Blank (s.users fd)
  reads : ∀ d ∈ s.pending, d.fd ≠ s.listenfd → d.events.readable = true → Blank (s.users d.fd)
  writes : ∀ d ∈ s.pending, d.fd ≠ s.listenfd → d.events.writable = true → Primed (s.users d.fd)
  armedIn : ∀ fd, Open s fd → s.epoll fd = some ⟨some .epollin, true⟩ → Blank (s.users fd)
  armedOut : ∀ fd, Open s fd → s.epoll fd = some ⟨some .epollout, true⟩ → Primed (s.users fd)

/-- A connection at a place is open, so its object is in phase. -/
theorem inTurn_of_phased {s : Server W} {owner : Int → Option (Place W)} (h : Owned s owner)
    (hph : Phased s) : InTurn s where
  processes := fun w fd hw => hph fd (h.open_of_at fd (.taken w) hw) .epollin (.taken hw)
  queued := fun fd hq => hph fd (h.open_of_at fd .queued hq) .epollin (.queued hq)
  reads := fun d hd hne hr =>
    hph d.fd (h.open_of_at d.fd .delivered ⟨hne, List.mem_map_of_mem hd⟩) .epollin (.readable hd rfl hr)
  writes := fun d hd hne hw =>
    hph d.fd (h.open_of_at d.fd .delivered ⟨hne, List.mem_map_of_mem hd⟩) .epollout (.writable hd rfl hw)
  armedIn := fun fd ho harmed => hph fd ho .epollin (.armed harmed)
  armedOut := fun fd ho harmed => hph fd ho .epollout (.armed harmed)

variable [DecidableEq W] {s₀ s s' : Server W}

/-- In every state that is reached inside the arrays the handlers find the objects that they
expect. -/
theorem run_inTurn (hinit : Initial s₀) (hrun : Run Turn Server.Defined s₀ s) : InTurn s := by
  obtain ⟨-, ⟨owner, howned⟩, hph, -⟩ := run_defined (fun _ _ ha => ha) hinit hrun
  exact inTurn_of_phased howned hph

/-- A client connects and sends a byte: the object that `main` is going to read is cleared. -/
theorem run_inTurn_arrived : InTurn (arrived (Server.start fun _ => default) 5) := by
  have hrun := run_arrived_defined (ready_start fun _ => (default : HttpConn)) (by omega)
  have hturns := hrun.embed fun _ a _ hs => Turn.step a hs
  exact run_inTurn (initial_start _) (hturns.mono fun _ _ hc => hc.1)

/-! ## What a worker leaves behind -/

/-- The worker's call of `process` leaves the connection open, and armed for what its object is
ready for. -/
structure HandsBack (s s' : Server W) (fd : Int) : Prop where
  descriptors : s'.descriptors = s.descriptors
  userCount : s'.userCount = s.userCount
  armed : ∃ i, s'.epoll fd = some ⟨some i, true⟩ ∧ Suits i (s'.users fd)

/-- In every run inside the arrays, a call of `process` closes the connection if the request is for
an empty file, and otherwise hands it back to `main`. -/
theorem process_hands_back (hinit : Initial s₀) (hrun : Run Turn Server.Defined s₀ s) {w : W}
    {fd : Int} {fs : FileSystem} (hw : s.working w = some fd) (hturn : Turn s (.process w fs) s')
    (hdefined : s.Defined (.process w fs)) :
    (AsksForEmpty fs (s.users fd) → ¬ Open s' fd ∧ s'.userCount = s.userCount - 1) ∧
      (¬ AsksForEmpty fs (s.users fd) → HandsBack s s' fd) := by
  obtain ⟨-, hlive⟩ := run_defined (fun _ _ ha => ha) hinit hrun
  have hstep := turn_step hlive hturn hdefined
  obtain ⟨⟨owner, howned⟩, hph, -⟩ := hlive
  cases hstep with
  | process _ x _ hx hok =>
    obtain rfl := Option.some.inj (hw.symm.trans hx)
    obtain ⟨ho, hback⟩ := howned.giveBack hw
    obtain ⟨⟨c, effects⟩, hprocess, hok⟩ := bind_eq_ok.mp hok
    obtain rfl := Except.ok.inj hok
    have hblank : Blank (s.users fd) := hph fd ho .epollin (.taken hw)
    have harmed : ∀ i, Suits i c → HandsBack s
        (Server.setUser { s with working := Function.update s.working w none } fd c (modfd fd i)) fd := by
      intro i hc
      rw [setUser_armed hback.toTables ho (armsFor_modfd fd i)]
      refine ⟨rfl, rfl, i, Function.update_self .., ?_⟩
      show Suits i (Function.update s.users fd c fd)
      rw [Function.update_self]
      exact hc
    cases process_ends hblank (hback.socket fd ho).1 (hback.ne_negative ho) hprocess with
    | more hempty hc _ heff =>
      rw [heff]
      exact ⟨fun h => absurd h hempty, fun _ => harmed .epollin hc⟩
    | answered hempty hc _ heff =>
      rw [heff]
      exact ⟨fun h => absurd h hempty, fun _ => harmed .epollout hc⟩
    | closed hempty heff =>
      rw [heff, setUser_closed hback.toTables ho]
      refine ⟨fun _ => ⟨fun h => ?_, rfl⟩, fun h => absurd hempty h⟩
      exact ((open_closed fd).mp h).1 rfl

/-! ## A request of one byte -/

/-- The object of the descriptor `5` after `main` read one byte from it. -/
def afterOneByte : Checked HttpConn :=
  (((default : HttpConn).initConn 5).1.read oneByte).map Prod.snd

/-- The worker arms the connection for the rest of the request. -/
theorem afterOneByte_process :
    ((afterOneByte >>= fun c => c.process noFiles).map Prod.snd) = .ok (modfd 5 .epollin) := by
  decide +kernel

/-- The request is not complete. -/
theorem afterOneByte_processRead :
    ((afterOneByte >>= fun c => c.processRead noFiles).map Prod.fst) = .ok .noRequest := by
  decide +kernel

/-- There is room for a terminator, and no body is parsed. -/
theorem afterOneByte_defined :
    afterOneByte.map (fun c => (decide (c.mReadIdx < readBufferSize), c.strayCall.isNone)) =
      .ok (true, true) := by
  decide +kernel

/-- A client connects and sends one byte, `main` reads it, and a worker takes the request. -/
theorem run_taken {n : Nat} {w : W} (h : Ready n s) (hn : n + 5 < 65536) (hq : s.queue = [])
    (hidle : s.working w = none) : ∃ c s',
      ((s.users (5 + n)).initConn (5 + n)).1.read oneByte = .ok (true, c) ∧
      Run Step Server.Defined s s' ∧ s'.working w = some (5 + (n : Int)) ∧ s'.users (5 + n) = c := by
  obtain ⟨c, hread, hstep⟩ := step_arrived h
  have huser : (arrived s (5 + n)).users (5 + n) = ((s.users (5 + n)).initConn (5 + n)).1 :=
    Function.update_self ..
  rw [huser] at hread
  let t := Server.setUser { arrived s (5 + n) with pending := [] } (5 + n) c []
  have hempty : t.queue = [] := hq
  have hfits : ¬ t.queue.length > t.maxRequests := by
    rw [hempty]
    exact Nat.not_lt_zero _
  have harrived : Run Step Server.Defined s (arrived s (5 + n)) :=
    (run_arrived_defined h hn).mono fun _ _ hc => hc.1
  have hclient : (arrived s (5 + n)).Defined
      (.handle (readable (5 + n)) ⟨none, oneByte, [], fun _ => []⟩) :=
    fun hlisten => absurd hlisten (h.ne_listenfd le_rfl)
  have hrun := harrived.step hstep hclient
  rw [append_room hfits] at hrun
  refine ⟨c, _, hread, hrun.step (Step.take w (5 + n) [] ?_ ?_) trivial, Function.update_self ..,
    Function.update_self ..⟩
  · exact hidle
  · exact congrArg (· ++ [5 + (n : Int)]) hempty

/-- What is read in a result is read in some result. -/
theorem exists_of_map_ok {β γ : Type} {x : Checked β} {f : β → γ} {b : γ}
    (h : x.map f = .ok b) : ∃ a, x = .ok a ∧ f a = b := by
  cases x with
  | error e => cases h
  | ok a => exact ⟨a, rfl, Except.ok.inj h⟩

/-- The byte is not a whole request yet, so the connection waits for more. -/
theorem process_hands_back_oneByte : ∃ s s' : Server (Fin defaultThreadNumber), HandsBack s s' 5 := by
  have hready := ready_start fun _ => (default : HttpConn)
  let w : Fin defaultThreadNumber := ⟨0, by decide⟩
  obtain ⟨c, s, hread, hrun, hw, huser⟩ := run_taken (w := w) hready (by decide) rfl rfl
  have hc : afterOneByte = .ok c := congrArg (Except.map Prod.snd) hread
  have hprocess := afterOneByte_process
  have hasked := afterOneByte_processRead
  have hinside := afterOneByte_defined
  rw [hc, ok_bind] at hprocess hasked
  rw [hc] at hinside
  obtain ⟨⟨c', effects⟩, hok, -⟩ := exists_of_map_ok hprocess
  obtain ⟨⟨ret, c₁⟩, hparse, rfl⟩ := exists_of_map_ok hasked
  obtain ⟨hroom, hstray⟩ := Prod.mk.inj (Except.ok.inj hinside)
  rw [← huser] at hok hparse
  have hstep : Step s (.process w noFiles)
      (Server.setUser { s with working := Function.update s.working w none } 5 c' effects) := by
    refine .process w _ noFiles hw ?_
    rw [Server.work, hok]
    rfl
  have hdefined : s.Defined (.process w noFiles) := by
    intro fd hfd
    obtain rfl := Option.some.inj (hfd.symm.trans hw)
    rw [huser]
    exact ⟨of_decide_eq_true hroom, Option.isNone_iff_eq_none.mp hstray⟩
  have hturns := hrun.embed fun _ a _ hs => Turn.step a hs
  refine ⟨s, _, (process_hands_back (initial_start _) hturns hw (.step _ hstep) hdefined).2 ?_⟩
  rintro ⟨c₂, hread₂, -⟩
  rw [hparse] at hread₂
  cases hread₂

end ServerListings.Analysis.ServerPhases
