import ServerListings.Analysis.ConnectionCount
import ServerListings.Model.OpenFiles

/-!
# The descriptors of the server itself

The server has some descriptors from the start, and one for each worker that is between `open` and
`close`. The rules of this module say that no step confuses them with connections, whose
descriptors are indices of the array of objects.
-/

set_option autoImplicit false

namespace ServerListings.Analysis.ServerFiles

open Lib.CMem ServerListings.Model ServerListings.Model.Http ServerListings.Model.WebServer
  ServerListings.Interface ServerListings.Analysis.ConnectionCount ServerListings.Analysis.DefinedRuns

section Steps

variable {W : Type} {s s' s₀ : Server W} {owner : Int → Option (Place W)} {fd : Int}

/-- The closings of some effects have no `init` among them. -/
theorem init_notMem_closes (effects : List Effect) : .init fd ∉ closes effects := by
  intro h
  obtain ⟨e, -, he⟩ := List.mem_filterMap.mp h
  cases e with
  | close x => cases he
  | _ => cases he

/-- A connection that is accepted and not turned away has an object. -/
theorem accept_range {connfd : Option Int} (hpos : ∀ x, connfd = some x → 0 ≤ x)
    (hok : s.acceptClient connfd = .ok s') (hinit : .init fd ∈ s.acceptHappens connfd) :
    0 ≤ fd ∧ fd < maxFd := by
  cases connfd with
  | none => cases hinit
  | some x =>
    by_cases hbusy : s.userCount ≥ maxFd
    · rw [Server.acceptHappens, if_pos hbusy] at hinit
      simp at hinit
    · rw [Server.acceptHappens, if_neg hbusy] at hinit
      have hfd : fd = x := by
        rcases List.mem_append.mp hinit with h | h
        · simpa using h
        · exact absurd h (init_notMem_closes _)
      have hrange : x < maxFd := by
        by_contra hge
        simp only [Server.acceptClient, if_neg hbusy] at hok
        rw [if_pos (Or.inr (not_lt.mp hge))] at hok
        cases hok
      rw [hfd]
      exact ⟨hpos x rfl, hrange⟩

/-- `init` is called for objects of the array only. -/
theorem init_range [DecidableEq W] {a : ServerListings.Model.WebServer.Action W} (hs : Step s a s')
    (hinit : .init fd ∈ s.happens a) : 0 ≤ fd ∧ fd < maxFd := by
  cases hs with
  | wait batch _ _ _ _ => cases hinit
  | take w fd rest _ _ => cases hinit
  | process w x fs hw _ =>
    rw [Server.happens, hw] at hinit
    simp only [Server.workHappens] at hinit
    split at hinit
    · exact absurd hinit (init_notMem_closes _)
    · cases hinit
  | handle d rest input hp hnew hok =>
    rw [Server.happens, Server.handleHappens] at hinit
    rw [Server.handleEvent] at hok
    by_cases hd : d.fd = s.listenfd
    · rw [if_pos hd] at hinit
      rw [if_pos hd] at hok
      exact accept_range (s := { s with pending := rest }) (fun x hx => (hnew x hx).1) hok hinit
    · rw [if_neg hd] at hinit
      exfalso
      split at hinit
      · exact init_notMem_closes _ hinit
      split at hinit
      · unfold Server.readHappens at hinit
        split at hinit
        · exact init_notMem_closes _ hinit
        · cases hinit
        · cases hinit
      split at hinit
      · rcases List.mem_append.mp hinit with h | h
        · exact init_notMem_closes _ h
        · split at h
          · exact init_notMem_closes _ h
          · cases h
      · cases hinit

/-- No step changes what belongs to the server itself. -/
theorem change_other {t : List Happening} (hchange : Change s s' t) (x : Int) :
    s'.descriptors x = some .other ↔ s.descriptors x = some .other := by
  cases hchange with
  | same hd hc | turnedAway _ hd hc => rw [hd]
  | @opened fd hfree hd hc =>
    rw [hd]
    by_cases hx : x = fd
    · rw [hx, Function.update_self, hfree]
      simp
    · rw [Function.update_of_ne hx]
  | @closed fd ho hd hc =>
    rw [hd]
    by_cases hx : x = fd
    · rw [hx, Function.update_self, ho]
      simp
    · rw [Function.update_of_ne hx]

/-- A connection that was not open before is one for which `init` was called. -/
theorem change_opened {t : List Happening} (hchange : Change s s' t) (ho : Open s' fd)
    (hold : ¬ Open s fd) : .init fd ∈ t := by
  cases hchange with
  | same hd _ | turnedAway _ hd _ => exact absurd ((open_congr hd fd).mp ho) hold
  | opened _ hd _ =>
    rcases (open_update hd fd).mp ho with rfl | ho
    · exact List.mem_cons_of_mem _ List.mem_cons_self
    · exact absurd ho hold
  | closed _ hd _ => exact absurd ((open_update_none hd fd).mp ho).2 hold

/-- The effects of a member function leave the listening socket what it is. -/
theorem listenfd_applyEffects (effects : List Effect) : ∀ s : Server W,
    (s.applyEffects effects).listenfd = s.listenfd := by
  induction effects with
  | nil => exact fun _ => rfl
  | cons e effects ih =>
    intro s
    refine (ih (s.applyEffect e)).trans ?_
    cases e <;> simp only [Server.applyEffect] <;> (try split) <;> rfl

/-- A call of a member function leaves the listening socket what it is. -/
theorem listenfd_setUser (s : Server W) (fd : Int) (c : HttpConn) (effects : List Effect) :
    (s.setUser fd c effects).listenfd = s.listenfd := listenfd_applyEffects effects _

/-- The handling of an event leaves the listening socket what it is. -/
theorem listenfd_handleEvent {input : Server.Input} {d : Delivered}
    (hok : s.handleEvent input d = .ok s') : s'.listenfd = s.listenfd := by
  unfold Server.handleEvent at hok
  split at hok
  · cases haccept : input.accepted with
    | none =>
      rw [haccept] at hok
      obtain rfl := Except.ok.inj hok
      rfl
    | some connfd =>
      rw [haccept, Server.acceptClient] at hok
      split at hok
      · obtain rfl := Except.ok.inj hok
        rfl
      split at hok
      · cases hok
      obtain rfl := Except.ok.inj hok
      exact listenfd_setUser ..
  split at hok
  · obtain rfl := Except.ok.inj hok
    exact listenfd_setUser ..
  split at hok
  · obtain ⟨⟨ok, c⟩, -, hok⟩ := bind_eq_ok.mp hok
    cases ok with
    | true =>
      obtain rfl := Except.ok.inj hok
      simp only [Server.append]
      split <;> exact listenfd_setUser ..
    | false =>
      obtain rfl := Except.ok.inj hok
      exact (listenfd_setUser ..).trans (listenfd_setUser ..)
  split at hok
  · simp only [Server.writeClient] at hok
    split at hok
    · cases hok
    split at hok
    · obtain rfl := Except.ok.inj hok
      exact listenfd_setUser ..
    · obtain rfl := Except.ok.inj hok
      exact (listenfd_setUser ..).trans (listenfd_setUser ..)
  · obtain rfl := Except.ok.inj hok
    rfl

/-- A step leaves the listening socket what it is. -/
theorem step_listenfd [DecidableEq W] {a : ServerListings.Model.WebServer.Action W}
    (hs : Step s a s') : s'.listenfd = s.listenfd := by
  cases hs with
  | wait batch _ _ _ _ | take w fd rest _ _ => rfl
  | handle d rest input _ _ hok => exact listenfd_handleEvent (s := { s with pending := rest }) hok
  | process w x fs _ hok =>
    obtain ⟨⟨c, effects⟩, -, hok⟩ := bind_eq_ok.mp hok
    obtain rfl := Except.ok.inj hok
    exact listenfd_setUser ..

/-! ## Descriptors of the server -/

/-- The connections are counted, and their descriptors are indices of the array. -/
structure Numbered (s : Server W) : Prop where
  live : Live s
  counted : ∃ log, Counted log s
  range : ∀ fd, Open s fd → 0 ≤ fd ∧ fd < maxFd

/-- Before the event loop there is no connection. -/
theorem numbered_initial (h : Initial s) : Numbered s :=
  ⟨live_initial h, ⟨[], counted_initial h⟩, fun fd ho => absurd ho (h.clients fd)⟩

/-- A step inside the arrays. -/
theorem Numbered.turn [DecidableEq W] {a : ServerListings.Model.WebServer.Action W} (h : Numbered s)
    (ht : Turn s a s') (ha : s.Defined a) :
    Numbered s' ∧ s'.listenfd = s.listenfd ∧
      ∀ fd, s'.descriptors fd = some .other ↔ s.descriptors fd = some .other := by
  have hs := turn_step h.live ht ha
  obtain ⟨owner, howned⟩ := h.live.owned
  obtain ⟨log, hcount⟩ := h.counted
  have hchange := step_change howned hs
  refine ⟨⟨step_live h.live hs ha, ⟨_, hcount.change hchange⟩, fun fd ho => ?_⟩, step_listenfd hs,
    change_other hchange⟩
  by_cases hold : Open s fd
  · exact h.range fd hold
  · exact init_range hs (change_opened hchange ho hold)

/-- Descriptors that are not connections say nothing of connections. -/
theorem open_setDescriptor {d : Option Descriptor} (hold : ¬ Open s fd) (hnew : d ≠ some .client)
    (x : Int) : Open (s.setDescriptor fd d) x ↔ Open s x := by
  unfold Open Server.setDescriptor
  by_cases hx : x = fd
  · simp only [hx, Function.update_self]
    exact iff_of_false hnew hold
  · simp only [Function.update_of_ne hx]

/-- The server opens or closes a descriptor that is neither a connection nor the listening
socket. -/
theorem Numbered.setDescriptor {d : Option Descriptor} (h : Numbered s) (hold : ¬ Open s fd)
    (hnew : d ≠ some .client) (hlisten : fd ≠ s.listenfd) (hneg : fd ≠ -1) :
    Numbered (s.setDescriptor fd d) := by
  have hopen := open_setDescriptor hold hnew
  obtain ⟨⟨owner, howned⟩, hphased, hsound⟩ := h.live
  obtain ⟨log, hlive, hserved, hguarded, F, hF, hcard⟩ := h.counted
  refine ⟨⟨⟨owner, ⟨?_, ?_, ?_, howned.listener, ?_⟩, howned.places.congr fun x q => by cases q <;> rfl, ?_,
    howned.pendingNodup, howned.flagged, howned.queueNodup⟩, ?_, ?_⟩, ⟨log, ?_, ?_, hguarded, F, ?_, hcard⟩,
    fun x hx => h.range x ((hopen x).mp hx)⟩
  · exact fun x hx => howned.socket x ((hopen x).mp hx)
  · exact fun x r hr => (howned.registered x r hr).imp_right (hopen x).mpr
  · exact (Function.update_of_ne hlisten.symm ..).trans howned.listening
  · exact (Function.update_of_ne hneg.symm ..).trans howned.negative
  · intro x p hp
    exact (hopen x).mpr (howned.open_of_at x p (by cases p <;> exact hp))
  · intro x hx i hw
    refine hphased x ((hopen x).mp hx) i ?_
    cases hw with
    | armed h => exact .armed h
    | readable hd hfd h => exact .readable hd hfd h
    | writable hd hfd h => exact .writable hd hfd h
    | queued h => exact .queued h
    | taken h => exact .taken h
  · exact fun x hx => hsound x ((hopen x).mp hx)
  · exact fun x => (hlive x).trans (hopen x).symm
  · exact fun x => (hserved x).trans (hopen x).symm
  · exact fun x => (hF x).trans (hopen x).symm

/-! ## Files of the workers -/

variable {t t' : FileServer W}

/-- A worker has a file with the descriptor. -/
def HasFile (t : FileServer W) (fd : Int) : Prop := ∃ w fs, t.files w = some (fs, fd)

/-- The server has the descriptors that it had from the start and those of the workers' files, all of
them different. -/
structure Filed (s₀ : Server W) (t : FileServer W) : Prop where
  numbered : Numbered t.server
  listenfd : t.server.listenfd = s₀.listenfd
  others : ∀ fd, t.server.descriptors fd = some .other ↔ s₀.descriptors fd = some .other ∨ HasFile t fd
  apart : ∀ fd, HasFile t fd → s₀.descriptors fd ≠ some .other
  once : ∀ w w' fs fs' fd, t.files w = some (fs, fd) → t.files w' = some (fs', fd) → w = w'

/-- No worker has a file before the event loop. -/
theorem filed_start (h : Initial s₀) : Filed s₀ (.start s₀) := by
  have hnone : ∀ fd, ¬ HasFile (.start s₀) fd := by
    rintro fd ⟨w, fs, hfile⟩
    cases hfile
  refine ⟨numbered_initial h, rfl, fun fd => ?_, fun fd hfile => absurd hfile (hnone fd), ?_⟩
  · exact ⟨Or.inl, fun hfd => hfd.resolve_right (hnone fd)⟩
  · intro w w' fs fs' fd hfile
    cases hfile

/-- A step of the server that changes no file. -/
theorem Filed.server {s' : Server W} (h : Filed s₀ t) (hs : Numbered s')
    (hlisten : s'.listenfd = t.server.listenfd)
    (hother : ∀ fd, s'.descriptors fd = some .other ↔ t.server.descriptors fd = some .other) :
    Filed s₀ { t with server := s' } :=
  ⟨hs, hlisten.trans h.listenfd, fun fd => (hother fd).trans (h.others fd), h.apart, h.once⟩

variable [DecidableEq W]

/-- After one worker has opened a file its descriptor is in use as well. -/
theorem hasFile_opened (s : Server W) {w : W} (fs : FileSystem) (fd : Int) (hnone : t.files w = none)
    (x : Int) :
    HasFile ⟨s, Function.update t.files w (some (fs, fd))⟩ x ↔ x = fd ∨ HasFile t x := by
  constructor
  · rintro ⟨v, fs', hv⟩
    by_cases hvw : v = w
    · simp only [hvw, Function.update_self, Option.some.injEq, Prod.mk.injEq] at hv
      exact Or.inl hv.2.symm
    · simp only [Function.update_of_ne hvw] at hv
      exact Or.inr ⟨v, fs', hv⟩
  · rintro (rfl | ⟨v, fs', hv⟩)
    · exact ⟨w, fs, Function.update_self ..⟩
    · have hvw : v ≠ w := by
        rintro rfl
        rw [hnone] at hv
        cases hv
      exact ⟨v, fs', (Function.update_of_ne hvw ..).trans hv⟩

/-- After one worker has closed its file the others are still open. -/
theorem Filed.hasFile_closed (h : Filed s₀ t) (s : Server W) {w : W} {fs : FileSystem}
    (hw : t.files w = some (fs, fd)) (x : Int) :
    HasFile ⟨s, Function.update t.files w none⟩ x ↔ x ≠ fd ∧ HasFile t x := by
  constructor
  · rintro ⟨v, fs', hv⟩
    have hvw : v ≠ w := by
      rintro rfl
      simp only [Function.update_self] at hv
      cases hv
    simp only [Function.update_of_ne hvw] at hv
    refine ⟨?_, v, fs', hv⟩
    rintro rfl
    exact hvw (h.once v w fs' fs x hv hw)
  · rintro ⟨hx, v, fs', hv⟩
    have hvw : v ≠ w := by
      rintro rfl
      rw [hw] at hv
      exact hx (Prod.mk.inj (Option.some.inj hv)).2.symm
    exact ⟨v, fs', (Function.update_of_ne hvw ..).trans hv⟩

/-- A file of one worker is opened. -/
theorem Filed.openFile (h : Filed s₀ t) {w : W} {fs : FileSystem} (hnone : t.files w = none)
    (hpos : 0 ≤ fd) (hfree : t.server.descriptors fd = none) :
    Filed s₀ ⟨t.server.setDescriptor fd (some .other), Function.update t.files w (some (fs, fd))⟩ := by
  have hopen : ¬ Open t.server fd := by
    unfold Open
    rw [hfree]
    simp
  obtain ⟨owner, howned⟩ := h.numbered.live.owned
  have hlisten : fd ≠ t.server.listenfd := by
    rintro rfl
    rw [howned.listening] at hfree
    cases hfree
  have hnew : s₀.descriptors fd ≠ some .other := by
    intro hother
    have hused := (h.others fd).mpr (Or.inl hother)
    rw [hfree] at hused
    cases hused
  have hfile := hasFile_opened (t.server.setDescriptor fd (some .other)) fs fd hnone
  refine ⟨h.numbered.setDescriptor hopen (by simp) hlisten (by omega), h.listenfd, fun x => ?_, ?_, ?_⟩
  · rw [hfile]
    by_cases hx : x = fd
    · exact iff_of_true (by rw [hx]; exact Function.update_self ..) (Or.inr (Or.inl hx))
    · rw [or_iff_right hx, ← h.others x]
      exact Eq.congr_left (Function.update_of_ne hx ..)
  · intro x hx
    rcases (hfile x).mp hx with rfl | hx
    · exact hnew
    · exact h.apart x hx
  · -- the descriptor was free, so it is no other worker's
    have hfresh : ∀ v fs', t.files v ≠ some (fs', fd) := by
      intro v fs' hv
      have hused := (h.others fd).mpr (Or.inr ⟨v, fs', hv⟩)
      rw [hfree] at hused
      cases hused
    intro v v' fs₁ fs₂ x hv hv'
    by_cases hvw : v = w
    · by_cases hvw' : v' = w
      · rw [hvw, hvw']
      · simp only [hvw, Function.update_self, Option.some.injEq, Prod.mk.injEq] at hv
        simp only [Function.update_of_ne hvw'] at hv'
        rw [← hv.2] at hv'
        exact absurd hv' (hfresh v' fs₂)
    · simp only [Function.update_of_ne hvw] at hv
      by_cases hvw' : v' = w
      · simp only [hvw', Function.update_self, Option.some.injEq, Prod.mk.injEq] at hv'
        rw [← hv'.2] at hv
        exact absurd hv (hfresh v fs₁)
      · simp only [Function.update_of_ne hvw'] at hv'
        exact h.once v v' fs₁ fs₂ x hv hv'

/-- The file of one worker is closed. -/
theorem Filed.closeFile (h : Filed s₀ t) (hinit : Initial s₀) {w : W} {fs : FileSystem}
    (hw : t.files w = some (fs, fd)) :
    Filed s₀ ⟨t.server.setDescriptor fd none, Function.update t.files w none⟩ := by
  have hother : t.server.descriptors fd = some .other := (h.others fd).mpr (Or.inr ⟨w, fs, hw⟩)
  have hopen : ¬ Open t.server fd := by
    unfold Open
    rw [hother]
    simp
  have hlisten : fd ≠ t.server.listenfd := by
    rw [h.listenfd]
    rintro rfl
    exact h.apart _ ⟨w, fs, hw⟩ hinit.listening
  have hneg : fd ≠ -1 := by
    rintro rfl
    obtain ⟨owner, howned⟩ := h.numbered.live.owned
    rw [howned.negative] at hother
    cases hother
  have hfile := h.hasFile_closed (t.server.setDescriptor fd none) hw
  refine ⟨h.numbered.setDescriptor hopen (by simp) hlisten hneg, h.listenfd, fun x => ?_, ?_, ?_⟩
  · rw [hfile]
    by_cases hx : x = fd
    · refine iff_of_false ?_ ?_
      · rw [hx]
        show Function.update t.server.descriptors fd none fd ≠ _
        rw [Function.update_self]
        simp
      · rintro (hstart | ⟨hne, -⟩)
        · exact h.apart fd ⟨w, fs, hw⟩ (hx ▸ hstart)
        · exact hne hx
    · rw [and_iff_right hx, ← h.others x]
      exact Eq.congr_left (Function.update_of_ne hx ..)
  · intro x hx
    exact h.apart x ((hfile x).mp hx).2
  · intro v v' fs₁ fs₂ x hv hv'
    have hold : ∀ {u : W} {r : FileSystem × Int}, Function.update t.files w none u = some r →
        t.files u = some r := by
      intro u r hu
      by_cases huw : u = w
      · rw [huw, Function.update_self] at hu
        cases hu
      · rwa [Function.update_of_ne huw] at hu
    exact h.once v v' fs₁ fs₂ x (hold hv) (hold hv')

/-- A step of the server with its workers' files. -/
theorem Filed.step (h : Filed s₀ t) (hinit : Initial s₀) {a : FileAction W} (ht : FileTurn t a t')
    (ha : t.Defined a) : Filed s₀ t' := by
  cases ht with
  | server a hidle hturn =>
    obtain ⟨hnumbered, hlisten, hother⟩ := h.numbered.turn hturn ha
    exact h.server hnumbered hlisten hother
  | openFile w fs fd hnone _ hpos hfree => exact h.openFile hnone hpos hfree
  | closeFile w fs fd hw hturn =>
    have hclosed := h.closeFile hinit hw
    obtain ⟨hnumbered, hlisten, hother⟩ := hclosed.numbered.turn hturn (ha fs)
    exact hclosed.server hnumbered hlisten hother

end Steps

end ServerListings.Analysis.ServerFiles
