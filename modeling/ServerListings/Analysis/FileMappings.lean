import ServerListings.Lib.Histories
import ServerListings.Interface.MappingSteps
import ServerListings.Interface.ServerPaths

/-!
# Every mapping is released exactly once

The log of `mmap` and `munmap` agrees with what the objects hold (`Ledger`) as long as each
step moves at most one slot. This depends on what the members of a new object hold, on no
`mmap` failing, and on no connection being closed while its object holds a mapping. The runs stop
where the behaviour of `process` is undefined.
-/
set_option autoImplicit false

namespace ServerListings.Analysis.FileMappings

open Lib.CMem Lib.Custody Lib.Histories Lib.Transition ServerListings.Model
  ServerListings.Model.Http ServerListings.Model.WebServer ServerListings.Interface

/-! ## The log and the slots -/

section Log

variable {slots slots' : Int → Option (Int × Nat)} {fd : Int} {log events : List Mapping}

/-- Every mapping of the object has been unmapped. -/
def Clear (fd : Int) (log : List Mapping) : Prop :=
  ∀ address length, ¬ Since (.mmap fd address length) (.munmap fd address length) log

/-- Each `munmap` is for a mapping of the same object that was not unmapped yet, and before
each `mmap` and each `init` all mappings of the object have been unmapped. -/
structure MappedOnce (log : List Mapping) : Prop where
  released : ∀ fd address length, Guarded (.mmap fd address length) (.munmap fd address length) log
  beforeInit : ∀ fd, Before (.init fd) (Clear fd) log
  beforeMmap : ∀ fd address length, Before (.mmap fd address length) (Clear fd) log

/-- The log agrees with the slots, and all is well so far. -/
structure Ledger (slots : Int → Option (Int × Nat)) (log : List Mapping) : Prop where
  agrees : ∀ fd, Agrees (takes fd) (gives fd) (slots fd) log
  once : MappedOnce log

/-- Without a call every file is mapped at most once. -/
theorem mappedOnce_nil : MappedOnce [] :=
  ⟨fun _ _ _ => guarded_nil, fun _ => before_nil, fun _ _ _ => before_nil⟩

/-- One entry more. -/
theorem MappedOnce.concat {e : Mapping} (h : MappedOnce log)
    (hgive : ∀ fd m, e = gives fd m → Since (takes fd m) (gives fd m) log)
    (hinit : ∀ fd, e = .init fd → Clear fd log) (htake : ∀ fd m, e = takes fd m → Clear fd log) :
    MappedOnce (log ++ [e]) :=
  ⟨fun fd a n => guarded_concat.mpr ⟨h.released fd a n, hgive fd (a, n)⟩,
    fun fd => before_concat.mpr ⟨h.beforeInit fd, hinit fd⟩,
    fun fd a n => before_concat.mpr ⟨h.beforeMmap fd a n, htake fd (a, n)⟩⟩

/-- An `mmap` call tells which mapping it makes. -/
theorem takes_injective (fd : Int) : Function.Injective (takes fd) := by
  intro m m' h
  obtain ⟨-, h₁, h₂⟩ := Mapping.mmap.inj h
  exact Prod.ext h₁ h₂

/-- An object without a mapping has a clear log. -/
theorem Ledger.clear (h : Ledger slots log) (hnone : slots fd = none) : Clear fd log := by
  intro a n hsince
  have := (h.agrees fd (a, n)).mp hsince
  rw [hnone] at this
  cases this

/-- Each move keeps the agreement. -/
theorem Ledger.change (h : Ledger slots log) (hmoved : SlotMoved slots slots' fd events) :
    Ledger slots' (log ++ events) := by
  cases hmoved with
  | same heq =>
    rw [List.append_nil, heq]
    exact h
  | init hnone heq =>
    refine ⟨fun x => ?_, h.once.concat nofun ?_ nofun⟩
    · rw [heq]
      exact (h.agrees x).other nofun nofun
    · intro x hx
      rw [← Mapping.init.inj hx]
      exact h.clear hnone
  | fill m hnone heq =>
    refine ⟨fun x => ?_, h.once.concat nofun nofun ?_⟩
    · rw [heq]
      by_cases hx : x = fd
      · have hagrees := h.agrees fd
        rw [hnone] at hagrees
        rw [hx, Function.update_self]
        exact hagrees.fill (takes_injective fd)
      · rw [Function.update_of_ne hx]
        refine (h.agrees x).other (fun m' hm => ?_) nofun
        exact hx (Mapping.mmap.inj hm).1.symm
    · intro x m' hm
      rw [← (Mapping.mmap.inj hm).1]
      exact h.clear hnone
  | clear m hsome heq =>
    refine ⟨fun x => ?_, h.once.concat ?_ nofun nofun⟩
    · rw [heq]
      by_cases hx : x = fd
      · have hagrees := h.agrees fd
        rw [hsome] at hagrees
        rw [hx, Function.update_self]
        exact hagrees.clear nofun
      · rw [Function.update_of_ne hx]
        refine (h.agrees x).other nofun fun m' hm => ?_
        exact hx (Mapping.munmap.inj hm).1.symm
    · intro x m' hm
      obtain ⟨rfl, h₁, h₂⟩ := Mapping.munmap.inj hm
      obtain rfl : m = m' := Prod.ext h₁ h₂
      exact (h.agrees _ m).mpr hsome

end Log

section Steps

variable {W : Type} [DecidableEq W] {s s₀ : Server W} {log : List Mapping}

/-- In a run in which no `mmap` fails and no connection is closed for an event while its object
holds a mapping, from objects that hold nothing, every mapping is unmapped once, and before
the object is used for another one. -/
theorem mapped_once (hinit : Initial s₀) (hnull : ∀ fd, (s₀.users fd).mFileAddress = 0)
    (hrun : Logged Step (fun s a => Lawful a ∧ NoneLost s a) Server.maps s₀ log s) :
    MappedOnce log := by
  have hinv : Ledger (slotsOf s) log ∧ HoldUnsent s ∧ ∃ owner, Owned s owner := by
    apply hrun.invariant (I := fun log s => Ledger (slotsOf s) log ∧ HoldUnsent s ∧ ∃ owner, Owned s owner)
    · have hempty : ∀ fd, slotsOf s₀ fd = none := fun fd => held_eq_none.mpr (hnull fd)
      refine ⟨⟨fun fd => ?_, mappedOnce_nil⟩, fun fd hne => absurd (hempty fd) hne, _,
        owned_initial hinit⟩
      rw [hempty fd]
      exact agrees_nil
    · rintro log s a s' ⟨hledger, hwaits, owner, howned⟩ hstep ⟨hlaw, hlost⟩
      obtain ⟨owner', howned', -⟩ := step_owned howned hstep
      obtain ⟨fd, hmoved, hwaits'⟩ := step_moves howned hwaits hstep hlaw hlost
      exact ⟨hledger.change hmoved, hwaits', owner', howned'⟩
  exact hinv.1.once

end Steps

/-! ## A request for a file -/

/-- A file system in which every path is a file of one byte. -/
def oneFile : FileSystem :=
  ⟨fun _ => some ⟨0o100644, 1⟩, fun _ length => if length = 0 then -1 else 4096⟩

/-- `oneFile` behaves as `mmap` does. -/
theorem lawful_oneFile : LawfulMmap oneFile := by
  refine ⟨fun path n => ?_, fun path => rfl⟩
  simp only [oneFile]
  split <;> decide

/-- A client connects, and the last worker prepares the response to its request. -/
def fileRequested : List (ServerListings.Model.WebServer.Action (Fin 8)) :=
  [.wait [⟨3, false, true, false⟩],
    .handle ⟨3, false, true, false⟩ ⟨some 5, [], [], fun _ => []⟩,
    .wait [⟨5, false, true, false⟩],
    .handle ⟨5, false, true, false⟩
      ⟨none, [.data (bytes "GET\t/a\tHTTP/1.1\r\n\r\n"), .eagain], [], fun _ => []⟩,
    .take (Fin.last 7), .process (Fin.last 7) oneFile]

/-- The response is sent. -/
def fileSent : List (ServerListings.Model.WebServer.Action (Fin 8)) :=
  fileRequested ++ [.wait [⟨5, false, false, true⟩],
    .handle ⟨5, false, false, true⟩ ⟨none, [], [.accepted 58], fun _ => [65]⟩]

/-- The client resets the connection before the response is sent, and another one connects. -/
def fileAbandoned : List (ServerListings.Model.WebServer.Action (Fin 8)) :=
  fileRequested ++ [.wait [⟨5, true, false, false⟩],
    .handle ⟨5, true, false, false⟩ ⟨none, [], [], fun _ => []⟩,
    .wait [⟨3, false, true, false⟩],
    .handle ⟨3, false, true, false⟩ ⟨some 5, [], [], fun _ => []⟩]

section Runs

variable {W : Type}

instance (s : Server W) : ∀ a, Decidable (NoneLost s a)
  | .wait _ => isTrue trivial
  | .take _ => isTrue trivial
  | .handle d _ => inferInstanceAs (Decidable (d.fd ≠ s.listenfd → d.events.closing = true →
      (s.users d.fd).mFileAddress = 0))
  | .process w fs =>
    decidable_of_iff (∀ fd ∈ s.working w, ∀ m ∈ mmapCall fs (s.users fd), m.1 ≠ -1)
      ⟨fun h fd hfd a n hcall => h fd hfd (a, n) hcall, fun h fd hfd m hcall => h fd hfd m.1 m.2 hcall⟩

/-- The run that sends the file is lawful. -/
theorem lawful_fileSent : ∀ a ∈ fileSent, Lawful a := by
  simp only [fileSent, fileRequested, List.cons_append, List.nil_append, List.forall_mem_cons]
  exact ⟨trivial, trivial, trivial, trivial, trivial, lawful_oneFile, trivial, trivial, nofun⟩

/-- The run that leaves the file mapped is lawful. -/
theorem lawful_fileAbandoned : ∀ a ∈ fileAbandoned, Lawful a := by
  simp only [fileAbandoned, fileRequested, List.cons_append, List.nil_append, List.forall_mem_cons]
  exact ⟨trivial, trivial, trivial, trivial, trivial, lawful_oneFile, trivial, trivial, trivial,
    trivial, nofun⟩

/-- A file is served. -/
theorem mapped_once_served :
    ∃ s, Logged Step (fun s a => Lawful a ∧ NoneLost s a) Server.maps (Server.start fun _ => default)
        [.init 5, .mmap 5 4096 1, .munmap 5 4096 1] s ∧
      MappedOnce [.init 5, .mmap 5 4096 1, .munmap 5 4096 1] := by
  have hlog : (loggedSchedule follow NoneLost Server.maps (Server.start fun _ => default) fileSent).map
      Prod.fst = some [.init 5, .mmap 5 4096 1, .munmap 5 4096 1] := by decide +kernel
  obtain ⟨⟨log, s⟩, hrun, rfl⟩ := Option.map_eq_some_iff.mp hlog
  have hlogged := Logged.of_schedule .refl (fun s a s' => step_of_follow)
    (fun s a ha hlost => (⟨lawful_fileSent a ha, hlost⟩ : Lawful a ∧ NoneLost s a)) hrun
  exact ⟨s, hlogged, mapped_once (initial_start _) (fun _ => rfl) hlogged⟩

/-- A reset while the response waits: the mapping is never given back. -/
theorem mapping_lost :
    ∃ log s, Logged Step (fun _ a => Lawful a) Server.maps (Server.start fun _ => default) log s ∧
      ¬ MappedOnce log := by
  have hlog : (loggedSchedule follow (fun _ _ => True) Server.maps (Server.start fun _ => default)
      fileAbandoned).map Prod.fst = some [.init 5, .mmap 5 4096 1, .init 5] := by decide +kernel
  obtain ⟨⟨log, s⟩, hrun, rfl⟩ := Option.map_eq_some_iff.mp hlog
  refine ⟨_, s, Logged.of_schedule .refl (fun s a s' => step_of_follow)
    (fun s a ha _ => lawful_fileAbandoned a ha) hrun, fun h => ?_⟩
  have hsince : Since (Mapping.mmap 5 4096 1) (.munmap 5 4096 1) [.init 5, .mmap 5 4096 1] :=
    ⟨[.init 5], [], rfl, List.not_mem_nil⟩
  exact h.beforeInit 5 [.init 5, .mmap 5 4096 1] [] rfl 4096 1 hsince

end Runs

end ServerListings.Analysis.FileMappings
