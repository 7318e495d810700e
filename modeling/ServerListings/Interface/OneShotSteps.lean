import ServerListings.Lib.Custody
import ServerListings.Lib.Transition
import ServerListings.Model.OneShot

/-!
# Who serves a connection

An open connection is armed in the epoll table, the subject of an event that `main` has not
handled yet, or that of a worker, which finds it in its argument or has read it there. The kernel's
tables are consistent in every run. The places exclude one another as long as each worker has
read its argument when `main` leaves the block of the variable.
-/

set_option autoImplicit false

namespace ServerListings.Interface.OneShot

open Lib.CMem Lib.Custody Lib.Readiness Lib.Transition ServerListings.Model.OneShot

/-- The places of a connection. -/
inductive Place
  | armed
  | delivered
  | served (t : Nat)
  deriving DecidableEq, Repr

/-- The connection that a worker has read, or is going to read. -/
def connection (s : Server) : Worker → Option Int
  | .created n => (s.argument n).map Fds.sockfd
  | w => w.sockfd

/-- The connection is at the place. -/
def IsAt (s : Server) (fd : Int) : Place → Prop
  | .armed => ∃ e, s.table.entries fd = some e ∧ e.armed = true
  | .delivered => fd ≠ s.listenfd ∧ fd ∈ s.batch.map Delivered.fd
  | .served t => ∃ w, s.workers[t]? = some w ∧ connection s w = some fd

/-- The tables of the kernel agree, and no enabled entry has missed that its connection can be
read. -/
structure Tables (s : Server) : Prop where
  registered : s.table.Registered
  alert : ∀ fd, s.table.AlertAt fd
  listening : s.table.streams s.listenfd = none
  nodup : (s.batch.map Delivered.fd).Nodup

section Tables

variable {s s' : Server} {a : Action} {fd : Int} {t : Nat}

/-- Before the loop the tables are empty. -/
theorem tables_start (listenfd epollfd : Int) : Tables (start listenfd epollfd) where
  registered := Table.registered_empty
  alert := fun _ => nofun
  listening := rfl
  nodup := List.nodup_nil

/-- A change that is not one of the tables. -/
theorem Tables.congr (h : Tables s) (hl : s'.listenfd = s.listenfd) (htable : s'.table = s.table)
    (hb : (s'.batch.map Delivered.fd).Nodup) : Tables s' where
  registered := htable ▸ h.registered
  alert := htable ▸ h.alert
  listening := by
    rw [htable, hl]
    exact h.listening
  nodup := hb

/-- Something happens to a connection. -/
theorem Tables.change (h : Tables s) (f : Stream → Stream) :
    Tables { s with table := s.table.change fd f } where
  registered := h.registered.change
  alert := fun x => (h.alert x).change
  listening := by
    by_cases hl : s.listenfd = fd
    · rw [hl, Table.change, Table.streams_set_self, ← hl, h.listening]
      rfl
    · exact (Table.streams_set_of_ne hl).trans h.listening
  nodup := h.nodup

/-- A batch is returned. -/
theorem Tables.deliver (h : Tables s) {batch : List Delivered} (hb : (batch.map Delivered.fd).Nodup) :
    Tables (s.deliver batch) where
  registered := h.registered.report _ _
  alert := fun x => (h.alert x).report_disabled _
  listening := h.listening
  nodup := hb

/-- A connection is registered. -/
theorem Tables.addfd (h : Tables s) {k : Stream} (hne : fd ≠ s.listenfd) : Tables (s.addfd fd k) where
  registered := h.registered.add k
  alert := fun x => Table.AlertAt.add (fun _ => h.alert x) k
  listening := (Table.streams_set_of_ne hne.symm).trans h.listening
  nodup := h.nodup

/-- A connection is closed. -/
theorem Tables.closeSocket (h : Tables s) : Tables (s.closeSocket fd) where
  registered := h.registered.remove
  alert := fun x => Table.AlertAt.remove fun _ => h.alert x
  listening := by
    by_cases hl : s.listenfd = fd
    · subst hl
      exact Table.streams_set_self
    · exact (Table.streams_set_of_ne hl).trans h.listening
  nodup := h.nodup

/-- `reset_oneshot` leaves the workers alone. -/
theorem workers_resetOneshot (s : Server) (epollfd fd : Int) :
    (s.resetOneshot epollfd fd).workers = s.workers := by
  rw [Server.resetOneshot]
  split <;> rfl

/-- An entry is enabled again. -/
theorem Tables.resetOneshot (h : Tables s) (epollfd : Int) : Tables (s.resetOneshot epollfd fd) := by
  rw [Server.resetOneshot]
  split
  · refine ⟨h.registered.enable, fun x => Table.AlertAt.enable fun _ => h.alert x, ?_, h.nodup⟩
    by_cases hl : s.listenfd = fd
    · subst hl
      exact Table.streams_set_self.trans h.listening
    · exact (Table.streams_set_of_ne hl).trans h.listening
  · exact h

/-- `recv` of bytes. -/
theorem Tables.receive (h : Tables s) (fd : Int) (n : Nat) : Tables { s with table := s.table.receive fd n } where
  registered := h.registered.receive n
  alert := fun x => (h.alert x).receive n
  listening := by
    by_cases hl : s.listenfd = fd
    · rw [hl, Table.receive, Table.streams_set_self, ← hl, h.listening]
      rfl
    · exact (Table.streams_set_of_ne hl).trans h.listening
  nodup := h.nodup

/-- A worker goes on. -/
theorem Tables.setWorker (h : Tables s) (w : Worker) : Tables (s.setWorker t w) :=
  h.congr rfl rfl h.nodup

/-- `main` takes the next event. -/
theorem Tables.rest (h : Tables s) {d : Delivered} {rest : List Delivered} (hb : s.batch = d :: rest) :
    Tables { s with batch := rest } := by
  refine h.congr rfl rfl ?_
  have hnodup := h.nodup
  rw [hb, List.map_cons, List.nodup_cons] at hnodup
  exact hnodup.2

/-- A worker is created. -/
theorem Tables.startWorker (h : Tables s) (created : Bool) : Tables (s.startWorker fd created) :=
  h.congr rfl rfl h.nodup

/-- `main` leaves the block. -/
theorem Tables.leave (h : Tables s) : Tables { s with fdsForNewWorker := none } :=
  h.congr rfl rfl h.nodup

end Tables

/-! ## Arguments -/

/-- The argument of every worker that has not read it to its end is still there, and the workers
have the right epoll table. -/
structure Passed (s : Server) : Prop where
  reading : ∀ w ∈ s.workers, ∀ n, w.arg = some n → ∃ v, s.argument n = some v
  written : ∀ n v, s.argument n = some v → v.epollfd = s.epollfd
  read : ∀ w ∈ s.workers, ∀ e, w.epollfd = some e → e = s.epollfd

section Arguments

variable {s s' : Server} {fd : Int} {t n : Nat} {w : Worker}

/-- Before the loop there are no workers. -/
theorem passed_start (listenfd epollfd : Int) : Passed (start listenfd epollfd) := ⟨nofun, nofun, nofun⟩

/-- A change that leaves the variable and the workers alone. -/
theorem Passed.congr (h : Passed s) (hv : s'.fdsForNewWorker = s.fdsForNewWorker)
    (hw : s'.workers = s.workers) (he : s'.epollfd = s.epollfd) : Passed s' := by
  have harg : ∀ n, s'.argument n = s.argument n := by
    intro n
    rw [Server.argument, Server.argument, hv]
  refine ⟨fun w hmem n hn => ?_, fun n v hv => ?_, fun w hmem e he' => ?_⟩
  · rw [harg]
    exact h.reading w (hw ▸ hmem) n hn
  · rw [harg] at hv
    exact (h.written n v hv).trans he.symm
  · exact (h.read w (hw ▸ hmem) e he').trans he.symm

/-- A worker goes on. -/
theorem Passed.setWorker (h : Passed s) (harg : ∀ n, w.arg = some n → ∃ v, s.argument n = some v)
    (hepoll : ∀ e, w.epollfd = some e → e = s.epollfd) : Passed (s.setWorker t w) where
  reading := by
    intro x hx n hn
    rcases List.mem_or_eq_of_mem_set hx with hmem | rfl
    · exact h.reading x hmem n hn
    · exact harg n hn
  written := h.written
  read := by
    intro x hx e he
    rcases List.mem_or_eq_of_mem_set hx with hmem | rfl
    · exact h.read x hmem e he
    · exact hepoll e he

/-- While `main` is not in the block, every worker has read its argument. -/
theorem Passed.all_read (h : Passed s) (hout : s.fdsForNewWorker = none) :
    ∀ w ∈ s.workers, w.arg = none := by
  intro w hw
  by_contra hne
  obtain ⟨n, hn⟩ := Option.ne_none_iff_exists'.mp hne
  obtain ⟨v, hv⟩ := h.reading w hw n hn
  rw [Server.argument, hout] at hv
  cases hv

/-- A worker is created. -/
theorem Passed.startWorker (h : Passed s) (hout : s.fdsForNewWorker = none) (created : Bool) :
    Passed (s.startWorker fd created) := by
  have hobject : (s.startWorker fd created).argument s.objects = some ⟨s.epollfd, fd⟩ := if_pos rfl
  have hmem : ∀ w ∈ (s.startWorker fd created).workers, w ∈ s.workers ∨ w = .created s.objects := by
    intro w hw
    cases created with
    | false => exact .inl hw
    | true => exact (List.mem_append.mp hw).imp_right List.mem_singleton.mp
  refine ⟨fun w hw n hn => ?_, fun n v hv => ?_, fun w hw e he => ?_⟩
  · rcases hmem w hw with hold | rfl
    · rw [h.all_read hout w hold] at hn
      cases hn
    · obtain rfl := Option.some.inj hn
      exact ⟨_, hobject⟩
  · obtain ⟨-, hv⟩ := Option.ite_none_right_eq_some.mp hv
    obtain rfl := Option.some.inj hv
    rfl
  · rcases hmem w hw with hold | rfl
    · exact h.read w hold e he
    · cases he

/-- `main` leaves the block when every worker has read its argument. -/
theorem Passed.leave (h : Passed s) (hread : ∀ w ∈ s.workers, w.arg = none) :
    Passed { s with fdsForNewWorker := none } where
  reading := by
    intro w hw n hn
    rw [hread w hw] at hn
    cases hn
  written := nofun
  read := h.read

/-- What a worker reads of its argument is what `main` has written there. -/
theorem Passed.load (h : Passed s) (hw : w ∈ s.workers) (hn : w.arg = some n) (stray : Int) :
    s.load n Fds.epollfd stray = s.epollfd := by
  obtain ⟨v, hv⟩ := h.reading w hw n hn
  rw [Server.load, hv]
  exact h.written n v hv

end Arguments

/-! ## Places -/

/-- Each connection has at most one place, and only open connections have one. -/
structure Owned (s : Server) (owner : Int → Option Place) : Prop extends Tables s, Passed s where
  places : Placed (IsAt s) owner
  open_of_at : ∀ fd p, IsAt s fd p → s.table.Open fd

/-- Every open connection has a place. -/
def Kept (s : Server) (owner : Int → Option Place) : Prop := ∀ fd, s.table.Open fd → owner fd ≠ none

/-- When `main` leaves the block of `fds_for_new_worker`, every worker has read its argument. -/
def Prompt (s : Server) : Action → Prop
  | .leave => ∀ w ∈ s.workers, w.arg = none
  | _ => True

/-- Besides, the event of a connection is one with `EPOLLIN`, and its worker is created. -/
def Careful (s : Server) : Action → Prop
  | .leave => ∀ w ∈ s.workers, w.arg = none
  | .handle _ created => ∀ d ∈ s.batch.head?, d.fd = s.listenfd ∨ (d.epollin = true ∧ created = true)
  | _ => True

section Places

variable {s s' : Server} {a : Action} {fd x : Int} {t : Nat} {w w' : Worker}
  {owner : Int → Option Place} {careful : Prop} {p q : Place}

/-- A careful step is prompt. -/
theorem Careful.prompt (h : Careful s a) : Prompt s a := by
  cases a with
  | leave => exact h
  | _ => trivial

/-- A state in which the places exclude one another. Under the condition, every open connection
has a place if that was so before. -/
def Keeps (s : Server) (owner : Int → Option Place) (careful : Prop) (s' : Server) : Prop :=
  ∃ owner', Owned s' owner' ∧ (careful → Kept s owner → Kept s' owner')

/-- One connection comes to a place, or to none. -/
theorem Owned.put (h : Owned s owner) (fd : Int) (ht : Tables s') (hpass : Passed s')
    (o : Option Place) (hrel : ∀ x q, IsAt s' x q ↔ (x ≠ fd ∧ IsAt s x q) ∨ (x = fd ∧ o = some q))
    (hother : ∀ x, x ≠ fd → (s'.table.Open x ↔ s.table.Open x)) (hopen : o ≠ none → s'.table.Open fd)
    (hkept : careful → s'.table.Open fd → o ≠ none) : Keeps s owner careful s' := by
  refine ⟨Function.update owner fd o, ⟨ht, hpass, h.places.put o hrel, fun x q hq => ?_⟩,
    fun hc hk x hx => ?_⟩
  · rcases (hrel x q).mp hq with ⟨hne, hq⟩ | ⟨rfl, rfl⟩
    · exact (hother x hne).mpr (h.open_of_at x q hq)
    · exact hopen nofun
  · by_cases hne : x = fd
    · subst hne
      rw [Function.update_self]
      exact hkept hc hx
    · rw [Function.update_of_ne hne]
      exact hk x ((hother x hne).mp hx)

/-- A change that concerns no place. -/
theorem Owned.same (h : Owned s owner) (ht : Tables s') (hpass : Passed s')
    (hrel : ∀ x q, IsAt s' x q ↔ IsAt s x q) (hopen : ∀ x, s'.table.Open x ↔ s.table.Open x) :
    Keeps s owner careful s' :=
  ⟨owner, ⟨ht, hpass, h.places.congr hrel,
    fun x q hq => (hopen x).mpr (h.open_of_at x q ((hrel x q).mp hq))⟩,
    fun _ hk x hx => hk x ((hopen x).mp hx)⟩

/-- A connection that is at a place is at no other one. -/
theorem Owned.at_iff (h : Owned s owner) (hp : IsAt s fd p) : IsAt s fd q ↔ q = p := by
  rw [h.places fd q, (h.places fd p).mp hp]
  exact ⟨fun heq => (Option.some.inj heq).symm, fun heq => congrArg some heq.symm⟩

/-- A descriptor that is not open is at no place. -/
theorem Owned.not_at (h : Owned s owner) (hfd : s.table.streams fd = none) : ¬ IsAt s fd q := by
  intro hq
  obtain ⟨k, hk⟩ := h.open_of_at fd q hq
  rw [hfd] at hk
  cases hk

/-- The workers after one of them went on. -/
theorem getElem?_setWorker (hw : s.workers[t]? = some w) (u : Nat) :
    (s.setWorker t w').workers[u]? = if u = t then some w' else s.workers[u]? := by
  show (s.workers.set t w')[u]? = _
  rw [List.getElem?_set]
  obtain ⟨ht, -⟩ := List.getElem?_eq_some_iff.mp hw
  by_cases heq : u = t
  · rw [if_pos heq.symm, if_pos ht, if_pos heq]
  · rw [if_neg fun h => heq h.symm, if_neg heq]

/-- The places after a worker went on. -/
theorem isAt_setWorker (hw : s.workers[t]? = some w) :
    IsAt (s.setWorker t w') x q ↔
      (q ≠ .served t ∧ IsAt s x q) ∨ (q = .served t ∧ connection s w' = some x) := by
  have hset : ∀ u, (s.setWorker t w').workers[u]? = if u = t then some w' else s.workers[u]? :=
    getElem?_setWorker hw
  have hconn : ∀ w, connection (s.setWorker t w') w = connection s w := fun w => by cases w <;> rfl
  cases q with
  | armed => simp [IsAt, Server.setWorker]
  | delivered => simp [IsAt, Server.setWorker]
  | served u =>
    simp only [IsAt, hset, hconn]
    by_cases hu : u = t
    · simp [hu]
    · simp [hu]

/-- A worker goes on with the same connection. -/
theorem Owned.goOn (h : Owned s owner) (hw : s.workers[t]? = some w)
    (hfd : connection s w' = connection s w)
    (harg : ∀ n, w'.arg = some n → w.arg = some n)
    (hepoll : ∀ e, w'.epollfd = some e → e = s.epollfd) : Keeps s owner careful (s.setWorker t w') := by
  have hmem := List.mem_of_getElem? hw
  have hpass : Passed (s.setWorker t w') :=
    h.toPassed.setWorker (fun n hn => h.reading w hmem n (harg n hn)) hepoll
  refine h.same (h.toTables.setWorker _) hpass (fun x q => ?_) (fun x => Iff.rfl)
  rw [isAt_setWorker hw, hfd]
  constructor
  · rintro (⟨-, hq⟩ | ⟨rfl, hx⟩)
    · exact hq
    · exact ⟨w, hw, hx⟩
  · intro hq
    by_cases hserved : q = .served t
    · subst hserved
      obtain ⟨w₀, hw₀, hx⟩ := hq
      obtain rfl := Option.some.inj (hw.symm.trans hw₀)
      exact .inr ⟨rfl, hx⟩
    · exact .inl ⟨hserved, hq⟩

/-- A worker ends, after it has put its connection at the place `o`, or closed it. -/
theorem Owned.finish (h : Owned s owner) (hw : s.workers[t]? = some w) (hfd : w.sockfd = some fd)
    (ht : Tables s') (hpass : Passed s') (hworkers : s'.workers = s.workers)
    (o : Option Place)
    (hrel : ∀ x q, q ≠ .served t → (IsAt s' x q ↔ (x ≠ fd ∧ IsAt s x q) ∨ (x = fd ∧ o = some q)))
    (ho : o ≠ some (.served t)) (hother : ∀ x, x ≠ fd → (s'.table.Open x ↔ s.table.Open x))
    (hopen : o ≠ none ↔ s'.table.Open fd) : Keeps s owner careful (s'.setWorker t .ended) := by
  have hconn : connection s w = some fd := by
    cases w with
    | created n => cases hfd
    | _ => exact hfd
  refine h.put fd (ht.setWorker _) (hpass.setWorker nofun nofun) o (fun x q => ?_) hother hopen.mp
    (fun _ => hopen.mpr)
  rw [isAt_setWorker (hworkers ▸ hw)]
  constructor
  · rintro (⟨hserved, hq⟩ | ⟨-, hx⟩)
    · exact (hrel x q hserved).mp hq
    · cases hx
  · intro hq
    have hserved : q ≠ .served t := by
      rintro rfl
      rcases hq with ⟨hx, w₀, hw₀, hx'⟩ | ⟨-, hq⟩
      · obtain rfl := Option.some.inj (hw.symm.trans hw₀)
        exact hx (Option.some.inj (hx'.symm.trans hconn))
      · exact ho hq
    exact .inl ⟨hserved, (hrel x q hserved).mpr hq⟩

/-- What a change of a connection and its entry does to the places. -/
theorem isAt_set {k : Option Stream} {e : Option Entry} {s : Server} :
    IsAt { s with table := s.table.set fd k e } x q ↔
      (x = fd ∧ q = .armed ∧ ∃ y, e = some y ∧ y.armed = true) ∨
        ((x ≠ fd ∨ q ≠ .armed) ∧ IsAt s x q) := by
  cases q with
  | armed =>
    by_cases hx : x = fd
    · subst hx
      simp [IsAt]
    · simp [IsAt, hx, Table.entries_set_of_ne hx]
  | delivered => simp [IsAt]
  | served t =>
    have hconn : ∀ w, connection { s with table := s.table.set fd k e } w = connection s w :=
      fun w => by cases w <;> rfl
    simp [IsAt, hconn]

/-- A worker closes its connection. -/
theorem Owned.close (h : Owned s owner) (hw : s.workers[t]? = some (.closing fd)) :
    Keeps s owner careful ((s.closeSocket fd).setWorker t .ended) := by
  have hat : IsAt s fd (.served t) := ⟨_, hw, rfl⟩
  refine h.finish hw rfl h.toTables.closeSocket (h.toPassed.congr rfl rfl rfl) rfl none
    (fun x q hq => ?_) nofun (fun x hx => Table.open_set_of_ne hx) ⟨fun hne => absurd rfl hne, ?_⟩
  · rw [Server.closeSocket, Table.remove, isAt_set]
    constructor
    · rintro (⟨-, -, y, hy, -⟩ | ⟨hor, hq'⟩)
      · cases hy
      · refine .inl ⟨?_, hq'⟩
        rintro rfl
        exact hq ((h.at_iff hat).mp hq')
    · rintro (⟨hx, hq'⟩ | ⟨-, hq'⟩)
      · exact .inr ⟨.inl hx, hq'⟩
      · cases hq'
  · exact fun hopen => absurd hopen Table.not_open_remove

/-- A worker enables the entry of its connection again. -/
theorem Owned.reset (h : Owned s owner) {e : Int} (hw : s.workers[t]? = some (.resetting fd e)) :
    Keeps s owner careful ((s.resetOneshot e fd).setWorker t .ended) := by
  have hat : IsAt s fd (.served t) := ⟨_, hw, rfl⟩
  have hopen := h.open_of_at fd _ hat
  obtain ⟨y, hy⟩ := (h.registered fd).mpr hopen
  have hepoll : e = s.epollfd := h.read _ (List.mem_of_getElem? hw) e rfl
  have htables : Tables (s.resetOneshot e fd) := h.toTables.resetOneshot e
  rw [Server.resetOneshot, if_pos hepoll] at htables ⊢
  refine h.finish hw rfl htables (h.toPassed.congr rfl rfl rfl) rfl (some .armed)
    (fun x q hq => ?_) nofun (fun x hx => Table.open_set_of_ne hx) ⟨fun _ => ?_, fun _ => nofun⟩
  · rw [Table.enable, isAt_set, hy]
    constructor
    · rintro (⟨rfl, rfl, -⟩ | ⟨hor, hq'⟩)
      · exact .inr ⟨rfl, rfl⟩
      · refine .inl ⟨?_, hq'⟩
        rintro rfl
        exact hq ((h.at_iff hat).mp hq')
    · rintro (⟨hx, hq'⟩ | ⟨rfl, hq'⟩)
      · exact .inr ⟨.inl hx, hq'⟩
      · exact .inl ⟨rfl, (Option.some.inj hq').symm, _, rfl, rfl⟩
  · obtain ⟨k, hk⟩ := hopen
    exact ⟨k, Table.streams_set_self.trans hk⟩

/-- `recv` moves no connection. -/
theorem isAt_receive (n : Nat) {s : Server} :
    IsAt { s with table := s.table.receive fd n } x q ↔ IsAt s x q := by
  cases q with
  | armed =>
    by_cases hx : x = fd
    · subst hx
      simp [IsAt, Table.receive]
    · simp [IsAt, Table.receive, Table.entries_set_of_ne hx]
  | delivered => exact Iff.rfl
  | served t =>
    have hconn : ∀ w, connection { s with table := s.table.receive fd n } w = connection s w :=
      fun w => by cases w <;> rfl
    simp only [IsAt, hconn]

/-- A worker receives bytes. -/
theorem Owned.receive (h : Owned s owner) {e : Int} {buf buf' : List UInt8}
    (hw : s.workers[t]? = some (.receiving fd e buf)) (n : Nat) :
    Keeps s owner careful
      { s.setWorker t (.printing fd e buf') with table := s.table.receive fd n } := by
  have htables := h.toTables.receive fd n
  obtain ⟨owner', howned, hkept⟩ : Keeps s owner careful (s.setWorker t (.printing fd e buf')) :=
    h.goOn hw rfl nofun fun e he => h.read _ (List.mem_of_getElem? hw) e he
  have hopen : ∀ x, (s.table.receive fd n).Open x ↔ s.table.Open x := fun x => Table.open_set_map _
  have hat : ∀ x q, IsAt { s.setWorker t (.printing fd e buf') with table := s.table.receive fd n } x q ↔
      IsAt (s.setWorker t (.printing fd e buf')) x q :=
    fun x q => isAt_receive (s := s.setWorker t (.printing fd e buf')) n
  refine ⟨owner', ⟨htables.congr rfl rfl h.nodup, howned.toPassed.congr rfl rfl rfl,
    howned.places.congr hat, fun x q hq => ?_⟩, fun hc hk x hx => hkept hc hk x ((hopen x).mp hx)⟩
  exact (hopen x).mpr (howned.open_of_at x q ((hat x q).mp hq))

/-- Something happens to a connection. -/
theorem Owned.change (h : Owned s owner) (f : Stream → Stream) :
    Keeps s owner careful { s with table := s.table.change fd f } := by
  refine h.same (h.toTables.change f) (h.toPassed.congr rfl rfl rfl) (fun x q => ?_)
    (fun x => Table.open_set_map _)
  rw [Table.change, isAt_set]
  constructor
  · rintro (⟨rfl, rfl, y, hy, harmed⟩ | ⟨-, hq⟩)
    · obtain ⟨e, he, rfl⟩ := Option.map_eq_some_iff.mp hy
      exact ⟨e, he, harmed⟩
    · exact hq
  · intro hq
    by_cases hself : x = fd ∧ q = .armed
    · obtain ⟨rfl, rfl⟩ := hself
      obtain ⟨e, he, harmed⟩ := hq
      exact .inl ⟨rfl, rfl, e.notify, by rw [he]; rfl, harmed⟩
    · exact .inr ⟨not_and_or.mp hself, hq⟩

/-! ## The steps of `main` -/

/-- The connections with an event in the batch. -/
def Within (s : Server) (batch : List Delivered) (fd : Int) : Prop :=
  fd ≠ s.listenfd ∧ fd ∈ batch.map Delivered.fd

instance (batch : List Delivered) : DecidablePred (Within s batch) := fun _ =>
  inferInstanceAs (Decidable (_ ∧ _))

/-- A connection with an event is armed before the batch is returned. -/
theorem Within.armed {batch : List Delivered} (hx : Within s batch x)
    (hrep : ∀ d ∈ batch, s.Reported d) : IsAt s x .armed := by
  obtain ⟨hne, hmem⟩ := hx
  obtain ⟨d, hd, rfl⟩ := List.mem_map.mp hmem
  rcases hrep d hd with heq | ⟨e, he, harmed, -⟩
  · exact absurd heq hne
  · exact ⟨e, he, harmed⟩

/-- A batch is returned. -/
theorem Owned.deliver (h : Owned s owner) {batch : List Delivered} (hempty : s.batch = [])
    (hnodup : (batch.map Delivered.fd).Nodup) (hrep : ∀ d ∈ batch, s.Reported d) :
    Keeps s owner careful (s.deliver batch) := by
  have hplaces : Placed (IsAt (s.deliver batch)) (fun x => if Within s batch x then some .delivered else owner x) := by
    refine h.places.gather (Within s batch) .delivered (fun x q hx => ?_) (fun x q hx => ?_)
    · have hself : ∀ q, IsAt s x q ↔ q = .armed := fun q => h.at_iff (hx.armed hrep)
      cases q with
      | armed =>
        refine ⟨?_, nofun⟩
        rintro ⟨e, he, harmed⟩
        replace he : (if x ∈ batch.map Delivered.fd then _ else _) = some e := he
        rw [if_pos hx.2] at he
        obtain ⟨-, -, rfl⟩ := Option.map_eq_some_iff.mp he
        cases harmed
      | delivered => exact ⟨fun _ => rfl, fun _ => hx⟩
      | served u =>
        refine ⟨fun hq => ?_, nofun⟩
        cases (hself (.served u)).mp hq
    · cases q with
      | armed =>
        by_cases hl : x = s.listenfd
        · have hnone := h.registered.entries_none (hl ▸ h.listening)
          simp [IsAt, Server.deliver, Table.report, hnone]
        · have hout : x ∉ batch.map Delivered.fd := fun hmem => hx ⟨hl, hmem⟩
          simp only [IsAt, Server.deliver, Table.report, if_neg hout]
      | delivered =>
        refine ⟨fun hq => absurd hq hx, fun hq => ?_⟩
        have hmem := hq.2
        rw [hempty] at hmem
        cases hmem
      | served u =>
        have hconn : ∀ w, connection (s.deliver batch) w = connection s w := fun w => by cases w <;> rfl
        simp only [IsAt, hconn]
        exact Iff.rfl
  refine ⟨_, ⟨h.toTables.deliver hnodup, h.toPassed.congr rfl rfl rfl, hplaces, fun x q hq => ?_⟩,
    fun hc hk x hx => ?_⟩
  · have hplace := (hplaces x q).mp hq
    by_cases hw : Within s batch x
    · exact h.open_of_at x _ (hw.armed hrep)
    · simp only [if_neg hw] at hplace
      exact h.open_of_at x q ((h.places x q).mpr hplace)
  · by_cases hw : Within s batch x
    · simp only [if_pos hw]
      nofun
    · simp only [if_neg hw]
      exact hk x hx

/-- The places when `main` takes the next event. -/
theorem Owned.rest_iff (h : Owned s owner) {d : Delivered} {rest : List Delivered}
    (hb : s.batch = d :: rest) :
    IsAt { s with batch := rest } x q ↔ IsAt s x q ∧ (x = d.fd → x ≠ s.listenfd → q ≠ .delivered) := by
  have hnodup := h.nodup
  rw [hb, List.map_cons, List.nodup_cons] at hnodup
  cases q with
  | delivered =>
    simp only [IsAt, hb, List.map_cons, List.mem_cons]
    constructor
    · rintro ⟨hne, hx⟩
      refine ⟨⟨hne, .inr hx⟩, ?_⟩
      rintro rfl
      exact absurd hx hnodup.1
    · rintro ⟨⟨hne, hx⟩, hd⟩
      exact ⟨hne, hx.resolve_left fun heq => hd heq hne rfl⟩
  | armed => simp [IsAt]
  | served t =>
    have hconn : ∀ w, connection { s with batch := rest } w = connection s w := fun w => by cases w <;> rfl
    simp [IsAt, hconn]

/-- The next event is one of the listening socket. -/
theorem Owned.accept (h : Owned s owner) {d : Delivered} {rest : List Delivered}
    (hb : s.batch = d :: rest) (hd : d.fd = s.listenfd) {accepted : Option (Int × Stream)}
    (hnew : ∀ a ∈ accepted, a.1 ≠ s.listenfd ∧ s.table.streams a.1 = none) :
    Keeps s owner careful ({ s with batch := rest }.accept accepted).1 := by
  have hrest : ∀ x q, IsAt { s with batch := rest } x q ↔ IsAt s x q := by
    intro x q
    rw [h.rest_iff hb]
    exact ⟨And.left, fun hq => ⟨hq, fun hx hne => absurd (hx.trans hd) hne⟩⟩
  cases accepted with
  | none =>
    exact h.same (h.toTables.rest hb) (h.toPassed.congr rfl rfl rfl) hrest fun x => Iff.rfl
  | some a =>
    obtain ⟨hne, hfree⟩ := hnew a rfl
    refine h.put a.1 ((h.toTables.rest hb).addfd hne) (h.toPassed.congr rfl rfl rfl) (some .armed)
      (fun x q => ?_) (fun x hx => Table.open_set_of_ne hx)
      (fun _ => ⟨a.2, Table.streams_set_self⟩) fun _ _ => nofun
    rw [Server.accept, Server.addfd, Table.add, isAt_set, hrest]
    constructor
    · rintro (⟨rfl, rfl, -⟩ | ⟨-, hq⟩)
      · exact .inr ⟨rfl, rfl⟩
      · refine .inl ⟨?_, hq⟩
        rintro rfl
        exact h.not_at hfree hq
    · rintro (⟨hx, hq⟩ | ⟨rfl, hq⟩)
      · exact .inr ⟨.inl hx, hq⟩
      · exact .inl ⟨rfl, (Option.some.inj hq).symm, _, rfl, rfl⟩

/-- The workers after one was created. -/
theorem getElem?_append_created (ws : List Worker) (n u : Nat) :
    (ws ++ [.created n])[u]? = if u = ws.length then some (.created n) else ws[u]? := by
  by_cases hu : u = ws.length
  · rw [if_pos hu, hu, List.getElem?_concat_length]
  · rw [if_neg hu]
    rcases lt_or_gt_of_ne hu with hlt | hgt
    · rw [List.getElem?_append_left hlt]
    · rw [List.getElem?_append_right hgt.le, List.getElem?_eq_none (by simp; omega),
        List.getElem?_eq_none hgt.le]

/-- The connection of a worker that has read its argument does not depend on the variable. -/
theorem connection_of_read (harg : w.arg = none) : connection s w = connection s' w := by
  cases w with
  | created n => cases harg
  | _ => rfl

/-- The places after the branch for `EPOLLIN`, when every worker has read its argument. -/
theorem isAt_startWorker (hread : ∀ w ∈ s.workers, w.arg = none) (created : Bool) :
    IsAt (s.startWorker fd created) x q ↔
      IsAt s x q ∨ (created = true ∧ x = fd ∧ q = .served s.workers.length) := by
  have hold : ∀ (u : Nat) w, s.workers[u]? = some w →
      connection (s.startWorker fd created) w = connection s w :=
    fun u w hw => connection_of_read (hread w (List.mem_of_getElem? hw))
  have hnew : connection (s.startWorker fd created) (.created s.objects) = some fd := by
    rw [connection, Server.argument, Server.startWorker]
    simp
  cases q with
  | armed => simp [IsAt, Server.startWorker]
  | delivered => simp [IsAt, Server.startWorker]
  | served u =>
    have hsame : (∃ w, s.workers[u]? = some w ∧ connection (s.startWorker fd created) w = some x) ↔
        ∃ w, s.workers[u]? = some w ∧ connection s w = some x := by
      refine exists_congr fun w => and_congr_right fun hw => ?_
      rw [hold u w hw]
    cases created with
    | false =>
      refine hsame.trans ⟨.inl, fun hq => hq.resolve_right ?_⟩
      simp
    | true =>
      have hworkers : (s.startWorker fd true).workers = s.workers ++ [.created s.objects] := rfl
      simp only [IsAt, hworkers, getElem?_append_created]
      by_cases hu : u = s.workers.length
      · rw [if_pos hu]
        simp [hu, hnew, eq_comm]
      · rw [if_neg hu]
        simpa [hu] using hsame

/-- The next event is one of a connection. -/
theorem Owned.event (h : Owned s owner) {d : Delivered} {rest : List Delivered}
    (hb : s.batch = d :: rest) (hd : d.fd ≠ s.listenfd) (hout : s.fdsForNewWorker = none)
    {created : Bool} (hcareful : careful → d.epollin = true ∧ created = true) :
    Keeps s owner careful (if d.epollin = true then { s with batch := rest }.startWorker d.fd created
      else { s with batch := rest }) := by
  have hat : IsAt s d.fd .delivered := by
    refine ⟨hd, ?_⟩
    rw [hb]
    exact List.mem_cons_self
  have hrest : ∀ x q, IsAt { s with batch := rest } x q ↔ x ≠ d.fd ∧ IsAt s x q := by
    intro x q
    rw [h.rest_iff hb]
    constructor
    · rintro ⟨hq, hx⟩
      refine ⟨?_, hq⟩
      rintro rfl
      exact hx rfl hd ((h.at_iff hat).mp hq)
    · rintro ⟨hx, hq⟩
      exact ⟨hq, fun heq => absurd heq hx⟩
  have hpass : Passed { s with batch := rest } := h.toPassed.congr rfl rfl rfl
  by_cases hin : d.epollin = true
  · rw [if_pos hin]
    refine h.put d.fd ((h.toTables.rest hb).startWorker created) (hpass.startWorker hout created)
      (if created then some (.served s.workers.length) else none) (fun x q => ?_)
      (fun x hx => Iff.rfl) (fun _ => h.open_of_at _ _ hat) (fun hc _ => ?_)
    · rw [isAt_startWorker (s := { s with batch := rest }) (hpass.all_read hout), hrest]
      cases created with
      | false => simp
      | true => simp [eq_comm]
    · rw [(hcareful hc).2]
      nofun
  · rw [if_neg hin]
    refine h.put d.fd (h.toTables.rest hb) hpass none (fun x q => ?_) (fun x hx => Iff.rfl)
      (fun hne => absurd rfl hne) fun hc => absurd (hcareful hc).1 hin
    rw [hrest]
    simp

/-- `main` leaves the block when every worker has read its argument. -/
theorem Owned.leave (h : Owned s owner) (hread : ∀ w ∈ s.workers, w.arg = none) :
    Keeps s owner careful { s with fdsForNewWorker := none } := by
  refine h.same h.toTables.leave (h.toPassed.leave hread) (fun x q => ?_) (fun x => Iff.rfl)
  cases q with
  | armed => exact Iff.rfl
  | delivered => exact Iff.rfl
  | served t =>
    refine exists_congr fun w => and_congr_right fun hw => ?_
    have hsame : connection { s with fdsForNewWorker := none } w = connection s w :=
      connection_of_read (hread w (List.mem_of_getElem? hw))
    rw [hsame]

/-- A worker reads a field of its argument. -/
theorem Owned.readArgument (h : Owned s owner) {n : Nat} (hw : s.workers[t]? = some w)
    (harg : w.arg = some n) (r : RecvResult) (stray : Int) :
    Keeps s owner careful (s.work t r stray w).1 := by
  have hmem := List.mem_of_getElem? hw
  cases w with
  | created m =>
    obtain rfl := Option.some.inj harg
    obtain ⟨v, hv⟩ := h.reading _ hmem m rfl
    refine h.goOn hw ?_ (fun _ => id) nofun
    rw [Server.load, hv]
    exact (congrArg (Option.map Fds.sockfd) hv).symm
  | begun m fd =>
    obtain rfl := Option.some.inj harg
    refine h.goOn hw rfl nofun fun e he => ?_
    obtain rfl := Option.some.inj he
    exact h.load hmem rfl stray
  | _ => cases harg

/-- Every step keeps the places apart, if it is prompt, and loses no connection, if it is
careful. -/
theorem step_owned (h : Owned s owner) (hs : Step s a s') (hprompt : Prompt s a) :
    Keeps s owner (Careful s a) s' := by
  obtain ⟨henabled, rfl⟩ := hs
  cases a with
  | arrive fd data => exact h.change _
  | shutdown fd => exact h.change _
  | wait batch =>
    obtain ⟨-, hempty, -, -, hnodup, hrep⟩ := henabled
    exact h.deliver hempty hnodup hrep
  | handle accepted created =>
    obtain ⟨hout, hne, hnew⟩ := henabled
    cases hb : s.batch with
    | nil => exact absurd hb hne
    | cons d rest =>
      have hhead : s.batch.head? = some d := by rw [hb]; rfl
      simp only [Server.perform, hb, Server.handle]
      by_cases hd : d.fd = s.listenfd
      · rw [if_pos hd]
        exact h.accept hb hd fun a ha => ⟨(hnew a ha).1, (hnew a ha).2.2⟩
      · rw [if_neg hd]
        have hevent : Keeps s owner (Careful s (.handle accepted created)) (if d.epollin = true then
            { s with batch := rest }.startWorker d.fd created else { s with batch := rest }) :=
          h.event hb hd hout fun hc => (hc d hhead).resolve_left hd
        split
        · rwa [if_pos ‹_›] at hevent
        · rwa [if_neg ‹_›] at hevent
  | leave => exact h.leave hprompt
  | work t r stray =>
    obtain ⟨w, hw, hcan⟩ := henabled
    replace hw : s.workers[t]? = some w := hw
    have hread : ∀ e, w.epollfd = some e → e = s.epollfd := h.read w (List.mem_of_getElem? hw)
    simp only [Server.perform, hw]
    cases w with
    | created n => exact h.readArgument hw rfl r stray
    | begun n fd => exact h.readArgument hw rfl r stray
    | receiving fd e buf =>
      cases r with
      | data chunk => exact h.receive hw _
      | zero => exact h.goOn hw rfl nofun nofun
      | eagain => exact h.goOn hw rfl nofun hread
      | error => exact h.same h.toTables h.toPassed (fun _ _ => Iff.rfl) fun _ => Iff.rfl
    | printing fd e buf => exact h.goOn hw rfl nofun hread
    | closing fd => exact h.close hw
    | resetting fd e => exact h.reset hw
    | ended => exact hcan.elim

/-- Before the loop no connection is open. -/
theorem owned_start (listenfd epollfd : Int) : Owned (start listenfd epollfd) fun _ => none := by
  have hnone : ∀ fd p, ¬ IsAt (start listenfd epollfd) fd p := by
    intro fd p hp
    cases p with
    | armed =>
      obtain ⟨e, he, -⟩ := hp
      cases he
    | delivered => cases hp.2
    | served t =>
      obtain ⟨w, hw, -⟩ := hp
      cases hw
  exact ⟨tables_start listenfd epollfd, passed_start listenfd epollfd,
    fun fd p => ⟨fun hp => absurd hp (hnone fd p), nofun⟩, fun fd p hp => absurd hp (hnone fd p)⟩

/-- In every prompt run the places exclude one another. -/
theorem run_owned {listenfd epollfd : Int} (h : Run Step Prompt (start listenfd epollfd) s) :
    ∃ owner, Owned s owner := by
  apply h.invariant (I := fun s => ∃ owner, Owned s owner) ⟨_, owned_start listenfd epollfd⟩
  rintro s a s' ⟨owner, howned⟩ hs hprompt
  obtain ⟨owner', howned', -⟩ := step_owned howned hs hprompt
  exact ⟨owner', howned'⟩

/-- In every careful run no connection is lost. -/
theorem run_kept {listenfd epollfd : Int} (h : Run Step Careful (start listenfd epollfd) s) :
    ∃ owner, Owned s owner ∧ Kept s owner := by
  apply h.invariant (I := fun s => ∃ owner, Owned s owner ∧ Kept s owner)
  · refine ⟨_, owned_start listenfd epollfd, fun fd ho => ?_⟩
    obtain ⟨k, hk⟩ := ho
    cases hk
  · rintro s a s' ⟨owner, howned, hkept⟩ hs hcareful
    obtain ⟨owner', howned', hkeeps⟩ := step_owned howned hs hcareful.prompt
    exact ⟨owner', howned', hkeeps hcareful hkept⟩

end Places

end ServerListings.Interface.OneShot
