import ServerListings.Interface.RecvLoop
import ServerListings.Lib.Transition
import ServerListings.Model.EtLt

/-!
# The steps of the two workflows

A level-triggered connection stays in the ready list, so one `recv` for each event is enough. An
edge-triggered one leaves the list, and the loop of `et` receives everything. So in both no
connection is forgotten that can be read (`Watching`), and what has arrived was received or is
still there.
-/

set_option autoImplicit false

namespace ServerListings.Interface.EtLt

open Lib.CMem Lib.Readiness Lib.Transition ServerListings.Model ServerListings.Model.EtLt
open ServerListings.Interface.RecvLoop

section Workflows

variable {w : Workflow} {T : Table Int} {fd x : Int} {results : List Recv} {b b' : Int → Prop}
  {log : List (Traffic Int)}

def traffic : Happening → Option (Traffic Int)
  | .traffic t => some t
  | .printed _ _ => none

/-- Each chunk is seen as received. -/
theorem got_traffic (chunk : List UInt8) (v : Unit) :
    (got fd chunk v).filterMap traffic = [.received fd chunk] := rfl

/-- The results of the calls of `recv`, without what is done with them. -/
theorem map_fst (results : List Recv) : (results.map fun r => (r, ())).map Prod.fst = results := by
  rw [List.map_map]
  exact List.map_id _

/-- The streams that are relied on to be handled. A level-triggered one is reported again. -/
def Relied (w : Workflow) (batch : List (Report Int)) (x : Int) : Prop := w = .et ∧ Due batch x

/-- A workflow leaves nothing in a connection of which it is relied on to handle it. -/
theorem recv_edge (hfits : w.Fits fd T results) (h : T.Edge b) (hlt : w = .lt → ∀ y, b y → b' y)
    (hb : ∀ y, y ≠ fd → b y → b' y) : (w.recv fd T results).1.Edge b' := by
  cases w with
  | et => exact recvLoop_edge _ T (by rwa [map_fst]) h hb
  | lt =>
    obtain ⟨r, rfl⟩ := List.length_eq_one_iff.mp hfits.1
    cases r with
    | data chunk => exact (h.receive chunk.length).mono (hlt rfl)
    | again => exact h.remove hb
    | ended => exact h.remove hb
    | failed => exact h.remove hb

/-- Other connections are left alone. -/
theorem recv_streams_of_ne (hfits : w.Fits fd T results) (hx : x ≠ fd) :
    (w.recv fd T results).1.streams x = T.streams x := by
  cases w with
  | et => exact recvLoop_streams_of_ne hx _ T
  | lt =>
    obtain ⟨r, rfl⟩ := List.length_eq_one_iff.mp hfits.1
    cases r <;> exact Table.streams_set_of_ne hx

/-- A connection that is open after the calls was open before. -/
theorem recv_open (hfits : w.Fits fd T results) (hopen : (w.recv fd T results).1.Open fd) :
    T.Open fd := by
  cases w with
  | et => exact recvLoop_open _ T hopen
  | lt =>
    obtain ⟨r, rfl⟩ := List.length_eq_one_iff.mp hfits.1
    cases r with
    | data chunk => exact (Table.open_set_map _).mp hopen
    | again => exact absurd hopen Table.not_open_remove
    | ended => exact absurd hopen Table.not_open_remove
    | failed => exact absurd hopen Table.not_open_remove

/-- What is received is accounted for. -/
theorem recv_tracked (hfits : w.Fits fd T results) (h : Tracked log T) :
    Tracked (log ++ (w.recv fd T results).2.filterMap traffic) (w.recv fd T results).1 := by
  cases w with
  | et => exact recvLoop_tracked got_traffic _ T log (by rwa [map_fst]) h
  | lt =>
    obtain ⟨r, rfl⟩ := List.length_eq_one_iff.mp hfits.1
    have hreturns := hfits.2 r List.mem_cons_self
    cases r with
    | data chunk => exact h.receive hreturns.prefix_of_data
    | again => exact (List.append_nil log).symm ▸ h.remove fd
    | ended => exact (List.append_nil log).symm ▸ h.remove fd
    | failed => exact (List.append_nil log).symm ▸ h.remove fd

/-- If nothing fails, a connection that can be read is only closed when its client has closed it
and nothing is left. -/
theorem recv_complete (hfits : w.Fits fd T results) (hfails : fails results = false)
    (hread : ∀ k, T.streams fd = some k → k.readable = true) (htracked : Tracked log T)
    (h : Complete log T) :
    Complete (log ++ (w.recv fd T results).2.filterMap traffic) (w.recv fd T results).1 := by
  cases w with
  | et => exact recvLoop_complete got_traffic _ T log (by rwa [map_fst]) (by rwa [map_fst]) htracked h
  | lt =>
    obtain ⟨r, rfl⟩ := List.length_eq_one_iff.mp hfits.1
    have hreturns := hfits.2 r List.mem_cons_self
    cases r with
    | data chunk => exact h.receive hreturns.open_of_data chunk
    | again =>
      obtain ⟨k, hk, hinbox, hclosed⟩ := hreturns
      have hnot := Stream.readable_eq_false.mpr ⟨hinbox, hclosed⟩
      rw [hread k hk] at hnot
      cases hnot
    | ended =>
      obtain ⟨k, hk, hinbox, hclosed⟩ := hreturns
      exact (List.append_nil log).symm ▸ h.remove htracked hk hinbox hclosed
    | failed => cases hfails

end Workflows

/-! ## Runs -/

section Runs

variable {s s' : Server} {a : Action} {d : Report Int} {rest : List (Report Int)} {log : List Happening}
  {w : Workflow} {listenfd : Int}

/-- No connection is forgotten that can be read. -/
def Watching (s : Server) : Prop :=
  Watched (· = s.listenfd) s.table s.batch (Relied s.workflow s.batch)

/-- Before the loop there are no connections. -/
theorem watching_start : Watching (start w listenfd) := watched_empty

/-- A batch is returned. -/
theorem Watching.deliver (h : Watching s) {batch : List (Report Int)} (hempty : s.batch = [])
    (hnodup : (batch.map Report.fd).Nodup) (hrep : ∀ d ∈ batch, s.Reported d) :
    Watching (s.deliver batch) := by
  have hfound : ∀ d ∈ batch, d.fd = s.listenfd ∨
      ∃ k, s.table.streams d.fd = some k ∧ d.readable = k.readable := by
    intro d hd
    rcases hrep d hd with ⟨hl, -⟩ | ⟨e, -, k, hk, hread, -⟩
    · exact .inl hl
    · exact .inr ⟨k, hk, hread⟩
  rw [Watching, hempty] at h
  show Watched _ (s.workflow.report s.table (batch.map Report.fd)) batch (Relied s.workflow batch)
  cases hw : s.workflow with
  | lt =>
    rw [hw] at h
    exact h.report (h.edge.mono fun x hx => by cases hx.1) rfl hnodup hfound
  | et =>
    have hdue : Watched (· = s.listenfd) s.table [] (Due []) :=
      ⟨h.edge.mono fun _ hx => hx.2, h.apart, h.nodup, h.opened, h.readable⟩
    exact h.report ((edge_report hdue hfound).mono fun _ hx => ⟨rfl, hx⟩) rfl hnodup hfound

/-- An event that is no wake-up is not relied on. -/
theorem relied_rest {y : Int} (hy : y = d.fd → d.readable = false) (h : Relied w (d :: rest) y) :
    Relied w rest y := ⟨h.1, due_rest hy h.2⟩

/-- A connection is handled. -/
theorem Watching.recv (h : Watching s) (hb : s.batch = d :: rest) {results : List Recv}
    (hfits : s.workflow.Fits d.fd s.table results) :
    Watching { s with batch := rest, table := (s.workflow.recv d.fd s.table results).1 } := by
  rw [Watching, hb] at h
  refine h.finish (recv_edge hfits h.edge ?_ ?_) (fun _ => recv_streams_of_ne hfits) (recv_open hfits)
  · rintro hlt y ⟨het, -⟩
    rw [hlt] at het
    cases het
  · exact fun y hy => relied_rest fun heq => absurd heq hy

/-- What handling a report is. -/
inductive Handles (s : Server) (d : Report Int) (rest : List (Report Int)) (accepted : Option (Int × Stream))
    (results : List Recv) : Server × List Happening → Prop
  | listening (h : d.fd = s.listenfd) :
      Handles s d rest accepted results ({ s with batch := rest }.accept accepted)
  | connection (hne : d.fd ≠ s.listenfd) (hread : d.readable = true)
      (hfits : s.workflow.Fits d.fd s.table results) :
      Handles s d rest accepted results
        ({ s with batch := rest, table := (s.workflow.recv d.fd s.table results).1 },
          (s.workflow.recv d.fd s.table results).2)
  | nothing (hne : d.fd ≠ s.listenfd) (h : d.readable = false) :
      Handles s d rest accepted results ({ s with batch := rest }, [])

/-- The branches for an event. -/
theorem handles {accepted : Option (Int × Stream)} {results : List Recv} (hb : s.batch = d :: rest)
    (ha : s.Enabled (.handle accepted results)) :
    Handles s d rest accepted results ({ s with batch := rest }.serve d accepted results) := by
  obtain ⟨d', hd', -, hfits⟩ := ha
  obtain rfl : d = d' := by
    rw [hb] at hd'
    exact Option.some.inj hd'
  rw [Server.serve]
  by_cases hl : d.fd = s.listenfd
  · rw [if_pos hl]
    exact .listening hl
  · rw [if_neg hl]
    cases hin : d.readable with
    | false => exact .nothing hl hin
    | true => exact .connection hl hin (hfits hl hin)

/-- There is an event to handle. -/
theorem exists_next {accepted : Option (Int × Stream)} {results : List Recv}
    (ha : s.Enabled (.handle accepted results)) : ∃ d rest, s.batch = d :: rest := by
  obtain ⟨d, hd, -⟩ := ha
  exact ⟨d, s.batch.tail, (List.cons_head?_tail hd).symm⟩

/-- Every step keeps the connections watched. -/
theorem Watching.step (h : Watching s) (hs : Step s a s') : Watching s' := by
  obtain ⟨henabled, rfl⟩ := hs
  cases a with
  | connect => exact h
  | fail => exact h
  | arrive fd data => exact Watched.arrive h fd data
  | shutdown fd => exact Watched.hangUp h fd
  | wait batch =>
    obtain ⟨-, hempty, -, -, hnodup, hrep⟩ := henabled
    exact h.deliver hempty hnodup hrep
  | handle accepted results =>
    obtain ⟨d, rest, hb⟩ := exists_next henabled
    have hnew := henabled
    obtain ⟨-, -, hnew, -⟩ := hnew
    simp only [Server.perform, hb]
    have hhandles := handles hb henabled
    generalize ({ s with batch := rest } : Server).serve d accepted results = after at hhandles ⊢
    have hnext : (s.table.Open d.fd → d.readable = false) → Watching { s with batch := rest } := by
      intro hd
      rw [Watching, hb] at h
      exact h.next hd fun _ => relied_rest
    cases hhandles with
    | listening hl =>
      have hrest := hnext fun ho => absurd ho (Watched.apart h d.fd hl)
      cases accepted with
      | none => exact hrest
      | some y =>
        obtain ⟨-, hne, hnone⟩ := hnew y rfl
        exact Watched.add hrest hne hnone y.2
    | connection hne hread hfits => exact h.recv hb hfits
    | nothing _ hin => exact hnext fun _ => hin

/-! ## What is received -/

def trafficOf (log : List Happening) : List (Traffic Int) := log.filterMap traffic

/-- The traffic of a longer log. -/
theorem trafficOf_append (log es : List Happening) :
    trafficOf (log ++ es) = trafficOf log ++ trafficOf es := List.filterMap_append

/-- Every step keeps the account. -/
theorem tracked_step (h : Tracked (trafficOf log) s.table) (hs : Step s a s') :
    Tracked (trafficOf (log ++ s.happens a)) s'.table := by
  obtain ⟨henabled, rfl⟩ := hs
  rw [trafficOf_append]
  cases a with
  | connect => exact (List.append_nil _).symm ▸ h
  | fail => exact (List.append_nil _).symm ▸ h
  | arrive fd data => exact h.arrive fd data
  | shutdown fd => exact h.hangUp fd
  | wait batch =>
    rw [show trafficOf (s.happens (.wait batch)) = [] from rfl, List.append_nil]
    intro x k hk
    refine h x k (Eq.trans ?_ hk)
    show _ = (s.workflow.report s.table _).streams x
    cases s.workflow <;> rfl
  | handle accepted results =>
    obtain ⟨d, rest, hb⟩ := exists_next henabled
    simp only [Server.happens, Server.perform, hb]
    have hhandles := handles hb henabled
    generalize ({ s with batch := rest } : Server).serve d accepted results = after at hhandles ⊢
    cases hhandles with
    | listening hl =>
      cases accepted with
      | none => exact (List.append_nil _).symm ▸ h
      | some y => exact h.add y.1 y.2
    | connection hne hread hfits => exact recv_tracked hfits h
    | nothing _ hin => exact (List.append_nil _).symm ▸ h

/-- No `recv` on an open connection fails. -/
def Careful (_ : Server) : Action → Prop
  | .handle _ results => fails results = false
  | _ => True

/-- A careful step closes no connection before everything was received. -/
theorem complete_step (h : Complete (trafficOf log) s.table) (hwatching : Watching s)
    (htracked : Tracked (trafficOf log) s.table) (hs : Step s a s') (hcareful : Careful s a) :
    Complete (trafficOf (log ++ s.happens a)) s'.table := by
  obtain ⟨henabled, rfl⟩ := hs
  rw [trafficOf_append]
  cases a with
  | connect => exact (List.append_nil _).symm ▸ h
  | fail => exact (List.append_nil _).symm ▸ h
  | arrive fd data =>
    obtain ⟨-, k, hk, -⟩ := henabled
    exact h.arrive ⟨k, hk⟩ data
  | shutdown fd =>
    obtain ⟨k, hk, -⟩ := henabled
    exact h.hangUp ⟨k, hk⟩
  | wait batch =>
    rw [show trafficOf (s.happens (.wait batch)) = [] from rfl, List.append_nil]
    intro x k hmem hnone
    refine h x k hmem (Eq.trans ?_ hnone)
    show _ = (s.workflow.report s.table _).streams x
    cases s.workflow <;> rfl
  | handle accepted results =>
    obtain ⟨d, rest, hb⟩ := exists_next henabled
    simp only [Server.happens, Server.perform, hb]
    have hhandles := handles hb henabled
    generalize ({ s with batch := rest } : Server).serve d accepted results = after at hhandles ⊢
    cases hhandles with
    | listening hl =>
      cases accepted with
      | none => exact (List.append_nil _).symm ▸ h
      | some y => exact h.add y.1 y.2
    | connection hne hread hfits =>
      refine recv_complete hfits hcareful (Watched.readable hwatching d.fd ?_) htracked h
      rw [Due, hb, ← hread]
      exact List.mem_cons_self
    | nothing _ hin => exact (List.append_nil _).symm ▸ h

/-- What holds in every careful run. -/
structure Kept (log : List Happening) (s : Server) : Prop where
  watching : Watching s
  tracked : Tracked (trafficOf log) s.table
  complete : Complete (trafficOf log) s.table

/-- It holds in every careful run. -/
theorem logged_kept (h : Logged Step Careful Server.happens (start w listenfd) log s) : Kept log s := by
  apply h.invariant (I := Kept)
  · exact ⟨watching_start, tracked_empty, complete_nil⟩
  · intro log s a s' hkept hs hcareful
    exact ⟨hkept.watching.step hs, tracked_step hkept.tracked hs,
      complete_step hkept.complete hkept.watching hkept.tracked hs hcareful⟩

end Runs

end ServerListings.Interface.EtLt
