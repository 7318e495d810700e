import ServerListings.Analysis.DefinedRuns
import ServerListings.Interface.StrayRequests

/-!
# Which connections are forgotten

The entry of a connection in the epoll table is disarmed when its event is delivered. If
`append` refuses the connection after that, `main` neither arms nor closes it, and nothing
else ever finds it. While no access leaves its array, this is the only way in which a connection
is lost; a body length that makes `parse_content` store into `m_sockfd` is another one.
-/

set_option autoImplicit false

namespace ServerListings.Analysis.ForgottenConnection

open Lib.CMem Lib.Transition ServerListings.Model ServerListings.Model.Http ServerListings.Model.WebServer
  ServerListings.Interface ServerListings.Analysis.DefinedRuns

/-- Every open connection is at a place. -/
def Kept {W : Type} (s : Server W) : Prop := ∀ fd, Open s fd → ∃ p, IsAt s fd p

section Steps

variable {W : Type} [DecidableEq W] {s₀ s s' : Server W} {owner : Int → Option (Place W)}
  {a : Action W} {fd : Int}

/-- The step stays inside the arrays, and `append` refuses nothing in it. -/
def Kind (s : Server W) (a : Action W) : Prop := s.Defined a ∧ Unrefused s a

/-- The invariant, and every open connection has an owner. -/
def Complete (s : Server W) (owner : Int → Option (Place W)) : Prop :=
  Owned s owner ∧ ∀ fd, Open s fd → owner fd ≠ none

omit [DecidableEq W] in
/-- A complete table keeps every connection. -/
theorem Complete.kept (h : Complete s owner) : Kept s := by
  intro fd ho
  obtain ⟨p, hp⟩ := Option.ne_none_iff_exists'.mp (h.2 fd ho)
  exact ⟨p, (h.1.places fd p).mpr hp⟩

/-- A step that refuses nothing forgets nothing. -/
theorem step_complete (h : Complete s owner) (hs : Step s a s') (ha : Unrefused s a) :
    ∃ owner', Complete s' owner' := by
  obtain ⟨owner', howned, hlost⟩ := step_owned h.1 hs
  refine ⟨owner', howned, fun fd ho hnone => ?_⟩
  rcases hlost fd ho hnone with ⟨hopen, hbefore⟩ | hrefused
  · exact h.2 fd hopen hbefore
  · exact ha fd hrefused

/-- While nothing is refused every open connection has its place. -/
theorem run_complete (hinit : Initial s₀) (hrun : Run Step Unrefused s₀ s) :
    ∃ owner, Complete s owner := by
  apply hrun.invariant (I := fun s => ∃ owner, Complete s owner)
  · exact ⟨_, owned_initial hinit, fun fd ho => absurd ho (hinit.clients fd)⟩
  · rintro s a s' ⟨owner, hcomplete⟩ hs ha
    exact step_complete hcomplete hs ha

/-- A connection that `append` refuses is open, and at no place. -/
theorem refused_forgotten (h : Owned s owner) (hs : Step s a s') (hr : Refused s a fd) :
    Open s' fd ∧ ∀ p, ¬ IsAt s' fd p := by
  obtain ⟨d, input, c, rfl, rfl, hne, hclosing, hreadable, hread, hfull⟩ := hr
  cases hs with
  | handle _ rest _ hp _ hok =>
    obtain ⟨ho, hnext⟩ := h.nextEvent hp hne
    have hc : c.mSockfd = d.fd := read_socket input.recvs (h.socket _ ho).1 _ hread
    have hdone : Server.handleEvent { s with pending := rest } input d =
        .ok (({ s with pending := rest } : Server W).setUser d.fd c []) := by
      rw [Server.handleEvent, if_neg hne, hclosing, hreadable]
      refine (readClient_eq (s := { s with pending := rest }) hread).trans ?_
      rw [append_full (by exact hfull)]
    obtain rfl := result_unique hok hdone
    exact ⟨ho, (hnext.setConn hc).places.not_rel (Function.update_self ..)⟩

/-- No connection is forgotten in a run whose turns are defined and in which `append` refuses no
request. A step that refuses one after such a run forgets it. -/
theorem kept_of_unrefused (hinit : Initial s₀) (hrun : Run Turn Kind s₀ s) :
    Kept s ∧ ∀ a s' fd, Step s a s' → Refused s a fd → Open s' fd ∧ ∀ p, ¬ IsAt s' fd p := by
  have hsteps := (run_defined (fun _ _ h => h.1) hinit hrun).1
  obtain ⟨owner, hcomplete⟩ := run_complete hinit (hsteps.mono fun _ _ h => h.2)
  exact ⟨hcomplete.kept, fun a s' fd => refused_forgotten hcomplete.1⟩

end Steps

/-- A client connects to the server and sends a byte: `main` is told of the byte. -/
theorem kept_of_unrefused_arrived :
    Open (arrived (Server.start fun _ => default) 5) 5 ∧ Kept (arrived (Server.start fun _ => default) 5) :=
  ⟨rfl, (kept_of_unrefused (initial_start _) ((run_arrived_defined (ready_start _) (by omega)).embed
    fun _ _ _ => .step _)).1⟩

/-! ## The queue at its limit -/

section Crowd

variable (users : Int → HttpConn)

/-- Clients that send a byte while no worker takes a request fill the queue, until it is over
its limit. -/
theorem run_crowd (n : Nat) (hn : n ≤ defaultMaxRequests + 1) :
    ∃ s, Run Step Unrefused (Server.start users) s ∧ Ready n s ∧
      s.maxRequests = defaultMaxRequests ∧ s.queue.length = n := by
  induction n with
  | zero => exact ⟨_, .refl, ready_start users, rfl, rfl⟩
  | succ n ih =>
    obtain ⟨s, hrun, hready, hmax, hlen⟩ := ih (by omega)
    have hlimit : defaultMaxRequests = 10000 := rfl
    obtain ⟨s', hrun', hready', hmax', hlen'⟩ := run_queued hready (by omega) (by omega)
    exact ⟨s', hrun.trans hrun', hready', hmax'.trans hmax, by omega⟩

end Crowd

/-- The server with its default limit of 10000 requests forgets the connection of the client
that comes after 10001 others. -/
theorem kept_not_always : ¬ ∀ s₀ s : Server (Fin defaultThreadNumber),
    Initial s₀ → Run Turn (fun _ _ => True) s₀ s → Kept s := by
  intro hkept
  let s₀ := Server.start fun _ => default
  obtain ⟨s, hrun, hready, hmax, hlen⟩ := run_crowd (fun _ => default) (defaultMaxRequests + 1) le_rfl
  have hlimit : defaultMaxRequests = 10000 := rfl
  obtain ⟨a, s', hstep, hrefused⟩ := step_refused hready (by omega)
  have hlater : Run Step Unrefused s₀ _ := hrun.trans (run_arrived hready (by omega))
  have hall : Run Step (fun _ _ => True) s₀ s' :=
    (hlater.mono fun _ _ _ => trivial).step hstep trivial
  obtain ⟨owner, howned⟩ := run_owned ⟨_, owned_initial (initial_start _)⟩ hlater
  obtain ⟨ho, hnowhere⟩ := refused_forgotten howned hstep hrefused
  obtain ⟨p, hp⟩ := hkept s₀ s' (initial_start _) (hall.embed fun _ _ _ => .step _) _ ho
  exact hnowhere p hp

/-- Also without a refusal: the first client sends a body length of -59, and its connection is
never armed again. -/
theorem stray_forgets : ∃ (s : Server (Fin defaultThreadNumber)) (a : Action (Fin defaultThreadNumber))
    (s' : Server (Fin defaultThreadNumber)), Run Step (fun _ _ => True) (Server.start fun _ => default) s ∧
      Turn s a s' ∧ Unrefused s a ∧ Open s' 5 ∧ ∀ p, ¬ IsAt s' 5 p := by
  obtain ⟨s, c', hrun, hturn, -, hopen, hzero, hepoll, hpending, hqueue, hworking, -⟩ :=
    exists_strayRequest
  refine ⟨s, _, _, hrun, hturn, ?_, ?_⟩
  · rintro fd ⟨d, input, c, ⟨⟩, -⟩
  · rw [strayed_unregistered hzero]
    refine ⟨hopen, fun p hp => ?_⟩
    cases p with
    | armed =>
      obtain ⟨i, hi⟩ := hp
      cases hepoll.symm.trans hi
    | delivered =>
      have hmem : (5 : Int) ∈ s.pending.map Delivered.fd := hp.2
      rw [hpending] at hmem
      cases hmem
    | queued =>
      have hmem : (5 : Int) ∈ s.queue := hp
      rw [hqueue] at hmem
      cases hmem
    | taken w =>
      have hw : Function.update s.working 0 none w = some 5 := hp
      by_cases hzero : w = 0
      · rw [hzero, Function.update_self] at hw
        cases hw
      · rw [Function.update_of_ne hzero] at hw
        exact hzero ((hworking w).mp hw)

end ServerListings.Analysis.ForgottenConnection
