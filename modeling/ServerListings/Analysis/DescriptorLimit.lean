import ServerListings.Analysis.ServerFiles
import ServerListings.Lib.LeastFree

/-!
# The limit for connections and the limit for descriptors

`main` compares the number of connections with `MAX_FD` and takes the descriptor as an index of
an array with `MAX_FD` elements. The connections share the descriptors with the server itself,
which has some from the start and one for each worker that is between `open` and `close`. So the
next connection is in range as long as the connections and the descriptors of the server are fewer
than `MAX_FD`.
-/

set_option autoImplicit false

namespace ServerListings.Analysis.DescriptorLimit

open Lib.CMem Lib.LeastFree Lib.Transition ServerListings.Model ServerListings.Model.Http
  ServerListings.Model.WebServer ServerListings.Interface ServerListings.Analysis.ServerFiles

section Steps

variable {W : Type} {s s' s₀ : Server W} {owner : Int → Option (Place W)} {fd : Int}

/-- The descriptor is open. -/
def InUse (s : Server W) (fd : Int) : Prop := s.descriptors fd ≠ none

/-- The descriptors below `MAX_FD` that the server has for itself. -/
def ownDescriptors (s : Server W) : Finset Int :=
  ((Finset.range maxFd.toNat).image Int.ofNat).filter fun fd => s.descriptors fd = some .other

/-- The server's own descriptors are those in use that are no client's. -/
theorem mem_ownDescriptors (x : Int) :
    x ∈ ownDescriptors s ↔ (0 ≤ x ∧ x < maxFd) ∧ s.descriptors x = some .other := by
  have hrange : x ∈ (Finset.range maxFd.toNat).image Int.ofNat ↔ 0 ≤ x ∧ x < maxFd := by
    rw [Finset.mem_image]
    constructor
    · rintro ⟨n, hn, rfl⟩
      have hlt := Finset.mem_range.mp hn
      exact ⟨Int.natCast_nonneg n, Int.lt_toNat.mp hlt⟩
    · rintro ⟨hnonneg, hlt⟩
      have hx : Int.ofNat x.toNat = x := Int.toNat_of_nonneg hnonneg
      refine ⟨x.toNat, Finset.mem_range.mpr (Int.lt_toNat.mpr ?_), hx⟩
      rwa [Int.toNat_of_nonneg hnonneg]
  rw [ownDescriptors, Finset.mem_filter, hrange]

/-- `accept` returns the lowest descriptor that is not in use. -/
def LowestAccept (s : Server W) (a : ServerListings.Model.WebServer.Action W) : Prop :=
  ∀ d input connfd, a = .handle d input → d.fd = s.listenfd → input.accepted = some connfd →
    IsLeastFree (InUse s) connfd

/-- The descriptors below `MAX_FD` that are in use. -/
theorem card_inUse {F : Finset Int} (h : Numbered s) (hF : ∀ fd, fd ∈ F ↔ Open s fd) :
    ∃ G : Finset Int, (∀ x, x ∈ G ↔ (0 ≤ x ∧ x < maxFd) ∧ InUse s x) ∧
      G.card = F.card + (ownDescriptors s).card := by
  have hdisjoint : Disjoint F (ownDescriptors s) := by
    rw [Finset.disjoint_left]
    intro x hx hx'
    have hopen := (hF x).mp hx
    rw [Open, ((mem_ownDescriptors x).mp hx').2] at hopen
    cases hopen
  refine ⟨F ∪ ownDescriptors s, fun x => ?_, Finset.card_union_of_disjoint hdisjoint⟩
  rw [Finset.mem_union, hF, mem_ownDescriptors]
  constructor
  · rintro (hopen | ⟨hrange, hother⟩)
    · refine ⟨h.range x hopen, ?_⟩
      rw [InUse, hopen]
      simp
    · refine ⟨hrange, ?_⟩
      rw [InUse, hother]
      simp
  · rintro ⟨hrange, hused⟩
    cases hd : s.descriptors x with
    | none => exact absurd hd hused
    | some d =>
      cases d with
      | client => exact Or.inl hd
      | other => exact Or.inr ⟨hrange, rfl⟩

variable {t : FileServer W} [DecidableEq W]

/-- `accept` and `open` return the lowest descriptor that is not in use. -/
def Lowest (t : FileServer W) : FileAction W → Prop
  | .server a => LowestAccept t.server a
  | .openFile _ _ fd => IsLeastFree (InUse t.server) fd
  | .closeFile _ => True

/-- The objects of all connections that are armed, delivered, queued or taken are in the array, and
the descriptors of the server are those it had from the start and one for each worker that is
between `open` and `close`. The next descriptor that the check of `m_user_count` lets through is an
index of the array exactly if the connections and the descriptors of the server below `MAX_FD` are
fewer than `MAX_FD`. -/
theorem index_in_range_iff (hinit : Initial s₀)
    (hrun : Run FileTurn (fun t a => t.Defined a ∧ Lowest t a) (.start s₀) t) :
    (∀ fd p, IsAt t.server fd p → 0 ≤ fd ∧ fd < maxFd) ∧
      (∀ fd, t.server.descriptors fd = some .other ↔ s₀.descriptors fd = some .other ∨ HasFile t fd) ∧
      ∀ connfd, IsLeastFree (InUse t.server) connfd → t.server.userCount < maxFd →
        ((0 ≤ connfd ∧ connfd < maxFd) ↔
          t.server.userCount + (ownDescriptors t.server).card < maxFd) := by
  have hfiled : Filed s₀ t :=
    hrun.invariant (filed_start hinit) fun _ _ _ h ht hc => h.step hinit ht hc.1
  obtain ⟨owner, howned⟩ := hfiled.numbered.live.owned
  refine ⟨fun fd p hp => hfiled.numbered.range fd (howned.open_of_at fd p hp), hfiled.others, ?_⟩
  intro connfd hleast _
  obtain ⟨log, hcount⟩ := hfiled.numbered.counted
  obtain ⟨F, hF, hcard⟩ := hcount.count
  obtain ⟨G, hG, hsum⟩ := card_inUse hfiled.numbered hF
  have hlt := hleast.lt_iff (by unfold maxFd; omega) hG
  rw [and_iff_right hleast.nonneg, hlt, hsum, hcard]
  push_cast
  exact Iff.rfl

/-- A run in which no worker opens a file. -/
theorem run_noFile {s : Server W}
    (hrun : Run Step (fun s a => s.Defined a ∧ LowestAccept s a) s₀ s) :
    Run FileTurn (fun t a => t.Defined a ∧ Lowest t a) (.start s₀) (.start s) := by
  induction hrun with
  | refl => exact .refl
  | step _ hs hc ih => exact ih.step (.server _ (fun _ _ _ => rfl) (.step _ hs)) hc

end Steps

/-! ## Clients that connect and stay -/

section Crowds

variable {W : Type} {s : Server W} {n : Nat}

/-- The batch is handled, and the first `5 + n` descriptors are those of the server and of `n`
clients. -/
structure Crowd (n : Nat) (s : Server W) : Prop where
  owned : ∃ owner, Owned s owner
  listener : s.epoll s.listenfd = some ⟨some .epollin, false⟩
  pending : s.pending = []
  userCount : s.userCount = n
  inUse : ∀ fd : Int, 0 ≤ fd → (InUse s fd ↔ fd < 5 + n)

/-- With `n` clients the next descriptor is `5 + n`. -/
theorem Crowd.leastFree (h : Crowd n s) : IsLeastFree (InUse s) (5 + n) := by
  refine ⟨by omega, ?_, fun x hpos hlt => (h.inUse x hpos).mpr hlt⟩
  rw [h.inUse (5 + n) (by omega)]
  exact lt_irrefl _

/-- The server starts without clients. -/
theorem crowd_start (users : Int → HttpConn) : Crowd 0 (Server.start users) := by
  refine ⟨⟨_, owned_initial (initial_start users)⟩, rfl, rfl, rfl, fun fd hpos => ?_⟩
  simp only [InUse, Server.start]
  split
  · simp
    omega
  · simp
    omega

/-- `epoll_wait` reports a new client. -/
def calling (s : Server W) : Server W := s.deliver [readable s.listenfd]

variable [DecidableEq W]

/-- The listening socket can be reported to a crowd. -/
theorem Crowd.step_calling (h : Crowd n s) : Step s (.wait [readable s.listenfd]) (calling s) :=
  wait_readable h.pending h.listener

/-- The client is accepted. -/
theorem Crowd.next (h : Crowd n s) (hn : n + 5 < 65536) :
    ∃ s', Run Step (fun s a => s.Defined a ∧ LowestAccept s a) s s' ∧ Crowd (n + 1) s' := by
  obtain ⟨owner, howned⟩ := h.owned
  have hleast := h.leastFree
  have hfree : s.descriptors (5 + n) = none := not_not.mp hleast.free
  have hne : s.listenfd ≠ 5 + (n : Int) := by
    intro heq
    rw [← heq, howned.listening] at hfree
    cases hfree
  obtain ⟨owner', -, howned'⟩ :=
    howned.deliver h.pending (nodup_readable _) (reported_readable h.listener)
  have htables : Tables ({ calling s with pending := [] } : Server W) :=
    (howned'.nextAccept (d := readable s.listenfd) rfl rfl).toTables
  have haccept : Step (calling s) (.handle (readable s.listenfd) ⟨some (5 + n), [], [], fun _ => []⟩)
      (accepted { calling s with pending := [] } (5 + n) ((s.users (5 + n)).initConn (5 + n)).1) := by
    apply Step.handle _ [] _ rfl
    · rintro fd ⟨⟩
      exact ⟨by omega, hfree⟩
    · rw [Server.handleEvent]
      refine (if_pos rfl).trans (acceptClient_eq htables hfree (by omega) ?_ (by rw [maxFd]; omega))
      show s.userCount < maxFd
      rw [h.userCount, maxFd]
      omega
  have hrun : Run Step (fun s a => s.Defined a ∧ LowestAccept s a) s
      (accepted { calling s with pending := [] } (5 + n) ((s.users (5 + n)).initConn (5 + n)).1) := by
    have hwait : LowestAccept s (.wait [readable s.listenfd]) := by
      rintro d input connfd ⟨⟩
    refine (Run.refl.step h.step_calling ⟨trivial, hwait⟩).step haccept ⟨?_, ?_⟩
    · rintro - - connfd ⟨⟩
      show 5 + (n : Int) < 65536
      omega
    · rintro d input connfd ⟨⟩ - ⟨⟩
      exact hleast
  refine ⟨_, hrun, run_owned h.owned hrun, ?_, rfl, ?_, fun x hpos => ?_⟩
  · exact (Function.update_of_ne hne ..).trans (deliver_listener h.listener)
  · show s.userCount + 1 = ((n + 1 : Nat) : Int)
    rw [h.userCount, Nat.cast_succ]
  · show Function.update s.descriptors (5 + n) (some .client) x ≠ none ↔ _
    by_cases hx : x = 5 + n
    · rw [hx, Function.update_self]
      simp
    · rw [Function.update_of_ne hx, show s.descriptors x ≠ none ↔ x < 5 + n from h.inUse x hpos]
      push_cast
      omega

/-- As many clients connect as fit into the array with the descriptors of the server. -/
theorem exists_crowd (users : Int → HttpConn) (n : Nat) (hn : n + 4 < 65536) :
    ∃ s, Run Step (fun s a => s.Defined a ∧ LowestAccept s a) (Server.start users) s ∧ Crowd n s := by
  induction n with
  | zero => exact ⟨_, .refl, crowd_start users⟩
  | succ n ih =>
    obtain ⟨s, hrun, hcrowd⟩ := ih (by omega)
    obtain ⟨s', hrun', hcrowd'⟩ := hcrowd.next (by omega)
    exact ⟨s', hrun.trans hrun', hcrowd'⟩

/-- The server's own descriptors are the standard streams and those of the listening socket and
of the epoll table. -/
theorem card_ownDescriptors_start (users : Int → HttpConn) :
    (ownDescriptors (Server.start users)).card = 5 := by
  have hfive : ownDescriptors (Server.start users) = {0, 1, 2, 3, 4} := by
    ext x
    rw [mem_ownDescriptors]
    simp only [Server.start, maxFd, Finset.mem_insert, Finset.mem_singleton]
    split
    · simp
      omega
    · simp
      omega
  rw [hfive]
  rfl

/-- The first client has an object. -/
theorem index_in_range_iff_first :
    IsLeastFree (InUse (Server.start fun _ => default)) 5 ∧ (0 : Int) ≤ 5 ∧ 5 < maxFd := by
  have hleast := (crowd_start fun _ => default).leastFree
  refine ⟨hleast, ((index_in_range_iff (initial_start _) .refl).2.2 5 hleast ?_).mpr ?_⟩
  · show (0 : Int) < maxFd
    decide
  · show (0 : Int) + (ownDescriptors (Server.start fun _ => default)).card < maxFd
    rw [card_ownDescriptors_start]
    decide

/-- After 65531 clients, the check lets one through that has the descriptor 65536. -/
theorem index_out_of_range :
    ¬ ∀ t : FileServer (Fin defaultThreadNumber),
      Run FileTurn (fun t a => t.Defined a ∧ Lowest t a) (.start (Server.start fun _ => default)) t →
      ∀ d rest connfd, t.server.pending = d :: rest → d.fd = t.server.listenfd →
        IsLeastFree (InUse t.server) connfd → t.server.userCount < maxFd →
        0 ≤ connfd ∧ connfd < maxFd := by
  intro hall
  obtain ⟨s, hrun, hcrowd⟩ := exists_crowd (fun _ => default) 65531 (by decide)
  have hcalling : Run Step (fun s a => s.Defined a ∧ LowestAccept s a)
      (Server.start fun _ => default) (calling s) := by
    refine hrun.step hcrowd.step_calling ⟨trivial, ?_⟩
    rintro d input connfd ⟨⟩
  have hcount : (calling s).userCount < maxFd := by
    show s.userCount < maxFd
    rw [hcrowd.userCount]
    decide
  have hrange := hall (.start (calling s)) (run_noFile hcalling) (readable s.listenfd) [] _ rfl rfl
    hcrowd.leastFree hcount
  exact absurd hrange.2 (by decide)

end Crowds

end ServerListings.Analysis.DescriptorLimit
