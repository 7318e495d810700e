import ServerListings.Lib.DenseTable
import ServerListings.Lib.Transition
import ServerListings.Model.ChatServer

/-!
# The tables of the chat server's parent

`Tables s n`: the first `n` elements of `users` are the entries of the children that were not yet
reaped, and `sub_process` gives the position of each. Every possible event has a result, which
is given in full, and keeps this.
-/

set_option autoImplicit false

namespace ServerListings.Interface.ChatTables

open Lib.CMem Lib.DenseTable Lib.Transition ServerListings.Model ServerListings.Model.ChatServer

/-- The tables agree with each other and with the children. -/
structure Tables (s : State) (n : Nat) : Prop where
  count : s.userCount = n
  limit : n ≤ USER_LIMIT
  index : Indexed ClientData.pid s.users.elem n s.subProcess.elem
  children : ∀ k, Present ClientData.pid s.users.elem n k ↔ ∃ c ∈ s.children, c.pid = k
  bound : ∀ c ∈ s.children, c.pid < PROCESS_LIMIT
  nodup : (s.children.map (·.pid)).Nodup

/-- The state in which a connection has an element of `users` and a pipe. -/
def prepared (s : State) (n : Nat) (r : Accepted) : State :=
  { s with
    users := ⟨Function.update s.users.elem n
      ⟨r.address, r.connfd, (s.users.elem n).pid, r.pipefd⟩⟩
    userCount := n
    opened := insert r.pipefd.2 (insert r.pipefd.1 (insert r.connfd s.opened)) }

/-- The state after a connection got a child. -/
def registered (s : State) (n : Nat) (r : Accepted) (pid : Nat) : State where
  users := ⟨Function.update s.users.elem n ⟨r.address, r.connfd, pid, r.pipefd⟩⟩
  subProcess := ⟨Function.update s.subProcess.elem pid n⟩
  userCount := (n + 1 : Nat)
  epoll := insert r.pipefd.1 ((s.epoll.erase r.connfd).erase r.pipefd.2)
  opened := ((prepared s n r).opened.erase r.connfd).erase r.pipefd.2
  children := s.children ++ [⟨pid, n, false⟩]

/-- The result of `acceptClient`. -/
def accepted (s : State) (n : Nat) (r : Accepted) : State :=
  if r.connfd < 0 then s
  else if n = USER_LIMIT then (s.openFd r.connfd).closeFd r.connfd
  else match r.pid with
    | none => (prepared s n r).closeFd r.connfd
    | some pid => registered s n r pid

/-- The state after the child of the entry at `i` was reaped, where `n` entries are left. -/
def reaped (s : State) (n i : Nat) : State where
  users := ⟨Function.update s.users.elem i (s.users.elem n)⟩
  subProcess := ⟨Function.update (Function.update s.subProcess.elem (s.users.elem i).pid (-1))
    (s.users.elem n).pid i⟩
  userCount := n
  epoll := (s.epoll.erase (s.users.elem (n + 1)).pipefd.1).erase (s.users.elem i).pipefd.1
  opened := s.opened.erase (s.users.elem i).pipefd.1
  children := s.children.filter fun c => c.pid ≠ (s.users.elem i).pid

section Rules

variable {s s' : State} {n i : Nat} {r : Accepted} {pid : Nat}

/-- An element of `users` in range is changed. -/
theorem updateUser_of_lt {f : ClientData → ClientData} (hi : i < USER_LIMIT + 1) :
    s.updateUser i f = .ok { s with users := ⟨Function.update s.users.elem i (f (s.users.elem i))⟩ } := by
  rw [State.updateUser, CArray.get_of_lt _ hi, ok_bind, CArray.set_of_lt _ _ hi]
  rfl

/-- An element of `sub_process` in range is set. -/
theorem setSubProcess_of_lt (hpid : pid < PROCESS_LIMIT) (v : Int) :
    s.setSubProcess pid v =
      .ok { s with subProcess := ⟨Function.update s.subProcess.elem pid v⟩ } := by
  rw [State.setSubProcess, CArray.set_of_lt _ _ hpid]
  rfl

/-- The branch of the parent after `fork`. -/
theorem registerUser_eq (hlt : n < USER_LIMIT + 1) (hpid : pid < PROCESS_LIMIT) :
    registerUser (prepared s n r) r pid = .ok (registered s n r pid) := by
  simp only [registerUser, prepared, State.closeFd, State.addfd]
  rw [CArray.get_of_lt _ hlt, ok_bind, updateUser_of_lt hlt, ok_bind, setSubProcess_of_lt hpid]
  simp only [ok_bind, Function.update_self, Function.update_idem]
  rfl

/-- `acceptClient` in full. -/
theorem acceptClient_eq (hcount : s.userCount = n) (hn : n ≤ USER_LIMIT)
    (hpid : ∀ pid ∈ r.pid, pid < PROCESS_LIMIT) : acceptClient s r = .ok (accepted s n r) := by
  unfold acceptClient accepted
  by_cases hconn : r.connfd < 0
  · rw [if_pos hconn, if_pos hconn]
    rfl
  · rw [if_neg hconn, if_neg hconn]
    simp only [State.openFd, hcount]
    by_cases hfull : n = USER_LIMIT
    · rw [if_pos hfull, if_pos (Int.ofNat_le.mpr (Nat.le_of_eq hfull.symm)), ← hcount]
      rfl
    · have hlt : n < USER_LIMIT + 1 := Nat.lt_succ_of_le hn
      have hnot : ¬ (USER_LIMIT : Int) ≤ n := by
        intro hle
        exact hfull (Nat.le_antisymm hn (Int.ofNat_le.mp hle))
      rw [if_neg hfull, if_neg hnot, updateUser_of_lt hlt, ok_bind, updateUser_of_lt hlt, ok_bind]
      simp only [Function.update_self, Function.update_idem]
      cases hr : r.pid with
      | none => rfl
      | some pid => exact registerUser_eq hlt (hpid pid hr)

/-- `reapChild` in full. -/
theorem reapChild_eq (h : Tables s (n + 1)) (hi : i < n + 1) :
    reapChild s (s.users.elem i).pid = .ok (reaped s n i) := by
  have hlimit : n + 1 ≤ USER_LIMIT := h.limit
  have hbound (j : Nat) (hj : j < n + 1) : (s.users.elem j).pid < PROCESS_LIMIT := by
    obtain ⟨c, hc, hpid⟩ := (h.children _).mp ⟨j, hj, rfl⟩
    rw [← hpid]
    exact h.bound c hc
  have hdel : s.subProcess.elem (s.users.elem i).pid = i := h.index i hi
  have hrange : ¬ ((i : Int) < 0 ∨ (USER_LIMIT : Int) < i) := by
    rintro (hneg | hgt)
    · exact absurd hneg (Int.not_lt.mpr (Int.natCast_nonneg i))
    · exact absurd (Int.ofNat_lt.mp hgt) (by omega)
  have hcount' : ((n + 1 : Nat) : Int) - 1 = n := by omega
  unfold reapChild
  simp only
  rw [CArray.get_of_lt _ (hbound i hi), ok_bind, hdel, setSubProcess_of_lt (hbound i hi), ok_bind,
    if_neg hrange]
  simp only [State.delfd, State.closeFd, h.count]
  rw [CArray.get_of_lt _ (by omega : n + 1 < USER_LIMIT + 1), ok_bind,
    CArray.get_of_lt _ (by omega : i < USER_LIMIT + 1), ok_bind]
  simp only [hcount']
  rw [CArray.get_of_lt _ (by omega : n < USER_LIMIT + 1), ok_bind,
    updateUser_of_lt (by omega : i < USER_LIMIT + 1), ok_bind,
    CArray.get_of_lt _ (by omega : i < USER_LIMIT + 1), ok_bind]
  simp only [Function.update_self]
  rw [setSubProcess_of_lt (hbound n (Nat.lt_succ_self n))]
  rfl

/-! ## The events keep the tables -/

/-- What an accepted connection without a child leaves alone: the entries, the index, the
children, and the descriptors that were open. -/
structure Quiet (s s' : State) (n : Nat) : Prop where
  count : s'.userCount = n
  users : ∀ i, i < n → s'.users.elem i = s.users.elem i
  index : s'.subProcess = s.subProcess
  children : s'.children = s.children
  opened : ∀ fd ∈ s.opened, fd ∈ s'.opened
  epoll : ∀ fd ∈ s.opened, fd ∈ s.epoll → fd ∈ s'.epoll

/-- An accepted connection gets a child, or it leaves everything alone. -/
theorem accepted_cases (hcount : s.userCount = n) (hn : n ≤ USER_LIMIT)
    (hfresh : 0 ≤ r.connfd → Fresh s r) :
    (∃ pid, r.pid = some pid ∧ 0 ≤ r.connfd ∧ n < USER_LIMIT ∧
      accepted s n r = registered s n r pid) ∨
    (0 ≤ r.connfd → n < USER_LIMIT → r.pid = none) ∧ Quiet s (accepted s n r) n := by
  unfold accepted
  by_cases hconn : r.connfd < 0
  · rw [if_pos hconn]
    refine Or.inr ⟨fun hpos => absurd hconn (Int.not_lt.mpr hpos), ?_⟩
    exact ⟨hcount, fun _ _ => rfl, rfl, rfl, fun _ h => h, fun _ _ h => h⟩
  · rw [if_neg hconn]
    have hpos : 0 ≤ r.connfd := Int.not_lt.mp hconn
    have hnew : ∀ fd ∈ s.opened, fd ≠ r.connfd := by
      rintro fd hfd rfl
      exact (hfresh hpos).1 hfd
    by_cases hfull : n = USER_LIMIT
    · rw [if_pos hfull]
      refine Or.inr ⟨fun _ hn => absurd hfull (Nat.ne_of_lt hn), ?_⟩
      refine ⟨hcount, fun _ _ => rfl, rfl, rfl, fun fd hfd => ?_, fun fd hfd hin => ?_⟩
      · exact Finset.mem_erase_of_ne_of_mem (hnew fd hfd) (Finset.mem_insert_of_mem hfd)
      · exact Finset.mem_erase_of_ne_of_mem (hnew fd hfd) hin
    · rw [if_neg hfull]
      cases hpid : r.pid with
      | none =>
        refine Or.inr ⟨fun _ _ => rfl, ?_⟩
        refine ⟨rfl, fun i hi => ?_, rfl, rfl, fun fd hfd => ?_, fun fd hfd hin => ?_⟩
        · exact Function.update_of_ne (Nat.ne_of_lt hi) ..
        · apply Finset.mem_erase_of_ne_of_mem (hnew fd hfd)
          exact Finset.mem_insert_of_mem (Finset.mem_insert_of_mem (Finset.mem_insert_of_mem hfd))
        · exact Finset.mem_erase_of_ne_of_mem (hnew fd hfd) hin
      | some pid => exact Or.inl ⟨pid, rfl, hpos, Nat.lt_of_le_of_ne hn hfull, rfl⟩

/-- Where no client comes or goes the tables agree. -/
theorem Tables.quiet (h : Tables s n) (hq : Quiet s s' n) : Tables s' n := by
  have hkeys : ∀ i, i < n → (s'.users.elem i).pid = (s.users.elem i).pid :=
    fun i hi => congrArg ClientData.pid (hq.users i hi)
  refine ⟨hq.count, h.limit, ?_, ?_, ?_, ?_⟩
  · rw [hq.index]
    exact h.index.congr hkeys
  · intro k
    rw [present_congr hkeys, hq.children]
    exact h.children k
  · rw [hq.children]
    exact h.bound
  · rw [hq.children]
    exact h.nodup

/-- A new client is in all tables. -/
theorem Tables.registered (h : Tables s n) (hn : n < USER_LIMIT) (hpid : pid < PROCESS_LIMIT)
    (hnew : ∀ c ∈ s.children, c.pid ≠ pid) : Tables (registered s n r pid) (n + 1) := by
  have hlast : ((ChatTables.registered s n r pid).users.elem n).pid = pid := by
    simp only [ChatTables.registered, Function.update_self]
  have hkeys : ∀ i, i < n →
      ((ChatTables.registered s n r pid).users.elem i).pid = (s.users.elem i).pid := by
    intro i hi
    simp only [ChatTables.registered, Function.update_of_ne (Nat.ne_of_lt hi)]
  have habsent : ¬ Present ClientData.pid (ChatTables.registered s n r pid).users.elem n
      ((ChatTables.registered s n r pid).users.elem n).pid := by
    rw [hlast, present_congr hkeys, h.children]
    rintro ⟨c, hc, heq⟩
    exact hnew c hc heq
  have hindex := (h.index.congr hkeys).push habsent
  refine ⟨rfl, hn, ?_, ?_, ?_, ?_⟩
  · rw [hlast] at hindex
    exact hindex
  · intro k
    rw [present_push, present_congr hkeys, h.children, hlast]
    simp only [ChatTables.registered, List.mem_append, List.mem_singleton]
    constructor
    · rintro (⟨c, hc, hk⟩ | rfl)
      · exact ⟨c, Or.inl hc, hk⟩
      · exact ⟨_, Or.inr rfl, rfl⟩
    · rintro ⟨c, hc | rfl, hk⟩
      · exact Or.inl ⟨c, hc, hk⟩
      · exact Or.inr hk.symm
  · intro c hc
    rcases List.mem_append.mp hc with hc | hc
    · exact h.bound c hc
    · rw [List.mem_singleton.mp hc]
      exact hpid
  · simp only [ChatTables.registered, List.map_append, List.map_cons, List.map_nil]
    apply List.nodup_append.mpr
    refine ⟨h.nodup, List.nodup_singleton _, ?_⟩
    intro a ha b hb
    obtain ⟨c, hc, rfl⟩ := List.mem_map.mp ha
    rw [List.mem_singleton.mp hb]
    exact hnew c hc

/-- A child that ends is still in the tables. -/
theorem Tables.exit (h : Tables s n) {f : Child → Child} (hf : ∀ c, (f c).pid = c.pid) :
    Tables { s with children := s.children.map f } n := by
  have hpids : (s.children.map f).map (·.pid) = s.children.map (·.pid) := by
    rw [List.map_map]
    exact List.map_congr_left fun c _ => hf c
  refine ⟨h.count, h.limit, h.index, ?_, ?_, ?_⟩
  · intro k
    rw [h.children]
    constructor
    · rintro ⟨c, hc, hk⟩
      exact ⟨f c, List.mem_map_of_mem hc, (hf c).trans hk⟩
    · rintro ⟨c, hc, hk⟩
      obtain ⟨c', hc', rfl⟩ := List.mem_map.mp hc
      exact ⟨c', hc', (hf c').symm.trans hk⟩
  · intro c hc
    obtain ⟨c', hc', rfl⟩ := List.mem_map.mp hc
    rw [hf c']
    exact h.bound c' hc'
  · simp only [hpids]
    exact h.nodup

/-- A client that was waited for is out of all tables. -/
theorem Tables.reaped (h : Tables s (n + 1)) (hi : i < n + 1) : Tables (reaped s n i) n := by
  refine ⟨rfl, Nat.le_of_succ_le h.limit, h.index.swapRemove hi (-1), ?_, ?_, ?_⟩
  · intro k
    rw [ChatTables.reaped, h.index.present_swapRemove hi, h.children]
    simp only [List.mem_filter, decide_eq_true_eq]
    constructor
    · rintro ⟨⟨c, hc, rfl⟩, hne⟩
      exact ⟨c, ⟨hc, hne⟩, rfl⟩
    · rintro ⟨c, ⟨hc, hne⟩, rfl⟩
      exact ⟨⟨c, hc, rfl⟩, hne⟩
  · intro c hc
    exact h.bound c (List.mem_filter.mp hc).1
  · exact h.nodup.sublist (List.filter_sublist.map _)

/-- The tables of the server before its loop agree. -/
theorem tables_create (users : CArray ClientData (USER_LIMIT + 1)) (opened : Finset Int)
    (listenfd sigPipe : Int) : Tables (create users opened listenfd sigPipe) 0 := by
  refine ⟨rfl, Nat.zero_le _, indexed_zero, fun k => ?_, fun _ hc => absurd hc List.not_mem_nil,
    List.nodup_nil⟩
  refine iff_of_false (not_present_zero k) ?_
  rintro ⟨c, hc, -⟩
  cases hc

/-- The mark of a child that ended. -/
def marked (pid : Nat) (c : Child) : Child := if c.pid = pid then { c with exited := true } else c

/-- A mark does not change the process. -/
theorem marked_pid (pid : Nat) (c : Child) : (marked pid c).pid = c.pid := by
  unfold marked
  split <;> rfl

/-- What an event does to the tables of `n` entries. -/
inductive Effect (s : State) (n : Nat) : Event → State → Nat → Prop where
  | forked (r : Accepted) (pid : Nat) : r.pid = some pid → 0 ≤ r.connfd → n < USER_LIMIT →
      Fresh s r → Effect s n (.accept r) (registered s n r pid) (n + 1)
  | quiet (r : Accepted) (s' : State) : (0 ≤ r.connfd → n < USER_LIMIT → r.pid = none) →
      Quiet s s' n → Effect s n (.accept r) s' n
  | exited (pid : Nat) : (∃ c ∈ s.children, c.pid = pid ∧ c.exited = false) →
      Effect s n (.exit pid) { s with children := s.children.map (marked pid) } n
  | reaped (k i : Nat) : n = k + 1 → i < k + 1 →
      (∃ c ∈ s.children, c.pid = (s.users.elem i).pid ∧ c.exited = true) →
      Effect s n (.reap (s.users.elem i).pid) (reaped s k i) k

/-- Every possible event has a result. -/
theorem Tables.handle (h : Tables s n) {e : Event} (he : Possible s e) :
    ∃ s' n', ChatServer.handle s e = .ok s' ∧ Effect s n e s' n' ∧ Tables s' n' := by
  cases e with
  | accept r =>
    have hbound : 0 ≤ r.connfd → ∀ pid ∈ r.pid, pid < PROCESS_LIMIT :=
      fun hpos pid hpid => ((he hpos).2.2.2.2.2.2 pid hpid).2.1
    have hresult : acceptClient s r = .ok (accepted s n r) := by
      by_cases hconn : r.connfd < 0
      · unfold acceptClient accepted
        rw [if_pos hconn, if_pos hconn]
        rfl
      · exact acceptClient_eq h.count h.limit (hbound (Int.not_lt.mp hconn))
    rcases accepted_cases h.count h.limit he with ⟨pid, hpid, hpos, hn, heq⟩ | ⟨hnone, hquiet⟩
    · obtain ⟨-, hlt, hnew⟩ := (he hpos).2.2.2.2.2.2 pid hpid
      rw [heq] at hresult
      exact ⟨_, _, hresult, .forked r pid hpid hpos hn (he hpos), h.registered hn hlt hnew⟩
    · exact ⟨_, _, hresult, .quiet r _ hnone hquiet, h.quiet hquiet⟩
  | exit pid => exact ⟨_, n, rfl, .exited pid he, h.exit (marked_pid pid)⟩
  | reap pid =>
    obtain ⟨c, hc, rfl, hexited⟩ := he
    obtain ⟨i, hi, hpid⟩ := (h.children c.pid).mpr ⟨c, hc, rfl⟩
    obtain ⟨k, rfl⟩ := Nat.exists_eq_succ_of_ne_zero (Nat.ne_of_gt (Nat.zero_lt_of_lt hi))
    rw [← hpid]
    exact ⟨_, k, reapChild_eq h hi, .reaped k i rfl hi ⟨c, hc, hpid.symm, hexited⟩, h.reaped hi⟩

/-- Every step keeps the tables in agreement. -/
theorem Tables.step (h : Tables s n) {e : Event} (hstep : Step s e s') :
    ∃ n', Effect s n e s' n' ∧ Tables s' n' := by
  obtain ⟨s₁, n', hhandle, heffect, htables⟩ := h.handle hstep.1
  obtain rfl := result_unique hstep.2 hhandle
  exact ⟨n', heffect, htables⟩

/-! ## The steps with their results -/

/-- A connection is accepted and gets a child. -/
theorem Tables.fork_step (h : Tables s n) (hpid : r.pid = some pid) (hpos : 0 ≤ r.connfd)
    (hn : n < USER_LIMIT) (hfresh : Fresh s r) :
    Step s (.accept r) (ChatTables.registered s n r pid) ∧
      Tables (ChatTables.registered s n r pid) (n + 1) := by
  obtain ⟨-, hlt, hnew⟩ := hfresh.2.2.2.2.2.2 pid hpid
  refine ⟨⟨fun _ => hfresh, ?_⟩, h.registered hn hlt hnew⟩
  have hresult : acceptClient s r = .ok (accepted s n r) := by
    apply acceptClient_eq h.count h.limit
    intro pid' hpid'
    exact (hfresh.2.2.2.2.2.2 pid' hpid').2.1
  have heq : accepted s n r = ChatTables.registered s n r pid := by
    unfold accepted
    rw [if_neg (Int.not_lt.mpr hpos), if_neg (Nat.ne_of_lt hn), hpid]
  rw [← heq]
  exact hresult

/-- A child ends. -/
theorem Tables.exit_step (h : Tables s n)
    (hchild : ∃ c ∈ s.children, c.pid = pid ∧ c.exited = false) :
    Step s (.exit pid) { s with children := s.children.map (marked pid) } ∧
      Tables { s with children := s.children.map (marked pid) } n :=
  ⟨⟨hchild, rfl⟩, h.exit (marked_pid pid)⟩

/-- A child that ended is reaped. -/
theorem Tables.reap_step (h : Tables s (n + 1)) (hi : i < n + 1)
    (hchild : ∃ c ∈ s.children, c.pid = (s.users.elem i).pid ∧ c.exited = true) :
    Step s (.reap (s.users.elem i).pid) (ChatTables.reaped s n i) ∧
      Tables (ChatTables.reaped s n i) n :=
  ⟨⟨hchild, reapChild_eq h hi⟩, h.reaped hi⟩

end Rules

/-! ## Some clients -/

/-- Descriptors 0 to 4 are open, the listening socket is 3 and the pipe of the signals is 4. -/
def start : State := create ⟨fun _ => ⟨0, 0, 0, (-1, -1)⟩⟩ {0, 1, 2, 3, 4} 3 4

def clientA : Accepted := ⟨1, 5, (6, 7), some 100⟩

def clientB : Accepted := ⟨2, 5, (7, 8), some 101⟩

/-- The tables agree at the start. -/
theorem tables_start : Tables start 0 := tables_create ..

end ServerListings.Interface.ChatTables
