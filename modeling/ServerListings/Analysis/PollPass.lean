import ServerListings.Interface.ChatPass

/-!
# A pass of the poll chat server serves everyone once

A connection is accepted in the first round only, which is that of the listening socket, and
every other round is that of a client. From this and from the rule of a pass over a table that
changes it follows what was served, who was closed and who is in `fds` at the end.
-/

set_option autoImplicit false

namespace ServerListings.Analysis.PollPass

open Lib.DenseTable Lib.FlagWord Lib.Transition ServerListings.Model.PollChat ServerListings.Interface.PollChat

section Passes

variable {s s' s₀ : Server} {e : PollFd} {o : Outcome} {log : List Round} {c : Int}

/-- The client was served in a round in which it left. -/
def Left (log : List Round) (c : Int) : Prop := ∃ r ∈ log, r.entry.fd = c ∧ Leaves r.branch r.outcome

/-- What a complete pass has done. -/
structure Passed (s₀ : Server) (log : List Round) (s : Server) : Prop where
  served : (log.map fun r => polled r.entry).Perm
    (s₀.fds.map polled ++ (accepted log).map fun c => (c, 0#16))
  distinct : (log.map fun r => r.entry.fd).Nodup
  closed : ∀ c, c ∈ clients s₀ ∨ c ∈ accepted log →
    (Left log c → (closings log).count c = 1) ∧ (¬ Left log c → (closings log).count c = 0)
  listening : (s.fds.map PollFd.fd).head? = some s₀.listenfd
  nodup : (clients s).Nodup
  remaining : ∀ c, c ∈ clients s ↔ (c ∈ clients s₀ ∨ c ∈ accepted log) ∧ ¬ Left log c
  room : s.userCounter ≤ USER_LIMIT

/-- What holds in the middle of a pass. Before the first round nothing has happened, and only
that round can accept a connection. -/
structure MidPass (s₀ : Server) (log : List Round) (s : Server) : Prop where
  listenfd : s.listenfd = s₀.listenfd
  passing : Passing (s₀.fds.map polled) (s.fds.map polled) s.i (log.map fun r => polled r.entry)
    ((leaving log).map fun r => polled r.entry) ((accepted log).map fun c => (c, 0#16))
  nodup : (s₀.fds.map PollFd.fd ++ accepted log).Nodup
  head : ∃ revents, (s.fds.map polled).head? = some (s₀.listenfd, revents) ∧
    revents &&& ~~~(POLLIN ||| POLLERR) = 0#16
  room : s.fds.length ≤ USER_LIMIT + 1
  first : s.i = 0 → log = []
  once : (accepted log).length ≤ 1
  closed : ∀ c, c ∈ s₀.fds.map PollFd.fd ++ accepted log →
    (closings log).count c = ((leaving log).map fun r => r.entry.fd).count c

/-- `poll` leaves the descriptors in their places. -/
theorem map_fst_polled (l : List PollFd) : (l.map polled).map Prod.fst = l.map PollFd.fd := List.map_map

/-- The descriptors in `fds` and those that were removed. -/
theorem MidPass.perm_fds (h : MidPass s₀ log s) :
    (s.fds.map PollFd.fd ++ (leaving log).map fun r => r.entry.fd).Perm
      (s₀.fds.map PollFd.fd ++ accepted log) := by
  have hperm := h.passing.table.map Prod.fst
  rw [List.map_append, List.map_append, map_fst_polled, map_fst_polled, List.map_map, List.map_map] at hperm
  have hid : (accepted log).map (Prod.fst ∘ fun c => (c, 0#16)) = accepted log := List.map_id _
  rwa [hid] at hperm

/-- No descriptor is in `fds` twice. -/
theorem MidPass.nodup_fds (h : MidPass s₀ log s) : (s.fds.map PollFd.fd).Nodup :=
  ((h.perm_fds.nodup_iff).mpr h.nodup).sublist (List.sublist_append_left ..)

/-- The first element is the listening socket, with no event but an input or an error. -/
theorem MidPass.listening (h : MidPass s₀ log s) :
    ∃ head rest, s.fds = head :: rest ∧ head.fd = s.listenfd ∧
      head.revents &&& ~~~(POLLIN ||| POLLERR) = 0#16 := by
  obtain ⟨revents, hhead, hrevents⟩ := h.head
  cases hfds : s.fds with
  | nil =>
    rw [hfds] at hhead
    cases hhead
  | cons head rest =>
    rw [hfds] at hhead
    obtain ⟨hfd, rfl⟩ := Prod.mk.inj (Option.some.inj hhead)
    exact ⟨head, rest, rfl, hfd.trans h.listenfd.symm, hrevents⟩

/-- Behind the first place there are clients. -/
theorem MidPass.fd_ne (h : MidPass s₀ log s) (hi : s.fds[s.i]? = some e) (hpos : s.i ≠ 0) :
    e.fd ≠ s.listenfd := by
  obtain ⟨head, rest, hfds, hfd, -⟩ := h.listening
  have hnodup := h.nodup_fds
  obtain ⟨k, hk⟩ := Nat.exists_eq_succ_of_ne_zero hpos
  rw [hfds, hk, List.getElem?_cons_succ] at hi
  rw [hfds, List.map_cons, List.nodup_cons] at hnodup
  intro heq
  exact hnodup.1 (List.mem_map.mpr ⟨e, List.mem_of_getElem? hi, heq.trans hfd.symm⟩)

/-- The listening socket is not removed. -/
theorem MidPass.index_of_leaves (h : MidPass s₀ log s) (hi : s.fds[s.i]? = some e)
    (hleaves : Leaves (branch s.listenfd e) o) : s.i ≠ 0 := by
  intro hzero
  obtain ⟨head, rest, hfds, hfd, hrevents⟩ := h.listening
  rw [hfds, hzero] at hi
  obtain rfl : head = e := Option.some.inj hi
  rcases hleaves with hleave | ⟨hreceive, -⟩
  · have hbit := revents_of_leave hleave
    rw [has_POLLRDHUP] at hbit
    exact absurd (getLsbD_of_masked hrevents hbit) (by decide)
  · exact fd_of_receive hreceive hfd

/-- Only the listening socket has the branch for new clients. -/
theorem fd_of_accept {n : Int} (h : branch n e = .accept) : e.fd = n := by
  unfold branch at h
  grind

/-- A connection is accepted in the first round. -/
theorem MidPass.index_of_accept (h : MidPass s₀ log s) (hi : s.fds[s.i]? = some e)
    (hbranch : branch s.listenfd e = .accept) : s.i = 0 := by
  by_contra hpos
  exact h.fd_ne hi hpos (fd_of_accept hbranch)

/-- At `poll` a pass is at its start. -/
theorem midPass_start (h : AtPoll s) : MidPass s [] s := by
  obtain ⟨head, rest, hfds, hfd, hrevents⟩ := h.listening
  have hroom := h.room
  refine ⟨rfl, ?_, ?_, ⟨head.revents, ?_, hrevents⟩, ?_, fun _ => rfl, Nat.zero_le 1, fun _ _ => rfl⟩
  · rw [h.index]
    exact passing_start _
  · rw [show accepted [] = [] from rfl, List.append_nil]
    exact h.nodup
  · rw [hfds, ← hfd]
    rfl
  · unfold Server.userCounter at hroom
    omega

/-! ## The rounds -/

/-- The clients accepted in one more round. -/
theorem accepted_concat (log : List Round) (r : Round) :
    accepted (log ++ [r]) = accepted log ++ r.did.filterMap acceptedFd := by
  rw [accepted_append, accepted, accepted, List.flatMap_singleton]

/-- The connections closed in one more round. -/
theorem closings_concat (log : List Round) (r : Round) :
    closings (log ++ [r]) = closings log ++ r.did.filterMap closedFd := by
  rw [closings_append, closings, closings, List.flatMap_singleton]

/-- A client leaves in one more round. -/
theorem leaving_concat {r : Round} (h : Leaves r.branch r.outcome) :
    leaving (log ++ [r]) = leaving log ++ [r] := by
  have hone : leaving [r] = [r] := by simp [leaving, h]
  rw [leaving_append, hone]

/-- No client leaves in one more round. -/
theorem leaving_concat_of_not {r : Round} (h : ¬ Leaves r.branch r.outcome) :
    leaving (log ++ [r]) = leaving log := by
  have hnone : leaving [r] = [] := by simp [leaving, h]
  rw [leaving_append, hnone, List.append_nil]

/-- The element of the round, as `poll` has left it. -/
theorem polled_get (hi : s.fds[s.i]? = some e) : (s.fds.map polled)[s.i]? = some (polled e) := by
  rw [List.getElem?_map, hi]
  rfl

/-- As many elements as `poll` has left. -/
theorem length_of_polled (h : s'.fds.map polled = s.fds.map polled) : s'.fds.length = s.fds.length := by
  have hlen := congrArg List.length h
  rwa [List.length_map, List.length_map] at hlen

/-- A round in which no client comes or goes. -/
theorem MidPass.keep {r : Round} (h : MidPass s₀ log s) (hi : s.fds[s.i]? = some r.entry)
    (hlisten : s'.listenfd = s.listenfd) (hfds : s'.fds.map polled = s.fds.map polled)
    (hindex : s'.i = s.i + 1) (haccepted : r.did.filterMap acceptedFd = [])
    (hstays : ¬ Leaves r.branch r.outcome)
    (hclosed : ∀ c, c ∈ s₀.fds.map PollFd.fd ++ accepted log → c ∉ r.did.filterMap closedFd) :
    MidPass s₀ (log ++ [r]) s' := by
  have hsame : accepted (log ++ [r]) = accepted log := by
    rw [accepted_concat, haccepted, List.append_nil]
  refine ⟨hlisten.trans h.listenfd, ?_, ?_, ?_, ?_, ?_, ?_, ?_⟩
  · rw [hfds, hindex, hsame, leaving_concat_of_not hstays, List.map_append]
    exact h.passing.next (polled_get hi)
  · rw [hsame]
    exact h.nodup
  · rw [hfds]
    exact h.head
  · rw [length_of_polled hfds]
    exact h.room
  · intro hzero
    omega
  · rw [hsame]
    exact h.once
  · intro c hc
    rw [hsame] at hc
    rw [closings_concat, List.count_append, List.count_eq_zero_of_not_mem (hclosed c hc),
      Nat.add_zero, leaving_concat_of_not hstays]
    exact h.closed c hc

/-- A descriptor that is not open is not that of a client, when nothing has happened. -/
theorem MidPass.fresh {connfd : Int} (h : MidPass s₀ [] s) (hfresh : ∀ e ∈ s.fds, e.fd ≠ connfd) :
    connfd ∉ s₀.fds.map PollFd.fd := by
  intro hmem
  have hperm := h.perm_fds
  rw [show leaving [] = [] from rfl, show accepted [] = [] from rfl, List.map_nil, List.append_nil,
    List.append_nil] at hperm
  obtain ⟨e, he, hfd⟩ := List.mem_map.mp (hperm.mem_iff.mpr hmem)
  exact hfresh e he hfd

/-- A connection is accepted. -/
theorem MidPass.add {r : Round} {connfd : Int} (h : MidPass s₀ [] s)
    (hi : s.fds[s.i]? = some r.entry) (hlisten : s'.listenfd = s.listenfd)
    (hfds : s'.fds.map polled = s.fds.map polled ++ [(connfd, 0)]) (hindex : s'.i = s.i + 1)
    (haccepted : r.did.filterMap acceptedFd = [connfd]) (hclosed : r.did.filterMap closedFd = [])
    (hroom : s.userCounter < USER_LIMIT) (hstays : ¬ Leaves r.branch r.outcome)
    (hfresh : ∀ e ∈ s.fds, e.fd ≠ connfd) : MidPass s₀ [r] s' := by
  have hadded : accepted [r] = [connfd] := by
    rw [← haccepted]
    exact accepted_concat [] r
  have hnone : closings [r] = [] := by
    rw [← hclosed]
    exact closings_concat [] r
  have hleaving : leaving ([] ++ [r]) = [] := leaving_concat_of_not hstays
  rw [List.nil_append] at hleaving
  have hlt := (List.getElem?_eq_some_iff.mp hi).1
  refine ⟨hlisten.trans h.listenfd, ?_, ?_, ?_, ?_, ?_, ?_, ?_⟩
  · have hnext := h.passing.next (polled_get hi)
    have hpush := hnext.push (by rw [List.length_map]; exact hlt) (connfd, 0#16)
    rw [hfds, hindex, hadded, hleaving]
    exact hpush
  · rw [hadded]
    have hnodup := h.nodup
    rw [show accepted [] = [] from rfl, List.append_nil] at hnodup
    refine List.nodup_append.mpr ⟨hnodup, List.nodup_singleton _, ?_⟩
    rintro a ha b hb rfl
    rw [List.mem_singleton.mp hb] at ha
    exact h.fresh hfresh ha
  · obtain ⟨revents, hhead, hrevents⟩ := h.head
    refine ⟨revents, ?_, hrevents⟩
    rw [hfds, List.head?_append, hhead]
    rfl
  · have hlen := congrArg List.length hfds
    rw [List.length_append, List.length_map, List.length_map, List.length_singleton] at hlen
    unfold Server.userCounter at hroom
    omega
  · intro hzero
    omega
  · rw [hadded]
    exact Nat.le_refl 1
  · intro c _
    rw [hnone, hleaving]
    rfl

/-- A client leaves. -/
theorem MidPass.leave {r : Round} {last : PollFd} (h : MidPass s₀ log s)
    (hi : s.fds[s.i]? = some r.entry) (hpos : s.i ≠ 0) (hlisten : s'.listenfd = s.listenfd)
    (hlast : s.fds.getLast? = some last)
    (hfds : s'.fds.map polled = ((s.fds.map polled).set s.i (polled last)).dropLast)
    (hindex : s'.i = s.i) (haccepted : r.did.filterMap acceptedFd = [])
    (hclosed : r.did.filterMap closedFd = [r.entry.fd]) (hleaves : Leaves r.branch r.outcome) :
    MidPass s₀ (log ++ [r]) s' := by
  have hsame : accepted (log ++ [r]) = accepted log := by
    rw [accepted_concat, haccepted, List.append_nil]
  have hlast' : (s.fds.map polled).getLast? = some (polled last) := by
    rw [List.getLast?_map, hlast]
    rfl
  have hlt : s.i < (s.fds.map polled).length := by
    rw [List.length_map]
    exact (List.getElem?_eq_some_iff.mp hi).1
  refine ⟨hlisten.trans h.listenfd, ?_, ?_, ?_, ?_, ?_, ?_, ?_⟩
  · rw [hfds, hindex, hsame, leaving_concat hleaves, List.map_append, List.map_append]
    exact h.passing.remove (polled_get hi) hlast'
  · rw [hsame]
    exact h.nodup
  · obtain ⟨revents, hhead, hrevents⟩ := h.head
    refine ⟨revents, ?_, hrevents⟩
    obtain ⟨htake, -⟩ := swapRemove_split hlast' hlt
    have hfront := congrArg List.head? htake
    rw [List.head?_take, List.head?_take, if_neg hpos, if_neg hpos] at hfront
    rw [hfds, hfront, hhead]
  · have hlen := congrArg List.length hfds
    rw [List.length_dropLast, List.length_set, List.length_map, List.length_map] at hlen
    have hroom := h.room
    omega
  · intro hzero
    omega
  · rw [hsame]
    exact h.once
  · intro c hc
    rw [hsame] at hc
    rw [closings_concat, hclosed, leaving_concat hleaves, List.map_append, List.count_append,
      List.count_append, h.closed c hc]
    rfl

/-- Every round keeps it. -/
theorem MidPass.step (h : MidPass s₀ log s) (hs : RoundStep s o s') :
    MidPass s₀ (log ++ rounds s o) s' := by
  obtain ⟨e, hi, hfresh, rfl⟩ := hs
  obtain ⟨hlisten, heffect⟩ := round_effect hi o
  have hrounds : rounds s o = [⟨e, branch s.listenfd e, o, (s.round e o).2⟩] := by
    simp only [rounds, hi]
  rw [hrounds]
  generalize s.round e o = result at hlisten heffect ⊢
  cases heffect with
  | next hfds hindex haccepted hclosed hstays =>
    refine h.keep hi hlisten hfds hindex haccepted hstays fun c _ => ?_
    rw [hclosed]
    exact List.not_mem_nil
  | refused ho hbranch hfds hindex haccepted hclosed =>
    obtain rfl := h.first (h.index_of_accept hi hbranch)
    have hstays := not_leaves hbranch (by simp) (by simp) o
    refine h.keep hi hlisten hfds hindex haccepted hstays fun c hc => ?_
    rw [show accepted [] = [] from rfl, List.append_nil] at hc
    rw [hclosed, List.mem_singleton]
    rintro rfl
    exact h.fresh (hfresh _ ho) hc
  | added ho hbranch hfds hindex haccepted hclosed hroom =>
    obtain rfl := h.first (h.index_of_accept hi hbranch)
    have hstays := not_leaves hbranch (by simp) (by simp) o
    exact h.add hi hlisten hfds hindex haccepted hclosed hroom hstays (hfresh _ ho)
  | removed hlast hfds hindex haccepted hclosed hleaves =>
    exact h.leave hi (h.index_of_leaves hi hleaves) hlisten hlast hfds hindex haccepted hclosed hleaves

/-! ## The end of the pass -/

/-- A client that leaves is one whose round was of that kind. -/
theorem mem_leaving : c ∈ (leaving log).map (fun r => r.entry.fd) ↔ Left log c := by
  rw [List.mem_map]
  constructor
  · rintro ⟨r, hr, rfl⟩
    obtain ⟨hmem, hleaves⟩ := List.mem_filter.mp hr
    exact ⟨r, hmem, rfl, of_decide_eq_true hleaves⟩
  · rintro ⟨r, hmem, rfl, hleaves⟩
    exact ⟨r, List.mem_filter.mpr ⟨hmem, decide_eq_true hleaves⟩, rfl⟩

/-- The rounds are those of different descriptors. -/
theorem MidPass.distinct (h : MidPass s₀ log s) (hend : s.fds.length ≤ s.i) :
    (log.map fun r => r.entry.fd).Nodup := by
  have hperm := (h.passing.complete (by rwa [List.length_map])).map Prod.fst
  rw [List.map_append, map_fst_polled, List.map_map, List.map_map] at hperm
  have hid : (accepted log).map (Prod.fst ∘ fun c => (c, 0#16)) = accepted log := List.map_id _
  rw [hid] at hperm
  exact hperm.nodup_iff.mpr h.nodup

/-- A client that was accepted, or was there before, is not the listening socket. -/
theorem MidPass.mem_clients (h : MidPass s₀ log s) (h₀ : AtPoll s₀) :
    c ∈ clients s₀ ∨ c ∈ accepted log ↔
      c ∈ s₀.fds.map PollFd.fd ++ accepted log ∧ c ≠ s₀.listenfd := by
  obtain ⟨head, rest, hfds, hfd, -⟩ := h₀.listening
  have hnodup := h.nodup
  rw [hfds, List.map_cons, List.cons_append, List.nodup_cons] at hnodup
  rw [clients, hfds, List.tail_cons, List.map_cons, List.cons_append, ← List.mem_append, hfd] at *
  constructor
  · intro hc
    exact ⟨List.mem_cons_of_mem _ hc, fun heq => hnodup.1 (heq ▸ hc)⟩
  · rintro ⟨hc, hne⟩
    exact (List.mem_cons.mp hc).resolve_left hne

/-- At the end of a pass what is known in the middle of it is what the pass has done. -/
theorem MidPass.passed (h : MidPass s₀ log s) (h₀ : AtPoll s₀) (hend : s.fds.length ≤ s.i) :
    Passed s₀ log s := by
  obtain ⟨head, rest, hfds, hfd, -⟩ := h.listening
  have hperm := h.perm_fds
  have hnodup := hperm.nodup_iff.mpr h.nodup
  have hleaving := hnodup.sublist (List.sublist_append_right ..)
  have hapart := (List.nodup_append.mp hnodup).2.2
  have hclients : s.fds.map PollFd.fd = s₀.listenfd :: clients s := by
    rw [clients, hfds, ← h.listenfd, ← hfd]
    rfl
  have hfdsNodup := h.nodup_fds
  rw [hclients, List.nodup_cons] at hfdsNodup
  refine ⟨h.passing.complete (by rwa [List.length_map]), h.distinct hend, ?_, ?_, hfdsNodup.2, ?_, ?_⟩
  · intro c hc
    rw [h.closed c ((h.mem_clients h₀).mp hc).1]
    constructor
    · intro hleft
      exact List.count_eq_one_of_mem hleaving (mem_leaving.mpr hleft)
    · intro hstays
      exact List.count_eq_zero_of_not_mem fun hmem => hstays (mem_leaving.mp hmem)
  · rw [hclients]
    rfl
  · intro c
    rw [h.mem_clients h₀, ← hperm.mem_iff, List.mem_append, mem_leaving, hclients, List.mem_cons]
    constructor
    · intro hc
      refine ⟨⟨Or.inl (Or.inr hc), ?_⟩, ?_⟩
      · rintro rfl
        exact hfdsNodup.1 hc
      · intro hleft
        refine hapart c ?_ c (mem_leaving.mpr hleft) rfl
        rw [hclients]
        exact List.mem_cons_of_mem _ hc
    · rintro ⟨⟨(rfl | hc) | hleft, hne⟩, hstays⟩
      · exact absurd rfl hne
      · exact hc
      · exact absurd hleft hstays
  · have hroom := h.room
    unfold Server.userCounter
    omega

/-- One pass over `fds`, whatever `poll`, `accept` and `recv` have returned: it makes at most
one round more than there are elements, none of which is stuck, and at its end every descriptor
that `poll` has reported on was served once with what `poll` said of it, exactly the clients
that leave were closed, each one once, and `fds` has the listening socket and, without
repetition, the clients that stay and the one that was accepted. -/
theorem pass_serves_once (h₀ : AtPoll s₀)
    (hrun : Logged RoundStep (fun _ _ => True) rounds s₀ log s) :
    log.length ≤ s₀.fds.length + 1 ∧
      (s.i < s.fds.length → ∀ o, (∀ connfd, o = .conn connfd → ∀ e ∈ s.fds, e.fd ≠ connfd) →
        ∃ s', RoundStep s o s') ∧
      (s.fds.length ≤ s.i → Passed s₀ log s) := by
  have hmid : MidPass s₀ log s := by
    apply hrun.invariant (midPass_start h₀)
    intro log s o s' h hstep _
    exact h.step hstep
  refine ⟨?_, ?_, fun hend => hmid.passed h₀ hend⟩
  · have hlen := hmid.passing.length_visited
    have honce := hmid.once
    simp only [List.length_map] at hlen
    omega
  · intro hlt o hfresh
    exact ⟨_, _, List.getElem?_eq_getElem hlt, hfresh, rfl⟩

end Passes

/-! ## A pass with two clients that leave -/

/-- A new connection, a client that leaves, and one with data. -/
def busy : Server :=
  { listenfd := 3
    fds := [⟨3, POLLIN ||| POLLERR, POLLIN⟩, ⟨5, POLLIN ||| POLLRDHUP ||| POLLERR, POLLRDHUP ||| POLLIN⟩,
      ⟨6, POLLIN ||| POLLRDHUP ||| POLLERR, POLLIN⟩]
    users := fun _ => ⟨none, []⟩
    i := 0
    running := true }

/-- The state of the example is one at `poll`. -/
theorem busy_atPoll : AtPoll busy :=
  ⟨rfl, ⟨_, _, rfl, rfl, by decide⟩, by decide, by decide⟩

/-- The last element takes the place of the client that leaves, and so does the new one when
`recv` fails. -/
theorem pass_serves_once_busy :
    ∃ log s, Logged RoundStep (fun _ _ => True) rounds busy log s ∧ Passed busy log s ∧
      clients s = [7] := by
  let s₁ := (busy.round ⟨3, POLLIN ||| POLLERR, POLLIN⟩ (.conn 7)).1
  let s₂ := (s₁.round ⟨5, POLLIN ||| POLLRDHUP ||| POLLERR, POLLRDHUP ||| POLLIN⟩ .nothing).1
  let s₃ := (s₂.round ⟨7, POLLIN ||| POLLRDHUP ||| POLLERR, 0⟩ .nothing).1
  let s₄ := (s₃.round ⟨6, POLLIN ||| POLLRDHUP ||| POLLERR, POLLIN⟩ .failed).1
  have h₁ : RoundStep busy (.conn 7) s₁ := by
    refine ⟨_, rfl, ?_, rfl⟩
    rintro connfd ⟨⟩
    decide
  have h₂ : RoundStep s₁ .nothing s₂ := ⟨_, rfl, nofun, rfl⟩
  have h₃ : RoundStep s₂ .nothing s₃ := ⟨_, rfl, nofun, rfl⟩
  have h₄ : RoundStep s₃ .failed s₄ := ⟨_, rfl, nofun, rfl⟩
  have hrun : Logged RoundStep (fun _ _ => True) rounds busy _ s₄ :=
    (((Logged.refl.step h₁ trivial).step h₂ trivial).step h₃ trivial).step h₄ trivial
  exact ⟨_, s₄, hrun, (pass_serves_once busy_atPoll hrun).2.2 (by decide), by decide⟩

end ServerListings.Analysis.PollPass
