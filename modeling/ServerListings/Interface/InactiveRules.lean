import ServerListings.Interface.TimerListSteps
import ServerListings.Model.InactiveServer

/-!
# The open connections and their timers

`Kept` connects the sequence that the timer list stands for with the open connections: there is
one entry for each connection, with its timer and the time at which it expires. Each branch of
the event loop keeps it, if no timer is deleted that is in the list.
-/

set_option autoImplicit false

namespace ServerListings.Interface.InactiveRules

open Lib.CMem Lib.StableQueue ServerListings.Model ServerListings.Model.InactiveServer
open ServerListings.Interface

/-- The element of `users` of a client, and the callback of its timer. -/
structure IsClient (s : Server) (p : Ptr) (fd : Int) : Prop where
  nonneg : 0 ≤ fd
  user : s.users.get fd = .ok { sockfd := fd, timer := some p }
  calls : callAt s.memory p = some (cbFuncAddress, fd.toNat)

/-- The timer of a connection with the time at which it expires. -/
def entry (touched : Int → Int) (ptr : Int → Ptr) (fd : Int) : Ptr × Int :=
  (ptr fd, touched fd + 3 * TIMESLOT)

/-- The list stands for `q`, which has one entry for each open connection. `ptr` is the timer of
a connection. -/
structure Kept (s : Server) (q : List (Ptr × Int)) (ptr : Int → Ptr) : Prop where
  list : TimerList s.timerLst s.memory q
  entries : q.Perm (s.clients.map (entry s.touched ptr))
  nodup : s.clients.Nodup
  client : ∀ fd ∈ s.clients, IsClient s (ptr fd) fd
  past : ∀ fd ∈ s.clients, s.touched fd ≤ s.now

section Rules

variable {s : Server} {q : List (Ptr × Int)} {ptr : Int → Ptr} {fd cur : Int} {p : Ptr}

/-- Before the loop there are no clients. -/
theorem Kept.start (users : CArray ClientData FD_LIMIT) (now : Int) (ptr : Int → Ptr) :
    Kept (start users now) [] ptr := by
  refine ⟨.create _, .refl _, List.nodup_nil, ?_, ?_⟩
  · intro fd hfd
    cases hfd
  · intro fd hfd
    cases hfd

/-- Time goes on. -/
theorem Kept.clock (h : Kept s q ptr) (hcur : s.now ≤ cur) : Kept { s with now := cur } q ptr :=
  ⟨h.list, h.entries, h.nodup, fun fd hfd => ⟨(h.client fd hfd).nonneg, (h.client fd hfd).user,
    (h.client fd hfd).calls⟩, fun fd hfd => (h.past fd hfd).trans hcur⟩

/-- The timers of the list are those of the clients. -/
theorem Kept.names_perm (h : Kept s q ptr) : (names q).Perm (s.clients.map ptr) := by
  have hperm := h.entries.map Prod.fst
  rw [List.map_map] at hperm
  exact hperm

/-- The timer of a client is in the list, with its time. -/
theorem Kept.mem_entry (h : Kept s q ptr) (hfd : fd ∈ s.clients) : entry s.touched ptr fd ∈ q :=
  h.entries.mem_iff.mpr (List.mem_map_of_mem hfd)

/-- Different connections have different timers. -/
theorem Kept.ptr_inj (h : Kept s q ptr) {fd fd' : Int} (hfd : fd ∈ s.clients)
    (hfd' : fd' ∈ s.clients) (heq : ptr fd = ptr fd') : fd = fd' :=
  List.inj_on_of_nodup_map (h.names_perm.nodup_iff.mp h.list.nodup) hfd hfd' heq

/-- The entries without that of one connection. -/
theorem Kept.remove_perm (h : Kept s q ptr) (hfd : fd ∈ s.clients) :
    (remove (ptr fd) q).Perm ((s.clients.filter (· ≠ fd)).map (entry s.touched ptr)) := by
  have hperm := h.entries.filter fun x => decide (x.1 ≠ ptr fd)
  rw [List.filter_map] at hperm
  have hsame : s.clients.filter ((fun x => decide (x.1 ≠ ptr fd)) ∘ entry s.touched ptr) =
      s.clients.filter (· ≠ fd) := by
    apply List.filter_congr
    intro fd' hfd'
    apply decide_eq_decide.mpr
    refine not_congr ⟨fun heq => h.ptr_inj hfd' hfd heq, ?_⟩
    rintro rfl
    rfl
  rw [hsame] at hperm
  exact hperm

/-! ## Opening and closing -/

/-- `accept`, if the timer is not deleted. -/
theorem Kept.accept (h : Kept s q ptr) {connfd : Int} (hnew : connfd ∉ s.clients)
    (hp : s.memory.nodes p = none) (hrange : 0 ≤ connfd ∧ connfd < FD_LIMIT) (hcur : s.now = cur) :
    ∃ s', s.acceptClient .kept cur connfd p = .ok s' ∧
      Kept s' (enqueue (p, cur + 3 * TIMESLOT) q) (Function.update ptr connfd p) := by
  obtain ⟨users, hset, hget, hother⟩ :=
    s.users.exists_set { sockfd := connfd, timer := some p } hrange
  let t : UtilTimer := ⟨cur + 3 * TIMESLOT, some cbFuncAddress, connfd.toNat, none, none⟩
  obtain ⟨l, m, hadd, hlist, hdata⟩ := h.list.make_add (t := t) hp rfl rfl rfl
  have hfresh : p ∉ names q := (h.list.make hp t).2
  have hne : ∀ fd ∈ s.clients, fd ≠ connfd := by
    rintro fd hfd rfl
    exact hnew hfd
  have hptr : ∀ fd ∈ s.clients, ptr fd ≠ p := by
    rintro fd hfd rfl
    exact hfresh (mem_names (h.mem_entry hfd))
  refine ⟨{ s with
    users := users, memory := m, timerLst := l, clients := connfd :: s.clients,
    touched := Function.update s.touched connfd cur }, ?_, ?_⟩
  · have hadd' : s.timerLst.addTimer (s.memory.make p
        ⟨cur + 3 * TIMESLOT, some cbFuncAddress, connfd.toNat, none, none⟩) (some p) = .ok (l, m) :=
      hadd
    rw [Server.acceptClient, hset]
    simp only [ok_bind, hadd']
    rfl
  · refine ⟨hlist, ?_, List.nodup_cons.mpr ⟨hnew, h.nodup⟩, ?_, ?_⟩
    · have hsame : s.clients.map (entry (Function.update s.touched connfd cur)
          (Function.update ptr connfd p)) = s.clients.map (entry s.touched ptr) := by
        apply List.map_congr_left
        intro fd hfd
        rw [entry, Function.update_of_ne (hne fd hfd), Function.update_of_ne (hne fd hfd), entry]
      have hself : entry (Function.update s.touched connfd cur) (Function.update ptr connfd p)
          connfd = (p, cur + 3 * TIMESLOT) := by
        rw [entry, Function.update_self, Function.update_self]
      rw [List.map_cons, hself, hsame]
      exact (enqueue_perm _ q).trans (h.entries.cons _)
    · intro fd hfd
      rcases List.mem_cons.mp hfd with rfl | hold
      · rw [Function.update_self]
        refine ⟨hrange.1, hget, ?_⟩
        rw [hdata.callAt, callAt, dataOf, observe_make_self]
        rfl
      · have hclient := h.client fd hold
        rw [Function.update_of_ne (hne fd hold)]
        refine ⟨hclient.nonneg, (hother fd (hne fd hold)).trans hclient.user, ?_⟩
        rw [hdata.callAt, callAt, dataOf, observe_make (hptr fd hold)]
        exact hclient.calls
    · intro fd hfd
      rcases List.mem_cons.mp hfd with rfl | hold
      · change Function.update s.touched fd cur fd ≤ s.now
        rw [Function.update_self, hcur]
      · change Function.update s.touched connfd cur fd ≤ s.now
        rw [Function.update_of_ne (hne fd hold)]
        exact h.past fd hold

/-- `cb_func` closes the connection of the element of `users`. -/
theorem cbFunc_eq {timer : Option Ptr} (huser : s.users.get fd = .ok ⟨fd, timer⟩) :
    s.cbFunc fd = .ok (s.closeFd fd) := by
  rw [Server.cbFunc, huser, ok_bind]
  rfl

/-- A connection is closed and its timer is deleted. -/
theorem Kept.dropClient (h : Kept s q ptr) (hfd : fd ∈ s.clients) :
    ∃ s', s.dropClient fd = .ok s' ∧ Kept s' (remove (ptr fd) q) ptr ∧
      s'.clients = s.clients.filter (· ≠ fd) := by
  have hclient := h.client fd hfd
  obtain ⟨l, m, hdel, hlist, hgone, -⟩ := h.list.del (mem_names (h.mem_entry hfd))
  refine ⟨{ s.closeFd fd with memory := m, timerLst := l }, ?_, ?_, rfl⟩
  · rw [Server.dropClient, hclient.user, ok_bind, cbFunc_eq hclient.user, ok_bind]
    have hdel' : (s.closeFd fd).timerLst.delTimer (s.closeFd fd).memory (some (ptr fd)) =
        .ok (l, m) := hdel
    simp only [Option.isSome_some, if_true, hdel', ok_bind]
    rfl
  · refine ⟨hlist, h.remove_perm hfd, h.nodup.filter _, ?_, ?_⟩
    · intro fd' hfd'
      obtain ⟨hmem, hne⟩ := List.mem_filter.mp hfd'
      have hother := h.client fd' hmem
      refine ⟨hother.nonneg, hother.user, ?_⟩
      rw [hgone.callAt]
      · exact hother.calls
      · rw [List.mem_singleton]
        intro heq
        exact of_decide_eq_true hne (h.ptr_inj hmem hfd heq)
    · intro fd' hfd'
      exact h.past fd' (List.mem_filter.mp hfd').1

/-- Data of a client were read. -/
theorem Kept.readData (h : Kept s q ptr) (hfd : fd ∈ s.clients) (hcur : s.now = cur) :
    ∃ s', s.readData cur fd = .ok s' ∧ Kept s' (adjust (ptr fd) (cur + 3 * TIMESLOT) q) ptr ∧
      s'.clients = s.clients := by
  have hclient := h.client fd hfd
  have hlater : s.touched fd + 3 * TIMESLOT ≤ cur + 3 * TIMESLOT := by
    have hpast := h.past fd hfd
    omega
  obtain ⟨m₁, l, m, hset, hadj, hlist, hdata⟩ := h.list.set_adjust (h.mem_entry hfd) hlater
  refine ⟨{ s with
    touched := Function.update s.touched fd cur, memory := m, timerLst := l }, ?_, ?_, rfl⟩
  · rw [Server.readData, hclient.user, ok_bind]
    simp only [Option.isSome_some, if_true, hset, ok_bind, hadj]
    rfl
  · refine ⟨hlist, ?_, h.nodup, ?_, ?_⟩
    · have hsame : (s.clients.filter (· ≠ fd)).map (entry (Function.update s.touched fd cur) ptr) =
          (s.clients.filter (· ≠ fd)).map (entry s.touched ptr) := by
        apply List.map_congr_left
        intro fd' hfd'
        have hne := of_decide_eq_true (List.mem_filter.mp hfd').2
        rw [entry, Function.update_of_ne hne, entry]
      have hself : entry (Function.update s.touched fd cur) ptr fd = (ptr fd, cur + 3 * TIMESLOT) := by
        rw [entry, Function.update_self]
      have hfront : (fd :: s.clients.filter (· ≠ fd)).Perm s.clients := by
        have hnot : fd ∉ s.clients.filter (· ≠ fd) := by simp
        apply (List.perm_ext_iff_of_nodup (List.nodup_cons.mpr ⟨hnot, h.nodup.filter _⟩) h.nodup).mpr
        intro fd'
        by_cases hne : fd' = fd
        · simp [hne, hfd]
        · simp [hne]
      have hmap := hfront.map (entry (Function.update s.touched fd cur) ptr)
      rw [List.map_cons, hself, hsame] at hmap
      exact (enqueue_perm _ _).trans (((h.remove_perm hfd).cons _).trans hmap)
    · intro fd' hfd'
      have hother := h.client fd' hfd'
      refine ⟨hother.nonneg, hother.user, ?_⟩
      rw [hdata.callAt, callAt_setExpire hset]
      exact hother.calls
    · intro fd' hfd'
      change Function.update s.touched fd cur fd' ≤ s.now
      by_cases hne : fd' = fd
      · rw [hne, Function.update_self, hcur]
      · rw [Function.update_of_ne hne]
        exact h.past fd' hfd'

/-! ## A tick -/

/-- The entries of the queue are those of the connections. -/
theorem Kept.of_mem (h : Kept s q ptr) {x : Ptr × Int} (hx : x ∈ q) :
    ∃ fd ∈ s.clients, x = entry s.touched ptr fd := by
  obtain ⟨fd, hfd, heq⟩ := List.mem_map.mp (h.entries.mem_iff.mp hx)
  exact ⟨fd, hfd, heq.symm⟩

/-- The entry of a connection is due when the connection was idle for three slots. -/
theorem Kept.due_iff (h : Kept s q ptr) (hfd : fd ∈ s.clients) :
    ptr fd ∈ names (due cur q) ↔ s.touched fd + 3 * TIMESLOT ≤ cur := by
  constructor
  · intro hmem
    obtain ⟨x, hx, hname⟩ := List.mem_map.mp hmem
    obtain ⟨hq, hdue⟩ := List.mem_filter.mp hx
    obtain ⟨fd', hfd', rfl⟩ := h.of_mem hq
    obtain rfl := h.ptr_inj hfd' hfd hname
    exact of_decide_eq_true hdue
  · intro hdue
    exact mem_names (List.mem_filter.mpr ⟨h.mem_entry hfd, decide_eq_true hdue⟩)

/-- The callbacks of a tick close the connections of their elements of `users`. -/
theorem foldlM_cbFunc (calls : List (Nat × Nat)) :
    ∀ s : Server, (∀ c ∈ calls, ∃ timer, s.users.get c.2 = .ok ⟨c.2, timer⟩) →
      calls.foldlM (fun s c => s.cbFunc c.2) s = .ok { s with
        clients := s.clients.filter fun fd => fd ∉ calls.map fun c => (c.2 : Int) } := by
  induction calls with
  | nil =>
    intro s _
    have hall : s.clients.filter (fun fd => fd ∉ ([] : List (Nat × Nat)).map fun c => (c.2 : Int)) =
        s.clients := List.filter_eq_self.mpr fun fd _ => by simp
    rw [hall]
    rfl
  | cons c calls ih =>
    intro s husers
    obtain ⟨timer, huser⟩ := husers c List.mem_cons_self
    have hrest : ∀ c' ∈ calls, ∃ timer, (s.closeFd c.2).users.get c'.2 = .ok ⟨c'.2, timer⟩ :=
      fun c' hc' => husers c' (List.mem_cons_of_mem _ hc')
    have hfilter : (s.closeFd c.2).clients.filter
        (fun fd => fd ∉ calls.map fun c => (c.2 : Int)) =
          s.clients.filter fun fd => fd ∉ (c :: calls).map fun c => (c.2 : Int) := by
      rw [Server.closeFd, List.filter_filter]
      apply List.filter_congr
      intro fd _
      apply Bool.eq_iff_iff.mpr
      simp only [Bool.and_eq_true, decide_eq_true_eq, List.map_cons, List.mem_cons, not_or]
      exact and_comm
    rw [List.foldlM_cons, cbFunc_eq huser]
    change calls.foldlM _ (s.closeFd c.2) = _
    rw [ih _ hrest, hfilter]
    rfl

/-- Every callback of a tick is that of a connection that is due. -/
theorem Kept.called (h : Kept s q ptr) {calls : List (Nat × Nat)}
    (hcalls : calls.map some = (due cur q).map (callAt s.memory ·.1)) {c : Nat × Nat}
    (hc : c ∈ calls) : (c.2 : Int) ∈ s.clients ∧ ptr c.2 ∈ names (due cur q) := by
  have hmem : some c ∈ (due cur q).map (callAt s.memory ·.1) := hcalls ▸ List.mem_map_of_mem hc
  obtain ⟨x, hx, hcall⟩ := List.mem_map.mp hmem
  obtain ⟨fd, hfd, rfl⟩ := h.of_mem (List.mem_filter.mp hx).1
  have hclient := h.client fd hfd
  obtain rfl := Option.some.inj (hclient.calls.symm.trans hcall)
  rw [Int.toNat_of_nonneg hclient.nonneg]
  exact ⟨hfd, mem_names hx⟩

/-- The callbacks of a tick are those of the connections that were idle for three slots. -/
theorem Kept.called_iff (h : Kept s q ptr) {calls : List (Nat × Nat)}
    (hcalls : calls.map some = (due cur q).map (callAt s.memory ·.1)) (hfd : fd ∈ s.clients) :
    (fd ∈ calls.map fun c => (c.2 : Int)) ↔ s.touched fd ≤ cur - 3 * TIMESLOT := by
  have htime : s.touched fd ≤ cur - 3 * TIMESLOT ↔ s.touched fd + 3 * TIMESLOT ≤ cur := by omega
  rw [htime, ← h.due_iff hfd]
  constructor
  · intro hmem
    obtain ⟨c, hc, rfl⟩ := List.mem_map.mp hmem
    exact (h.called hcalls hc).2
  · intro hname
    obtain ⟨x, hx, hxname⟩ := List.mem_map.mp hname
    have hclient := h.client fd hfd
    have hmem : some (cbFuncAddress, fd.toNat) ∈ calls.map some := by
      rw [hcalls]
      exact List.mem_map.mpr ⟨x, hx, hxname ▸ hclient.calls⟩
    obtain ⟨c, hc, heq⟩ := List.mem_map.mp hmem
    obtain rfl := Option.some.inj heq
    exact List.mem_map.mpr ⟨_, hc, Int.toNat_of_nonneg hclient.nonneg⟩

/-- A tick closes the connections that were idle for three slots. -/
theorem Kept.timerHandler (h : Kept s q ptr) (cur : Int) :
    ∃ s', s.timerHandler cur = .ok s' ∧ Kept s' (later cur q) ptr ∧
      s'.clients = s.clients.filter fun fd => ¬ s.touched fd ≤ cur - 3 * TIMESLOT := by
  obtain ⟨l, m, htick, hlist, hgone, hmade⟩ := h.list.tick_spec cur
  let calls := m.calls.drop s.memory.calls.length
  have hcalls : calls.map some = (due cur q).map (callAt s.memory ·.1) := by
    have hdrop := congrArg (List.drop s.memory.calls.length) hmade
    rw [← List.map_drop] at hdrop
    rw [hdrop]
    apply List.drop_left'
    rw [List.length_map]
  have hclose := foldlM_cbFunc calls { s with memory := m, timerLst := l } fun c hc =>
    ⟨_, (h.client _ (h.called hcalls hc).1).user⟩
  have hclients : (s.clients.filter fun fd => fd ∉ calls.map fun c => (c.2 : Int)) =
      s.clients.filter fun fd => ¬ s.touched fd ≤ cur - 3 * TIMESLOT := by
    apply List.filter_congr
    intro fd hfd
    exact decide_eq_decide.mpr (not_congr (h.called_iff hcalls hfd))
  refine ⟨{ s with
    memory := m, timerLst := l,
    clients := s.clients.filter fun fd => ¬ s.touched fd ≤ cur - 3 * TIMESLOT }, ?_, ?_, rfl⟩
  · rw [Server.timerHandler, htick, ok_bind, ← hclients]
    exact hclose
  · refine ⟨hlist, ?_, h.nodup.filter _, ?_, ?_⟩
    · have hperm := h.entries.filter fun x => decide (cur < x.2)
      rw [List.filter_map] at hperm
      have hsame : s.clients.filter ((fun x => decide (cur < x.2)) ∘ entry s.touched ptr) =
          s.clients.filter fun fd => ¬ s.touched fd ≤ cur - 3 * TIMESLOT := by
        apply List.filter_congr
        intro fd _
        apply decide_eq_decide.mpr
        rw [entry]
        omega
      rw [hsame] at hperm
      exact hperm
    · intro fd hfd
      obtain ⟨hmem, hidle⟩ := List.mem_filter.mp hfd
      have hclient := h.client fd hmem
      refine ⟨hclient.nonneg, hclient.user, ?_⟩
      rw [hgone.callAt]
      · exact hclient.calls
      · intro hname
        have hdue := (h.due_iff hmem).mp hname
        have hlate := of_decide_eq_true hidle
        omega
    · intro fd hfd
      exact h.past fd (List.mem_filter.mp hfd).1

/-! ## The events -/

variable {d : Disposal} {e : Event}

/-- `accept` returned a descriptor that `users` has an element for. -/
def InRange (e : Event) : Prop :=
  ∀ connfd p, e = .accept connfd p → 0 ≤ connfd ∧ connfd < FD_LIMIT

/-- The event does not delete a timer that is in the list. -/
def Harmless (d : Disposal) (e : Event) : Prop := d = .kept ∨ ∀ connfd p, e ≠ .accept connfd p

/-- Only an accept that deletes its timer is harmful. -/
theorem not_harmless (h : ¬ Harmless d e) :
    d = .deleted ∧ ∃ connfd p, e = .accept connfd p := by
  rw [Harmless, not_or, not_forall] at h
  obtain ⟨hd, connfd, he⟩ := h
  obtain ⟨p, he⟩ := not_forall.mp he
  refine ⟨?_, connfd, p, not_not.mp he⟩
  cases d with
  | deleted => rfl
  | kept => exact absurd rfl hd

/-- Every harmless event is handled, and each client keeps its timer. -/
theorem Kept.handle (h : Kept s q ptr) (hallowed : s.Allowed cur e) (hrange : InRange e)
    (hharmless : Harmless d e) :
    ∃ s' q' ptr', s.handle d cur e = .ok s' ∧ Kept s' q' ptr' := by
  have hclock := h.clock hallowed.1
  cases e with
  | accept connfd p =>
    obtain rfl : d = .kept := hharmless.resolve_right fun hne => hne connfd p rfl
    obtain ⟨s', hs', hkept⟩ :=
      hclock.accept hallowed.2.1 hallowed.2.2 (hrange connfd p rfl) rfl
    exact ⟨s', _, _, hs', hkept⟩
  | data fd =>
    obtain ⟨s', hs', hkept, -⟩ := hclock.readData hallowed.2 rfl
    exact ⟨s', _, _, hs', hkept⟩
  | again fd => exact ⟨_, _, _, rfl, hclock⟩
  | readError fd =>
    obtain ⟨s', hs', hkept, -⟩ := hclock.dropClient hallowed.2
    exact ⟨s', _, _, hs', hkept⟩
  | peerClose fd =>
    obtain ⟨s', hs', hkept, -⟩ := hclock.dropClient hallowed.2
    exact ⟨s', _, _, hs', hkept⟩
  | tick =>
    obtain ⟨s', hs', hkept, -⟩ := hclock.timerHandler cur
    exact ⟨s', _, _, hs', hkept⟩

/-- A connection that was accepted has an element of `users`. -/
theorem inRange_of_ok {s' : Server} (h : s.handle d cur e = .ok s') : InRange e := by
  rintro connfd p rfl
  by_contra hrange
  have hset : s.users.set connfd ⟨connfd, some p⟩ = .error .outOfBounds := if_neg hrange
  rw [Server.handle] at h
  simp only [Server.acceptClient, hset] at h
  cases h

/-- The timer that was added can be deleted, so no event leads to a fault. -/
theorem Kept.defined (h : Kept s q ptr) (hallowed : s.Allowed cur e) (hrange : InRange e) :
    ∃ s', s.handle d cur e = .ok s' := by
  by_cases hharmless : Harmless d e
  · obtain ⟨s', -, -, hs', -⟩ := h.handle hallowed hrange hharmless
    exact ⟨s', hs'⟩
  · obtain ⟨rfl, connfd, p, rfl⟩ := not_harmless hharmless
    obtain ⟨s₁, hs₁, hkept⟩ :=
      (h.clock hallowed.1).accept hallowed.2.1 hallowed.2.2 (hrange connfd p rfl) rfl
    have hmem : (p, cur + 3 * TIMESLOT) ∈ enqueue (p, cur + 3 * TIMESLOT) q :=
      (enqueue_perm _ q).mem_iff.mpr List.mem_cons_self
    obtain ⟨m', hdel, -⟩ := (hkept.list.timers _ hmem).delete
    obtain ⟨users, hset, hs₁⟩ := bind_eq_ok.mp hs₁
    obtain ⟨⟨l, m⟩, hadd, hs₁⟩ := bind_eq_ok.mp hs₁
    obtain rfl := Except.ok.inj hs₁
    exact ⟨_, bind_eq_ok.mpr ⟨users, hset,
      bind_eq_ok.mpr ⟨(l, m), hadd, bind_eq_ok.mpr ⟨m', hdel, rfl⟩⟩⟩⟩

/-- Every harmless step keeps a timer for each client. -/
theorem Kept.step (h : Kept s q ptr) {s' : Server} {a : Int × Event} (hstep : Step d s a s')
    (hharmless : Harmless d a.2) : ∃ q' ptr', Kept s' q' ptr' := by
  obtain ⟨s₁, q', ptr', hs₁, hkept⟩ :=
    h.handle hstep.1 (inRange_of_ok hstep.2) hharmless
  obtain rfl := result_unique hs₁ hstep.2
  exact ⟨q', ptr', hkept⟩

/-! ## The timer that is deleted -/

/-- A deleted object is not there. -/
theorem deleted_nodes {m m' : Memory} (h : m.delete (some p) = .ok m') : m'.nodes p = none := by
  simp only [Memory.delete] at h
  split at h
  · cases h
  · obtain rfl := Except.ok.inj h
    exact if_pos rfl

/-- `accept` as it is written leaves the element of `users` with a timer that is no object. -/
theorem accept_deleted {connfd : Int} {s' : Server}
    (h : s.handle .deleted cur (.accept connfd p) = .ok s') :
    s'.users.get connfd = .ok ⟨connfd, some p⟩ ∧ s'.memory.nodes p = none ∧
      connfd ∈ s'.clients := by
  obtain ⟨users, hset, hget, -⟩ :=
    s.users.exists_set { sockfd := connfd, timer := some p } (inRange_of_ok h connfd p rfl)
  rw [Server.handle] at h
  simp only [Server.acceptClient, hset, ok_bind] at h
  obtain ⟨⟨l, m⟩, -, h⟩ := bind_eq_ok.mp h
  obtain ⟨m', hdel, h⟩ := bind_eq_ok.mp h
  obtain rfl := Except.ok.inj h
  exact ⟨hget, deleted_nodes hdel, List.mem_cons_self⟩

end Rules

end ServerListings.Interface.InactiveRules
