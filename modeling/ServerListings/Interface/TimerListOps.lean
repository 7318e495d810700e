import ServerListings.Interface.TimerLinks

/-!
# The operations of the timer list

`TimerList s m q` says that the list object `s` holds the timers of the entries `q` in memory
`m`. Nothing is said of `tail` when there is no timer: `tick` leaves it dangling. For each
operation there is one rule: it has a result, and the result holds the entries that the
operation on sorted sequences gives.
-/

set_option autoImplicit false

namespace ServerListings.Interface

open Lib.CMem Lib.DoublyLinked Lib.StableQueue ServerListings.Model ServerListings.Model.SortTimerLst

/-- The list object `s` holds the timers of the entries `q`, in the order of their keys. -/
structure TimerList (s : SortTimerLst) (m : Memory) (q : List (Ptr × Int)) : Prop
    extends Chained m q where
  head : s.head = (names q).head?
  tail : q ≠ [] → s.tail = (names q).getLast?
  sorted : Sorted q
  made : q.length ≤ m.made

section Operations

variable {s : SortTimerLst} {m m' : Memory} {q a b c d : List (Ptr × Int)} {x u v : Ptr × Int}

/-- The last timer of a list is the one that was appended. -/
theorem names_concat (a : List (Ptr × Int)) (u : Ptr × Int) : (names (a ++ [u])).getLast? = some u.1 := by
  rw [names_append]
  exact List.getLast?_concat

/-- The last timer of a list is that of its second part. -/
theorem names_last (a : List (Ptr × Int)) (u : Ptr × Int) (b : List (Ptr × Int)) :
    (names (a ++ u :: b)).getLast? = (names (u :: b)).getLast? := by
  rw [names_append, names_cons]
  exact List.getLast?_append_of_ne_nil _ (List.cons_ne_nil _ _)

/-- The last timer of a list is not its first one, if there is another one. -/
theorem names_cons_last (u v : Ptr × Int) (b : List (Ptr × Int)) :
    (names (u :: v :: b)).getLast? = (names (v :: b)).getLast? :=
  List.getLast?_cons_cons

/-- The timer in the middle is in the list. -/
theorem mem_middle (a b : List (Ptr × Int)) (x : Ptr × Int) : x ∈ a ++ x :: b :=
  List.mem_append_right _ List.mem_cons_self

/-! ## Inserting -/

/-- The four writes that link `x` in between two timers `u` and `v`. -/
theorem link_between (h : Chained m (a ++ [u] ++ v :: b)) (hx : IsTimer m x)
    (hnew : x.1 ∉ names (a ++ [u] ++ v :: b)) :
    ∃ m₁ m₂ m₃ m', m.setNext (some u.1) (some x.1) = .ok m₁ ∧
      m₁.setNext (some x.1) (some v.1) = .ok m₂ ∧ m₂.setPrev (some v.1) (some x.1) = .ok m₃ ∧
      m₃.setPrev (some x.1) (some u.1) = .ok m' ∧ SameData m m' ∧
      Chained m' (a ++ [u] ++ x :: v :: b) := by
  have hu : IsTimer m u := h.timers u (List.mem_append_left _ (mem_middle a [] u))
  have hv : IsTimer m v := h.timers v (mem_middle _ b v)
  obtain ⟨m₁, hw₁, hs₁, hp₁, hn₁⟩ := hu.setNext (some x.1)
  obtain ⟨m₂, hw₂, hs₂, hp₂, hn₂⟩ := (hs₁.isTimer hx).setNext (some v.1)
  have hs := hs₁.trans hs₂
  obtain ⟨m₃, hw₃, hs₃, hn₃, hp₃⟩ := (hs.isTimer hv).setPrev (some x.1)
  have hs := hs.trans hs₃
  obtain ⟨m₄, hw₄, hs₄, hn₄, hp₄⟩ := (hs.isTimer hx).setPrev (some u.1)
  refine ⟨m₁, m₂, m₃, m₄, hw₁, hw₂, hw₃, hw₄, hs.trans hs₄, ?_⟩
  apply h.insert hx hnew (hs.trans hs₄)
  · rw [hp₄, hp₃, hp₂, hp₁, names_concat]
    rfl
  · rw [hn₄, hn₃, hn₂, hn₁, names_concat]
    rfl

/-- The loop of the overload of `add_timer`, with `u` behind it and `b` before it, passes the
entries that are no later than the new one. When it comes to a later one it links the new
timer in. -/
theorem insertLoop_spec (hx : IsTimer m x) (b : List (Ptr × Int)) :
    ∀ (a : List (Ptr × Int)) (u : Ptr × Int) (n : Nat), Chained m (a ++ u :: b) →
      x.1 ∉ names (a ++ u :: b) → b.length < n →
      ∃ m' c d, insertLoop (some x.1) n (some u.1) (names b).head? m =
          .ok ((names (u :: c)).getLast?, (names d).head?, m') ∧
        b = c ++ d ∧ (∀ y ∈ c, y.2 ≤ x.2) ∧ (∀ y, d.head? = some y → x.2 < y.2) ∧
        SameData m m' ∧ (d = [] → m' = m) ∧ (d ≠ [] → Chained m' (a ++ u :: c ++ x :: d)) := by
  induction b with
  | nil =>
    intro a u n h _ hn
    obtain ⟨n, rfl⟩ := Nat.exists_eq_succ_of_ne_zero (Nat.ne_of_gt hn)
    refine ⟨m, [], [], rfl, rfl, ?_, ?_, .refl m, fun _ => rfl, fun hne => absurd rfl hne⟩
    · intro y hy
      cases hy
    · intro y hy
      cases hy
  | cons v b ih =>
    intro a u n h hnew hn
    obtain ⟨n, rfl⟩ := Nat.exists_eq_succ_of_ne_zero (Nat.ne_of_gt (Nat.zero_lt_of_lt hn))
    rw [← List.singleton_append, ← List.append_assoc] at h hnew
    obtain ⟨t, ht, hexpire, -, -⟩ := hx.deref
    obtain ⟨tv, htv, hexpirev, -, hnextv⟩ := h.deref
    rw [names_cons, List.head?_cons, insertLoop, ht, htv]
    simp only [Option.isNone_some, Bool.false_eq_true, if_false, ok_bind]
    by_cases hlt : t.expire < tv.expire
    · obtain ⟨m₁, m₂, m₃, m₄, hw₁, hw₂, hw₃, hw₄, hs, hc⟩ := link_between h hx hnew
      rw [if_pos hlt, hw₁, ok_bind, hw₂, ok_bind, hw₃, ok_bind, hw₄, ok_bind]
      rw [hexpire, hexpirev] at hlt
      refine ⟨m₄, [], v :: b, rfl, rfl, ?_, ?_, hs, fun hnil => absurd hnil (List.cons_ne_nil _ _),
        fun _ => hc⟩
      · intro y hy
        cases hy
      · intro y hy
        rwa [← Option.some.inj hy]
    · obtain ⟨m', c, d, hloop, hsplit, hle, hgt, hs, hnil, hcons⟩ :=
        ih (a ++ [u]) v n h hnew (Nat.lt_of_succ_lt_succ hn)
      rw [if_neg hlt, hnextv]
      rw [hexpire, hexpirev] at hlt
      refine ⟨m', v :: c, d, ?_, ?_, ?_, hgt, hs, hnil, ?_⟩
      · rw [hloop, names_cons, names_cons, names_cons, List.getLast?_cons_cons]
      · rw [hsplit, List.cons_append]
      · intro y hy
        rcases List.mem_cons.mp hy with rfl | hy
        · exact not_lt.mp hlt
        · exact hle y hy
      · intro hne
        have hc := hcons hne
        rwa [List.append_assoc a [u]] at hc

/-- The three writes that link `x` in behind the last timer. -/
theorem link_last (h : Chained m (a ++ [u])) (hx : IsTimer m x) (hnew : x.1 ∉ names (a ++ [u])) :
    ∃ m₁ m₂ m', m.setNext (some u.1) (some x.1) = .ok m₁ ∧
      m₁.setPrev (some x.1) (some u.1) = .ok m₂ ∧ m₂.setNext (some x.1) none = .ok m' ∧
      SameData m m' ∧ Chained m' (a ++ [u] ++ [x]) := by
  have hu : IsTimer m u := h.timers u (mem_middle a [] u)
  obtain ⟨m₁, hw₁, hs₁, hp₁, hn₁⟩ := hu.setNext (some x.1)
  obtain ⟨m₂, hw₂, hs₂, hn₂, hp₂⟩ := (hs₁.isTimer hx).setPrev (some u.1)
  have hs := hs₁.trans hs₂
  obtain ⟨m₃, hw₃, hs₃, hp₃, hn₃⟩ := (hs.isTimer hx).setNext none
  refine ⟨m₁, m₂, m₃, hw₁, hw₂, hw₃, hs.trans hs₃, ?_⟩
  rw [← List.append_nil (a ++ [u])] at h hnew
  apply h.insert hx hnew (hs.trans hs₃)
  · rw [hp₃, hp₂, hp₁, names_concat]
    rfl
  · rw [hn₃, hn₂, hn₁, names_concat]
    rfl

/-- The overload of `add_timer` puts the new timer between the entries behind `u` that are no
later and the ones that are. -/
theorem addTimerFrom_spec (s : SortTimerLst) (hx : IsTimer m x) (h : Chained m (a ++ u :: b))
    (hnew : x.1 ∉ names (a ++ u :: b)) (hmade : b.length ≤ m.made) :
    ∃ s' m' c d, s.addTimerFrom m (some x.1) (some u.1) = .ok (s', m') ∧
      b = c ++ d ∧ (∀ y ∈ c, y.2 ≤ x.2) ∧ (∀ y, d.head? = some y → x.2 < y.2) ∧
      SameData m m' ∧ Chained m' (a ++ u :: c ++ x :: d) ∧ s'.head = s.head ∧
      (d = [] → s'.tail = some x.1) ∧ (d ≠ [] → s'.tail = s.tail) := by
  obtain ⟨t, ht, -, -, hnext⟩ := h.deref
  obtain ⟨m', c, d, hloop, rfl, hle, hgt, hs, hnil, hcons⟩ :=
    insertLoop_spec hx b a u (m.made + 1) h hnew (Nat.lt_succ_of_le hmade)
  rw [addTimerFrom, ht, ok_bind, hnext, hloop, ok_bind]
  cases d with
  | cons v d =>
    have hne : v :: d ≠ [] := List.cons_ne_nil v d
    exact ⟨s, m', c, v :: d, rfl, rfl, hle, hgt, hs, hcons hne, rfl, fun hnil => absurd hnil hne,
      fun _ => rfl⟩
  | nil =>
    obtain rfl := hnil rfl
    rw [List.append_nil] at h hnew
    obtain ⟨e, w, hw⟩ := (List.eq_nil_or_concat (u :: c)).resolve_left (List.cons_ne_nil u c)
    rw [List.concat_eq_append] at hw
    rw [hw, ← List.append_assoc] at h hnew
    obtain ⟨m₁, m₂, m₃, hw₁, hw₂, hw₃, hs, hc⟩ := link_last h hx hnew
    rw [hw, names_concat]
    simp only [names_nil, List.head?_nil, Option.isNone_none, if_true, hw₁, hw₂, hw₃, ok_bind]
    rw [List.append_assoc a e, ← hw] at hc
    exact ⟨_, m₃, c, [], rfl, rfl, hle, hgt, hs, hc, rfl, fun _ => rfl, fun hne => absurd rfl hne⟩

/-- In a sorted list whose entries up to `v` are no later than the new one, the overload of
`add_timer` finds the place by the rule. -/
theorem addTimerFrom_sorted (hx : IsTimer m x) (h : Chained m (a ++ v :: b))
    (hnew : x.1 ∉ names (a ++ v :: b)) (hhead : s.head = (names (a ++ v :: b)).head?)
    (htail : s.tail = (names (v :: b)).getLast?) (hsorted : Sorted (a ++ v :: b))
    (hmade : (a ++ v :: b).length < m.made) (hle : ∀ y ∈ a, y.2 ≤ x.2) (hv : v.2 ≤ x.2) :
    ∃ s' m', s.addTimerFrom m (some x.1) (some v.1) = .ok (s', m') ∧
      TimerList s' m' (enqueue x (a ++ v :: b)) ∧ SameData m m' := by
  have hmade' : b.length ≤ m.made := by
    rw [List.length_append, List.length_cons] at hmade
    omega
  obtain ⟨s', m', c, d, hadd, rfl, hlec, hgt, hs, hc, hhead', htail', htail''⟩ :=
    addTimerFrom_spec s hx h hnew hmade'
  have hplace : enqueue x (a ++ v :: (c ++ d)) = a ++ v :: c ++ x :: d := by
    rw [← List.cons_append, ← List.append_assoc]
    apply enqueue_append
    · intro y hy
      rcases List.mem_append.mp (List.mem_of_getLast? hy) with hya | hyc
      · exact hle y hya
      · rcases List.mem_cons.mp hyc with rfl | hyc
        · exact hv
        · exact hlec y hyc
    · intro y hy
      refine Sorted.lt_of_head (List.Pairwise.sublist ?_ hsorted) hgt hy
      exact ((List.sublist_append_right c d).cons v).trans (List.sublist_append_right a _)
  have hsorted' := hsorted.enqueue x
  have hlen := (enqueue_perm x (a ++ v :: (c ++ d))).length_eq
  rw [hplace] at hsorted' hlen ⊢
  refine ⟨s', m', hadd, ⟨hc, ?_, ?_, hsorted', ?_⟩, hs⟩
  · rw [hhead', hhead]
    cases a <;> rfl
  · intro _
    cases d with
    | nil => rw [htail' rfl, names_concat]
    | cons w d =>
      rw [htail'' (List.cons_ne_nil w d), htail, ← List.cons_append, names_last, names_last,
        names_cons_last]
  · rw [hlen, List.length_cons, hs.made]
    exact hmade

/-- `add_timer` puts a fresh timer behind the last one that is no later. -/
theorem TimerList.addTimer_spec (h : TimerList s m q) (hx : IsTimer m x) (hnew : x.1 ∉ names q)
    (hprev : prevOf m x.1 = none) (hnext : nextOf m x.1 = none) (hmade : q.length < m.made) :
    ∃ s' m', s.addTimer m (some x.1) = .ok (s', m') ∧ TimerList s' m' (enqueue x q) ∧
      SameData m m' := by
  have hlen : (enqueue x q).length ≤ m.made := by
    rw [(enqueue_perm x q).length_eq]
    exact hmade
  have hsorted := h.sorted.enqueue x
  unfold addTimer
  simp only [Option.isNone_some, Bool.false_eq_true, if_false, h.head]
  cases q with
  | nil =>
    refine ⟨⟨some x.1, some x.1⟩, m, rfl, ⟨?_, rfl, fun _ => rfl, hsorted, hlen⟩, .refl m⟩
    apply Chained.insert (a := []) (b := []) h.toChained hx hnew (.refl m)
    · exact (Function.update_eq_self_iff.mpr hprev.symm).symm
    · exact (Function.update_eq_self_iff.mpr hnext.symm).symm
  | cons u q =>
    obtain ⟨t, ht, hexpire, -, -⟩ := hx.deref
    obtain ⟨tu, htu, hexpireu, -, -⟩ := Chained.deref (a := []) h.toChained
    simp only [names_cons, List.head?_cons, Option.isNone_some, Bool.false_eq_true, if_false, ht,
      htu, ok_bind]
    by_cases hlt : t.expire < tu.expire
    · rw [if_pos hlt]
      rw [hexpire, hexpireu] at hlt
      have hu : IsTimer m u := h.timers u List.mem_cons_self
      obtain ⟨m₁, hw₁, hs₁, hp₁, hn₁⟩ := hx.setNext (some u.1)
      obtain ⟨m₂, hw₂, hs₂, hn₂, hp₂⟩ := (hs₁.isTimer hu).setPrev (some x.1)
      have hs := hs₁.trans hs₂
      have hfront : enqueue x (u :: q) = x :: u :: q := by
        apply enqueue_append (c := []) (d := u :: q)
        · intro y hy
          cases hy
        · intro y hy
          apply h.sorted.lt_of_head _ hy
          intro z hz
          rwa [← Option.some.inj hz]
      rw [hw₁, ok_bind, hw₂, ok_bind]
      rw [hfront] at hsorted hlen ⊢
      refine ⟨_, m₂, rfl, ⟨?_, rfl, ?_, hsorted, by rwa [hs.made]⟩, hs⟩
      · apply Chained.insert (a := []) h.toChained hx hnew hs
        · have hne : x.1 ≠ u.1 := by
            intro heq
            exact hnew (heq ▸ List.mem_cons_self)
          rw [hp₂, hp₁]
          symm
          apply Function.update_eq_self_iff.mpr
          rw [names_cons, List.head?_cons, setAt_some, Function.update_of_ne hne]
          exact hprev.symm
        · rw [hn₂, hn₁]
          rfl
      · intro _
        rw [names_cons_last]
        exact h.tail (List.cons_ne_nil u q)
    · rw [if_neg hlt]
      rw [hexpire, hexpireu] at hlt
      apply addTimerFrom_sorted (a := []) hx h.toChained hnew h.head (h.tail (List.cons_ne_nil u q))
        h.sorted hmade
      · intro y hy
        cases hy
      · exact not_lt.mp hlt

/-! ## Adjusting -/

/-- A timer that is not later than the next one stays where it is. -/
theorem adjust_stays (h : Chained m (a ++ x :: b)) (hhead : s.head = (names (a ++ x :: b)).head?)
    (htail : s.tail = (names (a ++ x :: b)).getLast?) (hsorted : Sorted (a ++ b))
    (hmade : (a ++ x :: b).length ≤ m.made) (hle : ∀ y ∈ a, y.2 ≤ x.2)
    (hgt : ∀ y, b.head? = some y → x.2 < y.2) : TimerList s m (enqueue x (a ++ b)) := by
  have hplace : enqueue x (a ++ b) = a ++ x :: b := by
    apply enqueue_append
    · intro y hy
      exact hle y (List.mem_of_getLast? hy)
    · intro y hy
      exact Sorted.lt_of_head (List.Pairwise.sublist (List.sublist_append_right a b) hsorted) hgt hy
  have hsorted' := hsorted.enqueue x
  rw [hplace] at hsorted' ⊢
  exact ⟨h, hhead, fun _ => htail, hsorted', hmade⟩

/-- Taking out the first timer. -/
theorem unlink_first (h : Chained m (x :: v :: b)) :
    ∃ m', m.setPrev (some v.1) none = .ok m' ∧ SameData m m' ∧ Chained m' (v :: b) := by
  have hv : IsTimer m v := h.timers v (List.mem_cons_of_mem _ List.mem_cons_self)
  obtain ⟨m₁, hw, hs, hn, hp⟩ := hv.setPrev none
  refine ⟨m₁, hw, hs, Chained.remove (a := []) h ?_ ?_ ?_⟩
  · intro p _
    rw [hs.data]
  · intro p _
    rw [hp]
    rfl
  · intro p _
    rw [hn]
    rfl

/-- The statements that link the neighbours of a timer in the middle of a list. -/
theorem unlink_spec (h : Chained m (a ++ [u] ++ x :: v :: b)) :
    ∃ m', unlink m (some x.1) = .ok m' ∧ SameData m m' ∧ Chained m' (a ++ [u] ++ v :: b) ∧
      nextOf m' x.1 = some v.1 := by
  have hu : IsTimer m u := h.timers u (List.mem_append_left _ (mem_middle a [] u))
  have hx : IsTimer m x := h.timers x (mem_middle _ _ x)
  have hv : IsTimer m v := by
    apply h.timers
    exact List.mem_append_right _ (List.mem_cons_of_mem _ List.mem_cons_self)
  have hne : x.1 ≠ u.1 := by
    have hnodup := h.nodup
    rw [names_append] at hnodup
    intro heq
    apply List.disjoint_of_nodup_append hnodup (a := x.1)
    · rw [names_append, heq]
      exact List.mem_append_right _ List.mem_cons_self
    · exact List.mem_cons_self
  obtain ⟨t, ht, -, hprev, hnext⟩ := h.deref
  rw [names_concat] at hprev
  rw [names_cons, List.head?_cons] at hnext
  obtain ⟨m₁, hw₁, hs₁, hp₁, hn₁⟩ := hu.setNext (some v.1)
  obtain ⟨t₁, ht₁, -, hprev₁, hnext₁⟩ := (hs₁.isTimer hx).deref
  have hlinks := h.links
  rw [names_append, names_cons, names_cons] at hlinks
  have hnx : nextOf m₁ x.1 = some v.1 := by
    rw [hn₁, Function.update_of_ne hne, hlinks.links.2]
    rfl
  have hpx : prevOf m₁ x.1 = some u.1 := by
    rw [hp₁, hlinks.links.1, names_concat]
  obtain ⟨m₂, hw₂, hs₂, hn₂, hp₂⟩ := (hs₁.isTimer hv).setPrev (some u.1)
  refine ⟨m₂, ?_, hs₁.trans hs₂, ?_, by rw [hn₂, hnx]⟩
  · rw [unlink, ht, ok_bind, hprev, hnext, hw₁, ok_bind, ht₁, ok_bind, hprev₁, hnext₁, hnx, hpx, hw₂]
  · apply h.remove
    · intro p _
      rw [(hs₁.trans hs₂).data]
    · intro p _
      rw [hp₂, hp₁, names_concat]
      rfl
    · intro p _
      rw [hn₂, hn₁, names_concat]
      rfl

/-- A timer with one before it is not the first. -/
theorem head_ne (hnodup : (names (a ++ [u] ++ x :: b)).Nodup) :
    (names (a ++ [u] ++ x :: b)).head? ≠ some x.1 := by
  rw [names_append] at hnodup ⊢
  intro hhead
  have hmem : x.1 ∈ names (a ++ [u]) := by
    rw [List.head?_append_of_ne_nil _ (by rw [names_append]; simp)] at hhead
    exact List.mem_of_head? hhead
  exact List.disjoint_of_nodup_append hnodup hmem List.mem_cons_self

/-- A timer with one behind it is not the last. -/
theorem last_ne (hnodup : (names (a ++ x :: v :: b)).Nodup) :
    (names (a ++ x :: v :: b)).getLast? ≠ some x.1 := by
  rw [names_last, names_cons_last]
  intro hlast
  rw [names_append, names_cons] at hnodup
  exact (List.nodup_cons.mp (List.Nodup.of_append_right hnodup)).1 (List.mem_of_getLast? hlast)

/-- A timer that was removed is in the list no more. -/
theorem notMem_removed (hnodup : (names (a ++ x :: b)).Nodup) : x.1 ∉ names (a ++ b) := by
  rw [names_append, names_cons, List.nodup_middle] at hnodup
  rw [names_append]
  exact (List.nodup_cons.mp hnodup).1

/-- `adjust_timer` of a timer whose expiry time was left or increased. -/
theorem adjustTimer_spec (h : Chained m (a ++ x :: b)) (hhead : s.head = (names (a ++ x :: b)).head?)
    (htail : s.tail = (names (a ++ x :: b)).getLast?) (hsorted : Sorted (a ++ b))
    (hmade : (a ++ x :: b).length ≤ m.made) (hle : ∀ y ∈ a, y.2 ≤ x.2) :
    ∃ s' m', s.adjustTimer m (some x.1) = .ok (s', m') ∧ TimerList s' m' (enqueue x (a ++ b)) ∧
      SameData m m' := by
  obtain ⟨t, ht, hexpire, -, hnext⟩ := h.deref
  unfold adjustTimer
  simp only [Option.isNone_some, Bool.false_eq_true, if_false, ht, ok_bind, hnext]
  cases b with
  | nil =>
    refine ⟨s, m, rfl, adjust_stays h hhead htail hsorted hmade hle ?_, .refl m⟩
    intro y hy
    cases hy
  | cons v b =>
    have hx : IsTimer m x := h.timers x (mem_middle a _ x)
    have hv : IsTimer m v := h.timers v (List.mem_append_right _ (List.mem_cons_of_mem _ List.mem_cons_self))
    have hlast : s.tail = (names (v :: b)).getLast? := by
      rw [htail, names_last, names_cons_last]
    have hlen : (a ++ v :: b).length < m.made := by
      rw [List.length_append, List.length_cons, List.length_cons] at hmade
      rw [List.length_append, List.length_cons]
      omega
    have hnew := notMem_removed h.nodup
    obtain ⟨tv, htv, hexpirev, -, -⟩ := hv.deref
    simp only [names_cons, List.head?_cons, Option.isNone_some, Bool.false_eq_true, if_false, htv,
      ok_bind]
    by_cases hlt : t.expire < tv.expire
    · rw [if_pos hlt]
      rw [hexpire, hexpirev] at hlt
      refine ⟨s, m, rfl, adjust_stays h hhead htail hsorted hmade hle ?_, .refl m⟩
      intro y hy
      rwa [← Option.some.inj hy]
    · rw [if_neg hlt]
      rw [hexpire, hexpirev] at hlt
      rcases List.eq_nil_or_concat a with rfl | ⟨a, u, rfl⟩
      · -- the timer is the first one
        have hfirst : s.head = some x.1 := hhead
        obtain ⟨m₁, hw₁, hs₁, hc₁⟩ := unlink_first h
        obtain ⟨m₂, hw₂, hs₂, hc⟩ := hc₁.setNext_outside (hs₁.isTimer hx) hnew none
        have hs := hs₁.trans hs₂
        obtain ⟨s', m', hadd, hlist, hs'⟩ :=
          addTimerFrom_sorted (s := { s with head := some v.1 }) (hs.isTimer hx) hc hnew rfl hlast
            hsorted (by rwa [hs.made]) hle (not_lt.mp hlt)
        refine ⟨s', m', ?_, hlist, hs.trans hs'⟩
        rw [if_pos hfirst.symm, hfirst, ht, ok_bind, hnext]
        simp only [names_cons, List.head?_cons, hw₁, hw₂, ok_bind]
        exact hadd
      · rw [List.concat_eq_append] at *
        have hother : some x.1 ≠ s.head := by
          rw [hhead]
          exact (head_ne h.nodup).symm
        obtain ⟨m₁, hw₁, hs₁, hc, hnx⟩ := unlink_spec h
        obtain ⟨t₁, ht₁, -, -, hnext₁⟩ := (hs₁.isTimer hx).deref
        have hhead' : s.head = (names (a ++ [u] ++ v :: b)).head? := by
          rw [hhead]
          cases a <;> rfl
        obtain ⟨s', m', hadd, hlist, hs'⟩ :=
          addTimerFrom_sorted (hs₁.isTimer hx) hc hnew hhead' hlast hsorted (by rwa [hs₁.made]) hle
            (not_lt.mp hlt)
        refine ⟨s', m', ?_, hlist, hs₁.trans hs'⟩
        rw [if_neg hother, hw₁, ok_bind, ht₁, ok_bind, hnext₁, hnx, hadd]

/-! ## Removing -/

/-- The objects at `ps` were deleted, and the data of the other timers is the same. -/
structure Deleted (ps : List Ptr) (m m' : Memory) : Prop where
  gone : ∀ p ∈ ps, m'.nodes p = none
  data : ∀ p, p ∉ ps → dataOf m' p = dataOf m p
  made : m'.made = m.made

/-- A timer object is deleted, and nothing else. -/
theorem IsTimer.delete (hx : IsTimer m x) : ∃ m', m.delete (some x.1) = .ok m' ∧
    m'.nodes x.1 = none ∧ (∀ p, p ≠ x.1 → m'.nodes p = m.nodes p) ∧ m'.made = m.made ∧
      m'.calls = m.calls := by
  obtain ⟨t, ht, -⟩ := hx.alive
  refine ⟨{ m with nodes := fun q => if q = x.1 then none else m.nodes q }, ?_, if_pos rfl,
    fun p hp => if_neg hp, rfl, rfl⟩
  simp only [Memory.delete, ht, Option.isNone_some, Bool.false_eq_true, if_false]

/-- Taking a timer out of the links and then deleting it. -/
theorem delete_unlinked (hx : IsTimer m' x) (hs : SameData m m') (h : Chained m' (a ++ b))
    (hnew : x.1 ∉ names (a ++ b)) :
    ∃ m'', m'.delete (some x.1) = .ok m'' ∧ Chained m'' (a ++ b) ∧ Deleted [x.1] m m'' ∧
      m''.calls = m.calls := by
  obtain ⟨m₁, hw, hgone, hother, hmade, hcalls⟩ := hx.delete
  have hobs : ∀ {β : Type} (g : UtilTimer → Option β) (p : Ptr), p ≠ x.1 →
      observe g m₁ p = observe g m' p := by
    intro β g p hp
    rw [observe, observe, hother p hp]
  have hne : ∀ p ∈ names (a ++ b), p ≠ x.1 := by
    rintro p hp rfl
    exact hnew hp
  refine ⟨m₁, hw, ⟨?_, h.nodup, ?_⟩, ⟨?_, ?_, hmade.trans hs.made⟩, hcalls.trans hs.calls⟩
  · apply h.links.congr
    · intro p hp
      exact hobs _ p (hne p hp)
    · intro p hp
      exact hobs _ p (hne p hp)
  · intro y hy
    obtain ⟨f, d, hdata⟩ := h.timers y hy
    exact ⟨f, d, (hobs _ y.1 (hne y.1 (mem_names hy))).trans hdata⟩
  · intro p hp
    rw [List.mem_singleton.mp hp]
    exact hgone
  · intro p hp
    have hpx : p ≠ x.1 := fun heq => hp (List.mem_singleton.mpr heq)
    exact (hobs _ p hpx).trans (congrFun hs.data p)

/-- Taking out the last timer. -/
theorem unlink_last (h : Chained m (a ++ [u] ++ [x])) :
    ∃ m', m.setNext (some u.1) none = .ok m' ∧ SameData m m' ∧ Chained m' (a ++ [u]) := by
  have hu : IsTimer m u := h.timers u (List.mem_append_left _ (mem_middle a [] u))
  obtain ⟨m₁, hw, hs, hp, hn⟩ := hu.setNext none
  refine ⟨m₁, hw, hs, ?_⟩
  rw [← List.append_nil (a ++ [u])]
  apply Chained.remove h
  · intro p _
    rw [hs.data]
  · intro p _
    rw [hp]
    rfl
  · intro p _
    rw [hn, names_concat]
    rfl

/-- What stays of a sorted list when one entry is taken out. -/
theorem TimerList.rest {s' : SortTimerLst} (h : TimerList s m (a ++ x :: b))
    (hc : Chained m' (a ++ b)) (hmade : m'.made = m.made) (hhead : s'.head = (names (a ++ b)).head?)
    (htail : a ++ b ≠ [] → s'.tail = (names (a ++ b)).getLast?) : TimerList s' m' (a ++ b) := by
  refine ⟨hc, hhead, htail, ?_, ?_⟩
  · exact List.Pairwise.sublist ((List.sublist_cons_self x b).append_left a) h.sorted
  · have hlen := h.made
    rw [hmade]
    rw [List.length_append, List.length_cons] at hlen
    rw [List.length_append]
    omega

/-- `del_timer` of a timer in the list removes and deletes this timer only. -/
theorem TimerList.delTimer_spec (h : TimerList s m (a ++ x :: b)) :
    ∃ s' m', s.delTimer m (some x.1) = .ok (s', m') ∧ TimerList s' m' (a ++ b) ∧
      Deleted [x.1] m m' ∧ m'.calls = m.calls := by
  have hx : IsTimer m x := h.timers x (mem_middle a b x)
  have hnew := notMem_removed h.nodup
  have hnodup := h.nodup
  have hhead := h.head
  have htail := h.tail (List.append_ne_nil_of_right_ne_nil a (List.cons_ne_nil x b))
  obtain ⟨t, ht, -, hprev, hnext⟩ := h.toChained.deref
  unfold delTimer
  simp only [Option.isNone_some, Bool.false_eq_true, if_false]
  rcases List.eq_nil_or_concat a with rfl | ⟨a, u, rfl⟩
  · have hfirst : s.head = some x.1 := hhead
    cases b with
    | nil =>
      have hlast : s.tail = some x.1 := htail
      have hempty : Chained m ([] ++ []) := by
        refine ⟨trivial, List.nodup_nil, ?_⟩
        intro y hy
        cases hy
      obtain ⟨m', hdel, hc, hd, hcalls⟩ := delete_unlinked hx (.refl m) hempty hnew
      rw [if_pos ⟨hfirst.symm, hlast.symm⟩, hdel, ok_bind]
      exact ⟨_, m', rfl, h.rest hc hd.made rfl fun hne => absurd rfl hne, hd, hcalls⟩
    | cons v b =>
      have hlast : s.tail ≠ some x.1 := by
        rw [htail]
        exact last_ne hnodup
      obtain ⟨m₁, hw, hs, hc⟩ := unlink_first h.toChained
      obtain ⟨m', hdel, hc', hd, hcalls⟩ := delete_unlinked (a := []) (hs.isTimer hx) hs hc hnew
      rw [if_neg (fun hboth => hlast hboth.2.symm), if_pos hfirst.symm, hfirst, ht, ok_bind, hnext,
        names_cons, List.head?_cons, hw, ok_bind, hdel, ok_bind]
      refine ⟨_, m', rfl, h.rest hc' hd.made rfl fun _ => ?_, hd, hcalls⟩
      exact htail.trans (names_cons_last x v b)
  · rw [List.concat_eq_append] at *
    have hfirst : s.head ≠ some x.1 := by
      rw [hhead]
      exact head_ne hnodup
    rw [if_neg (fun hboth => hfirst hboth.1.symm), if_neg (Ne.symm hfirst)]
    cases b with
    | nil =>
      have hlast : s.tail = some x.1 := htail.trans (names_concat _ x)
      obtain ⟨m₁, hw, hs, hc⟩ := unlink_last h.toChained
      rw [← List.append_nil (a ++ [u])] at hc
      obtain ⟨m', hdel, hc', hd, hcalls⟩ := delete_unlinked (hs.isTimer hx) hs hc hnew
      rw [if_pos hlast.symm, hlast, ht, ok_bind, hprev, names_concat, hw, ok_bind, hdel, ok_bind]
      refine ⟨_, m', rfl, h.rest hc' hd.made ?_ fun _ => ?_, hd, hcalls⟩
      · rw [List.append_nil]
        refine hhead.trans ?_
        cases a <;> rfl
      · rw [List.append_nil, names_concat]
    | cons v b =>
      have hlast : s.tail ≠ some x.1 := by
        rw [htail]
        exact last_ne hnodup
      obtain ⟨m₁, hw, hs, hc, -⟩ := unlink_spec h.toChained
      obtain ⟨m', hdel, hc', hd, hcalls⟩ := delete_unlinked (hs.isTimer hx) hs hc hnew
      rw [if_neg hlast.symm, hw, ok_bind, hdel, ok_bind]
      refine ⟨s, m', rfl, h.rest hc' hd.made ?_ fun _ => ?_, hd, hcalls⟩
      · refine hhead.trans ?_
        cases a <;> rfl
      · rw [htail, names_last, names_last, names_cons_last]

/-! ## The heartbeat -/

/-- The call that the timer at `p` asks for. -/
def callAt (m : Memory) (p : Ptr) : Option (Nat × Nat) :=
  (dataOf m p).bind fun d => d.2.1.map fun f => (f, d.2.2)

/-- Where the data of the timers is the same, so are the callbacks. -/
theorem SameData.callAt (h : SameData m m') (r : Ptr) : callAt m' r = callAt m r := by
  rw [Interface.callAt, Interface.callAt, h.data]

/-- The callbacks of timers that were not deleted are left alone. -/
theorem Deleted.callAt {ps : List Ptr} (h : Deleted ps m m') {r : Ptr} (hr : r ∉ ps) :
    callAt m' r = callAt m r := by
  rw [Interface.callAt, Interface.callAt, h.data r hr]

/-- The callback of a timer is made. -/
theorem IsTimer.callBack (hx : IsTimer m x) {t : UtilTimer} (ht : m.deref (some x.1) = .ok t) :
    ∃ c, m.callBack t = .ok { m with calls := m.calls ++ [c] } ∧ callAt m x.1 = some c := by
  obtain ⟨f, d, hdata⟩ := hx
  obtain ⟨t', ht', hdata'⟩ := Option.bind_eq_some_iff.mp hdata
  rw [Memory.deref, ht'] at ht
  obtain rfl := Except.ok.inj ht
  obtain ⟨-, hrest⟩ := Prod.mk.inj (Option.some.inj hdata')
  obtain ⟨hf, hd⟩ := Prod.mk.inj hrest
  refine ⟨(f, d), ?_, ?_⟩
  · rw [Memory.callBack, hf, hd]
  · rw [callAt, hdata]
    rfl

/-- An object without data is not there. -/
theorem nodes_eq_none {p : Ptr} (h : dataOf m p = none) : m.nodes p = none := by
  cases hn : m.nodes p with
  | none => rfl
  | some t =>
    rw [dataOf, observe, hn] at h
    cases h

/-- Timers are deleted one after the other. -/
theorem Deleted.cons {m'' : Memory} {p : Ptr} {ps : List Ptr} (h : Deleted [p] m m')
    (h' : Deleted ps m' m'') : Deleted (p :: ps) m m'' := by
  refine ⟨?_, ?_, h'.made.trans h.made⟩
  · intro r hr
    by_cases hps : r ∈ ps
    · exact h'.gone r hps
    · have hrp : r ∈ [p] := List.mem_singleton.mpr ((List.mem_cons.mp hr).resolve_right hps)
      apply nodes_eq_none
      rw [h'.data r hps, dataOf, observe, h.gone r hrp]
      rfl
  · intro r hr
    rw [h'.data r fun hps => hr (List.mem_cons_of_mem _ hps)]
    apply h.data
    intro hrp
    exact hr (List.mem_singleton.mp hrp ▸ List.mem_cons_self)

/-- The statements of `tick` that take the first timer out. -/
theorem drop_first (h : Chained m (x :: q)) :
    ∃ m₁ m', clearPrev m (names q).head? = .ok m₁ ∧ m₁.delete (some x.1) = .ok m' ∧
      Chained m' q ∧ Deleted [x.1] m m' ∧ m'.calls = m.calls := by
  have hx : IsTimer m x := h.timers x List.mem_cons_self
  have hnew : x.1 ∉ names ([] ++ q) := notMem_removed (a := []) h.nodup
  cases q with
  | nil =>
    have hempty : Chained m ([] ++ []) := by
      refine ⟨trivial, List.nodup_nil, ?_⟩
      intro y hy
      cases hy
    obtain ⟨m', hdel, hc, hd, hcalls⟩ := delete_unlinked hx (.refl m) hempty hnew
    exact ⟨m, m', rfl, hdel, hc, hd, hcalls⟩
  | cons v q =>
    obtain ⟨m₁, hw, hs, hc⟩ := unlink_first h
    obtain ⟨m', hdel, hc', hd, hcalls⟩ := delete_unlinked (a := []) (hs.isTimer hx) hs hc hnew
    exact ⟨m₁, m', hw, hdel, hc', hd, hcalls⟩

/-- The list without its first timer. -/
theorem TimerList.dropFirst (h : TimerList s m (x :: q)) (hc : Chained m' q) (hmade : m'.made = m.made) :
    TimerList { s with head := (names q).head? } m' q := by
  apply TimerList.rest (a := []) h hc hmade rfl
  intro hne
  have htail := h.tail (List.cons_ne_nil x q)
  cases q with
  | nil => exact absurd rfl hne
  | cons v q => rwa [names_cons_last] at htail

/-- The timers that are due besides a deleted one ask for the same calls as before. -/
theorem Deleted.dueCalls (h : Deleted [x.1] m m') (hx : x.1 ∉ names q) (cur : Int) :
    (due cur q).map (Interface.callAt m' ·.1) = (due cur q).map (Interface.callAt m ·.1) := by
  apply List.map_congr_left
  intro y hy
  apply h.callAt
  intro heq
  apply hx
  rw [← List.mem_singleton.mp heq]
  exact mem_names (List.mem_of_mem_filter hy)

/-- The loop of `tick` calls and deletes the timers that are due, from the first one on. -/
theorem TimerList.tickLoop_spec (cur : Int) (n : Nat) :
    ∀ (q : List (Ptr × Int)) (s : SortTimerLst) (m : Memory), TimerList s m q → q.length < n →
      ∃ s' m', tickLoop cur n s.head s m = .ok (s', m') ∧ TimerList s' m' (later cur q) ∧
        Deleted (names (due cur q)) m m' ∧
        m'.calls.map some = m.calls.map some ++ (due cur q).map (callAt m ·.1) := by
  induction n with
  | zero =>
    intro q s m _ hn
    exact absurd hn (Nat.not_lt_zero _)
  | succ n ih =>
    intro q s m h hn
    cases q with
    | nil =>
      have hhead : s.head = none := h.head
      refine ⟨s, m, ?_, h, ⟨?_, fun p _ => rfl, rfl⟩, (List.append_nil _).symm⟩
      · rw [hhead]
        rfl
      · intro p hp
        cases hp
    | cons x q =>
      have hx : IsTimer m x := h.timers x List.mem_cons_self
      obtain ⟨t, ht, hexpire, -, hnext⟩ := Chained.deref (a := []) h.toChained
      obtain ⟨c, hcall, hcallAt⟩ := hx.callBack ht
      have hhead : s.head = some x.1 := h.head
      unfold tickLoop
      rw [hhead]
      simp only [Option.isNone_some, Bool.false_eq_true, if_false, ht, ok_bind]
      by_cases hlater : cur < t.expire
      · rw [if_pos hlater]
        rw [hexpire] at hlater
        obtain ⟨hdue, hlat⟩ := h.sorted.none_due hlater
        rw [hdue, hlat]
        refine ⟨s, m, rfl, h, ⟨?_, fun p _ => rfl, rfl⟩, (List.append_nil _).symm⟩
        intro p hp
        cases hp
      · rw [if_neg hlater]
        rw [hexpire, not_lt] at hlater
        -- the call changes the record of the calls only
        have h₁ : Chained { m with calls := m.calls ++ [c] } (x :: q) :=
          ⟨h.links, h.nodup, h.timers⟩
        obtain ⟨m₁, m₂, hclear, hdel, hc, hd, hcalls⟩ := drop_first h₁
        have hrest := h.dropFirst hc hd.made
        obtain ⟨s', m', hloop, hlist, hd', hcalls'⟩ :=
          ih q _ m₂ hrest (Nat.lt_of_succ_lt_succ hn)
        rw [due_cons hlater, later_cons hlater]
        refine ⟨s', m', ?_, hlist, Deleted.cons ⟨hd.gone, hd.data, hd.made⟩ hd', ?_⟩
        · simp only [hcall, hnext, hclear, hdel, ok_bind]
          exact hloop
        · have hsame : (due cur q).map (callAt m₂ ·.1) = (due cur q).map (callAt m ·.1) :=
            hd.dueCalls (List.nodup_cons.mp h.nodup).1 cur
          have hfirst : (x :: due cur q).map (callAt m ·.1) =
              some c :: (due cur q).map (callAt m ·.1) := congrArg (· :: _) hcallAt
          rw [hcalls', hcalls, hsame, hfirst, List.map_append, List.append_assoc]
          rfl

/-- `tick` calls the timers that are due, in the order of the list, and removes these only. -/
theorem TimerList.tick_spec (h : TimerList s m q) (cur : Int) :
    ∃ s' m', s.tick m cur = .ok (s', m') ∧ TimerList s' m' (later cur q) ∧
      Deleted (names (due cur q)) m m' ∧
      m'.calls.map some = m.calls.map some ++ (due cur q).map (callAt m ·.1) := by
  have hloop := tickLoop_spec cur (m.made + 1) q s m h (Nat.lt_succ_of_le h.made)
  unfold tick
  cases q with
  | nil =>
    have hhead : s.head = none := h.head
    rw [hhead] at hloop ⊢
    exact hloop
  | cons x q =>
    have hhead : s.head = some x.1 := h.head
    rw [hhead] at hloop ⊢
    exact hloop

/-! ## The destructor -/

/-- The loop of the destructor needs the links forwards only: it leaves those backwards as
they are. -/
theorem TimerList.destroyLoop_spec (n : Nat) :
    ∀ (q : List (Ptr × Int)) (m : Memory), Walk (nextOf m) (names q).head? (names q) →
      (names q).Nodup → (∀ x ∈ q, IsTimer m x) → q.length < n →
      ∃ m', destroyLoop n (names q).head? m = .ok m' ∧ Deleted (names q) m m' ∧
        m'.calls = m.calls := by
  induction n with
  | zero =>
    intro q m _ _ _ hn
    exact absurd hn (Nat.not_lt_zero _)
  | succ n ih =>
    intro q m hwalk hnodup htimers hn
    cases q with
    | nil =>
      refine ⟨m, rfl, ⟨?_, fun p _ => rfl, rfl⟩, rfl⟩
      intro p hp
      cases hp
    | cons x q =>
      have hx := htimers x List.mem_cons_self
      obtain ⟨t, ht, -, -, hnext⟩ := hx.deref
      obtain ⟨m₁, hdel, hgone, hother, hmade, hcalls⟩ := hx.delete
      have hne : ∀ p ∈ names q, p ≠ x.1 := by
        rintro p hp rfl
        exact (List.nodup_cons.mp hnodup).1 hp
      have hd : Deleted [x.1] m m₁ := by
        refine ⟨?_, ?_, hmade⟩
        · intro p hp
          rwa [List.mem_singleton.mp hp]
        · intro p hp
          rw [dataOf, observe, observe, hother p fun heq => hp (List.mem_singleton.mpr heq)]
      obtain ⟨hrest, hfirst⟩ := hwalk.tail
      have hwalk' : Walk (nextOf m₁) (names q).head? (names q) := by
        apply hrest.congr
        intro p hp
        rw [nextOf, observe, observe, hother p (hne p hp)]
      obtain ⟨m', hloop, hd', hcalls'⟩ := ih q m₁ hwalk' (List.nodup_cons.mp hnodup).2 (by
        intro y hy
        obtain ⟨f, d, hdata⟩ := htimers y (List.mem_cons_of_mem _ hy)
        refine ⟨f, d, ?_⟩
        rwa [hd.data y.1 fun hmem => hne y.1 (mem_names hy) (List.mem_singleton.mp hmem)])
        (Nat.lt_of_succ_lt_succ hn)
      refine ⟨m', ?_, hd.cons hd', hcalls'.trans hcalls⟩
      rw [names_cons, List.head?_cons, destroyLoop]
      simp only [Option.isNone_some, Bool.false_eq_true, if_false, ht, ok_bind, hdel, hnext, hfirst]
      exact hloop

/-- The destructor deletes the timers in the list and makes no call. -/
theorem TimerList.destroy_spec (h : TimerList s m q) :
    ∃ m', s.destroy m = .ok m' ∧ Deleted (names q) m m' ∧ m'.calls = m.calls := by
  rw [destroy, h.head]
  exact destroyLoop_spec (m.made + 1) q m h.links.walk_next h.nodup h.timers
    (Nat.lt_succ_of_le h.made)

end Operations

end ServerListings.Interface
