import ServerListings.Interface.TimerListOps

/-!
# The calls that a program makes on a timer list

A program makes a timer and adds it, sets a later expiry time and adjusts, or deletes a timer.
Each of these keeps the list, and leaves the callbacks and the user data of the other timers.
-/

set_option autoImplicit false

namespace ServerListings.Interface

open Lib.CMem Lib.DoublyLinked Lib.StableQueue ServerListings.Model

section Steps

variable {q : List (Ptr × Int)} {s : SortTimerLst} {m m' : Memory} {p : Ptr} {e₀ e : Int}
  {t : UtilTimer}

/-- A new timer leaves what is seen of the others. -/
theorem observe_make {β : Type} {g : UtilTimer → Option β} {r : Ptr} (hr : r ≠ p) :
    observe g (m.make p t) r = observe g m r := by
  simp only [observe, Memory.make, if_neg hr]

/-- What is seen of a new timer. -/
theorem observe_make_self {β : Type} {g : UtilTimer → Option β} :
    observe g (m.make p t) p = g t := by
  simp only [observe, Memory.make, if_true, Option.bind]

/-- A timer made in memory leaves those in the list as they are. -/
theorem TimerList.make (h : TimerList s m q) (hp : m.nodes p = none) (t : UtilTimer) :
    TimerList s (m.make p t) q ∧ p ∉ names q := by
  have hnew : p ∉ names q := by
    intro hmem
    obtain ⟨x, hx, rfl⟩ := List.mem_map.mp hmem
    obtain ⟨t', ht', -⟩ := (h.timers x hx).alive
    rw [hp] at ht'
    cases ht'
  have hobs : ∀ {β : Type} (g : UtilTimer → Option β), ∀ r ∈ names q,
      observe g (m.make p t) r = observe g m r := by
    intro β g r hr
    apply observe_make
    rintro rfl
    exact hnew hr
  refine ⟨⟨⟨?_, h.nodup, ?_⟩, h.head, h.tail, h.sorted, Nat.le_succ_of_le h.made⟩, hnew⟩
  · apply h.links.congr
    · exact hobs _
    · exact hobs _
  · intro x hx
    obtain ⟨f, d, hdata⟩ := h.timers x hx
    exact ⟨f, d, (hobs _ x.1 (mem_names hx)).trans hdata⟩

/-- A new timer is added. -/
theorem TimerList.make_add (h : TimerList s m q) (hp : m.nodes p = none) (hprev : t.prev = none)
    (hnext : t.next = none) (hcallback : t.cbFunc.isSome) :
    ∃ s' m', s.addTimer (m.make p t) (some p) = .ok (s', m') ∧
      TimerList s' m' (enqueue (p, t.expire) q) ∧ SameData (m.make p t) m' := by
  obtain ⟨hlist, hnew⟩ := h.make hp t
  obtain ⟨f, hf⟩ := Option.isSome_iff_exists.mp hcallback
  have hx : IsTimer (m.make p t) (p, t.expire) := by
    refine ⟨f, t.userData, observe_make_self.trans ?_⟩
    rw [hf]
  exact hlist.addTimer_spec hx hnew (observe_make_self.trans hprev) (observe_make_self.trans hnext)
    (Nat.lt_succ_of_le h.made)

/-- The expiry time of a timer is set to a later one, and the timer is adjusted. -/
theorem TimerList.set_adjust (h : TimerList s m q) (hp : (p, e₀) ∈ q) (he : e₀ ≤ e) :
    ∃ m₁ s' m', m.setExpire (some p) e = .ok m₁ ∧ s.adjustTimer m₁ (some p) = .ok (s', m') ∧
      TimerList s' m' (Lib.StableQueue.adjust p e q) ∧ SameData m₁ m' := by
  obtain ⟨a, b, rfl⟩ := List.append_of_mem hp
  obtain ⟨m₁, hset, hc, hmade⟩ := h.toChained.setExpire e
  have hsame : names (a ++ (p, e) :: b) = names (a ++ (p, e₀) :: b) := by
    rw [names_append, names_append]
    rfl
  obtain ⟨hsa, -, hab⟩ := List.pairwise_append.mp h.sorted
  have hle : ∀ y ∈ a, y.2 ≤ e := fun y hy => (hab y hy _ List.mem_cons_self).trans he
  have hsorted : Sorted (a ++ b) :=
    List.Pairwise.sublist ((List.sublist_cons_self (p, e₀) b).append_left a) h.sorted
  have hlen : (a ++ (p, e) :: b).length ≤ m₁.made := by
    rw [hmade, List.length_append, List.length_cons, ← List.length_cons (a := (p, e₀)),
      ← List.length_append]
    exact h.made
  have hne : a ++ (p, e₀) :: b ≠ [] := List.append_ne_nil_of_right_ne_nil a (List.cons_ne_nil _ b)
  obtain ⟨s', m', hadj, hlist, hdata⟩ :=
    adjustTimer_spec hc (by rw [hsame]; exact h.head) (by rw [hsame]; exact h.tail hne) hsorted hlen hle
  refine ⟨m₁, s', m', hset, hadj, ?_, hdata⟩
  rwa [Lib.StableQueue.adjust, remove_append h.nodup]

/-- A timer of the list is deleted. -/
theorem TimerList.del (h : TimerList s m q) (hp : p ∈ names q) :
    ∃ s' m', s.delTimer m (some p) = .ok (s', m') ∧ TimerList s' m' (remove p q) ∧
      Deleted [p] m m' ∧ m'.calls = m.calls := by
  obtain ⟨⟨p, e⟩, hx, rfl⟩ := List.mem_map.mp hp
  obtain ⟨a, b, rfl⟩ := List.append_of_mem hx
  obtain ⟨s', m', hdel, hlist, hd, hcalls⟩ := h.delTimer_spec
  rw [← remove_append h.nodup] at hlist
  exact ⟨s', m', hdel, hlist, hd, hcalls⟩

/-- The empty list of a new list object. -/
theorem TimerList.create (m : Memory) : TimerList SortTimerLst.create m [] := by
  refine ⟨⟨trivial, List.nodup_nil, ?_⟩, rfl, fun hne => absurd rfl hne, List.Pairwise.nil,
    Nat.zero_le _⟩
  intro x hx
  cases hx

/-! ## What a timer calls -/

/-- A new expiry leaves the callbacks. -/
theorem callAt_setExpire (h : m.setExpire (some p) e = .ok m') (r : Ptr) :
    callAt m' r = callAt m r := by
  unfold Memory.setExpire at h
  simp only [Memory.write] at h
  cases hp : m.nodes p with
  | none =>
    rw [hp] at h
    cases h
  | some t =>
    rw [hp] at h
    obtain rfl := Except.ok.inj h
    by_cases hr : r = p
    · subst hr
      simp [callAt, dataOf, observe, Memory.modify, hp]
    · simp [callAt, dataOf, observe, Memory.modify, hr]

end Steps

end ServerListings.Interface
