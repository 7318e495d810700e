import ServerListings.Lib.DoublyLinked
import ServerListings.Lib.StableQueue
import ServerListings.Model.LstTimer

/-!
# The links of a timer list in memory

`Chained m q` says that the timers of the entries `q` are alive, have the expiry times that `q`
gives them, and are linked in this order. The expiry time, the callback and the user data of a
timer are its data; the operations that only move timers keep the data of all of them
(`SameData`).
-/

set_option autoImplicit false

namespace ServerListings.Interface

open Lib.CMem Lib.DoublyLinked Lib.StableQueue ServerListings.Model

/-- What `g` reads in the timers of a memory. -/
def observe {β : Type} (g : UtilTimer → Option β) (m : Memory) (p : Ptr) : Option β :=
  (m.nodes p).bind g

abbrev prevOf : Memory → Ptr → Option Ptr := observe (·.prev)

abbrev nextOf : Memory → Ptr → Option Ptr := observe (·.next)

/-- The data of a timer, without its links. -/
abbrev dataOf : Memory → Ptr → Option (Int × Option Nat × Nat) :=
  observe fun t => some (t.expire, t.cbFunc, t.userData)

/-- The timer of an entry is alive, expires when the entry says so and has a callback. -/
def IsTimer (m : Memory) (x : Ptr × Int) : Prop :=
  ∃ f d, dataOf m x.1 = some (x.2, some f, d)

/-- Two memories that differ in links only. -/
structure SameData (m m' : Memory) : Prop where
  data : dataOf m' = dataOf m
  made : m'.made = m.made
  calls : m'.calls = m.calls

section Memory

variable {m m' m'' : Memory} {x : Ptr × Int} {p : Ptr}

/-- Nothing has changed. -/
theorem SameData.refl (m : Memory) : SameData m m := ⟨rfl, rfl, rfl⟩

/-- Changes of links one after the other. -/
theorem SameData.trans (h : SameData m m') (h' : SameData m' m'') : SameData m m'' :=
  ⟨h'.data.trans h.data, h'.made.trans h.made, h'.calls.trans h.calls⟩

/-- A timer stays one when links change. -/
theorem SameData.isTimer (h : SameData m m') (hx : IsTimer m x) : IsTimer m' x := by
  unfold IsTimer at *
  rwa [h.data]

/-- A timer is an object that is there. -/
theorem IsTimer.alive (hx : IsTimer m x) : ∃ t, m.nodes x.1 = some t ∧ t.expire = x.2 := by
  obtain ⟨f, d, hdata⟩ := hx
  obtain ⟨t, ht, hdata⟩ := Option.bind_eq_some_iff.mp hdata
  exact ⟨t, ht, (Prod.mk.inj (Option.some.inj hdata)).1⟩

/-- Following a pointer to a timer. -/
theorem IsTimer.deref (hx : IsTimer m x) : ∃ t, m.deref (some x.1) = .ok t ∧ t.expire = x.2 ∧
    t.prev = prevOf m x.1 ∧ t.next = nextOf m x.1 := by
  obtain ⟨t, ht, hexpire⟩ := hx.alive
  refine ⟨t, ?_, hexpire, ?_, ?_⟩
  · rw [Memory.deref, ht]
  · rw [prevOf, observe, ht]
    rfl
  · rw [nextOf, observe, ht]
    rfl

/-! ## Writes to one member -/

section Modify

variable {β : Type} {g : UtilTimer → Option β} {f : UtilTimer → UtilTimer}

/-- A change that the observer does not see. -/
theorem observe_modify_same (hg : ∀ t, g (f t) = g t) : observe g (m.modify p f) = observe g m := by
  funext q
  by_cases hq : q = p
  · cases hn : m.nodes q <;> simp only [observe, Memory.modify, if_pos hq, hn, Option.map,
      Option.bind, hg]
  · simp only [observe, Memory.modify, if_neg hq]

/-- A change of another object. -/
theorem observe_modify_ne {q : Ptr} (hq : q ≠ p) : observe g (m.modify p f) q = observe g m q := by
  simp only [observe, Memory.modify, if_neg hq]

/-- A change that the observer sees. -/
theorem observe_modify_self {v : Option β} (hx : IsTimer m x) (hg : ∀ t, g (f t) = v) :
    observe g (m.modify x.1 f) = Function.update (observe g m) x.1 v := by
  obtain ⟨t, ht, -⟩ := hx.alive
  funext q
  by_cases hq : q = x.1
  · rw [hq, Function.update_self]
    simp only [observe, Memory.modify, if_true, ht, Option.map, Option.bind, hg]
  · rw [Function.update_of_ne hq, observe_modify_ne hq]

/-- The object of a timer is written. -/
theorem IsTimer.write (hx : IsTimer m x) (f : UtilTimer → UtilTimer) :
    m.write (some x.1) f = .ok (m.modify x.1 f) := by
  obtain ⟨t, ht, -⟩ := hx.alive
  simp only [Memory.write, ht, Option.isNone_some, Bool.false_eq_true, if_false]

end Modify

/-- A write of `next` changes the link of this timer only. -/
theorem IsTimer.setNext (hx : IsTimer m x) (v : Option Ptr) :
    ∃ m', m.setNext (some x.1) v = .ok m' ∧ SameData m m' ∧ prevOf m' = prevOf m ∧
      nextOf m' = Function.update (nextOf m) x.1 v :=
  ⟨_, hx.write _, ⟨observe_modify_same fun _ => rfl, rfl, rfl⟩, observe_modify_same fun _ => rfl,
    observe_modify_self hx fun _ => rfl⟩

/-- A write of `prev` changes the link of this timer only. -/
theorem IsTimer.setPrev (hx : IsTimer m x) (v : Option Ptr) :
    ∃ m', m.setPrev (some x.1) v = .ok m' ∧ SameData m m' ∧ nextOf m' = nextOf m ∧
      prevOf m' = Function.update (prevOf m) x.1 v :=
  ⟨_, hx.write _, ⟨observe_modify_same fun _ => rfl, rfl, rfl⟩, observe_modify_same fun _ => rfl,
    observe_modify_self hx fun _ => rfl⟩

end Memory

/-! ## Timers that are linked -/

/-- The timers of the entries are alive and linked in this order. -/
structure Chained (m : Memory) (q : List (Ptr × Int)) : Prop where
  links : Linked (prevOf m) (nextOf m) (names q)
  nodup : (names q).Nodup
  timers : ∀ x ∈ q, IsTimer m x

section Chained

variable {m m' : Memory} {q a b : List (Ptr × Int)} {x : Ptr × Int}

/-- Linking a timer in between two parts of a list. -/
theorem Chained.insert (h : Chained m (a ++ b)) (hx : IsTimer m x) (hnew : x.1 ∉ names (a ++ b))
    (hdata : SameData m m')
    (hp : prevOf m' = Function.update (setAt (prevOf m) (names b).head? (some x.1)) x.1
      (names a).getLast?)
    (hn : nextOf m' = Function.update (setAt (nextOf m) (names a).getLast? (some x.1)) x.1
      (names b).head?) :
    Chained m' (a ++ x :: b) := by
  have hne : ∀ p ∈ names a ++ names b, p ≠ x.1 := by
    rw [← names_append]
    rintro p hp rfl
    exact hnew hp
  have hlinks := h.links
  have hnodup := h.nodup
  rw [names_append] at hlinks hnodup
  constructor
  · rw [names_append, names_cons]
    apply hlinks.insert hnodup
    · rw [hp, Function.update_self]
    · rw [hn, Function.update_self]
    · intro p hmem
      rw [hp, Function.update_of_ne (hne p hmem)]
    · intro p hmem
      rw [hn, Function.update_of_ne (hne p hmem)]
  · rw [names_append, names_cons, List.nodup_middle, ← names_append]
    exact List.nodup_cons.mpr ⟨hnew, h.nodup⟩
  · intro y hy
    apply hdata.isTimer
    rw [List.mem_append, List.mem_cons] at hy
    rcases hy with hy | rfl | hy
    · exact h.timers y (List.mem_append_left _ hy)
    · exact hx
    · exact h.timers y (List.mem_append_right _ hy)

/-- Linking the neighbours of a timer with each other. -/
theorem Chained.remove (h : Chained m (a ++ x :: b))
    (hdata : ∀ p ∈ names (a ++ b), dataOf m' p = dataOf m p)
    (hp : ∀ p ∈ names (a ++ b),
      prevOf m' p = setAt (prevOf m) (names b).head? (names a).getLast? p)
    (hn : ∀ p ∈ names (a ++ b),
      nextOf m' p = setAt (nextOf m) (names a).getLast? (names b).head? p) :
    Chained m' (a ++ b) := by
  have hlinks := h.links
  have hnodup := h.nodup
  rw [names_append, names_cons] at hlinks hnodup
  rw [names_append] at hp hn
  constructor
  · rw [names_append]
    exact hlinks.remove hnodup hp hn
  · rw [names_append]
    exact (List.nodup_middle.mp hnodup).of_cons
  · intro y hy
    obtain ⟨f, d, hy'⟩ := h.timers y (by
      rw [List.mem_append] at hy
      rw [List.mem_append, List.mem_cons]
      rcases hy with hy | hy
      · exact Or.inl hy
      · exact Or.inr (Or.inr hy))
    exact ⟨f, d, (hdata y.1 (mem_names hy)).trans hy'⟩

/-- Following the pointer to a timer in the list. -/
theorem Chained.deref (h : Chained m (a ++ x :: b)) :
    ∃ t, m.deref (some x.1) = .ok t ∧ t.expire = x.2 ∧ t.prev = (names a).getLast? ∧
      t.next = (names b).head? := by
  obtain ⟨t, ht, hexpire, hprev, hnext⟩ := (h.timers x (by simp)).deref
  have hlinks := h.links
  rw [names_append, names_cons] at hlinks
  exact ⟨t, ht, hexpire, hprev.trans hlinks.links.1, hnext.trans hlinks.links.2⟩

/-- The link of a timer that is not in the list is set. -/
theorem Chained.setNext_outside (h : Chained m q) (hx : IsTimer m x) (hnew : x.1 ∉ names q)
    (v : Option Ptr) : ∃ m', m.setNext (some x.1) v = .ok m' ∧ SameData m m' ∧ Chained m' q := by
  obtain ⟨m', hw, hs, hp, hn⟩ := hx.setNext v
  refine ⟨m', hw, hs, ?_, h.nodup, fun y hy => hs.isTimer (h.timers y hy)⟩
  apply h.links.congr
  · intro p _
    rw [hp]
  · intro p hmem
    have hne : p ≠ x.1 := by
      rintro rfl
      exact hnew hmem
    rw [hn, Function.update_of_ne hne]

/-- Setting the expiry time of a timer in the list changes its entry only. -/
theorem Chained.setExpire {p : Ptr} {e₀ : Int} (h : Chained m (a ++ (p, e₀) :: b)) (e : Int) :
    ∃ m', m.setExpire (some p) e = .ok m' ∧ Chained m' (a ++ (p, e) :: b) ∧ m'.made = m.made := by
  have hx : IsTimer m (p, e₀) := h.timers _ (by simp)
  have hsame : names (a ++ (p, e) :: b) = names (a ++ (p, e₀) :: b) := by
    rw [names_append, names_append]
    rfl
  have hnodup := h.nodup
  rw [names_append, names_cons, List.nodup_middle, List.nodup_cons, ← names_append] at hnodup
  let m' := m.modify p fun t => { t with expire := e }
  have hprev : prevOf m' = prevOf m := observe_modify_same fun _ => rfl
  have hnext : nextOf m' = nextOf m := observe_modify_same fun _ => rfl
  refine ⟨m', hx.write _, ⟨?_, hsame ▸ h.nodup, ?_⟩, rfl⟩
  · rw [hsame, hprev, hnext]
    exact h.links
  · intro y hy
    have hcases : y = (p, e) ∨ y ∈ a ++ b := by
      rw [List.mem_append, List.mem_cons] at hy
      rw [List.mem_append]
      tauto
    rcases hcases with rfl | hmem
    · obtain ⟨f, d, hdata⟩ := hx
      obtain ⟨t, ht, hdata⟩ := Option.bind_eq_some_iff.mp hdata
      obtain ⟨-, hrest⟩ := Prod.mk.inj (Option.some.inj hdata)
      refine ⟨f, d, ?_⟩
      simp only [m', dataOf, observe, Memory.modify, if_true, ht, Option.map, Option.bind]
      rw [hrest]
    · have hne : y.1 ≠ p := by
        intro heq
        have hnames := mem_names hmem
        rw [heq] at hnames
        exact hnodup.1 hnames
      obtain ⟨f, d, hdata⟩ := h.timers y (by
        rw [List.mem_append] at hmem
        rw [List.mem_append, List.mem_cons]
        tauto)
      exact ⟨f, d, (observe_modify_ne hne).trans hdata⟩

end Chained

end ServerListings.Interface
