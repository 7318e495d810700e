import Mathlib.Data.List.Induction
import Mathlib.Data.List.Nodup
import Mathlib.Logic.Function.Basic

/-!
# Doubly linked lists

The links of the nodes are two functions `prev` and `next`. `Seg` says that the nodes of a
list follow one another by these links, and what is before the first node and behind the last
one. `Linked` is a list with nothing at both ends.

Putting a node in and taking one out changes the two links around the place and no other
(`Linked.insert`, `Linked.remove`). Both rules ask only for the links of the nodes in the
list, so a program may set them in any order.
-/

set_option autoImplicit false

namespace Lib.DoublyLinked

section Segments

variable {α : Type} {prev next prev' next' : α → Option α} {pr nx pr' nx' : Option α}
  {a b l : List α} {x : α}

/-- The nodes of a list are linked, from `pr` before them to `nx` behind them. -/
def Seg (prev next : α → Option α) : Option α → List α → Option α → Prop
  | _, [], _ => True
  | pr, p :: l, nx => prev p = pr ∧ next p = l.head?.or nx ∧ Seg prev next (some p) l nx

/-- The nodes of a list are linked, and the list ends at both ends. -/
def Linked (prev next : α → Option α) (l : List α) : Prop := Seg prev next none l none

/-- A segment of two parts is two segments that meet. -/
theorem seg_append : Seg prev next pr (a ++ b) nx ↔
    Seg prev next pr a (b.head?.or nx) ∧ Seg prev next (a.getLast?.or pr) b nx := by
  induction a generalizing pr with
  | nil => simp [Seg]
  | cons p a ih =>
    have hhead : (a ++ b).head?.or nx = a.head?.or (b.head?.or nx) := by
      cases a <;> rfl
    have hlast : (p :: a).getLast?.or pr = a.getLast?.or (some p) := by
      cases a with
      | nil => rfl
      | cons q a => rw [List.getLast?_cons_cons, List.getLast?_cons, Option.some_or, Option.some_or]
    rw [List.cons_append, Seg, Seg, ih, hhead, hlast, and_assoc, and_assoc]

/-- A segment of one node. -/
theorem seg_singleton : Seg prev next pr [x] nx ↔ prev x = pr ∧ next x = nx := by
  simp [Seg]

/-- Only the links of the nodes in the list matter. -/
theorem Seg.congr (h : Seg prev next pr l nx) (hp : ∀ p ∈ l, prev' p = prev p)
    (hn : ∀ p ∈ l, next' p = next p) : Seg prev' next' pr l nx := by
  induction l generalizing pr with
  | nil => trivial
  | cons p l ih =>
    obtain ⟨hprev, hnext, hrest⟩ := h
    refine ⟨(hp p List.mem_cons_self).trans hprev, (hn p List.mem_cons_self).trans hnext, ?_⟩
    apply ih hrest
    · intro q hq
      exact hp q (List.mem_cons_of_mem _ hq)
    · intro q hq
      exact hn q (List.mem_cons_of_mem _ hq)

/-- The links of a node are its neighbours. -/
theorem Linked.links (h : Linked prev next (a ++ x :: b)) :
    prev x = a.getLast? ∧ next x = b.head? := by
  obtain ⟨-, hprev, hnext, -⟩ := seg_append.mp h
  rw [Option.or_none] at hprev hnext
  exact ⟨hprev, hnext⟩

/-- A list depends on the links of its nodes only. -/
theorem Linked.congr (h : Linked prev next l) (hp : ∀ p ∈ l, prev' p = prev p)
    (hn : ∀ p ∈ l, next' p = next p) : Linked prev' next' l :=
  Seg.congr h hp hn

/-- The last node of the first part is not in the second one. -/
theorem notMem_of_getLast? {p : α} (hnodup : (a ++ b).Nodup) (hp : p ∈ b) :
    a.getLast? ≠ some p := by
  intro hlast
  exact List.disjoint_of_nodup_append hnodup (List.mem_of_getLast? hlast) hp

/-- The first node of the second part is not in the first one. -/
theorem notMem_of_head? {p : α} (hnodup : (a ++ b).Nodup) (hp : p ∈ a) : b.head? ≠ some p := by
  intro hhead
  exact List.disjoint_of_nodup_append hnodup hp (List.mem_of_head? hhead)

section Ends

variable [DecidableEq α]

/-- A link is set, if there is a node to set it at. -/
def setAt (f : α → Option α) (o : Option α) (v : Option α) : α → Option α :=
  match o with
  | none => f
  | some p => Function.update f p v

/-- A link of a node is set. -/
@[simp] theorem setAt_some (f : α → Option α) (p : α) (v : Option α) :
    setAt f (some p) v = Function.update f p v := rfl

/-- The links of other nodes are left alone. -/
theorem setAt_of_notMem (f : α → Option α) {o : Option α} (v : Option α) {p : α} (h : o ≠ some p) :
    setAt f o v p = f p := by
  cases o with
  | none => rfl
  | some q =>
    apply Function.update_of_ne
    rintro rfl
    exact h rfl

/-- The link behind the last node is set. -/
theorem Seg.set_next (h : Seg prev next pr l nx) (hnodup : l.Nodup) (nx' : Option α) :
    Seg prev (setAt next l.getLast? nx') pr l nx' := by
  rcases List.eq_nil_or_concat l with rfl | ⟨c, u, rfl⟩
  · trivial
  · rw [List.concat_eq_append] at *
    obtain ⟨hc, hu⟩ := seg_append.mp h
    have hnot : ∀ p ∈ c, p ≠ u := by
      intro p hp
      rintro rfl
      exact List.disjoint_of_nodup_append hnodup hp (List.mem_singleton_self _)
    rw [List.getLast?_concat, setAt_some]
    apply seg_append.mpr
    constructor
    · apply hc.congr fun _ _ => rfl
      intro p hp
      exact Function.update_of_ne (hnot p hp) _ _
    · rw [seg_singleton] at hu ⊢
      exact ⟨hu.1, Function.update_self ..⟩

/-- The link before the first node is set. -/
theorem Seg.set_prev (h : Seg prev next pr l nx) (hnodup : l.Nodup) (pr' : Option α) :
    Seg (setAt prev l.head? pr') next pr' l nx := by
  cases l with
  | nil => trivial
  | cons v l =>
    obtain ⟨-, hnext, hrest⟩ := h
    rw [List.head?_cons, setAt_some]
    refine ⟨Function.update_self .., hnext, ?_⟩
    apply hrest.congr _ fun _ _ => rfl
    intro p hp
    apply Function.update_of_ne
    rintro rfl
    exact (List.nodup_cons.mp hnodup).1 hp

/-- Both sides of a place in a list, when the links across it are set. -/
theorem Seg.across {u v : Option α} (ha : Seg prev next none a u) (hb : Seg prev next v b none)
    (hnodup : (a ++ b).Nodup) (hp : ∀ p ∈ a ++ b, prev' p = setAt prev b.head? pr p)
    (hn : ∀ p ∈ a ++ b, next' p = setAt next a.getLast? nx p) :
    Seg prev' next' none a nx ∧ Seg prev' next' pr b none := by
  constructor
  · apply (ha.set_next (List.Nodup.of_append_left hnodup) nx).congr
    · intro p hpa
      rw [hp p (List.mem_append_left _ hpa), setAt_of_notMem _ _ (notMem_of_head? hnodup hpa)]
    · intro p hpa
      exact hn p (List.mem_append_left _ hpa)
  · apply (hb.set_prev (List.Nodup.of_append_right hnodup) pr).congr
    · intro p hpb
      exact hp p (List.mem_append_right _ hpb)
    · intro p hpb
      rw [hn p (List.mem_append_right _ hpb), setAt_of_notMem _ _ (notMem_of_getLast? hnodup hpb)]

/-- A node `x` is put between `a` and `b`. -/
theorem Linked.insert (h : Linked prev next (a ++ b)) (hnodup : (a ++ b).Nodup)
    (hxp : prev' x = a.getLast?) (hxn : next' x = b.head?)
    (hp : ∀ p ∈ a ++ b, prev' p = setAt prev b.head? (some x) p)
    (hn : ∀ p ∈ a ++ b, next' p = setAt next a.getLast? (some x) p) :
    Linked prev' next' (a ++ x :: b) := by
  obtain ⟨ha, hb⟩ := seg_append.mp h
  obtain ⟨ha, hb⟩ := ha.across hb hnodup hp hn
  apply seg_append.mpr
  refine ⟨ha, ?_, ?_, hb⟩
  · rw [hxp, Option.or_none]
  · rw [hxn, Option.or_none]

/-- The node `x` between `a` and `b` is taken out. -/
theorem Linked.remove (h : Linked prev next (a ++ x :: b)) (hnodup : (a ++ x :: b).Nodup)
    (hp : ∀ p ∈ a ++ b, prev' p = setAt prev b.head? a.getLast? p)
    (hn : ∀ p ∈ a ++ b, next' p = setAt next a.getLast? b.head? p) :
    Linked prev' next' (a ++ b) := by
  obtain ⟨ha, -, -, hb⟩ := seg_append.mp h
  obtain ⟨ha, hb⟩ := ha.across hb (List.nodup_middle.mp hnodup).of_cons hp hn
  apply seg_append.mpr
  rw [Option.or_none, Option.or_none]
  exact ⟨ha, hb⟩

end Ends

/-! ## Walking along the links -/

/-- The walk from a pointer along `f` meets the nodes `l` and then ends. -/
inductive Walk (f : α → Option α) : Option α → List α → Prop where
  | nil : Walk f none []
  | cons {p : α} {l : List α} : Walk f (f p) l → Walk f (some p) (p :: l)

/-- A walk reads the links of the nodes that it meets. -/
theorem Walk.congr {f g : α → Option α} {o : Option α} (h : Walk f o l)
    (heq : ∀ p ∈ l, g p = f p) : Walk g o l := by
  induction h with
  | nil => exact .nil
  | @cons p l hrest ih =>
    apply Walk.cons
    rw [heq p List.mem_cons_self]
    apply ih
    intro r hr
    exact heq r (List.mem_cons_of_mem _ hr)

/-- A walk starts at the first node. -/
theorem Walk.start {f : α → Option α} {o : Option α} (h : Walk f o l) : o = l.head? := by
  cases h <;> rfl

/-- A walk meets the same nodes whenever it is made. -/
theorem Walk.unique {f : α → Option α} {o : Option α} {l' : List α} (h : Walk f o l)
    (h' : Walk f o l') : l = l' := by
  induction h generalizing l' with
  | nil =>
    cases h'
    rfl
  | cons _ ih =>
    cases h' with
    | cons hrest => rw [ih hrest]

/-- The walk behind the first node. -/
theorem Walk.tail {f : α → Option α} {o : Option α} (h : Walk f o (x :: l)) :
    Walk f l.head? l ∧ f x = l.head? := by
  cases h with
  | cons hrest =>
    have hstart := hrest.start
    rw [hstart] at hrest
    exact ⟨hrest, hstart⟩

/-- The forward links walk through a list. -/
theorem Seg.walk_next (h : Seg prev next pr l none) : Walk next l.head? l := by
  induction l generalizing pr with
  | nil => exact .nil
  | cons p l ih =>
    obtain ⟨-, hnext, hrest⟩ := h
    apply Walk.cons
    rw [hnext, Option.or_none]
    exact ih hrest

/-- The backward links walk through it the other way. -/
theorem Seg.walk_prev (h : Seg prev next none l nx) :
    Walk prev l.getLast? l.reverse := by
  induction l using List.reverseRecOn generalizing nx with
  | nil => exact .nil
  | append_singleton l p ih =>
    obtain ⟨hl, hp⟩ := seg_append.mp h
    rw [List.getLast?_concat, List.reverse_append]
    apply Walk.cons
    rw [(seg_singleton.mp hp).1, Option.or_none]
    exact ih hl

/-- Walking forwards from the first node meets the list. -/
theorem Linked.walk_next (h : Linked prev next l) : Walk next l.head? l := Seg.walk_next h

/-- Walking backwards from the last node meets the list in reverse. -/
theorem Linked.walk_prev (h : Linked prev next l) : Walk prev l.getLast? l.reverse := Seg.walk_prev h

end Segments

end Lib.DoublyLinked
