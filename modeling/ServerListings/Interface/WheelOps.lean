import ServerListings.Interface.WheelSlots

/-!
# The operations of the time wheel

`Holds s a` says that the wheel and the store of `s` hold the entries of the abstract wheel
`a`. There is one rule for each operation: it has a result, and the result holds what the
operation on the abstract wheel gives. `Effect` says which callbacks are called and which
timers leave the store.

`tick` deletes a timer that it has not called when an expired timer with a successor comes
behind one with turns left. `tickSafe` excludes it; when lifetimes are left aside the rule
needs no condition.
-/

set_option autoImplicit false

namespace ServerListings.Interface.WheelOps

open Lib.CMem Lib.ObjectStore Lib.DoublyLinked Lib.TimingWheel ServerListings.Model
open ServerListings.Model.TimeWheel ServerListings.Interface.WheelSlots

/-- What an operation does to a memory besides links and turns: the callbacks that it calls and
the timers that it takes out of the store. -/
structure Effect (k : Lifetimes) (m m' : WheelMemory) (calls : List TimerCall) (freed : List Ptr) :
    Prop where
  calls : m'.calls = m.calls ++ calls
  made : m'.made = m.made
  gone : ∀ p, m'.nodes p = none ↔ m.nodes p = none ∨ (k = .kept ∧ p ∈ freed)

section Effects

variable {k : Lifetimes} {m m' m'' : WheelMemory} {i : Nat} {q a b c : List (TimerCall × Nat)}
  {e u : TimerCall × Nat} {p : Ptr} {x : TimerCall} {calls calls' : List TimerCall}
  {freed freed' : List Ptr}

/-- Where the entries are the same nothing was called or freed. -/
theorem effect_of_sameEntries (h : SameEntries m m') : Effect k m m' [] [] := by
  refine ⟨?_, h.made, ?_⟩
  · rw [h.calls, List.append_nil]
  · intro p
    rw [h.none_iff]
    exact ⟨Or.inl, fun hor => hor.resolve_right fun hfreed => List.not_mem_nil hfreed.2⟩

/-- Effects in a row add up. -/
theorem Effect.trans (h : Effect k m m' calls freed) (h' : Effect k m' m'' calls' freed') :
    Effect k m m'' (calls ++ calls') (freed ++ freed') := by
  refine ⟨?_, h'.made.trans h.made, ?_⟩
  · rw [h'.calls, h.calls, List.append_assoc]
  · intro p
    rw [h'.gone, h.gone, List.mem_append]
    tauto

/-! ## Statements that the operations share -/

/-- The neighbours of a timer behind the first one are linked with each other. -/
theorem unlink_runs (h : SlotList m i (c ++ [u] ++ e :: b)) :
    ∃ m', unlink m (some e.1.timer) = .ok m' ∧ SlotList m' i (c ++ [u] ++ b) ∧ SameEntries m m' ∧
      Outside m m' (timers (c ++ [u] ++ b)) := by
  have hnot := h.notMem
  have hu : u ∈ c ++ [u] ++ b := by simp
  have hne : e.1.timer ≠ u.1.timer := by
    intro heq
    rw [heq] at hnot
    exact hnot (mem_timers hu)
  obtain ⟨t, ht, -, -, -, -, hprev, hnext⟩ := h.deref
  obtain ⟨tu, htu, -⟩ := (h.entries u (by simp)).alive
  have hlast : (timers (c ++ [u])).getLast? = some u.1.timer := by
    rw [timers_append]
    exact List.getLast?_concat
  obtain ⟨m₁, hw₁, hs₁, ho₁, hp₁, hn₁⟩ := setNext_spec htu t.next
  have ht₁ : m₁.nodes e.1.timer = some t := by
    rw [ho₁ _ (by simpa using hne)]
    exact ht
  have halive : ∀ p ∈ timers b, ∃ t, m₁.nodes p = some t := by
    intro p hp
    obtain ⟨y, hy, rfl⟩ := List.mem_map.mp hp
    obtain ⟨ty, hty, -⟩ := (h.entries y (by simp [hy])).alive
    apply Option.ne_none_iff_exists'.mp
    rw [ne_eq, hs₁.none_iff, hty]
    exact Option.some_ne_none _
  obtain ⟨m₂, hw₂, hs₂, ho₂, hp₂, hn₂⟩ := setPrevIfSome_spec (timers b) halive t.prev
  have hrun : unlink m (some e.1.timer) = .ok m₂ := by
    rw [unlink, deref_present ht, ok_bind, hprev, hlast, hw₁, ok_bind, deref_present ht₁, ok_bind,
      hnext, hw₂]
  refine ⟨m₂, hrun, ?_, hs₁.trans hs₂, ?_⟩
  · apply h.remove
    · intro p _
      rw [hs₂.entries, hs₁.entries]
    · intro p _
      rw [hp₂, hp₁, hprev]
    · intro p _
      rw [hn₂, hn₁, hnext, hlast, setAt_some]
  · apply (ho₁.mono _).trans (ho₂.mono _)
    · intro p hp
      rw [List.mem_singleton.mp hp]
      exact mem_timers hu
    · intro p hp
      rw [timers_append]
      exact List.mem_append_right _ hp

/-- `delete` frees the timer and leaves the others. -/
theorem delete_spec (k : Lifetimes) {t : TwTimer} (ht : m.nodes p = some t) :
    ∃ m', m.delete k (some p) = .ok m' ∧ Effect k m m' [] [p] ∧ Outside m m' [p] := by
  simp only [WheelMemory.delete, deref_present ht, ok_bind]
  cases k with
  | kept =>
    refine ⟨_, rfl, ⟨(List.append_nil _).symm, rfl, ?_⟩, ?_⟩
    · intro r
      by_cases hr : r = p
      · subst hr
        simp
      · simp [hr]
    · intro r hr
      exact Function.update_of_ne (by simpa using hr) ..
  | ignored =>
    refine ⟨m, rfl, ⟨(List.append_nil _).symm, rfl, ?_⟩, .refl m _⟩
    intro r
    simp

/-- A callback is one call more. -/
theorem callBack_spec (h : IsEntry m i e) :
    m.callBack (some e.1.timer) = .ok { m with calls := m.calls ++ [e.1] } := by
  obtain ⟨t, ht, -, -, hcb, hdata⟩ := h.alive
  rw [WheelMemory.callBack, deref_present ht, ok_bind, hcb, hdata]
  rfl

/-- A write to a timer of the list that keeps its links changes its entry only. -/
theorem rewrite_spec {g : TimerCall × Nat} (h : SlotList m i (a ++ e :: b)) (f : TwTimer → TwTimer)
    (hlinks : ∀ t, (f t).prev = t.prev ∧ (f t).next = t.next) (hname : g.1.timer = e.1.timer)
    (hentry : ∀ t, m.nodes e.1.timer = some t → ((f t).rotation, (f t).timeSlot, (f t).cbFunc,
      (f t).userData) = (g.2, i, some g.1.cbFunc, g.1.userData)) :
    ∃ m', m.write (some e.1.timer) f = .ok m' ∧ SlotList m' i (a ++ g :: b) ∧
      Effect k m m' [] [] ∧ Outside m m' [e.1.timer] := by
  obtain ⟨t, ht, -⟩ := h.deref
  have hnot := h.notMem
  have hnames : timers (a ++ g :: b) = timers (a ++ e :: b) := by
    rw [timers_middle, timers_middle, hname]
  have hout : Outside m { m with nodes := Function.update m.nodes e.1.timer (some (f t)) }
      [e.1.timer] := by
    intro r hr
    exact Function.update_of_ne (by simpa using hr) ..
  refine ⟨_, write_eq ht f, ?_, ?_, hout⟩
  · refine ⟨?_, hnames ▸ h.nodup, ?_⟩
    · rw [hnames]
      apply h.links.congr
      · intro r _
        exact congrFun (peek_update_same ht (hlinks t).1) r
      · intro r _
        exact congrFun (peek_update_same ht (hlinks t).2) r
    · intro y hy
      have hcases : y = g ∨ y ∈ a ++ b := by
        rw [List.mem_append, List.mem_cons] at hy
        rw [List.mem_append]
        tauto
      rcases hcases with rfl | hmem
      · unfold IsEntry
        rw [hname, ← hentry t ht]
        exact peek_some (Function.update_self ..)
      · have hy' : IsEntry m i y := by
          apply h.entries
          rw [List.mem_append] at hmem
          rw [List.mem_append, List.mem_cons]
          tauto
        apply hy'.congr
        apply hout
        rintro heq
        rw [List.mem_singleton] at heq
        exact hnot (heq ▸ mem_timers hmem)
  · refine ⟨(List.append_nil _).symm, rfl, ?_⟩
    intro r
    by_cases hr : r = e.1.timer
    · subst hr
      simp [ht]
    · simp [hr]

/-- A timer in a list is alive. -/
theorem alive_of_mem (h : SlotList m i q) (hp : p ∈ timers q) : ∃ t, m.nodes p = some t := by
  obtain ⟨e, he, rfl⟩ := List.mem_map.mp hp
  obtain ⟨t, ht, -⟩ := (h.entries e he).alive
  exact ⟨t, ht⟩

/-- The link before the second timer is reset and the first one is deleted, in this order. -/
theorem clearDelete_spec (k : Lifetimes) (h : SlotList m i (e :: b)) :
    ∃ m₁ m', m.writeIfSome (timers b).head? (fun u => { u with prev := none }) = .ok m₁ ∧
      m₁.delete k (some e.1.timer) = .ok m' ∧ SlotList m' i b ∧ Effect k m m' [] [e.1.timer] ∧
      Outside m m' (timers (e :: b)) := by
  have hnot : e.1.timer ∉ timers b := SlotList.notMem (a := []) h
  obtain ⟨t, ht⟩ := alive_of_mem (p := e.1.timer) h List.mem_cons_self
  have halive : ∀ p ∈ timers b, ∃ t, m.nodes p = some t :=
    fun p hp => alive_of_mem h (List.mem_cons_of_mem _ hp)
  obtain ⟨m₁, hw, hs, ho₁, hp₁, hn₁⟩ := setPrevIfSome_spec (timers b) halive none
  have hlist : SlotList m₁ i b := by
    apply SlotList.remove (a := []) h
    · intro p _
      rw [hs.entries]
    · intro p _
      rw [hp₁]
      rfl
    · intro p _
      rw [hn₁]
      rfl
  obtain ⟨m₂, hd, he, ho₂⟩ := delete_spec k ((ho₁ _ hnot).trans ht)
  refine ⟨m₁, m₂, hw, hd, ?_, (effect_of_sameEntries hs).trans he, ?_⟩
  · apply hlist.congr
    intro p hp
    apply ho₂
    rintro heq
    rw [List.mem_singleton] at heq
    exact hnot (heq ▸ hp)
  · apply (ho₁.mono _).trans (ho₂.mono _)
    · intro p hp
      exact List.mem_cons_of_mem _ hp
    · intro p hp
      rw [List.mem_singleton.mp hp]
      exact List.mem_cons_self

/-- The first timer is deleted and the link before the second one is reset, in this order. -/
theorem deleteClear_spec (k : Lifetimes) (h : SlotList m i (e :: b)) :
    ∃ m₁ m', m.delete k (some e.1.timer) = .ok m₁ ∧
      m₁.writeIfSome (timers b).head? (fun u => { u with prev := none }) = .ok m' ∧
      SlotList m' i b ∧ Effect k m m' [] [e.1.timer] ∧ Outside m m' (timers (e :: b)) := by
  have hnot : e.1.timer ∉ timers b := SlotList.notMem (a := []) h
  obtain ⟨t, ht⟩ := alive_of_mem (p := e.1.timer) h List.mem_cons_self
  obtain ⟨m₁, hd, he, ho₁⟩ := delete_spec k ht
  have hsame : ∀ p ∈ timers b, m₁.nodes p = m.nodes p := by
    intro p hp
    apply ho₁
    intro heq
    rw [List.mem_singleton] at heq
    exact hnot (heq ▸ hp)
  have halive : ∀ p ∈ timers b, ∃ t, m₁.nodes p = some t := by
    intro p hp
    rw [hsame p hp]
    exact alive_of_mem h (List.mem_cons_of_mem _ hp)
  obtain ⟨m₂, hw, hs, ho₂, hp₂, hn₂⟩ := setPrevIfSome_spec (timers b) halive none
  have hpeek {β : Type} (g : TwTimer → Option β) (p : Ptr) (hp : p ∈ timers b) :
      peek g m₁.nodes p = peek g m.nodes p := by
    unfold peek
    rw [hsame p hp]
  refine ⟨m₁, m₂, hd, hw, ?_, he.trans (effect_of_sameEntries hs), ?_⟩
  · apply SlotList.remove (a := []) h
    · intro p hp
      rw [hs.entries]
      exact hpeek _ p hp
    · intro p hp
      have hprev : prevLink m₁ p = prevLink m p := hpeek _ p hp
      rw [hp₂]
      cases (timers b).head? with
      | none => exact hprev
      | some v =>
        rw [setAt_some, setAt_some, Function.update_apply, Function.update_apply, hprev]
        rfl
    · intro p hp
      rw [hn₂]
      exact hpeek _ p hp
  · apply (ho₁.mono _).trans (ho₂.mono _)
    · intro p hp
      rw [List.mem_singleton.mp hp]
      exact List.mem_cons_self
    · intro p hp
      exact List.mem_cons_of_mem _ hp

/-- A timer behind others is unlinked and then deleted. -/
theorem unlinkDelete_spec (k : Lifetimes) (h : SlotList m i (c ++ [u] ++ e :: b)) {t : TwTimer}
    (ht : m.nodes e.1.timer = some t) :
    ∃ m₁ m', unlink m (some e.1.timer) = .ok m₁ ∧ m₁.nodes e.1.timer = some t ∧
      m₁.delete k (some e.1.timer) = .ok m' ∧ SlotList m' i (c ++ [u] ++ b) ∧
      Effect k m m' [] [e.1.timer] ∧ Outside m m' (timers (c ++ [u] ++ e :: b)) := by
  have hnot := h.notMem
  obtain ⟨m₁, hu, hrest, hs, ho⟩ := unlink_runs h
  have ht₁ : m₁.nodes e.1.timer = some t := (ho _ hnot).trans ht
  obtain ⟨m₂, hd, he, ho'⟩ := delete_spec k ht₁
  refine ⟨m₁, m₂, hu, ht₁, hd, ?_, (effect_of_sameEntries hs).trans he, ?_⟩
  · apply hrest.congr
    intro p hp
    apply ho'
    intro heq
    rw [List.mem_singleton] at heq
    exact hnot (heq ▸ hp)
  · apply (ho.mono fun _ => mem_timers_middle e).trans (ho'.mono _)
    intro p hp
    rw [List.mem_singleton.mp hp, timers_middle]
    exact List.mem_append_right _ List.mem_cons_self

/-- A timer behind others is not the first one. -/
theorem ne_head_behind (h : SlotList m i (c ++ [u] ++ e :: b)) :
    ¬ some e.1.timer = (timers (c ++ [u] ++ e :: b)).head? := by
  intro heq
  apply h.notMem
  rw [timers_middle] at heq
  have hhead : (timers (c ++ [u])).head? = some e.1.timer := by
    rw [heq]
    cases c <;> rfl
  rw [timers_append]
  exact List.mem_append_left _ (List.mem_of_head? hhead)

end Effects

/-! ## The walk of tick -/

/-- Among these turns only the last may be zero. -/
def zeroLast : List Nat → Bool
  | [] => true
  | 0 :: l => l.isEmpty
  | (_ + 1) :: l => zeroLast l

/-- Behind the first timer with turns left only the last one may be expired. -/
def tickSafe : List Nat → Bool
  | [] => true
  | 0 :: l => tickSafe l
  | (_ + 1) :: l => zeroLast l

/-- The turns of the entries of a list. -/
def turns (q : List (TimerCall × Nat)) : List Nat := q.map Prod.snd

/-- The same, where the timers `d` have been passed. -/
def safeBehind (d q : List (TimerCall × Nat)) : Bool :=
  if d.isEmpty then tickSafe (turns q) else zeroLast (turns q)

/-- A timer with a turn left can be passed. -/
theorem safeBehind_succ {d q : List (TimerCall × Nat)} {x : TimerCall} {r : Nat}
    (h : safeBehind d ((x, r + 1) :: q) = true) : safeBehind (d ++ [(x, r)]) q = true := by
  have hne : (d ++ [(x, r)]).isEmpty = false := by simp
  unfold safeBehind at h ⊢
  rw [hne, if_neg Bool.false_ne_true]
  cases d with
  | nil => exact h
  | cons y d => exact h

section Ticking

variable {k : Lifetimes} {m m' : WheelMemory} {i : Fin N} {q d : List (TimerCall × Nat)}
  {heads : Fin N → Option Ptr} {x : TimerCall} {r n : Nat} {w' : TimeWheel}

/-- A timer that is passed stays where it is. -/
theorem head_turn (h : heads i = (timers (d ++ (x, r + 1) :: q)).head?) :
    heads i = (timers (d ++ [(x, r)] ++ q)).head? := by
  rw [h, List.append_assoc, List.singleton_append, timers_middle, timers_middle]

/-- The walk passes a timer with turns left. -/
theorem tickLoop_turn (h : SlotList m i (d ++ (x, r + 1) :: q)) (w : TimeWheel) :
    ∃ m₁, TimeWheel.tickLoop k (n + 1) (some x.timer) w m = TimeWheel.tickLoop k n (timers q).head? w m₁ ∧
      SlotList m₁ i (d ++ [(x, r)] ++ q) ∧ Effect k m m₁ [] [] ∧ Outside m m₁ [x.timer] := by
  obtain ⟨t, ht, hrot, hslot, hcb, hdata, -, -⟩ := h.deref
  obtain ⟨m₁, hw, h₁, he, ho⟩ := rewrite_spec (k := k) (g := (x, r)) h
    (fun u => { u with rotation := u.rotation - 1 }) (fun _ => ⟨rfl, rfl⟩) rfl (by
      intro t' ht'
      obtain rfl := Option.some.inj (ht.symm.trans ht')
      simp only [hrot, hslot, hcb, hdata, Nat.add_sub_cancel])
  obtain ⟨t₁, ht₁, -, -, -, -, -, hnext⟩ := h₁.deref
  refine ⟨m₁, ?_, by rwa [List.append_assoc], he, ho⟩
  have hpos : 0 < t.rotation := hrot ▸ Nat.succ_pos r
  rw [TimeWheel.tickLoop]
  simp only [Option.isNone_some, Bool.false_eq_true, if_false]
  rw [deref_present ht, ok_bind, if_pos hpos, hw, ok_bind, deref_present ht₁, ok_bind, hnext]

/-- The walk deletes an expired timer that is the first one of its slot. -/
theorem tickLoop_first (h : SlotList m i ((x, 0) :: q)) (hhead : heads i = some x.timer) :
    ∃ m₁, TimeWheel.tickLoop k (n + 1) (some x.timer) ⟨List.ofFn heads, i⟩ m =
        TimeWheel.tickLoop k n (timers q).head? ⟨List.ofFn (Function.update heads i (timers q).head?), i⟩ m₁ ∧
      SlotList m₁ i q ∧ Effect k m m₁ [x] [x.timer] ∧ Outside m m₁ (timers ((x, 0) :: q)) := by
  obtain ⟨t, ht, hrot, -, -, -, -, hnext⟩ := SlotList.deref (a := []) h
  have hcall := callBack_spec (h.entries _ List.mem_cons_self)
  have h₀ : SlotList { m with calls := m.calls ++ [x] } i ((x, 0) :: q) := h.congr fun _ _ => rfl
  obtain ⟨m₁, m₂, hd, hw, hlist, he, ho⟩ := deleteClear_spec k h₀
  refine ⟨m₂, ?_, hlist, ?_, ho⟩
  · have hzero : ¬ 0 < t.rotation := by
      rw [hrot]
      exact Nat.lt_irrefl 0
    rw [TimeWheel.tickLoop]
    simp only [Option.isNone_some, Bool.false_eq_true, if_false]
    rw [deref_present ht, ok_bind, if_neg hzero, hcall, ok_bind, load_ofFn, ok_bind, if_pos hhead.symm,
      deref_present (t := t) ht, ok_bind, setSlot, store_ofFn, ok_bind]
    simp only [pure, Except.pure, ok_bind]
    rw [hd, ok_bind, load_ofFn, ok_bind, Function.update_self, hnext, hw, ok_bind]
  · have hcalls : Effect k m { m with calls := m.calls ++ [x] } [x] [] := by
      refine ⟨rfl, rfl, fun p => ?_⟩
      simp
    exact hcalls.trans he

/-- The second deletion of the walk does no harm when there is no timer, or when lifetimes are
left aside. -/
theorem delete_successor (h : SlotList m i (d ++ q)) (hsafe : k = .kept → q = []) :
    m.delete k (timers q).head? = .ok m := by
  cases q with
  | nil => rfl
  | cons y q =>
    cases k with
    | kept => exact absurd (hsafe rfl) (List.cons_ne_nil _ _)
    | ignored =>
      obtain ⟨t, ht, -⟩ := h.deref
      simp only [timers_cons, List.head?_cons, WheelMemory.delete, deref_present ht, ok_bind]
      rfl

/-- The walk deletes an expired timer behind others, and then the successor. -/
theorem tickLoop_later (h : SlotList m i (d ++ (x, 0) :: q)) (hd : d ≠ [])
    (hhead : heads i = (timers d).head?) :
    ∃ m₁, TimeWheel.tickLoop k (n + 1) (some x.timer) ⟨List.ofFn heads, i⟩ m =
        (do
          let m ← m₁.delete k (timers q).head?
          TimeWheel.tickLoop k n (timers q).head? ⟨List.ofFn heads, i⟩ m) ∧
      SlotList m₁ i (d ++ q) ∧ Effect k m m₁ [x] [x.timer] ∧
      Outside m m₁ (timers (d ++ (x, 0) :: q)) := by
  obtain ⟨t, ht, hrot, -, -, -, -, hnext⟩ := h.deref
  have hcall := callBack_spec (h.entries (x, 0) (by simp))
  obtain ⟨c, u, rfl⟩ := (List.eq_nil_or_concat d).resolve_left hd
  rw [List.concat_eq_append] at *
  have h₀ : SlotList { m with calls := m.calls ++ [x] } i (c ++ [u] ++ (x, 0) :: q) :=
    h.congr fun _ _ => rfl
  obtain ⟨m₁, m₂, hu, ht₁, hdel, hrest, he, ho⟩ := unlinkDelete_spec k h₀ ht
  have hne : ¬ some x.timer = heads i := by
    rw [hhead]
    intro heq
    apply h.notMem
    rw [timers_append]
    exact List.mem_append_left _ (List.mem_of_head? heq.symm)
  refine ⟨m₂, ?_, hrest, ?_, ho⟩
  · have hzero : ¬ 0 < t.rotation := by
      rw [hrot]
      exact Nat.lt_irrefl 0
    rw [TimeWheel.tickLoop]
    simp only [Option.isNone_some, Bool.false_eq_true, if_false]
    rw [deref_present ht, ok_bind, if_neg hzero, hcall, ok_bind, load_ofFn, ok_bind, if_neg hne, hu,
      ok_bind, deref_present ht₁, ok_bind, hdel, ok_bind, hnext]
  · have hcalls : Effect k m { m with calls := m.calls ++ [x] } [x] [] := by
      refine ⟨rfl, rfl, fun p => ?_⟩
      simp
    exact hcalls.trans he

/-- What the walk of `tick` leaves, where the timers `d` have been passed and those of `q` have
not. -/
structure Walked (k : Lifetimes) (i : Fin N) (d q : List (TimerCall × Nat))
    (heads : Fin N → Option Ptr) (m : WheelMemory) (w' : TimeWheel) (m' : WheelMemory) : Prop where
  wheel : w' = ⟨List.ofFn (Function.update heads i (timers (d ++ turned q)).head?), i⟩
  slot : SlotList m' i (d ++ turned q)
  effect : Effect k m m' (expired q) ((expired q).map (·.timer))
  outside : Outside m m' (timers (d ++ q))

/-- Passing a timer and then walking on. -/
theorem Walked.turn {m₁ : WheelMemory} (hwalk : Walked k i (d ++ [(x, r)]) q heads m₁ w' m')
    (he : Effect k m m₁ [] []) (ho : Outside m m₁ [x.timer]) :
    Walked k i d ((x, r + 1) :: q) heads m w' m' := by
  obtain ⟨hw, hs, he', ho'⟩ := hwalk
  have hnames : timers (d ++ [(x, r)] ++ q) = timers (d ++ (x, r + 1) :: q) := by
    rw [List.append_assoc, List.singleton_append, timers_middle, timers_middle]
  rw [List.append_assoc, List.singleton_append] at hw hs
  constructor
  · rw [turned_cons_succ]
    exact hw
  · rw [turned_cons_succ]
    exact hs
  · rw [expired_cons_succ]
    exact he.trans he'
  · apply (ho.mono _).trans (hnames ▸ ho')
    intro p hp
    rw [List.mem_singleton.mp hp, timers_middle]
    exact List.mem_append_right _ List.mem_cons_self

/-- Deleting a timer and then walking on. -/
theorem Walked.delete {m₁ : WheelMemory} {heads' : Fin N → Option Ptr}
    (hwalk : Walked k i d q heads' m₁ w' m')
    (hheads : ∀ v, Function.update heads' i v = Function.update heads i v)
    (he : Effect k m m₁ [x] [x.timer]) (ho : Outside m m₁ (timers (d ++ (x, 0) :: q))) :
    Walked k i d ((x, 0) :: q) heads m w' m' := by
  constructor
  · rw [turned_cons_zero, hwalk.wheel, hheads]
  · rw [turned_cons_zero]
    exact hwalk.slot
  · rw [expired_cons_zero]
    exact he.trans hwalk.effect
  · exact ho.trans (hwalk.outside.mono fun _ => mem_timers_middle _)

/-- A timer that expires behind others is the last one. -/
theorem eq_nil_of_safeBehind (hd : d ≠ []) (h : safeBehind d ((x, 0) :: q) = true) : q = [] := by
  obtain ⟨y, d', rfl⟩ := List.exists_cons_of_ne_nil hd
  exact List.map_eq_nil_iff.mp (List.isEmpty_iff.mp h)

/-- The walk of `tick` has a result: it calls the expired timers in their order and deletes
them, and the others have one turn less. -/
theorem tickLoop_runs (q : List (TimerCall × Nat)) :
    ∀ (d : List (TimerCall × Nat)) (n : Nat) (heads : Fin N → Option Ptr) (m : WheelMemory),
      SlotList m i (d ++ q) → heads i = (timers (d ++ q)).head? → q.length < n →
      (k = .kept → safeBehind d q = true) →
      ∃ w' m', TimeWheel.tickLoop k n (timers q).head? ⟨List.ofFn heads, i⟩ m = .ok (w', m') ∧
        Walked k i d q heads m w' m' := by
  induction q with
  | nil =>
    intro d n heads m h hhead hn _
    obtain ⟨n, rfl⟩ := Nat.exists_eq_succ_of_ne_zero (Nat.ne_of_gt hn)
    refine ⟨_, m, rfl, ?_, h, effect_of_sameEntries (.refl m), .refl m _⟩
    congr 2
    exact (Function.update_eq_self_iff.mpr hhead.symm).symm
  | cons y q ih =>
    intro d n heads m h hhead hn hsafe
    obtain ⟨n, rfl⟩ := Nat.exists_eq_succ_of_ne_zero (Nat.ne_of_gt (Nat.zero_lt_of_lt hn))
    have hn' : q.length < n := Nat.lt_of_succ_lt_succ hn
    obtain ⟨x, r⟩ := y
    rw [timers_cons, List.head?_cons]
    cases r with
    | succ r =>
      obtain ⟨m₁, hstep, h₁, he, ho⟩ := tickLoop_turn (k := k) (n := n) h ⟨List.ofFn heads, i⟩
      obtain ⟨w', m', hloop, hwalk⟩ :=
        ih (d ++ [(x, r)]) n heads m₁ h₁ (head_turn hhead) hn' fun hk => safeBehind_succ (hsafe hk)
      exact ⟨w', m', hstep.trans hloop, hwalk.turn he ho⟩
    | zero =>
      cases d with
      | nil =>
        obtain ⟨m₁, hstep, h₁, he, ho⟩ := tickLoop_first (k := k) (n := n) h hhead
        obtain ⟨w', m', hloop, hwalk⟩ :=
          ih [] n (Function.update heads i (timers q).head?) m₁ h₁ (Function.update_self ..) hn' hsafe
        refine ⟨w', m', hstep.trans hloop, hwalk.delete ?_ he ho⟩
        intro v
        rw [Function.update_idem]
      | cons z d =>
        have hd : z :: d ≠ [] := List.cons_ne_nil z d
        obtain ⟨m₁, hstep, h₁, he, ho⟩ := tickLoop_later (k := k) (n := n) h hd hhead
        have hnil : k = .kept → q = [] := fun hk => eq_nil_of_safeBehind hd (hsafe hk)
        obtain ⟨w', m', hloop, hwalk⟩ := ih (z :: d) n heads m₁ h₁ hhead hn' fun hk => by
          rw [hnil hk]
          rfl
        rw [delete_successor h₁ hnil] at hstep
        exact ⟨w', m', hstep.trans hloop, hwalk.delete (fun _ => rfl) he ho⟩

/-- The walk follows a timer that it deleted, when lifetimes are kept and an expired timer behind
others has a successor. -/
theorem tickLoop_unsafe (q : List (TimerCall × Nat)) :
    ∀ (d : List (TimerCall × Nat)) (n : Nat) (heads : Fin N → Option Ptr) (m : WheelMemory),
      SlotList m i (d ++ q) → heads i = (timers (d ++ q)).head? → q.length < n →
      safeBehind d q = false →
      TimeWheel.tickLoop .kept n (timers q).head? ⟨List.ofFn heads, i⟩ m = .error .deadObject := by
  induction q with
  | nil =>
    intro d n heads m _ _ _ hlate
    cases d <;> cases hlate
  | cons y q ih =>
    intro d n heads m h hhead hn hlate
    obtain ⟨n, rfl⟩ := Nat.exists_eq_succ_of_ne_zero (Nat.ne_of_gt (Nat.zero_lt_of_lt hn))
    have hn' : q.length < n := Nat.lt_of_succ_lt_succ hn
    obtain ⟨x, r⟩ := y
    rw [timers_cons, List.head?_cons]
    cases r with
    | succ r =>
      obtain ⟨m₁, hstep, h₁, -, -⟩ := tickLoop_turn (k := .kept) (n := n) h ⟨List.ofFn heads, i⟩
      rw [hstep]
      apply ih (d ++ [(x, r)]) n heads m₁ h₁ (head_turn hhead) hn'
      cases d with
      | nil => exact hlate
      | cons z d => exact hlate
    | zero =>
      cases d with
      | nil =>
        obtain ⟨m₁, hstep, h₁, -, -⟩ := tickLoop_first (k := .kept) (n := n) h hhead
        rw [hstep]
        exact ih [] n _ m₁ h₁ (Function.update_self ..) hn' hlate
      | cons z d =>
        obtain ⟨m₁, hstep, h₁, -, -⟩ :=
          tickLoop_later (k := .kept) (n := n) h (List.cons_ne_nil z d) hhead
        rw [hstep]
        cases q with
        | nil => cases hlate
        | cons y q =>
          obtain ⟨n, rfl⟩ := Nat.exists_eq_succ_of_ne_zero (Nat.ne_of_gt (Nat.zero_lt_of_lt hn'))
          obtain ⟨t, ht, -⟩ := h₁.deref
          obtain ⟨m₂, hd, he, -⟩ := delete_spec .kept ht
          have hdead : m₂.nodes y.1.timer = none :=
            (he.gone _).mpr (Or.inr ⟨rfl, List.mem_singleton_self _⟩)
          rw [timers_cons, List.head?_cons, hd, ok_bind, TimeWheel.tickLoop]
          simp only [Option.isNone_some, Bool.false_eq_true, if_false]
          rw [deref_dead hdead, error_bind]

end Ticking

end ServerListings.Interface.WheelOps
