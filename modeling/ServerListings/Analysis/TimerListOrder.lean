import ServerListings.Interface.TimerListSteps

/-!
# The timer list is a stable sorted sequence

`Run q s m` holds of every list object `s` and memory `m` that a program reaches from an empty
list. `q` is the sorted sequence that the same operations give: a new entry goes behind the
last one that is no later, an adjusted one is taken out and put in again, and `tick` drops the
entries that are due. `Represents` says what the list then has to look like, and
`run_represents` that it does.
-/

set_option autoImplicit false

namespace ServerListings.Analysis.TimerListOrder

open Lib.CMem Lib.DoublyLinked Lib.StableQueue ServerListings.Model ServerListings.Interface

/-- A timer that was just made and got its callback. -/
structure Fresh (t : UtilTimer) : Prop where
  prev : t.prev = none
  next : t.next = none
  callback : t.cbFunc.isSome

/-- The list objects that a program reaches, with the sequence of entries they stand for. -/
inductive Run : List (Ptr × Int) → SortTimerLst → Memory → Prop where
  | create (m : Memory) : Run [] SortTimerLst.create m
  | add {q : List (Ptr × Int)} {s s' : SortTimerLst} {m m' : Memory} (p : Ptr) (t : UtilTimer) :
      Run q s m → m.nodes p = none → Fresh t →
      s.addTimer (m.make p t) (some p) = .ok (s', m') → Run (enqueue (p, t.expire) q) s' m'
  | adjust {q : List (Ptr × Int)} {s s' : SortTimerLst} {m m₁ m' : Memory} (p : Ptr) (e₀ e : Int) :
      Run q s m → (p, e₀) ∈ q → e₀ ≤ e → m.setExpire (some p) e = .ok m₁ →
      s.adjustTimer m₁ (some p) = .ok (s', m') → Run (Lib.StableQueue.adjust p e q) s' m'
  | del {q : List (Ptr × Int)} {s s' : SortTimerLst} {m m' : Memory} (p : Ptr) :
      Run q s m → p ∈ names q → s.delTimer m (some p) = .ok (s', m') → Run (remove p q) s' m'
  | tick {q : List (Ptr × Int)} {s s' : SortTimerLst} {m m' : Memory} (cur : Int) :
      Run q s m → s.tick m cur = .ok (s', m') → Run (later cur q) s' m'

/-- The list object stands for the sequence `q`: the walks along its links meet the timers of
`q` and no other, each once, in the order of their expiry times. The operations succeed; a
deletion removes this timer only, and `tick` calls exactly the timers that are due, in the
order of the list, and removes these only. -/
structure Represents (q : List (Ptr × Int)) (s : SortTimerLst) (m : Memory) : Prop where
  forward : Walk (nextOf m) s.head (names q)
  backward : s.head ≠ none → Walk (prevOf m) s.tail (names q).reverse
  once : (names q).Nodup
  sorted : q.Pairwise (·.2 ≤ ·.2)
  expires : ∀ x ∈ q, ∃ t, m.nodes x.1 = some t ∧ t.expire = x.2
  add_ok : ∀ p t, m.nodes p = none → Fresh t →
    ∃ s' m', s.addTimer (m.make p t) (some p) = .ok (s', m')
  adjust_ok : ∀ p e₀ e, (p, e₀) ∈ q → e₀ ≤ e → ∃ m₁ s' m', m.setExpire (some p) e = .ok m₁ ∧
    s.adjustTimer m₁ (some p) = .ok (s', m')
  del_ok : ∀ p ∈ names q, ∃ s' m', s.delTimer m (some p) = .ok (s', m') ∧ Deleted [p] m m'
  tick_ok : ∀ cur, ∃ s' m', s.tick m cur = .ok (s', m') ∧ Deleted (names (due cur q)) m m' ∧
    m'.calls.map some = m.calls.map some ++ (due cur q).map (callAt m ·.1)

section Steps

variable {q : List (Ptr × Int)} {s : SortTimerLst} {m : Memory} {p : Ptr} {e₀ e : Int}
  {t : UtilTimer}

/-- Adding a fresh timer puts it into the queue. -/
theorem step_add (h : TimerList s m q) (hp : m.nodes p = none) (hfresh : Fresh t) :
    ∃ s' m', s.addTimer (m.make p t) (some p) = .ok (s', m') ∧
      TimerList s' m' (enqueue (p, t.expire) q) := by
  obtain ⟨s', m', hadd, hlist, -⟩ := h.make_add hp hfresh.prev hfresh.next hfresh.callback
  exact ⟨s', m', hadd, hlist⟩

/-- The invariant holds in every state of a run; the induction is on the run. -/
theorem run_timerList (hrun : Run q s m) : TimerList s m q := by
  induction hrun with
  | create m => exact .create m
  | add p t _ hp hfresh hadd ih =>
    obtain ⟨s', m', hadd', hlist⟩ := step_add ih hp hfresh
    obtain ⟨rfl, rfl⟩ := results_unique hadd' hadd
    exact hlist
  | adjust p e₀ e _ hp he hset hadj ih =>
    obtain ⟨m₁, s', m', hset', hadj', hlist, -⟩ := ih.set_adjust hp he
    obtain rfl := result_unique hset' hset
    obtain ⟨rfl, rfl⟩ := results_unique hadj' hadj
    exact hlist
  | del p _ hp hdel ih =>
    obtain ⟨s', m', hdel', hlist, -⟩ := ih.del hp
    obtain ⟨rfl, rfl⟩ := results_unique hdel' hdel
    exact hlist
  | tick cur _ htick ih =>
    obtain ⟨s', m', htick', hlist, -⟩ := ih.tick_spec cur
    obtain ⟨rfl, rfl⟩ := results_unique htick' htick
    exact hlist

/-- A linked list of timers represents its queue. -/
theorem represents_of_timerList (h : TimerList s m q) : Represents q s m where
  forward := by
    rw [h.head]
    exact h.links.walk_next
  backward := by
    intro hhead
    have hne : q ≠ [] := by
      rintro rfl
      exact hhead h.head
    rw [h.tail hne]
    exact h.links.walk_prev
  once := h.nodup
  sorted := h.sorted
  expires := fun x hx => (h.timers x hx).alive
  add_ok := by
    intro p t hp hfresh
    obtain ⟨s', m', hadd, -⟩ := step_add h hp hfresh
    exact ⟨s', m', hadd⟩
  adjust_ok := by
    intro p e₀ e hp he
    obtain ⟨m₁, s', m', hset, hadj, -⟩ := h.set_adjust hp he
    exact ⟨m₁, s', m', hset, hadj⟩
  del_ok := by
    intro p hp
    obtain ⟨s', m', hdel, -, hd, -⟩ := h.del hp
    exact ⟨s', m', hdel, hd⟩
  tick_ok := by
    intro cur
    obtain ⟨s', m', htick, -, hd, hcalls⟩ := h.tick_spec cur
    exact ⟨s', m', htick, hd, hcalls⟩

end Steps

/-- The list stands for the sorted sequence in every state of a run. -/
theorem run_represents {q : List (Ptr × Int)} {s : SortTimerLst} {m : Memory} (hrun : Run q s m) :
    Represents q s m :=
  represents_of_timerList (run_timerList hrun)

/-- A timer whose callback is 7. -/
def timerAt (expire : Int) : UtilTimer := ⟨expire, some 7, 0, none, none⟩

/-- Three timers, of which the first one is adjusted to the time of the last one and goes
behind it. -/
theorem run_represents_adjusted :
    ∃ m, Represents [(2, 4), (3, 5), (1, 5)] ⟨some 2, some 1⟩ m := by
  have hone := Run.add 1 (timerAt 3) (.create ⟨fun _ => none, 0, []⟩) rfl ⟨rfl, rfl, rfl⟩ rfl
  have htwo := Run.add 2 (timerAt 4) hone rfl ⟨rfl, rfl, rfl⟩ rfl
  have hthree := Run.add 3 (timerAt 5) htwo rfl ⟨rfl, rfl, rfl⟩ rfl
  have hlast := Run.adjust 1 3 5 hthree (by decide) (by decide) rfl rfl
  exact ⟨_, run_represents hlast⟩

end ServerListings.Analysis.TimerListOrder
