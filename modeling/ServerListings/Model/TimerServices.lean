import ServerListings.Lib.TimerService
import ServerListings.Model.LstTimer
import ServerListings.Model.TimeHeapCallbacks
import ServerListings.Model.TimeWheel

/-!
# The timer containers behind one interface (listings 11-2, 11-5 and 11-6)

The same requests made on the sorted list, on the time heap and on the time wheel. A request
to add a timer gives the address that `new` returns, the absolute time at which the timer
expires, and its callback with the user data. The answer to a request are the callbacks made.
-/

set_option autoImplicit false

namespace ServerListings.Model

open Lib.CMem Lib.TimerService

/-- A request on a timer container. -/
abbrev TimerRequest := Request Ptr Int (Nat × Nat)

/-- The request made on a sorted list. -/
def listServe (s : SortTimerLst × Memory) :
    TimerRequest → Checked ((SortTimerLst × Memory) × List (Nat × Nat))
  | .add p expire c => do
    let s ← s.1.addTimer (s.2.make p ⟨expire, some c.1, c.2, none, none⟩) (some p)
    pure (s, [])
  | .cancel p => do
    let s ← s.1.delTimer s.2 (some p)
    pure (s, [])
  | .tick cur => do
    let s' ← s.1.tick s.2 cur
    pure (s', s'.2.calls.drop s.2.calls.length)

/-- The request made on a time heap, whose callbacks leave the heap alone. `memory` is what a new
array holds before it is cleared. -/
def heapServe (memory : Nat → Option Ptr) (s : TimeHeap × Store) :
    TimerRequest → Checked ((TimeHeap × Store) × List (Nat × Nat))
  | .add p expire c => do
    let s ← s.1.addTimerInt memory (s.2.make p ⟨expire, some c.1, c.2⟩) (some p)
    pure (s, [])
  | .cancel p => pure ((s.1, delTimer s.2 (some p)), [])
  | .tick cur => do
    let s' ← s.1.tickCalling (fun _ _ => []) s.2 cur
    pure (s', s'.2.calls.drop s.2.calls.length)

/-- The request made on a time wheel whose heartbeats are numbered. The wheel is told in how
many heartbeats the timer expires, counted from the next one. The lifetimes of its timers are left
aside: a timer that was deleted can still be read. -/
def wheelServe (s : WheelState × Int) :
    TimerRequest → Checked ((WheelState × Int) × List (Nat × Nat))
  | .add p expire c => do
    let w ← s.1.apply .ignored (.add p ((expire - s.2) * TimeWheel.SI) c.1 c.2)
    pure ((w, s.2), [])
  | .cancel p => do
    let w ← s.1.apply .ignored (.del (some p))
    pure ((w, s.2), [])
  | .tick _ => do
    let w ← s.1.apply .ignored .tick
    pure ((w, s.2 + 1),
      (w.memory.calls.drop s.1.memory.calls.length).map fun c => (c.cbFunc, c.userData))

end ServerListings.Model
