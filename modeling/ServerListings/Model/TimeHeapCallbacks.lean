import ServerListings.Model.TimeHeapInts

/-!
# The heartbeat of the time heap when callbacks use the heap

`time_heap::tick` of listing 11-6 once more, now with callbacks that call `add_timer` and
`del_timer`. They run while their timer is still the first one of the array. The operations are
those whose `int` arithmetic is checked.
-/

set_option autoImplicit false

namespace ServerListings.Model

open Lib.CMem

/-- What a callback does with the heap. `make` is `new heap_timer` together with the members
that the callback then sets; `memory` is what a new array holds if `add_timer` needs one. -/
inductive HeapCall where
  | make (p : Ptr) (timer : HeapTimer)
  | add (memory : Nat → Option Ptr) (timer : Option Ptr)
  | del (timer : Option Ptr)

/-- The operation that the callback calls. -/
def HeapCall.run (h : TimeHeap) (s : Store) : HeapCall → Checked (TimeHeap × Store)
  | .make p timer => pure (h, s.make p timer)
  | .add memory timer => h.addTimerInt memory s timer
  | .del timer => pure (h, delTimer s timer)

/-- All that one callback does. -/
def runCalls : List HeapCall → TimeHeap → Store → Checked (TimeHeap × Store)
  | [], h, s => pure (h, s)
  | c :: cs, h, s => do
    let (h, s) ← c.run h s
    runCalls cs h s

/-- What the callbacks do, each from the state in which it is called. The store of that state
has all calls made so far, this one included, so that one callback may act differently each
time. -/
abbrev Callbacks := TimeHeap → Store → List HeapCall

/-- What the callback of a timer does, if it has one. -/
def madeCalls (callbacks : Callbacks) (h : TimeHeap) (s : Store) (timer : HeapTimer) :
    List HeapCall :=
  match timer.cbFunc with
  | none => []
  | some _ => callbacks h (s.callBack timer)

/-- The call of the callback of the first timer, with all that the callback does. -/
def TimeHeap.callBack (h : TimeHeap) (callbacks : Callbacks) (s : Store) (timer : HeapTimer) :
    Checked (TimeHeap × Store) :=
  runCalls (madeCalls callbacks h s timer) h (s.callBack timer)

/-- The loop of `tick`, at the clock value `cur`. -/
def tickLoopCalling (callbacks : Callbacks) (cur : Int) :
    Nat → Option Ptr → TimeHeap → Store → Checked (TimeHeap × Store)
  | 0, _, _, _ => .error .outOfFuel
  | n + 1, tmp, h, s =>
    if h.empty then pure (h, s)
    else if tmp.isNone then pure (h, s)
    else do
      let tmpTimer ← s.deref tmp
      if tmpTimer.expire > cur then pure (h, s)
      else do
        let first ← s.deref (← load h.array 0)
        let (h, s) ← h.callBack callbacks s first
        let (h, s) ← h.popTimerInt s
        let tmp ← load h.array 0
        tickLoopCalling callbacks cur n tmp h s

/-- `time_heap::tick`. -/
def TimeHeap.tickCalling (h : TimeHeap) (callbacks : Callbacks) (s : Store) (cur : Int) :
    Checked (TimeHeap × Store) := do
  let tmp ← load h.array 0
  tickLoopCalling callbacks cur (h.curSize + 1) tmp h s

end ServerListings.Model
