import ServerListings.Lib.Outcome
import ServerListings.Model.TimeHeap

/-!
# The time heap with its array accesses and its arithmetic

The class `time_heap` of listing 11-6 once more. Here the loops that clear a new array and that
copy `init_array` are loops, every subscript of `array`, `temp` and `init_array` is checked, and
so is every expression of type `int` that may not fit. A `tick` is taken apart into the steps
between the calls of callbacks, so that a callback may call any operation of the heap.
-/

set_option autoImplicit false

namespace ServerListings.Model

open Lib.CMem

/-- A new array of `n` pointers. It is not initialised: `memory` is what it holds. -/
def newArray (memory : Nat → Option Ptr) (n : Nat) : List (Option Ptr) := (List.range n).map memory

/-- The loop that clears a new array, from position `i` on. -/
def clearLoop : Nat → Nat → List (Option Ptr) → Checked (List (Option Ptr))
  | 0, _, array => pure array
  | n + 1, i, array => do
    let array ← store array i none
    clearLoop n (i + 1) array

/-- The loop of the second constructor that copies the timers, from position `i` on. -/
def copyLoop (initArray : List (Option Ptr)) : Nat → Nat → List (Option Ptr) → Checked (List (Option Ptr))
  | 0, _, array => pure array
  | n + 1, i, array => do
    let p ← load initArray i
    let array ← store array i p
    copyLoop initArray n (i + 1) array

/-- The loop of `percolate_down`. The subscript `child + 1` is less than `cur_size`. -/
def percolateLoopInt (s : Store) (curSize : Nat) (temp : Option Ptr) :
    Nat → List (Option Ptr) → Nat → Checked (List (Option Ptr) × Nat)
  | 0, _, _ => .error .outOfFuel
  | n + 1, array, hole => do
    let left ← intOf (hole * 2 + 1)
    if left ≤ curSize - 1 then do
      let child ← lesserChild s curSize array left
      let c ← load array child
      let childTimer ← s.deref c
      let tempTimer ← s.deref temp
      if childTimer.expire < tempTimer.expire then do
        let array ← store array hole c
        percolateLoopInt s curSize temp n array child
      else
        pure (array, hole)
    else
      pure (array, hole)

/-- `time_heap::percolate_down`. -/
def TimeHeap.percolateDownInt (h : TimeHeap) (s : Store) (hole : Nat) : Checked TimeHeap := do
  let temp ← load h.array hole
  let (array, hole) ← percolateLoopInt s h.curSize temp (h.curSize + 1) h.array hole
  let array ← store array hole temp
  pure { h with array := array }

/-- The first constructor. The result is `none` when `new` throws. -/
def TimeHeap.createInt (memory : Nat → Option Ptr) (cap : Int) : Checked (Option TimeHeap) :=
  if cap < 0 then
    pure none
  else do
    let array ← clearLoop cap.toNat 0 (newArray memory cap.toNat)
    pure (some ⟨array, cap.toNat, 0⟩)

def buildLoopInt (s : Store) : Nat → TimeHeap → Checked TimeHeap
  | 0, h => pure h
  | i + 1, h => do
    let h ← h.percolateDownInt s i
    buildLoopInt s i h

/-- The second constructor, on an array of `size` pointers. The result is `none` when it
throws. -/
def TimeHeap.ofArrayInt (memory : Nat → Option Ptr) (s : Store) (initArray : List (Option Ptr))
    (capacity : Int) : Checked (Option TimeHeap) :=
  if capacity < initArray.length then
    pure none
  else do
    let array ← clearLoop capacity.toNat 0 (newArray memory capacity.toNat)
    if initArray.length ≠ 0 then do
      let array ← copyLoop initArray initArray.length 0 array
      let h : TimeHeap := ⟨array, capacity.toNat, initArray.length⟩
      let h ← buildLoopInt s ((h.curSize - 1) / 2 + 1) h
      pure (some h)
    else
      pure (some ⟨array, capacity.toNat, initArray.length⟩)

/-- `time_heap::resize`. -/
def TimeHeap.resizeInt (h : TimeHeap) (memory : Nat → Option Ptr) (s : Store) :
    Checked (TimeHeap × Store) := do
  let n ← intOf (2 * h.capacity)
  let temp ← clearLoop n 0 (newArray memory n)
  let (temp, s) ← resizeLoop h.array h.curSize 0 temp s
  pure ({ h with array := temp, capacity := n }, s)

def TimeHeap.makeRoomInt (h : TimeHeap) (memory : Nat → Option Ptr) (s : Store) :
    Checked (TimeHeap × Store) :=
  if h.curSize ≥ h.capacity then h.resizeInt memory s else pure (h, s)

/-- `time_heap::add_timer`. -/
def TimeHeap.addTimerInt (h : TimeHeap) (memory : Nat → Option Ptr) (s : Store)
    (timer : Option Ptr) : Checked (TimeHeap × Store) :=
  match timer with
  | none => pure (h, s)
  | some _ => do
    let (h, s) ← h.makeRoomInt memory s
    let (array, hole) ← addLoop s timer (h.curSize + 1) h.array h.curSize
    let array ← store array hole timer
    pure ({ h with array := array, curSize := h.curSize + 1 }, s)

/-- `time_heap::pop_timer`. -/
def TimeHeap.popTimerInt (h : TimeHeap) (s : Store) : Checked (TimeHeap × Store) :=
  if h.empty then pure (h, s)
  else do
    let first ← load h.array 0
    if first.isSome then do
      let s := s.delete first
      let last ← load h.array (h.curSize - 1)
      let array ← store h.array 0 last
      let h ← { h with array := array, curSize := h.curSize - 1 }.percolateDownInt s 0
      pure (h, s)
    else
      pure (h, s)

/-! ## Programs that use the heap -/

/-- A call of `tick` that has not returned: its variables, and whether it waits for a callback
or is at the condition of its loop. -/
structure TickCall where
  cur : Int
  tmp : Option Ptr
  inCallback : Bool
  deriving DecidableEq, Repr

/-- A heap in use. The calls of `tick` are in each other's callbacks, the innermost first. -/
structure HeapUse where
  heap : TimeHeap
  store : Store
  ticks : List TickCall

/-- What a program does with the heap. `make` is `new heap_timer` with the members that are
then set. -/
inductive HeapOp where
  | make (p : Ptr) (timer : HeapTimer)
  | add (memory : Nat → Option Ptr) (timer : Option Ptr)
  | del (timer : Option Ptr)
  | pop
  | top
  | tick (cur : Int)

/-- A program calls an operation, or the innermost `tick` goes on: through its loop condition, or
after the return of the callback. -/
inductive HeapAction where
  | call (op : HeapOp)
  | turn
  | back

/-- The call of an operation; of `tick` the part before its loop. -/
def HeapUse.call (u : HeapUse) : HeapOp → Checked HeapUse
  | .make p timer => pure { u with store := u.store.make p timer }
  | .add memory timer => do
    let (h, s) ← u.heap.addTimerInt memory u.store timer
    pure { u with heap := h, store := s }
  | .del timer => pure { u with store := delTimer u.store timer }
  | .pop => do
    let (h, s) ← u.heap.popTimerInt u.store
    pure { u with heap := h, store := s }
  | .top => do
    let _ ← u.heap.top
    pure u
  | .tick cur => do
    let tmp ← load u.heap.array 0
    pure { u with ticks := ⟨cur, tmp, false⟩ :: u.ticks }

/-- The end of an iteration of the loop of `tick`. -/
def HeapUse.popFirst (u : HeapUse) (cur : Int) (ticks : List TickCall) : Checked HeapUse := do
  let (h, s) ← u.heap.popTimerInt u.store
  let tmp ← load h.array 0
  pure ⟨h, s, ⟨cur, tmp, false⟩ :: ticks⟩

/-- The loop of `tick` from its condition to the callback, or to the next condition if the
first timer has no callback. -/
def HeapUse.turn (u : HeapUse) (cur : Int) (tmp : Option Ptr) (ticks : List TickCall) :
    Checked HeapUse :=
  if u.heap.empty then pure { u with ticks := ticks }
  else if tmp.isNone then pure { u with ticks := ticks }
  else do
    let tmpTimer ← u.store.deref tmp
    if tmpTimer.expire > cur then pure { u with ticks := ticks }
    else do
      let first ← u.store.deref (← load u.heap.array 0)
      if first.cbFunc.isSome then
        pure ⟨u.heap, u.store.callBack first, ⟨cur, tmp, true⟩ :: ticks⟩
      else
        u.popFirst cur ticks

/-- What an action computes, or `none` where it is not possible. -/
def HeapUse.step (u : HeapUse) (a : HeapAction) : Option (Checked HeapUse) :=
  match a, u.ticks with
  | .call op, [] => some (u.call op)
  | .call op, ⟨_, _, true⟩ :: _ => some (u.call op)
  | .turn, ⟨cur, tmp, false⟩ :: ticks => some (u.turn cur tmp ticks)
  | .back, ⟨cur, _, true⟩ :: ticks => some (u.popFirst cur ticks)
  | _, _ => none

end ServerListings.Model
