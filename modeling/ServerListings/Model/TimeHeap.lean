import ServerListings.Lib.CMem

/-!
# The time heap (listing 11-6)

The class `time_heap`. A timer object has an address; `delete` ends its life, which the store
records. Reading a member of an object whose life has ended is no fault here: the last value
is read, so that the order of the heap can be stated apart from the lifetime of its timers.
The sizes are numbers, as is right up to 2^30 timers: behind that `hole * 2 + 1` overflows an
`int` in `percolate_down`. `TimeHeapInts` has the operations on `int`.
-/

set_option autoImplicit false

namespace ServerListings.Model

open Lib.CMem

/-- `heap_timer`. The callback and the user data are addresses. -/
structure HeapTimer where
  expire : Int
  cbFunc : Option Nat
  userData : Nat
  deriving DecidableEq, Repr

/-- The timer objects, the objects deleted so far and the callbacks made so far, each with
its argument. -/
structure Store where
  timers : Ptr → HeapTimer
  deleted : List Ptr
  calls : List (Nat × Nat)

/-- The object that a pointer refers to. -/
def Store.deref (s : Store) : Option Ptr → Checked HeapTimer
  | none => .error .nullPointer
  | some p => .ok (s.timers p)

/-- `delete`. -/
def Store.delete (s : Store) : Option Ptr → Store
  | none => s
  | some p => { s with deleted := s.deleted ++ [p] }

/-- `new heap_timer` at the address `p`, with the members that the caller then sets. -/
def Store.make (s : Store) (p : Ptr) (t : HeapTimer) : Store :=
  { s with timers := fun q => if q = p then t else s.timers q }

/-- `time_heap`. -/
structure TimeHeap where
  array : List (Option Ptr)
  capacity : Nat
  curSize : Nat
  deriving DecidableEq, Repr

/-- The first constructor, `time_heap(int cap)`. -/
def TimeHeap.create (cap : Nat) : TimeHeap := ⟨List.replicate cap none, cap, 0⟩

/-- `time_heap::empty`. -/
def TimeHeap.empty (h : TimeHeap) : Bool := h.curSize = 0

/-- The child that the loop of `percolate_down` compares with, given the left one. -/
def lesserChild (s : Store) (curSize : Nat) (array : List (Option Ptr)) (child : Nat) :
    Checked Nat :=
  if child < curSize - 1 then do
    let right ← s.deref (← load array (child + 1))
    let left ← s.deref (← load array child)
    pure (if right.expire < left.expire then child + 1 else child)
  else
    pure child

/-- The loop of `percolate_down`: the array and the final place of the hole. -/
def percolateLoop (s : Store) (curSize : Nat) (temp : Option Ptr) :
    Nat → List (Option Ptr) → Nat → Checked (List (Option Ptr) × Nat)
  | 0, _, _ => .error .outOfFuel
  | n + 1, array, hole =>
    if hole * 2 + 1 ≤ curSize - 1 then do
      let child ← lesserChild s curSize array (hole * 2 + 1)
      let c ← load array child
      let childTimer ← s.deref c
      let tempTimer ← s.deref temp
      if childTimer.expire < tempTimer.expire then do
        let array ← store array hole c
        percolateLoop s curSize temp n array child
      else
        pure (array, hole)
    else
      pure (array, hole)

/-- `time_heap::percolate_down`. -/
def TimeHeap.percolateDown (h : TimeHeap) (s : Store) (hole : Nat) : Checked TimeHeap := do
  let temp ← load h.array hole
  let (array, hole) ← percolateLoop s h.curSize temp (h.curSize + 1) h.array hole
  let array ← store array hole temp
  pure { h with array := array }

/-- The loop of the second constructor, from the element before the given one downwards. -/
def buildLoop (s : Store) : Nat → TimeHeap → Checked TimeHeap
  | 0, h => pure h
  | i + 1, h => do
    let h ← h.percolateDown s i
    buildLoop s i h

/-- The second constructor, `time_heap(heap_timer** init_array, int size, int capacity)`. The
result is `none` when it throws. -/
def TimeHeap.ofArray (s : Store) (initArray : List (Option Ptr)) (capacity : Nat) :
    Checked (Option TimeHeap) :=
  if capacity < initArray.length then
    pure none
  else do
    let h : TimeHeap :=
      ⟨initArray ++ List.replicate (capacity - initArray.length) none, capacity, initArray.length⟩
    if initArray.length ≠ 0 then do
      let h ← buildLoop s ((h.curSize - 1) / 2 + 1) h
      pure (some h)
    else
      pure (some h)

/-- The copying loop of `resize`, from position `i` on. -/
def resizeLoop (array : List (Option Ptr)) :
    Nat → Nat → List (Option Ptr) → Store → Checked (List (Option Ptr) × Store)
  | 0, _, temp, s => pure (temp, s)
  | n + 1, i, temp, s => do
    let p ← load array i
    let temp ← store temp i p
    resizeLoop array n (i + 1) temp (s.delete p)

/-- `time_heap::resize`. -/
def TimeHeap.resize (h : TimeHeap) (s : Store) : Checked (TimeHeap × Store) := do
  let (temp, s) ← resizeLoop h.array h.curSize 0 (List.replicate (2 * h.capacity) none) s
  pure ({ h with array := temp, capacity := 2 * h.capacity }, s)

/-- The loop of `add_timer`: the array and the final place of the hole. -/
def addLoop (s : Store) (timer : Option Ptr) :
    Nat → List (Option Ptr) → Nat → Checked (List (Option Ptr) × Nat)
  | 0, _, _ => .error .outOfFuel
  | n + 1, array, hole =>
    if hole > 0 then do
      let parent := (hole - 1) / 2
      let p ← load array parent
      let parentTimer ← s.deref p
      let newTimer ← s.deref timer
      if parentTimer.expire ≤ newTimer.expire then
        pure (array, hole)
      else do
        let array ← store array hole p
        addLoop s timer n array parent
    else
      pure (array, hole)

/-- The call of `resize` in `add_timer`. -/
def TimeHeap.makeRoom (h : TimeHeap) (s : Store) : Checked (TimeHeap × Store) :=
  if h.curSize ≥ h.capacity then h.resize s else pure (h, s)

/-- `time_heap::add_timer`. -/
def TimeHeap.addTimer (h : TimeHeap) (s : Store) (timer : Option Ptr) : Checked (TimeHeap × Store) :=
  match timer with
  | none => pure (h, s)
  | some _ => do
    let (h, s) ← h.makeRoom s
    let (array, hole) ← addLoop s timer (h.curSize + 1) h.array h.curSize
    let array ← store array hole timer
    pure ({ h with array := array, curSize := h.curSize + 1 }, s)

/-- `time_heap::del_timer`. -/
def delTimer (s : Store) : Option Ptr → Store
  | none => s
  | some p => { s with timers := fun q => if q = p then { s.timers p with cbFunc := none } else s.timers q }

/-- `time_heap::top`. -/
def TimeHeap.top (h : TimeHeap) : Checked (Option Ptr) :=
  if h.empty then pure none else load h.array 0

/-- `time_heap::pop_timer`. -/
def TimeHeap.popTimer (h : TimeHeap) (s : Store) : Checked (TimeHeap × Store) :=
  if h.empty then pure (h, s)
  else do
    let first ← load h.array 0
    if first.isSome then do
      let s := s.delete first
      let last ← load h.array (h.curSize - 1)
      let array ← store h.array 0 last
      let h ← { h with array := array, curSize := h.curSize - 1 }.percolateDown s 0
      pure (h, s)
    else
      pure (h, s)

/-- The call of the callback of the first timer, when it has one. -/
def Store.callBack (s : Store) (timer : HeapTimer) : Store :=
  match timer.cbFunc with
  | none => s
  | some f => { s with calls := s.calls ++ [(f, timer.userData)] }

/-- The loop of `tick`, at the clock value `cur`. -/
def tickLoop (cur : Int) : Nat → Option Ptr → TimeHeap → Store → Checked (TimeHeap × Store)
  | 0, _, _, _ => .error .outOfFuel
  | n + 1, tmp, h, s =>
    if h.empty then pure (h, s)
    else if tmp.isNone then pure (h, s)
    else do
      let tmpTimer ← s.deref tmp
      if tmpTimer.expire > cur then pure (h, s)
      else do
        let first ← s.deref (← load h.array 0)
        let (h, s) ← h.popTimer (s.callBack first)
        let tmp ← load h.array 0
        tickLoop cur n tmp h s

/-- `time_heap::tick`. -/
def TimeHeap.tick (h : TimeHeap) (s : Store) (cur : Int) : Checked (TimeHeap × Store) := do
  let tmp ← load h.array 0
  tickLoop cur (h.curSize + 1) tmp h s

/-- The loop of the destructor, from position `i` on. -/
def destroyLoop (array : List (Option Ptr)) : Nat → Nat → Store → Checked Store
  | 0, _, s => pure s
  | n + 1, i, s => do
    let p ← load array i
    destroyLoop array n (i + 1) (s.delete p)

/-- The destructor, `~time_heap()`. -/
def TimeHeap.destroy (h : TimeHeap) (s : Store) : Checked Store := destroyLoop h.array h.curSize 0 s

end ServerListings.Model
