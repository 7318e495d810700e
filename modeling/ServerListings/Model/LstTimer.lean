import ServerListings.Lib.CMem

/-!
# The sorted list of timers (listing 11-2)

The class `sort_timer_lst`. The timers are objects in a memory; following a null pointer or a
pointer to an object that was deleted is a fault. A callback is only recorded, so it does not
touch the list.
-/

set_option autoImplicit false

namespace ServerListings.Model

open Lib.CMem

/-- `util_timer`. The callback and the user data are addresses. -/
structure UtilTimer where
  expire : Int
  cbFunc : Option Nat
  userData : Nat
  prev : Option Ptr
  next : Option Ptr
  deriving DecidableEq, Repr

/-- The timer objects that are alive, how many were made, and the callbacks made so far, each
with its argument. A walk over different objects ends after `made` steps, which bounds the
loops of the model. -/
structure Memory where
  nodes : Ptr → Option UtilTimer
  made : Nat
  calls : List (Nat × Nat)

namespace Memory

/-- `new util_timer` at the address `p`, with the members that the caller then sets. -/
def make (m : Memory) (p : Ptr) (t : UtilTimer) : Memory :=
  { m with nodes := fun q => if q = p then some t else m.nodes q, made := m.made + 1 }

/-- The object that a pointer refers to. -/
def deref (m : Memory) : Option Ptr → Checked UtilTimer
  | none => .error .nullPointer
  | some p =>
    match m.nodes p with
    | none => .error .deadObject
    | some t => .ok t

/-- The memory in which the object at `p`, if it is alive, is changed. -/
def modify (m : Memory) (p : Ptr) (f : UtilTimer → UtilTimer) : Memory :=
  { m with nodes := fun q => if q = p then (m.nodes q).map f else m.nodes q }

/-- A write to a member of the object that a pointer refers to. -/
def write (m : Memory) (o : Option Ptr) (f : UtilTimer → UtilTimer) : Checked Memory :=
  match o with
  | none => .error .nullPointer
  | some p => if (m.nodes p).isNone then .error .deadObject else .ok (m.modify p f)

def setPrev (m : Memory) (p v : Option Ptr) : Checked Memory := m.write p fun t => { t with prev := v }

def setNext (m : Memory) (p v : Option Ptr) : Checked Memory := m.write p fun t => { t with next := v }

def setExpire (m : Memory) (p : Option Ptr) (e : Int) : Checked Memory :=
  m.write p fun t => { t with expire := e }

/-- `delete`. -/
def delete (m : Memory) : Option Ptr → Checked Memory
  | none => .ok m
  | some p =>
    if (m.nodes p).isNone then .error .deadObject
    else .ok { m with nodes := fun q => if q = p then none else m.nodes q }

/-- The call of the callback of a timer with its user data. -/
def callBack (m : Memory) (t : UtilTimer) : Checked Memory :=
  match t.cbFunc with
  | none => .error .nullPointer
  | some f => .ok { m with calls := m.calls ++ [(f, t.userData)] }

end Memory

/-- `sort_timer_lst`. -/
structure SortTimerLst where
  head : Option Ptr
  tail : Option Ptr
  deriving DecidableEq, Repr

namespace SortTimerLst

/-- The constructor. -/
def create : SortTimerLst := ⟨none, none⟩

/-- The loop of the overload of `add_timer`: the final `prev` and `tmp`. -/
def insertLoop (timer : Option Ptr) :
    Nat → Option Ptr → Option Ptr → Memory → Checked (Option Ptr × Option Ptr × Memory)
  | 0, _, _, _ => .error .outOfFuel
  | n + 1, prev, tmp, m =>
    if tmp.isNone then pure (prev, tmp, m)
    else do
      let new ← m.deref timer
      let t ← m.deref tmp
      if new.expire < t.expire then do
        let m ← m.setNext prev timer
        let m ← m.setNext timer tmp
        let m ← m.setPrev tmp timer
        let m ← m.setPrev timer prev
        pure (prev, tmp, m)
      else
        insertLoop timer n tmp t.next m

/-- The overload `add_timer(util_timer* timer, util_timer* lst_head)`. -/
def addTimerFrom (s : SortTimerLst) (m : Memory) (timer lstHead : Option Ptr) :
    Checked (SortTimerLst × Memory) := do
  let h ← m.deref lstHead
  let (prev, tmp, m) ← insertLoop timer (m.made + 1) lstHead h.next m
  if tmp.isNone then do
    let m ← m.setNext prev timer
    let m ← m.setPrev timer prev
    let m ← m.setNext timer none
    pure ({ s with tail := timer }, m)
  else
    pure (s, m)

/-- `sort_timer_lst::add_timer`. -/
def addTimer (s : SortTimerLst) (m : Memory) (timer : Option Ptr) : Checked (SortTimerLst × Memory) :=
  if timer.isNone then pure (s, m)
  else if s.head.isNone then pure ({ head := timer, tail := timer }, m)
  else do
    let new ← m.deref timer
    let first ← m.deref s.head
    if new.expire < first.expire then do
      let m ← m.setNext timer s.head
      let m ← m.setPrev s.head timer
      pure ({ s with head := timer }, m)
    else
      s.addTimerFrom m timer s.head

/-- The two statements that link the neighbours of a timer with each other. -/
def unlink (m : Memory) (timer : Option Ptr) : Checked Memory := do
  let t ← m.deref timer
  let m ← m.setNext t.prev t.next
  let t ← m.deref timer
  m.setPrev t.next t.prev

/-- `sort_timer_lst::adjust_timer`. -/
def adjustTimer (s : SortTimerLst) (m : Memory) (timer : Option Ptr) :
    Checked (SortTimerLst × Memory) :=
  if timer.isNone then pure (s, m)
  else do
    let t ← m.deref timer
    if t.next.isNone then pure (s, m)
    else do
      let next ← m.deref t.next
      if t.expire < next.expire then pure (s, m)
      else if timer = s.head then do
        let first ← m.deref s.head
        let s := { s with head := first.next }
        let m ← m.setPrev s.head none
        let m ← m.setNext timer none
        s.addTimerFrom m timer s.head
      else do
        let m ← unlink m timer
        let t ← m.deref timer
        s.addTimerFrom m timer t.next

/-- `sort_timer_lst::del_timer`. -/
def delTimer (s : SortTimerLst) (m : Memory) (timer : Option Ptr) : Checked (SortTimerLst × Memory) :=
  if timer.isNone then pure (s, m)
  else if timer = s.head ∧ timer = s.tail then do
    let m ← m.delete timer
    pure ({ head := none, tail := none }, m)
  else if timer = s.head then do
    let first ← m.deref s.head
    let m ← m.setPrev first.next none
    let m ← m.delete timer
    pure ({ s with head := first.next }, m)
  else if timer = s.tail then do
    let last ← m.deref s.tail
    let m ← m.setNext last.prev none
    let m ← m.delete timer
    pure ({ s with tail := last.prev }, m)
  else do
    let m ← unlink m timer
    let m ← m.delete timer
    pure (s, m)

/-- The reset of the link before the first node, when there is one. -/
def clearPrev (m : Memory) (p : Option Ptr) : Checked Memory :=
  if p.isSome then m.setPrev p none else pure m

/-- The loop of `tick`, at the clock value `cur`. -/
def tickLoop (cur : Int) : Nat → Option Ptr → SortTimerLst → Memory → Checked (SortTimerLst × Memory)
  | 0, _, _, _ => .error .outOfFuel
  | n + 1, tmp, s, m =>
    if tmp.isNone then pure (s, m)
    else do
      let t ← m.deref tmp
      if cur < t.expire then pure (s, m)
      else do
        let m ← m.callBack t
        let s := { s with head := t.next }
        let m ← clearPrev m s.head
        let m ← m.delete tmp
        tickLoop cur n s.head s m

/-- `sort_timer_lst::tick`. -/
def tick (s : SortTimerLst) (m : Memory) (cur : Int) : Checked (SortTimerLst × Memory) :=
  if s.head.isNone then pure (s, m) else tickLoop cur (m.made + 1) s.head s m

/-- The loop of the destructor. -/
def destroyLoop : Nat → Option Ptr → Memory → Checked Memory
  | 0, _, _ => .error .outOfFuel
  | n + 1, tmp, m =>
    if tmp.isNone then pure m
    else do
      let t ← m.deref tmp
      let m ← m.delete tmp
      destroyLoop n t.next m

/-- The destructor, `~sort_timer_lst()`. -/
def destroy (s : SortTimerLst) (m : Memory) : Checked Memory := destroyLoop (m.made + 1) s.head m

end SortTimerLst

end ServerListings.Model
