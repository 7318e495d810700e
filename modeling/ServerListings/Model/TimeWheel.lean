import ServerListings.Lib.ObjectStore

/-!
# The time wheel (listing 11-5)

The class `time_wheel`. The timers are objects in a store; following a null pointer or a
pointer to an object that is not in the store is a fault. `Lifetimes` says whether `delete`
takes the object out of the store or leaves it there. A callback is only recorded, so it does
not touch the wheel. The counts and slot numbers are natural numbers: the class
never makes a negative one.
-/

set_option autoImplicit false

namespace ServerListings.Model

open Lib.CMem Lib.ObjectStore

/-- What `delete` does with the object. -/
inductive Lifetimes
  | kept
  | ignored
  deriving DecidableEq, Repr

/-- `tw_timer`. The callback and the user data are addresses. The constructor sets neither. -/
structure TwTimer where
  rotation : Nat
  timeSlot : Nat
  cbFunc : Option Nat
  userData : Nat
  prev : Option Ptr
  next : Option Ptr
  deriving DecidableEq, Repr

/-- The call of the callback of a timer. -/
structure TimerCall where
  timer : Ptr
  cbFunc : Nat
  userData : Nat
  deriving DecidableEq, Repr

/-- The timers in the store, how many were made, and the callbacks called so far. A walk over
different objects ends after `made` steps, which bounds the loops of the model. -/
structure WheelMemory where
  nodes : Objects TwTimer
  made : Nat
  calls : List TimerCall

namespace WheelMemory

def write (m : WheelMemory) (o : Option Ptr) (f : TwTimer → TwTimer) : Checked WheelMemory := do
  let nodes ← Lib.ObjectStore.write m.nodes o f
  pure { m with nodes := nodes }

/-- The write that a program makes only when the pointer is not null. -/
def writeIfSome (m : WheelMemory) (o : Option Ptr) (f : TwTimer → TwTimer) : Checked WheelMemory := do
  let nodes ← Lib.ObjectStore.writeIfSome m.nodes o f
  pure { m with nodes := nodes }

/-- `new tw_timer(rot, ts)` at the address `p`. -/
def make (m : WheelMemory) (p : Ptr) (rot ts : Nat) : WheelMemory :=
  { m with
    nodes := Function.update m.nodes p (some ⟨rot, ts, none, 0, none, none⟩)
    made := m.made + 1 }

/-- `delete`. -/
def delete (lt : Lifetimes) (m : WheelMemory) : Option Ptr → Checked WheelMemory
  | none => pure m
  | some p => do
    let _ ← deref m.nodes (some p)
    match lt with
    | .kept => pure { m with nodes := Function.update m.nodes p none }
    | .ignored => pure m

/-- `timer->cb_func(timer->user_data)`. -/
def callBack (m : WheelMemory) (timer : Option Ptr) : Checked WheelMemory := do
  let t ← deref m.nodes timer
  match timer, t.cbFunc with
  | some p, some f => pure { m with calls := m.calls ++ [⟨p, f, t.userData⟩] }
  | _, _ => .error .nullPointer

end WheelMemory

/-- `time_wheel`. -/
structure TimeWheel where
  slots : List (Option Ptr)
  curSlot : Nat
  deriving DecidableEq, Repr

namespace TimeWheel

/-- The number of slots. -/
def N : Nat := 60

/-- The slot interval. -/
def SI : Int := 1

/-- The constructor. -/
def create : TimeWheel := ⟨List.replicate N none, 0⟩

/-- The assignment of a slot. -/
def setSlot (w : TimeWheel) (i : Nat) (v : Option Ptr) : Checked TimeWheel := do
  let slots ← store w.slots i v
  pure { w with slots := slots }

/-- The number of ticks that a timeout is converted to. -/
def ticksOf (timeout : Int) : Nat := if timeout < SI then 1 else (timeout / SI).toNat

/-- `time_wheel::add_timer`, where `new` gives the address `p`. -/
def addTimer (w : TimeWheel) (m : WheelMemory) (p : Ptr) (timeout : Int) :
    Checked (Option Ptr × TimeWheel × WheelMemory) :=
  if timeout < 0 then pure (none, w, m)
  else do
    let ticks := ticksOf timeout
    let rotation := ticks / N
    let ts := (w.curSlot + ticks % N) % N
    let m := m.make p rotation ts
    let head ← load w.slots ts
    if head.isNone then do
      let w ← w.setSlot ts (some p)
      pure (some p, w, m)
    else do
      let m ← m.write (some p) fun t => { t with next := head }
      let m ← m.write head fun t => { t with prev := some p }
      let w ← w.setSlot ts (some p)
      pure (some p, w, m)

/-- The two statements that link the neighbours of a timer with each other. -/
def unlink (m : WheelMemory) (timer : Option Ptr) : Checked WheelMemory := do
  let t ← deref m.nodes timer
  let m ← m.write t.prev fun u => { u with next := t.next }
  let t ← deref m.nodes timer
  m.writeIfSome t.next fun u => { u with prev := t.prev }

/-- `time_wheel::del_timer`. -/
def delTimer (lt : Lifetimes) (w : TimeWheel) (m : WheelMemory) (timer : Option Ptr) :
    Checked (TimeWheel × WheelMemory) :=
  if timer.isNone then pure (w, m)
  else do
    let t ← deref m.nodes timer
    let ts := t.timeSlot
    let head ← load w.slots ts
    if timer = head then do
      let first ← deref m.nodes head
      let w ← w.setSlot ts first.next
      let m ← m.writeIfSome first.next fun u => { u with prev := none }
      let m ← m.delete lt timer
      pure (w, m)
    else do
      let m ← unlink m timer
      let m ← m.delete lt timer
      pure (w, m)

/-- The loop of `tick`. -/
def tickLoop (lt : Lifetimes) :
    Nat → Option Ptr → TimeWheel → WheelMemory → Checked (TimeWheel × WheelMemory)
  | 0, _, _, _ => .error .outOfFuel
  | n + 1, tmp, w, m =>
    if tmp.isNone then pure (w, m)
    else do
      let t ← deref m.nodes tmp
      if 0 < t.rotation then do
        let m ← m.write tmp fun u => { u with rotation := u.rotation - 1 }
        let t ← deref m.nodes tmp
        tickLoop lt n t.next w m
      else do
        let m ← m.callBack tmp
        let head ← load w.slots w.curSlot
        if tmp = head then do
          let t ← deref m.nodes tmp
          let w ← w.setSlot w.curSlot t.next
          let m ← m.delete lt tmp
          let head ← load w.slots w.curSlot
          let m ← m.writeIfSome head fun u => { u with prev := none }
          tickLoop lt n head w m
        else do
          let m ← unlink m tmp
          let t ← deref m.nodes tmp
          let tmp2 := t.next
          let m ← m.delete lt tmp
          -- the assignment of tmp comes before the second delete, which frees what tmp refers to
          let m ← m.delete lt tmp2
          tickLoop lt n tmp2 w m

/-- `time_wheel::tick`. -/
def tick (lt : Lifetimes) (w : TimeWheel) (m : WheelMemory) : Checked (TimeWheel × WheelMemory) := do
  let tmp ← load w.slots w.curSlot
  let (w, m) ← tickLoop lt (m.made + 1) tmp w m
  pure ({ w with curSlot := (w.curSlot + 1) % N }, m)

/-- The inner loop of the destructor. -/
def destroySlot (lt : Lifetimes) (i : Nat) :
    Nat → Option Ptr → TimeWheel → WheelMemory → Checked (TimeWheel × WheelMemory)
  | 0, _, _, _ => .error .outOfFuel
  | n + 1, tmp, w, m =>
    if tmp.isNone then pure (w, m)
    else do
      let t ← deref m.nodes tmp
      let w ← w.setSlot i t.next
      let m ← m.delete lt tmp
      let tmp ← load w.slots i
      destroySlot lt i n tmp w m

/-- The outer loop of the destructor, over the slots that are left. -/
def destroyLoop (lt : Lifetimes) :
    List Nat → TimeWheel → WheelMemory → Checked (TimeWheel × WheelMemory)
  | [], w, m => pure (w, m)
  | i :: rest, w, m => do
    let tmp ← load w.slots i
    let (w, m) ← destroySlot lt i (m.made + 1) tmp w m
    destroyLoop lt rest w m

/-- The destructor, `~time_wheel()`. -/
def destroy (lt : Lifetimes) (w : TimeWheel) (m : WheelMemory) : Checked (TimeWheel × WheelMemory) :=
  destroyLoop lt (List.range N) w m

end TimeWheel

/-! ## The operations in sequence -/

/-- A wheel and its memory. -/
structure WheelState where
  wheel : TimeWheel
  memory : WheelMemory

/-- The calls that a program makes. The caller of `add_timer` sets the callback and the user
data of the timer that it returns; `p` is the address that `new` gives. -/
inductive WheelOp
  | add (p : Ptr) (timeout : Int) (cbFunc userData : Nat)
  | del (timer : Option Ptr)
  | tick
  deriving DecidableEq, Repr

namespace WheelState

/-- An empty wheel, and no timer in the store. -/
def create : WheelState := ⟨TimeWheel.create, ⟨fun _ => none, 0, []⟩⟩

def apply (lt : Lifetimes) (s : WheelState) : WheelOp → Checked WheelState
  | .add p timeout f d => do
    let (timer, w, m) ← s.wheel.addTimer s.memory p timeout
    let m ← m.writeIfSome timer fun t => { t with cbFunc := some f, userData := d }
    pure ⟨w, m⟩
  | .del timer => do
    let (w, m) ← s.wheel.delTimer lt s.memory timer
    pure ⟨w, m⟩
  | .tick => do
    let (w, m) ← s.wheel.tick lt s.memory
    pure ⟨w, m⟩

end WheelState

end ServerListings.Model
