import ServerListings.Model.TimeWheel

/-!
# The time wheel when callbacks add timers

`time_wheel::tick` of listing 11-5 once more, now with callbacks that call `add_timer`. The
walk of `tick` stands at the timer that is called, which is still linked, and the current slot
is still the one that is walked.
-/

set_option autoImplicit false

namespace ServerListings.Model

open Lib.CMem Lib.ObjectStore

/-- A call of `add_timer` in a callback, which sets the callback and the user data of the new
timer. `p` is the address that `new` gives. -/
structure WheelAdd where
  p : Ptr
  timeout : Int
  cbFunc : Nat
  userData : Nat
  deriving DecidableEq, Repr

/-- The timers that a callback adds, from the state in which it is called. The memory of that
state has all calls made so far, this one included. -/
abbrev WheelCallbacks := TimeWheel → WheelMemory → List WheelAdd

namespace TimeWheel

def runAdds (lt : Lifetimes) : List WheelAdd → TimeWheel → WheelMemory →
    Checked (TimeWheel × WheelMemory)
  | [], w, m => pure (w, m)
  | a :: adds, w, m => do
    let s ← WheelState.apply lt ⟨w, m⟩ (.add a.p a.timeout a.cbFunc a.userData)
    runAdds lt adds s.wheel s.memory

/-- The part of the loop of `tick` behind a callback: the timer is unlinked and deleted. The
result has the timer that the walk goes on with. -/
def removeExpired (lt : Lifetimes) (w : TimeWheel) (m : WheelMemory) (tmp : Option Ptr) :
    Checked (TimeWheel × WheelMemory × Option Ptr) := do
  let head ← load w.slots w.curSlot
  if tmp = head then do
    let t ← deref m.nodes tmp
    let w ← w.setSlot w.curSlot t.next
    let m ← m.delete lt tmp
    let head ← load w.slots w.curSlot
    let m ← m.writeIfSome head fun u => { u with prev := none }
    pure (w, m, head)
  else do
    let m ← unlink m tmp
    let t ← deref m.nodes tmp
    let tmp2 := t.next
    let m ← m.delete lt tmp
    let m ← m.delete lt tmp2
    pure (w, m, tmp2)

/-- The loop of `tick`. `added` are the calls of `add_timer` that the callbacks have made. -/
def tickLoopCalling (lt : Lifetimes) (callbacks : WheelCallbacks) :
    Nat → Option Ptr → TimeWheel → WheelMemory → List WheelAdd →
      Checked (TimeWheel × WheelMemory × List WheelAdd)
  | 0, _, _, _, _ => .error .outOfFuel
  | n + 1, tmp, w, m, added =>
    if tmp.isNone then pure (w, m, added)
    else do
      let t ← deref m.nodes tmp
      if 0 < t.rotation then do
        let m ← m.write tmp fun u => { u with rotation := u.rotation - 1 }
        let t ← deref m.nodes tmp
        tickLoopCalling lt callbacks n t.next w m added
      else do
        let m ← m.callBack tmp
        let adds := callbacks w m
        let (w, m) ← runAdds lt adds w m
        let (w, m, tmp) ← removeExpired lt w m tmp
        tickLoopCalling lt callbacks n tmp w m (added ++ adds)

/-- `time_wheel::tick`, with the calls of `add_timer` that the callbacks have made. -/
def tickCalling (lt : Lifetimes) (callbacks : WheelCallbacks) (w : TimeWheel) (m : WheelMemory) :
    Checked (TimeWheel × WheelMemory × List WheelAdd) := do
  let tmp ← load w.slots w.curSlot
  let (w, m, added) ← tickLoopCalling lt callbacks (m.made + 1) tmp w m []
  pure ({ w with curSlot := (w.curSlot + 1) % N }, m, added)

/-- A function behind a bind goes into its second part. -/
theorem map_bind_checked {α β γ : Type} (g : β → γ) (x : Checked α) (f : α → Checked β) :
    (x >>= f).map g = x >>= fun a => (f a).map g := by
  cases x <;> rfl

/-- `tick` is the one whose callbacks add nothing. -/
theorem tickLoop_eq_calling (lt : Lifetimes) (n : Nat) :
    ∀ (tmp : Option Ptr) (w : TimeWheel) (m : WheelMemory) (added : List WheelAdd),
      tickLoopCalling lt (fun _ _ => []) n tmp w m added =
        (tickLoop lt n tmp w m).map fun r => (r.1, r.2, added) := by
  induction n with
  | zero =>
    intro tmp w m added
    rfl
  | succ n ih =>
    intro tmp w m added
    unfold tickLoopCalling tickLoop
    by_cases hnone : tmp.isNone
    · rw [if_pos hnone, if_pos hnone]
      rfl
    · rw [if_neg hnone, if_neg hnone]
      simp only [runAdds, removeExpired, List.append_nil, ih, map_bind_checked, pure_bind,
        apply_ite (Except.map _)]
      congr
      funext t
      split
      · rfl
      · congr
        funext m
        simp only [bind_assoc]
        congr
        funext head
        split
        · simp only [bind_assoc, pure_bind]
        · simp only [bind_assoc, pure_bind]

/-- Without callbacks on the wheel `tick` is the plain one. -/
theorem tick_eq_calling (lt : Lifetimes) (w : TimeWheel) (m : WheelMemory) :
    tickCalling lt (fun _ _ => []) w m = (tick lt w m).map fun r => (r.1, r.2, []) := by
  simp only [tickCalling, tick, tickLoop_eq_calling, map_bind_checked]
  congr
  funext tmp
  cases tickLoop lt (m.made + 1) tmp w m <;> rfl

end TimeWheel

/-! ## The operations in sequence -/

/-- The calls that a program makes: those of before, and `tick` with callbacks that add timers. -/
inductive RearmOp where
  | call (op : WheelOp)
  | tick (callbacks : WheelCallbacks)

/-- The state behind a call, and the calls of `add_timer` that callbacks have made in it. -/
def WheelState.applyCalling (lt : Lifetimes) (s : WheelState) :
    RearmOp → Checked (WheelState × List WheelAdd)
  | .call op => do
    let s ← s.apply lt op
    pure (s, [])
  | .tick callbacks => do
    let (w, m, added) ← s.wheel.tickCalling lt callbacks s.memory
    pure (⟨w, m⟩, added)

end ServerListings.Model
