import ServerListings.Lib.CMem
import Mathlib.Logic.Function.Basic

/-!
# Objects in a store

The objects that are alive, by their addresses. Following a null pointer, or a pointer to an
address where no object is alive, is a fault. `peek g` reads one member of all objects; a
write changes what is read at one address only, and nothing if the member stays.
-/

set_option autoImplicit false

namespace Lib.ObjectStore

open Lib.CMem

/-- The objects that are alive. -/
abbrev Objects (ν : Type) := Ptr → Option ν

section Objects

variable {ν β : Type} {s : Objects ν} {p q : Ptr} {t t' : ν} {g : ν → Option β} {o : Option Ptr}

/-- The object that a pointer refers to. -/
def deref (s : Objects ν) : Option Ptr → Checked ν
  | none => .error .nullPointer
  | some p =>
    match s p with
    | none => .error .deadObject
    | some t => .ok t

/-- A write to members of the object that a pointer refers to. -/
def write (s : Objects ν) (o : Option Ptr) (f : ν → ν) : Checked (Objects ν) := do
  let t ← deref s o
  pure (match o with
    | none => s
    | some p => Function.update s p (some (f t)))

/-- The write that a program makes only when the pointer is not null. -/
def writeIfSome (s : Objects ν) (o : Option Ptr) (f : ν → ν) : Checked (Objects ν) :=
  if o.isSome then write s o f else pure s

/-- Dereferencing a live object gives it. -/
theorem deref_present (h : s p = some t) : deref s (some p) = .ok t := by
  rw [deref, h]

/-- Dereferencing a dead object is a fault. -/
theorem deref_dead (h : s p = none) : deref s (some p) = .error .deadObject := by
  rw [deref, h]

/-- Writing to a live object changes it. -/
theorem write_some (h : s p = some t) (f : ν → ν) :
    write s (some p) f = .ok (Function.update s p (some (f t))) := by
  rw [write, deref_present h]
  rfl

/-- Writing behind a pointer that is not null is writing. -/
theorem writeIfSome_some (h : s p = some t) (f : ν → ν) :
    writeIfSome s (some p) f = .ok (Function.update s p (some (f t))) := write_some h f

/-- What `g` reads in the objects. -/
def peek (g : ν → Option β) (s : Objects ν) (p : Ptr) : Option β := (s p).bind g

/-- What is seen of a live object. -/
theorem peek_some (h : s p = some t) : peek g s p = g t := by
  rw [peek, h]
  rfl

/-- What is seen after an object was changed. -/
theorem peek_update (g : ν → Option β) (s : Objects ν) (p : Ptr) (t : ν) :
    peek g (Function.update s p (some t)) = Function.update (peek g s) p (g t) := by
  funext q
  by_cases hq : q = p
  · subst hq
    rw [Function.update_self]
    exact peek_some (Function.update_self ..)
  · rw [Function.update_of_ne hq, peek, Function.update_of_ne hq]
    rfl

/-- A write that leaves a member alone. -/
theorem peek_update_same (h : s p = some t) (hg : g t' = g t) :
    peek g (Function.update s p (some t')) = peek g s := by
  rw [peek_update, hg]
  exact Function.update_eq_self_iff.mpr (peek_some h).symm

end Objects

end Lib.ObjectStore
