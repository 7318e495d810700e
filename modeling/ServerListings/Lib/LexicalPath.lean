import Mathlib.Data.List.DropRight
import Mathlib.Data.List.Infix

/-!
# Lexical resolution of paths

A path is walked one component after the other: a name goes down, `..` goes up, and `..` at the
root stays there. Nothing of a file system is looked at, so this is where the path leads if none
of its components is a symbolic link. A relative path comes to so many steps up and then names,
from whatever directory it is walked, and this decides whether it ends below that directory.
-/

set_option autoImplicit false

namespace Lib.LexicalPath

/-! ## Walks -/

inductive Component (Name : Type)
  | up
  | down (name : Name)
  deriving DecidableEq, Repr

section Walk

variable {Name : Type}

/-- One component, walked from a directory. The names of a directory are those from the root. -/
def move (dir : List Name) : Component Name → List Name
  | .up => dir.dropLast
  | .down name => dir ++ [name]

def walk (dir : List Name) (cs : List (Component Name)) : List Name := cs.foldl move dir

/-- What a relative path comes to: so many steps up, and then names. -/
structure Route (Name : Type) where
  ups : Nat
  names : List Name
  deriving DecidableEq, Repr

/-- A step up cancels the name before it. -/
def Route.move (r : Route Name) : Component Name → Route Name
  | .up => if r.names = [] then { r with ups := r.ups + 1 } else { r with names := r.names.dropLast }
  | .down name => { r with names := r.names ++ [name] }

def route (cs : List (Component Name)) : Route Name := cs.foldl Route.move ⟨0, []⟩

/-- Where a route leads from a directory. -/
def Route.target (r : Route Name) (dir : List Name) : List Name := dir.rdrop r.ups ++ r.names

/-- One more component dropped. -/
theorem rdrop_succ (dir : List Name) (n : Nat) : dir.rdrop (n + 1) = (dir.rdrop n).dropLast := by
  rw [List.dropLast_eq_take, List.rdrop, List.rdrop, List.take_take, List.length_take]
  congr 1
  omega

/-- A move on from the target of a route is a longer route. -/
theorem move_target (r : Route Name) (dir : List Name) (c : Component Name) :
    move (r.target dir) c = (r.move c).target dir := by
  cases c with
  | down name => exact List.append_assoc _ _ _
  | up =>
    show (dir.rdrop r.ups ++ r.names).dropLast = _
    by_cases hnames : r.names = []
    · rw [hnames, List.append_nil, ← rdrop_succ, Route.move, if_pos hnames, Route.target, hnames,
        List.append_nil]
    · rw [List.dropLast_append_of_ne_nil hnames, Route.move, if_neg hnames]
      rfl

/-- A walk leads where the route of its components leads. -/
theorem walk_eq_target (dir : List Name) (cs : List (Component Name)) :
    walk dir cs = (route cs).target dir := by
  have hfold : ∀ (cs : List (Component Name)) (r : Route Name),
      walk (r.target dir) cs = (cs.foldl Route.move r).target dir := by
    intro cs
    induction cs with
    | nil => exact fun r => rfl
    | cons c cs ih =>
      intro r
      show walk (move (r.target dir) c) cs = _
      rw [move_target, ih]
      rfl
  have hstart : Route.target ⟨0, []⟩ dir = dir := by
    rw [Route.target, List.rdrop_zero, List.append_nil]
  rw [route, ← hfold cs, hstart]

/-- A walk ends at or below the directory that it starts from exactly if it comes down again by
the names that it went up. -/
theorem prefix_walk_iff (dir : List Name) (cs : List (Component Name)) :
    dir <+: walk dir cs ↔ dir.rtake (route cs).ups <+: (route cs).names := by
  rw [walk_eq_target, Route.target]
  conv_lhs => lhs; rw [← List.take_append_drop (dir.length - (route cs).ups) dir]
  exact List.prefix_append_right_inj _

end Walk

/-! ## Paths -/

/-- `/`. -/
def slash : UInt8 := 47

/-- `.`. -/
def dot : UInt8 := 46

/-- What is between two slashes. Nothing and `.` are no components. -/
def component (s : List UInt8) : Option (Component (List UInt8)) :=
  if s = [] ∨ s = [dot] then none
  else if s = [dot, dot] then some .up
  else some (.down s)

def components (path : List UInt8) : List (Component (List UInt8)) :=
  (path.splitOn slash).filterMap component

/-- The components of two parts at a slash. -/
theorem components_append_slash (p q : List UInt8) :
    components (p ++ slash :: q) = components p ++ components q := by
  rw [components, List.splitOn_append_cons_self, List.filterMap_append]
  rfl

/-- A slash in front adds no component. -/
theorem components_slash (q : List UInt8) : components (slash :: q) = components q :=
  components_append_slash [] q

/-- Where an absolute path leads. -/
def resolve (path : List UInt8) : List (List UInt8) := walk [] (components path)

/-- What follows a slash is walked from what is in front of it. -/
theorem resolve_append_slash (p q : List UInt8) :
    resolve (p ++ slash :: q) = walk (resolve p) (components q) := by
  rw [resolve, components_append_slash, walk, List.foldl_append]
  rfl

/-- The path leads to `root` or to something below it. -/
def AtOrBelow (root path : List UInt8) : Prop := resolve root <+: resolve path

instance (root path : List UInt8) : Decidable (AtOrBelow root path) :=
  inferInstanceAs (Decidable (resolve root <+: resolve path))

/-- A path below a root stays there exactly when it walks back into it. -/
theorem atOrBelow_append_slash (root q : List UInt8) : AtOrBelow root (root ++ slash :: q) ↔
    (resolve root).rtake (route (components q)).ups <+: (route (components q)).names := by
  rw [AtOrBelow, resolve_append_slash]
  exact prefix_walk_iff _ _

end Lib.LexicalPath
