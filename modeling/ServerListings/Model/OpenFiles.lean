import ServerListings.Model.StrayStore

/-!
# Workers with a file open (listings 15-5 and 15-6)

The server once more. Between its calls of `open` and `close` in `do_request` a worker holds a
descriptor, and `main` can come to `accept` meanwhile. What follows `close` in the call of
`process` is one step with it.
-/

set_option autoImplicit false

namespace ServerListings.Model.WebServer

open Lib.CMem ServerListings.Model.Http

/-- The server, with the descriptor of each worker that is between `open` and `close`, and the
answers of the file system in its call of `process`. -/
structure FileServer (W : Type) where
  server : Server W
  files : W → Option (FileSystem × Int)

/-- A step of the server with the workers' files. -/
inductive FileAction (W : Type)
  | server (a : Action W)
  | openFile (w : W) (fs : FileSystem) (fd : Int)
  | closeFile (w : W)

namespace Server

variable {W : Type}

/-- The server with another entry in the table of its descriptors. -/
def setDescriptor (s : Server W) (fd : Int) (d : Option Descriptor) : Server W :=
  { s with descriptors := Function.update s.descriptors fd d }

/-- The call of `process` comes to `open`. -/
def Opens (s : Server W) (w : W) (fs : FileSystem) : Prop :=
  ∃ x c, s.working w = some x ∧ (s.users x).processRead fs = .ok (.fileRequest, c)

end Server

variable {W : Type} [DecidableEq W]

/-- A worker that opens a file has its descriptor until `close`. Calls of `process` that open no
file, or whose `open` fails, are one step. -/
inductive FileTurn : FileServer W → FileAction W → FileServer W → Prop where
  | server {t : FileServer W} {s : Server W} (a : Action W) :
      (∀ w fs, a = .process w fs → t.files w = none) → Turn t.server a s →
      FileTurn t (.server a) { t with server := s }
  | openFile {t : FileServer W} (w : W) (fs : FileSystem) (fd : Int) :
      t.files w = none → t.server.Opens w fs → 0 ≤ fd → t.server.descriptors fd = none →
      FileTurn t (.openFile w fs fd)
        ⟨t.server.setDescriptor fd (some .other), Function.update t.files w (some (fs, fd))⟩
  | closeFile {t : FileServer W} {s : Server W} (w : W) (fs : FileSystem) (fd : Int) :
      t.files w = some (fs, fd) → Turn (t.server.setDescriptor fd none) (.process w fs) s →
      FileTurn t (.closeFile w) ⟨s, Function.update t.files w none⟩

/-- The action stays inside the arrays. -/
def FileServer.Defined (t : FileServer W) : FileAction W → Prop
  | .server a => t.server.Defined a
  | .openFile _ _ _ => True
  | .closeFile w => ∀ fs, t.server.Defined (.process w fs)

/-- The server before its event loop; no worker has a file. -/
def FileServer.start (s : Server W) : FileServer W := ⟨s, fun _ => none⟩

end ServerListings.Model.WebServer
