import ServerListings.Model.WebServer

/-!
# The statements of `process` one by one (listings 15-5 and 15-6)

The server once more, but a worker's call of `http_conn::process` is no longer one step: the
calls of `process_read`, `process_write`, `close_conn` and `modfd` in it are steps of their
own, between which `main` and the other workers go on. Where the behaviour of a call is undefined,
there is no step.
-/

set_option autoImplicit false

namespace ServerListings.Model.WebServer

open Lib.CMem ServerListings.Model.Http

/-- Where a worker is in `process`: it has not begun a call, `process_read` has returned
something else than `NO_REQUEST`, `process_write` has returned false, or only the call of
`modfd` is left, which it came to without a call of `close_conn` or from there. -/
inductive Point
  | outside
  | parsed (readRet : HttpCode)
  | unwritten
  | arming (ev : Interest)
  | closed
  deriving DecidableEq, Repr

/-- The server and the places of its workers in `process`. A worker inside a call has the
request in `working`. -/
structure Interleaved (W : Type) where
  server : Server W
  point : W → Point

/-- A step of `main` or of a worker outside `process`, or a statement of `process`. -/
inductive Statement (W : Type)
  | outside (a : Action W)
  | processRead (w : W) (fs : FileSystem)
  | processWrite (w : W)
  | closeConn (w : W)
  | modfd (w : W)

namespace Interleaved

variable {W : Type} [DecidableEq W]

/-- A member function was called on `users[fd]` by the worker, which goes on at `p`. -/
def progress (f : Interleaved W) (w : W) (fd : Int) (c : HttpConn) (effects : List Effect)
    (p : Point) : Interleaved W :=
  ⟨f.server.setUser fd c effects, Function.update f.point w p⟩

/-- The last statement of `process`: the worker has no request afterwards. -/
def finish (f : Interleaved W) (w : W) (fd : Int) (ev : Interest) : Interleaved W :=
  ⟨Server.applyEffects { f.server with working := Function.update f.server.working w none }
      (Http.modfd (f.server.users fd).mSockfd ev),
    Function.update f.point w .outside⟩

end Interleaved

/-- The statements, each on the state that the ones before it have left. -/
inductive StatementStep {W : Type} [DecidableEq W] :
    Interleaved W → Statement W → Interleaved W → Prop where
  | outside {f : Interleaved W} {s' : Server W} (a : Action W) :
      (∀ w fs, a ≠ .process w fs) → Step f.server a s' →
      StatementStep f (.outside a) ⟨s', f.point⟩
  | processRead {f : Interleaved W} (w : W) (fd : Int) (fs : FileSystem) (readRet : HttpCode)
      (c : HttpConn) :
      f.server.working w = some fd → f.point w = .outside →
      (f.server.users fd).processRead fs = .ok (readRet, c) →
      StatementStep f (.processRead w fs) (f.progress w fd c []
        (if readRet = .noRequest then .arming .epollin else .parsed readRet))
  | processWrite {f : Interleaved W} (w : W) (fd : Int) (readRet : HttpCode) (writeRet : Bool)
      (c : HttpConn) :
      f.server.working w = some fd → f.point w = .parsed readRet →
      (f.server.users fd).processWrite readRet = .ok (writeRet, c) →
      StatementStep f (.processWrite w) (f.progress w fd c []
        (if writeRet then .arming .epollout else .unwritten))
  | closeConn {f : Interleaved W} (w : W) (fd : Int) :
      f.server.working w = some fd → f.point w = .unwritten →
      StatementStep f (.closeConn w) (f.progress w fd (f.server.users fd).closeConn.1
        (f.server.users fd).closeConn.2 .closed)
  | modfd {f : Interleaved W} (w : W) (fd : Int) (ev : Interest) :
      f.server.working w = some fd → f.point w = .arming ev →
      StatementStep f (.modfd w) (f.finish w fd ev)
  | modfdClosed {f : Interleaved W} (w : W) (fd : Int) :
      f.server.working w = some fd → f.point w = .closed →
      StatementStep f (.modfd w) (f.finish w fd .epollout)

end ServerListings.Model.WebServer
