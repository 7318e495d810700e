import ServerListings.Model.HttpIo

/-!
# One connection in the event loop (listings 15-5 and 15-6)

What `main` and a worker do for one connection: `read` and `process` for an event that it can
be read, and `write` for each event that it can be written, while a response is being sent.
-/

set_option autoImplicit false

namespace ServerListings.Model.Http

open Lib.CMem

/-- What a connection meets with: the bytes that the next `read` takes, the files and the
memory, and, should a response be prepared, the results of `writev` in the calls of `write`
after it. -/
structure Delivery where
  data : List UInt8
  files : FileSystem
  mapped : Int → List UInt8
  writes : List (List WritevResult)

/-- The calls of `write` for a prepared response, one for each `EPOLLOUT`: the bytes that the
socket took and the object afterwards, if the last call takes the response to be sent and
keeps the connection. -/
def HttpConn.send (mapped : Int → List UInt8) : List (List WritevResult) → HttpConn →
    Option (List UInt8 × HttpConn)
  | [], _ => none
  | ws :: rest, c =>
    let call := c.write mapped ws
    match call.ending with
    | .waiting => (HttpConn.send mapped rest call.conn).map fun r => (call.sent ++ r.1, r.2)
    | .finished => if call.ret = some true then some (call.sent, call.conn) else none
    | .running | .failed => none

/-- The handling of a delivery: what was sent, if there was a response and it was sent. -/
def HttpConn.turn (c : HttpConn) (d : Delivery) : Checked (Option (List UInt8) × HttpConn) := do
  let (ok, c) ← c.read [.data d.data, .eagain]
  if !ok then pure (none, c.closeConn.1)
  else do
    let (c, effects) ← c.process d.files
    if effects = modfd c.mSockfd .epollout then
      match c.send d.mapped d.writes with
      | some (sent, c) => pure (some sent, c)
      | none => pure (none, c)
    else pure (none, c)

/-- The handling of deliveries one after the other, each after the response to the one before
was sent: the responses. -/
def HttpConn.serve (c : HttpConn) : List Delivery → Checked (List (List UInt8) × HttpConn)
  | [] => pure ([], c)
  | d :: ds => do
    let (reply, c) ← c.turn d
    let (replies, c) ← c.serve ds
    pure (reply.toList ++ replies, c)

end ServerListings.Model.Http
