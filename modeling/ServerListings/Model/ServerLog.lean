import ServerListings.Model.WebServer

/-!
# What the steps of the web server do to descriptors and mappings

The calls of `accept`, `init` and `close` that a step makes, in program order, and the calls
of `init`, `mmap` and `munmap`. They are read off the effects of the member functions that the
step calls, and off the result of `process_read`.
-/

set_option autoImplicit false

namespace ServerListings.Model.WebServer

open Lib.CMem ServerListings.Model.Http

/-- `accept` returns a descriptor, `users[fd].init(fd, ..)` is called, a descriptor is
closed. -/
inductive Happening
  | accept (fd : Int)
  | init (fd : Int)
  | close (fd : Int)
  deriving DecidableEq, Repr

/-- The calls of `close` among the effects of a member function. -/
def closes (effects : List Effect) : List Happening :=
  effects.filterMap fun
    | .close fd => some (.close fd)
    | _ => none

namespace Server

variable {W : Type}

/-- `acceptClient`. -/
def acceptHappens (s : Server W) : Option Int → List Happening
  | none => []
  | some connfd =>
    if s.userCount ≥ maxFd then [.accept connfd, .close connfd]
    else [.accept connfd, .init connfd] ++ closes ((s.users connfd).initConn connfd).2

/-- `readClient`. -/
def readHappens (s : Server W) (sockfd : Int) (recvs : List RecvResult) : List Happening :=
  match (s.users sockfd).read recvs with
  | .ok (false, c) => closes c.closeConn.2
  | .ok (true, _) | .error _ => []

/-- `writeClient`. -/
def writeHappens (s : Server W) (sockfd : Int) (mapped : Int → List UInt8)
    (writevs : List WritevResult) : List Happening :=
  let call := (s.users sockfd).write mapped writevs
  closes call.effects ++ if call.ret = some false then closes call.conn.closeConn.2 else []

/-- `handleEvent`. -/
def handleHappens (s : Server W) (input : Input) (d : Delivered) : List Happening :=
  if d.fd = s.listenfd then s.acceptHappens input.accepted
  else if d.events.closing then closes (s.users d.fd).closeConn.2
  else if d.events.readable then s.readHappens d.fd input.recvs
  else if d.events.writable then s.writeHappens d.fd input.mapped input.writevs
  else []

/-- `work`. -/
def workHappens (s : Server W) (fd : Int) (fs : FileSystem) : List Happening :=
  match (s.users fd).process fs with
  | .ok (_, effects) => closes effects
  | .error _ => []

/-- What happens in a step. -/
def happens (s : Server W) : Action W → List Happening
  | .wait _ | .take _ => []
  | .handle d input => s.handleHappens input d
  | .process w fs =>
    match s.working w with
    | some fd => s.workHappens fd fs
    | none => []

end Server

/-! ## Mappings -/

/-- `users[fd].init(fd, ..)` is called, a `mmap` of the object succeeds, a `munmap` of it is
made. -/
inductive Mapping
  | init (fd : Int)
  | mmap (fd : Int) (address : Int) (length : Nat)
  | munmap (fd : Int) (address : Int) (length : Nat)
  deriving DecidableEq, Repr

/-- The calls of `munmap` among the effects of a member function of `users[fd]`. -/
def unmaps (fd : Int) (effects : List Effect) : List Mapping :=
  effects.filterMap fun
    | .munmap address length => some (.munmap fd address length)
    | _ => none

/-- The call of `mmap` in `process_read`, if there is one: `do_request` returns `FILE_REQUEST`
behind it and only there. The result and the length are in the object. -/
def mmapCall (fs : FileSystem) (c : HttpConn) : Option (Int × Nat) :=
  match c.processRead fs with
  | .ok (.fileRequest, c) => some (c.mFileAddress, c.mFileStat.stSize)
  | _ => none

namespace Server

variable {W : Type}

/-- `acceptClient`. -/
def acceptMaps (s : Server W) : Option Int → List Mapping
  | none => []
  | some connfd =>
    if s.userCount ≥ maxFd then []
    else [.init connfd] ++ unmaps connfd ((s.users connfd).initConn connfd).2

/-- `readClient`. -/
def readMaps (s : Server W) (sockfd : Int) (recvs : List RecvResult) : List Mapping :=
  match (s.users sockfd).read recvs with
  | .ok (false, c) => unmaps sockfd c.closeConn.2
  | .ok (true, _) | .error _ => []

/-- `writeClient`. -/
def writeMaps (s : Server W) (sockfd : Int) (mapped : Int → List UInt8)
    (writevs : List WritevResult) : List Mapping :=
  let call := (s.users sockfd).write mapped writevs
  unmaps sockfd call.effects ++
    if call.ret = some false then unmaps sockfd call.conn.closeConn.2 else []

/-- `handleEvent`. -/
def handleMaps (s : Server W) (input : Input) (d : Delivered) : List Mapping :=
  if d.fd = s.listenfd then s.acceptMaps input.accepted
  else if d.events.closing then unmaps d.fd (s.users d.fd).closeConn.2
  else if d.events.readable then s.readMaps d.fd input.recvs
  else if d.events.writable then s.writeMaps d.fd input.mapped input.writevs
  else []

/-- `work`. A `mmap` that fails returns -1. -/
def workMaps (s : Server W) (fd : Int) (fs : FileSystem) : List Mapping :=
  match (s.users fd).process fs with
  | .ok (_, effects) =>
    let made := match mmapCall fs (s.users fd) with
      | some (address, length) => if address = -1 then [] else [.mmap fd address length]
      | none => []
    made ++ unmaps fd effects
  | .error _ => []

/-- What a step does to the mappings. -/
def maps (s : Server W) : Action W → List Mapping
  | .wait _ | .take _ => []
  | .handle d input => s.handleMaps input d
  | .process w fs =>
    match s.working w with
    | some fd => s.workMaps fd fs
    | none => []

end Server

end ServerListings.Model.WebServer
