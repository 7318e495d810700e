import ServerListings.Model.SharedParser

/-!
# Listing 8-3: reading a request with two state machines

`prase_line`, `parse_requestline`, `parse_headers` and `parse_content`, and the read loop
of `main`. The reference arguments of the C++ functions and the locals of `main` they refer
to are the fields of `Parser`.
-/

set_option autoImplicit false

namespace ServerListings.Model.ParseLine

open Lib.CMem Lib.LineReader

/-- `BUFFER_SIZE`. -/
def bufferSize : Nat := 4096

/-- `enum CHECK_STATE`. -/
inductive CheckState
  | checkStateRequestline
  | checkStateHeader
  deriving DecidableEq, Repr

/-- `enum HTTP_CODE`. -/
inductive HttpCode
  | noRequest
  | getRequest
  | badRequest
  | forbiddenRequest
  | internalError
  | closedConnection
  deriving DecidableEq, Repr

structure Parser where
  buffer : List UInt8
  checkedIndex : Nat
  checkstate : CheckState
  readIndex : Nat
  startLine : Nat
  deriving DecidableEq, Repr

/-- The locals of `main` before the first `recv`. -/
def initial : Parser :=
  { buffer := List.replicate bufferSize 0
    checkedIndex := 0
    checkstate := .checkStateRequestline
    readIndex := 0
    startLine := 0 }

/-- `prase_line`. -/
def praseLine (buffer : List UInt8) (checkedIndex readIndex : Nat) : Checked LineScan :=
  lineScan buffer checkedIndex readIndex

/-- `parse_requestline`. -/
def parseRequestline (p : Parser) (temp : Nat) : Checked (HttpCode × Parser) := do
  let res ← requestLine [TAB] p.buffer temp none
  let p := { p with buffer := res.buf }
  if res.accepted then do
    let _ ← strAt res.buf res.url  -- printed
    pure (.noRequest, { p with checkstate := .checkStateHeader })
  else
    pure (.badRequest, p)

/-- `parse_headers`. -/
def parseHeaders (buffer : List UInt8) (temp : Nat) : Checked HttpCode := do
  let first ← load buffer temp
  if first = 0 then
    pure .getRequest
  else if ← strncasecmp buffer temp (bytes "Host:") then do
    let temp := temp + 5
    let temp := temp + (← strspn buffer temp [TAB])
    let _ ← fetch buffer temp  -- printed
    pure .noRequest
  else
    pure .noRequest

/-- The loop of `parse_content`. Every iteration but the last consumes bytes of the buffer. -/
def contentLoop : Nat → Parser → Checked (HttpCode × Parser)
  | 0, _ => .error .outOfFuel
  | fuel + 1, p => do
    let scan ← praseLine p.buffer p.checkedIndex p.readIndex
    let p := { p with buffer := scan.buf, checkedIndex := scan.checked }
    match scan.status with
    | .lineOk =>
      let temp := p.startLine
      let p := { p with startLine := p.checkedIndex }
      match p.checkstate with
      | .checkStateRequestline => do
        let (retcode, p) ← parseRequestline p temp
        if retcode = .badRequest then pure (.badRequest, p) else contentLoop fuel p
      | .checkStateHeader => do
        let retcode ← parseHeaders p.buffer temp
        if retcode = .badRequest then pure (.badRequest, p)
        else if retcode = .getRequest then pure (.getRequest, p)
        else contentLoop fuel p
    | .lineOpen => pure (.noRequest, p)
    | .lineBad => pure (.badRequest, p)

/-- `parse_content`. -/
def parseContent (p : Parser) : Checked (HttpCode × Parser) :=
  contentLoop (p.readIndex - p.checkedIndex + 1) p

/-- A `recv` that returns the bytes `data`. -/
def receive (p : Parser) (data : List UInt8) : Checked Parser := do
  let buffer ← copyIn p.buffer p.readIndex data
  pure { p with buffer := buffer, readIndex := p.readIndex + data.length }

/-- The read loop of `main`: the results of the `parse_content` calls it makes while the
chunks arrive. It ends with the first result other than `NO_REQUEST`. -/
def readLoop (p : Parser) : List (List UInt8) → Checked (List HttpCode)
  | [] => pure []
  | data :: rest => do
    let p ← receive p data
    let (result, p) ← parseContent p
    if result = .noRequest then do
      let results ← readLoop p rest
      pure (result :: results)
    else
      pure [result]

end ServerListings.Model.ParseLine
