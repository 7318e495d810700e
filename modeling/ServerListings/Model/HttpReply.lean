import ServerListings.Model.HttpParse

/-!
# Preparing a response (listing 15-5)

`add_response` and the functions that call it, and `process_write`. The text of a format
string with its arguments is written out as a byte list. The calls of `add_headers`, whose end lacks
a `return`, are taken to come back.
-/

set_option autoImplicit false

namespace ServerListings.Model.Http

open Lib.CMem

def ok200Title : List UInt8 := bytes "OK"
def error400Title : List UInt8 := bytes "Bad Request"
def error400Form : List UInt8 :=
  bytes "Your Request has bad syntax or is inherently impossible to satisfy.\n"
def error403Title : List UInt8 := bytes "Forbidden"
def error403Form : List UInt8 := bytes "You do not have permission to get file from this server.\n"
def error404Title : List UInt8 := bytes "Not Found"
def error404Form : List UInt8 := bytes "The requested file was not found on this server.\n"
def error500Title : List UInt8 := bytes "Internal Error"
def error500Form : List UInt8 := bytes "There was an unusual problem serving the requested file.\n"

/-- `ok_string`, the page served for an empty file. -/
def okString : List UInt8 := bytes "<html><body></body></html>"

/-- The decimal digits of a natural number. -/
def digits (n : Nat) : List UInt8 := (Nat.toDigits 10 n).map fun c => c.toNat.toUInt8

/-- An `int` as `%d` prints it. -/
def decimal (v : Int) : List UInt8 := if v < 0 then 45 :: digits v.natAbs else digits v.natAbs

/-- `vsnprintf(m + i, size, ..)` of a text: at most `size - 1` bytes of it, and a NUL. -/
def vsnprintf (m : List UInt8) (i size : Nat) (text : List UInt8) : Checked (List UInt8) :=
  if size = 0 then pure m else copyIn m i (text.take (size - 1) ++ [0])

/-- `http_conn::add_response`. -/
def HttpConn.addResponse (c : HttpConn) (text : List UInt8) : Checked (Bool × HttpConn) :=
  if c.mWriteIdx ≥ writeBufferSize then pure (false, c)
  else do
    let size := writeBufferSize - 1 - c.mWriteIdx
    let writeBuf ← vsnprintf c.mWriteBuf c.mWriteIdx size text
    let c := { c with mWriteBuf := writeBuf }
    let len := text.length
    if len ≥ size then pure (false, c)
    else pure (true, { c with mWriteIdx := c.mWriteIdx + len })

/-- `http_conn::add_status_line`. -/
def HttpConn.addStatusLine (c : HttpConn) (status : Int) (title : List UInt8) :
    Checked (Bool × HttpConn) :=
  c.addResponse (bytes "HTTP/1.1" ++ bytes " " ++ decimal status ++ bytes " " ++ title ++ bytes "\r\n")

/-- `http_conn::add_content_length`. -/
def HttpConn.addContentLength (c : HttpConn) (contentLen : Int) : Checked (Bool × HttpConn) :=
  c.addResponse (bytes "Content-Length: " ++ decimal contentLen ++ bytes "\r\n")

/-- `http_conn::add_linger`. -/
def HttpConn.addLinger (c : HttpConn) : Checked (Bool × HttpConn) :=
  c.addResponse (bytes "Connection: " ++ (if c.mLinger then bytes "keep-alive" else bytes "close") ++
    bytes "\r\n")

/-- `http_conn::add_blank_line`. -/
def HttpConn.addBlankLine (c : HttpConn) : Checked (Bool × HttpConn) := c.addResponse (bytes "\r\n")

/-- `http_conn::add_content`. -/
def HttpConn.addContent (c : HttpConn) (content : List UInt8) : Checked (Bool × HttpConn) :=
  c.addResponse content

/-- `http_conn::add_headers`. The results of the three calls are dropped. The source declares the
function as `bool` and has no `return` in it, which is undefined behaviour in C++ in every call. Here
the call comes back to its caller, which looks at no result: this is an assumption on the compiler,
and every statement about a response that was prepared rests on it. -/
def HttpConn.addHeaders (c : HttpConn) (contentLen : Int) : Checked HttpConn := do
  let (_, c) ← c.addContentLength contentLen
  let (_, c) ← c.addLinger
  let (_, c) ← c.addBlankLine
  pure c

/-- A case of the `switch` of `process_write` that answers with a page from the write buffer:
whether the page fits, and what it leaves behind. -/
def HttpConn.addPage (c : HttpConn) (status : Int) (title form : List UInt8) :
    Checked (Bool × HttpConn) := do
  let (_, c) ← c.addStatusLine status title
  let c ← c.addHeaders form.length
  c.addContent form

/-- What `process_write` does behind its `switch`. -/
def HttpConn.sendPage (c : HttpConn) : HttpConn :=
  { c with
    mIv0 := ⟨.writeBuf, c.mWriteIdx⟩
    mIvCount := 1 }

/-- `http_conn::process_write`. The case of an empty file falls through to the default case. -/
def HttpConn.processWrite (c : HttpConn) (ret : HttpCode) : Checked (Bool × HttpConn) :=
  match ret with
  | .internalError => page 500 error500Title error500Form
  | .badRequest => page 400 error400Title error400Form
  | .noResource => page 404 error404Title error404Form
  | .forbiddenRequest => page 403 error403Title error403Form
  | .fileRequest =>
    if c.mFileStat.stSize ≠ 0 then do
      let (_, c) ← c.addStatusLine 200 ok200Title
      let c ← c.addHeaders (toInt c.mFileStat.stSize)
      pure (true, { c with
        mIv0 := ⟨.writeBuf, c.mWriteIdx⟩
        mIv1 := ⟨.file c.mFileAddress, c.mFileStat.stSize⟩
        mIvCount := 2 })
    else do
      let (_, c) ← c.addPage 200 ok200Title okString
      pure (false, c)
  | _ => pure (false, c)
where
  page (status : Int) (title form : List UInt8) : Checked (Bool × HttpConn) := do
    let (fits, c) ← c.addPage status title form
    if fits then pure (true, c.sendPage) else pure (false, c)

end ServerListings.Model.Http
