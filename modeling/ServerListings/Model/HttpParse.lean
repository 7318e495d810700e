import ServerListings.Model.HttpConn

/-!
# Parsing a request (listing 15-5)

`process_read` and what it calls. `FileSystem` stands for the kernel's answers to `stat`,
`open` and `mmap`.
-/

set_option autoImplicit false

namespace ServerListings.Model.Http

open Lib.CMem

/-- The answers of the file system: `stat` of a path, and the address at which `mmap` maps
the file of that path with a given length (`-1` for `MAP_FAILED`). -/
structure FileSystem where
  stat : List UInt8 → Option FileStat
  mmap : List UInt8 → Nat → Int
  deriving Inhabited

/-- `doc_root`. -/
def docRoot : List UInt8 := bytes "/var/www/html"

/-- `S_IROTH`. -/
def sIroth : Nat := 0o4

/-- `S_IFMT` and `S_IFDIR`, which `S_ISDIR` compares. -/
def sIfmt : Nat := 0o170000
def sIfdir : Nat := 0o040000

/-- `strncpy(m + i, s, n)`: pads with NULs up to `n` bytes. -/
def strncpy (m : List UInt8) (i : Nat) (s : List UInt8) (n : Nat) : Checked (List UInt8) :=
  copyIn m i (s.take n ++ List.replicate (n - s.length) 0)

/-- `http_conn::do_request`. -/
def HttpConn.doRequest (fs : FileSystem) (c : HttpConn) : Checked (HttpCode × HttpConn) := do
  let realFile ← copyIn c.mRealFile 0 (docRoot ++ [0])
  let len := docRoot.length
  match c.mUrl with
  | none => .error .outOfBounds
  | some p => do
    let url ← fetch c.mReadBuf p
    let realFile ← strncpy realFile len url (filenameLen - len - 1)
    let c := { c with mRealFile := realFile }
    let path ← fetch realFile 0
    match fs.stat path with
    | none => pure (.noResource, c)
    | some st => do
      let c := { c with mFileStat := st }
      if st.stMode &&& sIroth = 0 then pure (.forbiddenRequest, c)
      else if st.stMode &&& sIfmt = sIfdir then pure (.badRequest, c)
      else pure (.fileRequest, { c with mFileAddress := fs.mmap path st.stSize })

/-- `http_conn::parse_line`. -/
def HttpConn.parseLine (c : HttpConn) : Checked (LineStatus × HttpConn) := do
  let scan ← lineScan c.mReadBuf c.mCheckedIdx c.mReadIdx
  pure (scan.status, { c with mReadBuf := scan.buf, mCheckedIdx := scan.checked })

/-- `http_conn::parse_request_line`. -/
def HttpConn.parseRequestLine (c : HttpConn) (text : Nat) : Checked (HttpCode × HttpConn) := do
  let res ← requestLine [SP, TAB] c.mReadBuf text c.mVersion
  let c := { c with
    mReadBuf := res.buf
    mUrl := res.url
    mVersion := res.version
    mMethod := if res.isGet then .get else c.mMethod }
  if res.accepted then
    pure (.noRequest, { c with mCheckState := .checkStateHeader })
  else
    pure (.badRequest, c)

/-- `http_conn::parse_headers`. -/
def HttpConn.parseHeaders (c : HttpConn) (text : Nat) : Checked (HttpCode × HttpConn) := do
  let first ← load c.mReadBuf text
  if first = 0 then
    if c.mContentLength ≠ 0 then
      pure (.noRequest, { c with mCheckState := .checkStateContent })
    else
      pure (.getRequest, c)
  else if ← strncasecmp c.mReadBuf text (bytes "Connection:") then do
    let text := text + 11
    let text := text + (← strspn c.mReadBuf text [TAB])
    if ← strcasecmp c.mReadBuf text (bytes "keep-alive") then
      pure (.noRequest, { c with mLinger := true })
    else
      pure (.noRequest, c)
  else if ← strncasecmp c.mReadBuf text (bytes "Content-Length:") then do
    let text := text + 15
    let text := text + (← strspn c.mReadBuf text [TAB])
    let number ← fetch c.mReadBuf text
    pure (.noRequest, { c with mContentLength := toInt (atol number) })
  else if ← strncasecmp c.mReadBuf text (bytes "Host:") then do
    let text := text + 5
    let text := text + (← strspn c.mReadBuf text [TAB])
    pure (.noRequest, { c with mHost := some text })
  else do
    let _ ← fetch c.mReadBuf text  -- printed
    pure (.noRequest, c)

/-- `http_conn::parse_content`. -/
def HttpConn.parseContent (c : HttpConn) (text : Nat) : Checked (HttpCode × HttpConn) := do
  let bodyEnd ← addInt c.mContentLength c.mCheckedIdx
  if (c.mReadIdx : Int) ≥ bodyEnd then do
    let readBuf ← storeInt c.mReadBuf (text + c.mContentLength) 0
    pure (.getRequest, { c with mReadBuf := readBuf })
  else
    pure (.noRequest, c)

/-- The loop condition of `process_read`, with the assignment it makes: whether the body of
the loop is entered. -/
def HttpConn.nextLine (c : HttpConn) (lineStatus : LineStatus) : Checked (LineStatus × HttpConn) :=
  if c.mCheckState = .checkStateContent ∧ lineStatus = .lineOk then pure (.lineOk, c)
  else c.parseLine

/-- How the loop of `process_read` goes on after an iteration: it returns, it returns what
`do_request` returns, or it tests its condition again. -/
inductive Next
  | ret (code : HttpCode) (c : HttpConn)
  | doRequest (c : HttpConn)
  | again (lineStatus : LineStatus) (c : HttpConn)

/-- The `switch` in the loop of `process_read`. -/
def HttpConn.dispatch (c : HttpConn) (text : Nat) : Checked Next :=
  match c.mCheckState with
  | .checkStateRequestline => do
    let (ret, c) ← c.parseRequestLine text
    if ret = .badRequest then pure (.ret .badRequest c) else pure (.again .lineOk c)
  | .checkStateHeader => do
    let (ret, c) ← c.parseHeaders text
    if ret = .badRequest then pure (.ret .badRequest c)
    else if ret = .getRequest then pure (.doRequest c)
    else pure (.again .lineOk c)
  | .checkStateContent => do
    let (ret, c) ← c.parseContent text
    if ret = .getRequest then pure (.doRequest c) else pure (.again .lineOpen c)

/-- One iteration of the loop of `process_read`. -/
def HttpConn.iterate (c : HttpConn) (lineStatus : LineStatus) : Checked Next := do
  let (lineStatus, c) ← c.nextLine lineStatus
  if lineStatus ≠ .lineOk then
    pure (.ret .noRequest c)
  else do
    let text := c.mStartLine
    let c := { c with mStartLine := c.mCheckedIdx }
    let _ ← fetch c.mReadBuf text  -- printed
    c.dispatch text

/-- The loop of `process_read`. Every iteration but the first and the last consumes bytes of
the read buffer. -/
def HttpConn.readLoop (fs : FileSystem) :
    Nat → LineStatus → HttpConn → Checked (HttpCode × HttpConn)
  | 0, _, _ => .error .outOfFuel
  | fuel + 1, lineStatus, c => do
    match ← c.iterate lineStatus with
    | .ret code c => pure (code, c)
    | .doRequest c => c.doRequest fs
    | .again lineStatus c => HttpConn.readLoop fs fuel lineStatus c

/-- A pass that returns ends the loop. -/
theorem readLoop_ret {fs : FileSystem} {c c' : HttpConn} {ls : LineStatus} {code : HttpCode}
    (h : c.iterate ls = .ok (.ret code c')) (fuel : Nat) :
    c.readLoop fs (fuel + 1) ls = .ok (code, c') := by
  rw [HttpConn.readLoop, h]
  rfl

/-- A pass that goes on leaves the rest to the loop. -/
theorem readLoop_again {fs : FileSystem} {c c' : HttpConn} {ls ls' : LineStatus}
    (h : c.iterate ls = .ok (.again ls' c')) (fuel : Nat) :
    c.readLoop fs (fuel + 1) ls = c'.readLoop fs fuel ls' := by
  rw [HttpConn.readLoop, h]
  rfl

/-- A pass that has the whole request ends with `do_request`. -/
theorem readLoop_doRequest {fs : FileSystem} {c c' : HttpConn} {ls : LineStatus}
    (h : c.iterate ls = .ok (.doRequest c')) (fuel : Nat) :
    c.readLoop fs (fuel + 1) ls = c'.doRequest fs := by
  rw [HttpConn.readLoop, h]
  rfl

/-- `http_conn::process_read`. -/
def HttpConn.processRead (fs : FileSystem) (c : HttpConn) : Checked (HttpCode × HttpConn) :=
  HttpConn.readLoop fs (c.mReadIdx - c.mCheckedIdx + 2) .lineOk c

/-- Bytes that `recv` stores behind those already in the read buffer. -/
def HttpConn.receive (c : HttpConn) (data : List UInt8) : Checked HttpConn := do
  let readBuf ← copyIn c.mReadBuf c.mReadIdx data
  pure { c with mReadBuf := readBuf, mReadIdx := c.mReadIdx + data.length }

/-- Received bytes that fit are copied behind those read before. -/
theorem HttpConn.receive_of_copyIn {c : HttpConn} {data m : List UInt8}
    (h : copyIn c.mReadBuf c.mReadIdx data = .ok m) :
    c.receive data = .ok { c with mReadBuf := m, mReadIdx := c.mReadIdx + data.length } := by
  rw [HttpConn.receive, h]
  rfl

/-- `process_read` called after each chunk until it first returns something other than
`NO_REQUEST`: the last result, and the object after that call. -/
def HttpConn.readChunks (fs : FileSystem) (c : HttpConn) :
    List (List UInt8) → Checked (HttpCode × HttpConn)
  | [] => pure (.noRequest, c)
  | data :: rest => do
    let c ← c.receive data
    let (ret, c) ← c.processRead fs
    if ret = .noRequest then HttpConn.readChunks fs c rest else pure (ret, c)

end ServerListings.Model.Http
