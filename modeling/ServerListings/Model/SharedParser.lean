import ServerListings.Lib.CMem
import ServerListings.Lib.LineReader

/-!
# What the two HTTP parsers have in common

Listing 8-3 (`prase_line`, `parse_requestline`) and listing 15-5 (`http_conn::parse_line`,
`http_conn::parse_request_line`) scan lines with the same code and take a request line
apart with the same code but for the bytes that may end the method. Both are written here
once, over a read buffer and indices into it; each listing's own functions are instances.
-/

set_option autoImplicit false

namespace ServerListings.Model

open Lib.CMem Lib.LineReader

abbrev TAB : UInt8 := 9
abbrev SP : UInt8 := 32
abbrev SLASH : UInt8 := 47

/-- `enum LINE_STATUS`. -/
inductive LineStatus
  | lineOk
  | lineBad
  | lineOpen
  deriving DecidableEq, Repr

/-- What a line scan leaves behind: its status, the buffer and the checked index. -/
structure LineScan where
  status : LineStatus
  buf : List UInt8
  checked : Nat
  deriving DecidableEq, Repr

/-- The loop of the slave state machine; the first argument counts the iterations the loop
condition `checked < read` still allows. -/
def lineLoop : Nat → List UInt8 → Nat → Nat → Checked LineScan
  | 0, buf, checked, _ => .ok ⟨.lineOpen, buf, checked⟩
  | n + 1, buf, checked, read => do
    let temp ← load buf checked
    if temp = CR then
      if checked + 1 = read then
        .ok ⟨.lineOpen, buf, checked⟩
      else do
        let next ← load buf (checked + 1)
        if next = LF then do
          let buf ← store buf checked 0
          let buf ← store buf (checked + 1) 0
          .ok ⟨.lineOk, buf, checked + 2⟩
        else
          .ok ⟨.lineBad, buf, checked⟩
    else if temp = LF then
      if checked > 1 then do
        let prev ← load buf (checked - 1)
        if prev = CR then do
          let buf ← store buf (checked - 1) 0
          let buf ← store buf checked 0
          .ok ⟨.lineOk, buf, checked + 1⟩
        else
          .ok ⟨.lineBad, buf, checked⟩
      else
        .ok ⟨.lineBad, buf, checked⟩
    else
      lineLoop n buf (checked + 1) read

/-- The slave state machine: looks for the end of a line in `buf[checked .. read)`. -/
def lineScan (buf : List UInt8) (checked read : Nat) : Checked LineScan :=
  lineLoop (read - checked) buf checked read

/-- What taking a request line apart leaves behind: the buffer, the pointers to the URL and
to the version, whether the method was found to be GET, and whether the line was accepted. -/
structure RequestLine where
  buf : List UInt8
  url : Option Nat
  version : Option Nat
  isGet : Bool
  accepted : Bool
  deriving DecidableEq, Repr

/-- The last stage of the request line: the check of the URL, after a leading `http://` and
host are skipped. -/
def requestUrl (buf : List UInt8) (url version : Nat) : Checked RequestLine := do
  let url ←
    if ← strncasecmp buf url (bytes "http://") then strchr buf (url + 7) SLASH
    else pure (some url)
  match url with
  | none => pure ⟨buf, none, some version, true, false⟩
  | some url => do
    let first ← load buf url
    pure ⟨buf, some url, some version, true, first == SLASH⟩

/-- The second stage: the target, which `url` points before, and the version. -/
def requestTarget (buf : List UInt8) (url : Nat) : Checked RequestLine := do
  let url := url + (← strspn buf url [TAB])
  match ← strpbrk buf url [TAB] with
  | none => pure ⟨buf, some url, none, true, false⟩
  | some version => do
    let buf ← store buf version 0
    let version := version + 1
    let version := version + (← strspn buf version [TAB])
    if !(← strcasecmp buf version (bytes "HTTP/1.1")) then
      pure ⟨buf, some url, some version, true, false⟩
    else
      requestUrl buf url version

/-- Takes the request line at `text` apart in place. `delims` are the bytes that end the
method, and `version` is the version pointer before the call. -/
def requestLine (delims buf : List UInt8) (text : Nat) (version : Option Nat) :
    Checked RequestLine := do
  match ← strpbrk buf text delims with
  | none => pure ⟨buf, none, version, false, false⟩
  | some url => do
    let buf ← store buf url 0
    let url := url + 1
    if !(← strcasecmp buf text (bytes "GET")) then
      pure ⟨buf, some url, version, false, false⟩
    else
      requestTarget buf url

end ServerListings.Model
