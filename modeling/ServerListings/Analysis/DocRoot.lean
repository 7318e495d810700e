import ServerListings.Analysis.FileAskedFor
import ServerListings.Lib.LexicalPath

/-!
# Files outside of `doc_root`

`do_request` puts the URL behind `doc_root` as it is, and nothing in front of it looks for `..`. A
URL that goes up further than it has come down leaves the root directory, and stays outside unless
it comes down again by the last names of `doc_root`.
-/

set_option autoImplicit false

namespace ServerListings.Analysis.DocRoot

open Lib.CMem Lib.LineReader Lib.LexicalPath ServerListings.Model ServerListings.Model.Http
open ServerListings.Interface
open ServerListings.Analysis.FileAskedFor ServerListings.Analysis.ReadBufferSafety

/-- In any file system, the path in `m_real_file`, which `stat` and `open` are called for, leads
to `doc_root` or to something below it, and the file served is the one at this path. -/
def StaysInRoot (c : HttpConn) : Prop :=
  ∀ fs : FileSystem, ∃ code d path, c.doRequest fs = .ok (code, d) ∧
    fetch d.mRealFile 0 = .ok path ∧ AtOrBelow docRoot path ∧
    (code = .fileRequest → fs.stat path = some d.mFileStat ∧
      d.mFileAddress = fs.mmap path d.mFileStat.stSize)

/-- When every name is cancelled with a `..` behind it, there are so many `..` left in the URL,
and names behind them that begin with as many of the last names of `doc_root`. -/
def ReturnsToRoot (url : List UInt8) : Prop :=
  (resolve docRoot).rtake (route (components url)).ups <+: (route (components url)).names

instance (url : List UInt8) : Decidable (ReturnsToRoot url) :=
  inferInstanceAs (Decidable (_ <+: _))

/-! ## The path of a request -/

/-- A path that is asked for starts with a slash. -/
theorem path_slash {fs : FileSystem} {c₀ : HttpConn} {path : List UInt8} {m : Machine}
    (h : AsksFor fs c₀ path m) : ∃ rest, path = SLASH :: rest := by
  induction h with
  | accepted _ _ hline hpath => exact parseRequestLine_slash hline hpath
  | step _ _ ih => exact ih

section Request

variable {fs : FileSystem} {c₀ c : HttpConn} {path url : List UInt8}

/-- A body of negative length can cut off the whole URL. -/
theorem url_slash (h : Request fs c₀ c path url) : url = [] ∨ ∃ rest, url = SLASH :: rest := by
  obtain ⟨rest, rfl⟩ := path_slash h.asked
  obtain ⟨s, hs⟩ := h.ofLine.1
  cases url with
  | nil => exact .inl rfl
  | cons b url => exact .inr ⟨url, by rw [(List.cons.inj hs).1]⟩

/-- The file is below the root exactly when the part of the URL that is copied returns there. -/
theorem atOrBelow_requestPath (h : url = [] ∨ ∃ rest, url = SLASH :: rest) :
    AtOrBelow docRoot (requestPath url) ↔
      ReturnsToRoot (url.take (filenameLen - docRoot.length - 1)) := by
  obtain rfl | ⟨rest, rfl⟩ := h
  · decide +kernel
  · have hsize : filenameLen - docRoot.length - 1 = 185 + 1 := by decide
    rw [requestPath, hsize, List.take_succ_cons, ReturnsToRoot]
    have hslash : components (SLASH :: rest.take 185) = components (rest.take 185) :=
      components_slash _
    rw [hslash]
    exact atOrBelow_append_slash _ _

/-- `do_request` stays in `doc_root` exactly for the URLs that go up no further than they have
come down, and for those that come down again by the last names of `doc_root`, where the URL is
what fits into `m_real_file`. It is the path of the request line if no negative length of a body is
announced, and a part in front of it otherwise. -/
theorem stays_in_root_iff (h : Request fs c₀ c path url) :
    (StaysInRoot c ↔ ReturnsToRoot (url.take (filenameLen - docRoot.length - 1))) ∧
      url <+: path ∧ (0 ≤ c.mContentLength → url = path) := by
  refine ⟨?_, h.ofLine⟩
  rw [← atOrBelow_requestPath (url_slash h)]
  constructor
  · intro hstays
    obtain ⟨code, d, asked, hdo, hasked, hbelow, -⟩ := hstays fs
    have hpath := h.realFile hdo
    rwa [result_unique hpath hasked]
  · intro hbelow fs'
    obtain ⟨d, hdo, hpath, hfile⟩ := h.answer fs'
    exact ⟨_, d, _, hdo, hpath, hbelow, hfile⟩

end Request

/-- A request for a file in the root directory. -/
theorem stays_in_root_plain : ∃ c path, Request emptyFiles default c path (bytes "/a/../b") ∧
    StaysInRoot c := by
  have hanswer : answerTo emptyFiles (bytes "GET\t/a/../b\tHTTP/1.1\r\n\r\n") =
      .ok (.fileRequest, some (bytes "/a/../b")) := by decide +kernel
  obtain ⟨c, path, h⟩ := request_of_answer (by decide) hanswer
  exact ⟨c, path, h, (stays_in_root_iff h).1.mpr (by decide +kernel)⟩

/-- A file system whose only file is `/etc/passwd`. -/
def passwdOnly : FileSystem :=
  ⟨fun path => if resolve path = [bytes "etc", bytes "passwd"] then some ⟨sIroth, 0⟩ else none,
    fun _ _ => 0⟩

/-- It is served. -/
theorem outside_of_root_served :
    ¬ ∀ (fs : FileSystem) (c₀ c : HttpConn) (path url : List UInt8),
      Request fs c₀ c path url → StaysInRoot c := by
  intro hall
  have hanswer : answerTo passwdOnly (bytes "GET\t/../../../etc/passwd\tHTTP/1.1\r\n\r\n") =
      .ok (.fileRequest, some (bytes "/../../../etc/passwd")) := by decide +kernel
  obtain ⟨c, path, h⟩ := request_of_answer (by decide) hanswer
  obtain ⟨code, d, asked, hdo, hasked, hbelow, -⟩ := hall _ _ _ _ _ h passwdOnly
  rw [result_unique hasked (h.realFile hdo)] at hbelow
  revert hbelow
  decide +kernel

end ServerListings.Analysis.DocRoot
