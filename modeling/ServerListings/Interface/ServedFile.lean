import ServerListings.Interface.HeadReader
import ServerListings.Lib.Terminated

/-!
# The file `do_request` serves

`do_request` sees nothing of the connection but the string `m_url` points at: the path it
asks the file system about is `requestPath` of that string and the answer is `requestCode`.
-/

set_option autoImplicit false

namespace ServerListings.Interface

open Lib.CMem Lib.LineReader ServerListings.Model.Http

/-- `m_real_file` as a C string: the URL is cut off where the array ends. -/
def requestPath (url : List UInt8) : List UInt8 :=
  docRoot ++ url.take (filenameLen - docRoot.length - 1)

/-- The answer to a request for `url`. -/
def requestCode (fs : FileSystem) (url : List UInt8) : HttpCode :=
  match fs.stat (requestPath url) with
  | none => .noResource
  | some st =>
    if st.stMode &&& sIroth = 0 then .forbiddenRequest
    else if st.stMode &&& sIfmt = sIfdir then .badRequest
    else .fileRequest

/-- `do_request` always decides. -/
theorem requestCode_ne_noRequest (fs : FileSystem) (url : List UInt8) :
    requestCode fs url ≠ .noRequest := by
  unfold requestCode
  repeat' split
  all_goals simp

/-- The document root takes 13 bytes. -/
theorem docRoot_length : docRoot.length = 13 := by decide

/-- A short URL is appended to the document root as it is. -/
theorem requestPath_of_fits {url : List UInt8} (h : docRoot.length + url.length < filenameLen) :
    requestPath url = docRoot ++ url := by
  rw [requestPath, List.take_of_length_le (by omega)]

/-- The path is the root followed by the URL exactly when both fit. -/
theorem requestPath_eq_iff (url : List UInt8) :
    requestPath url = docRoot ++ url ↔ docRoot.length + url.length < filenameLen := by
  refine ⟨fun h => ?_, requestPath_of_fits⟩
  have hlen := congrArg List.length (List.append_cancel_left h)
  rw [List.length_take, docRoot_length] at hlen
  rw [docRoot_length]
  simp only [filenameLen] at hlen ⊢
  omega

/-- The path of a URL without a null byte has none. -/
theorem zero_notMem_requestPath {url : List UInt8} (h0 : (0 : UInt8) ∉ url) :
    (0 : UInt8) ∉ requestPath url := by
  have hroot : (0 : UInt8) ∉ docRoot := by decide
  intro h
  rcases List.mem_append.mp h with h | h
  · exact hroot h
  · exact h0 (List.mem_of_mem_take h)

/-- The path `do_request` builds in `m_real_file`, whatever an earlier call has left there in
front of the last byte. -/
theorem realFile_path {realFile url : List UInt8} (hreal : Terminated (filenameLen - 1) realFile)
    (h0 : (0 : UInt8) ∉ url) :
    ∃ m m', copyIn realFile 0 (docRoot ++ [0]) = .ok m ∧
      strncpy m docRoot.length url (filenameLen - docRoot.length - 1) = .ok m' ∧
      fetch m' 0 = .ok (requestPath url) := by
  have hsize : realFile.length = 200 := hreal.length
  have hroot : copyIn realFile 0 (docRoot ++ [0]) = .ok (docRoot ++ ([0] ++ realFile.drop 14)) := by
    rw [copyIn, if_pos (by rw [hsize]; decide), List.take_zero, List.nil_append, List.append_assoc]
    rfl
  have hpad : (url.take 186 ++ List.replicate (186 - url.length) (0 : UInt8)).length = 186 := by
    simp only [List.length_append, List.length_take, List.length_replicate]
    omega
  have hlast : realFile.drop 199 = [0] := by
    have hlt : 199 < realFile.length := by omega
    have hzero : realFile[199] = 0 := by
      have hl := hreal.last
      rw [show filenameLen - 1 = 199 from rfl, List.getElem?_eq_getElem hlt] at hl
      exact Option.some.inj hl
    rw [List.drop_eq_getElem_cons hlt, hzero, List.drop_of_length_le (by omega)]
  have hrest : (docRoot ++ ([0] ++ realFile.drop 14)).drop 199 = [0] := by
    rw [List.drop_append, List.drop_of_length_le (by decide), List.nil_append, docRoot_length,
      List.drop_append, List.drop_of_length_le (by decide), List.nil_append, List.drop_drop]
    exact hlast
  have hcopy : strncpy (docRoot ++ ([0] ++ realFile.drop 14)) docRoot.length url 186 =
      .ok (docRoot ++ (url.take 186 ++ List.replicate (186 - url.length) 0) ++ [0]) := by
    rw [strncpy, copyIn, hpad, docRoot_length, if_pos, hrest, ← docRoot_length, List.take_left]
    simp only [List.length_append, List.length_drop, hsize, docRoot_length, List.length_singleton]
    omega
  refine ⟨_, _, hroot, hcopy, ?_⟩
  refine @fetch_terminated _ [] (requestPath url) (List.replicate (186 - url.length) 0) 0
    (zero_notMem_requestPath h0) ?_ rfl
  simp [requestPath, docRoot_length, filenameLen, List.replicate_succ', ← List.replicate_succ]

/-- `do_request` answers from the URL alone, and maps the file that it serves. -/
theorem doRequest_eq (fs : FileSystem) {c : HttpConn} {url : List UInt8}
    (hurl : strAt c.mReadBuf c.mUrl = .ok (some url))
    (hreal : Terminated (filenameLen - 1) c.mRealFile) :
    ∃ m st a, c.doRequest fs =
        .ok (requestCode fs url, { c with mRealFile := m, mFileStat := st, mFileAddress := a }) ∧
      fetch m 0 = .ok (requestPath url) ∧
      (requestCode fs url = .fileRequest →
        fs.stat (requestPath url) = some st ∧ a = fs.mmap (requestPath url) st.stSize) := by
  obtain ⟨p, hp, hfetch⟩ := strAt_eq_some hurl
  obtain ⟨pre, r, -, -, h0⟩ := fetch_split hfetch
  obtain ⟨m, m', hroot, hcopy, hpath⟩ := realFile_path hreal h0
  unfold HttpConn.doRequest
  simp only [hroot, ok_bind, hp, hfetch, hcopy, hpath]
  unfold requestCode
  cases fs.stat (requestPath url) with
  | none => exact ⟨m', c.mFileStat, c.mFileAddress, by simp [← hp]; rfl, hpath, fun h => by cases h⟩
  | some st =>
    simp only
    split
    · exact ⟨m', st, c.mFileAddress, rfl, hpath, fun h => by cases h⟩
    · split
      · exact ⟨m', st, c.mFileAddress, rfl, hpath, fun h => by cases h⟩
      · exact ⟨m', st, fs.mmap (requestPath url) st.stSize, rfl, hpath, fun _ => ⟨rfl, rfl⟩⟩

end ServerListings.Interface
