import ServerListings.Lib.Frames
import ServerListings.Interface.SharedBounds
import ServerListings.Interface.SharedText

/-!
# The shared parser on a part of a buffer

A run of `requestLine` on a line alone, with its terminator, is the run on every buffer that has
the line somewhere in it: the stages read nothing outside the line and store nothing there. A
run of `lineScan` on the bytes before the read index is the run with any bytes behind them.
-/

set_option autoImplicit false

namespace ServerListings.Interface

open Lib.CMem Lib.LineReader ServerListings.Model

/-- What a run on a line leaves behind in a buffer that has the line between `pre` and `post`. -/
def framed (pre post : List UInt8) (res : RequestLine) : RequestLine :=
  { buf := pre ++ (res.buf ++ post)
    url := res.url.map (pre.length + ·)
    version := res.version.map (pre.length + ·)
    isGet := res.isGet
    accepted := res.accepted }

section Framed

variable {line : List UInt8} {res : RequestLine} {url text version : Nat}

/-- Reading the URL is the same inside a larger buffer. -/
theorem requestUrl_framed (pre post : List UInt8) (h : requestUrl line url version = .ok res) :
    requestUrl (pre ++ (line ++ post)) (pre.length + url) (pre.length + version) =
      .ok (framed pre post res) := by
  unfold requestUrl at h ⊢
  obtain ⟨scheme, hscheme, h⟩ := bind_eq_ok.mp h
  simp only [strncasecmp_framed hscheme, ok_bind]
  cases scheme with
  | false =>
    simp only [Bool.false_eq_true, if_false, pure_bind] at h ⊢
    obtain ⟨first, hfirst, h⟩ := bind_eq_ok.mp h
    obtain rfl := Except.ok.inj h
    simp only [load_framed hfirst, ok_bind]
    rfl
  | true =>
    rw [if_pos rfl] at h ⊢
    obtain ⟨q, hq, h⟩ := bind_eq_ok.mp h
    have hpath : strchr (pre ++ (line ++ post)) (pre.length + url + 7) SLASH =
        .ok (q.map (pre.length + ·)) := by
      rw [Nat.add_assoc]
      exact strpbrk_framed hq
    rw [hpath, ok_bind]
    cases q with
    | none =>
      obtain rfl := Except.ok.inj h
      rfl
    | some p =>
      obtain ⟨first, hfirst, h⟩ := bind_eq_ok.mp h
      obtain rfl := Except.ok.inj h
      simp only [Option.map_some, load_framed hfirst, ok_bind]
      rfl

/-- Reading what follows the method is the same inside a larger buffer. -/
theorem requestTarget_framed (pre post : List UInt8) (h : requestTarget line url = .ok res) :
    requestTarget (pre ++ (line ++ post)) (pre.length + url) = .ok (framed pre post res) := by
  unfold requestTarget at h ⊢
  obtain ⟨k, hk, h⟩ := bind_eq_ok.mp h
  obtain ⟨q, hq, h⟩ := bind_eq_ok.mp h
  simp only [strspn_framed hk, ok_bind, Nat.add_assoc, strpbrk_framed hq]
  cases q with
  | none =>
    obtain rfl := Except.ok.inj h
    rfl
  | some v =>
    obtain ⟨buf, hbuf, h⟩ := bind_eq_ok.mp h
    obtain ⟨j, hj, h⟩ := bind_eq_ok.mp h
    obtain ⟨eq, heq, h⟩ := bind_eq_ok.mp h
    simp only [Option.map_some, store_framed hbuf, ok_bind, Nat.add_assoc, strspn_framed hj]
    have heq' : strcasecmp (pre ++ (buf ++ post)) _ _ = .ok eq := strcasecmp_framed heq
    rw [Nat.add_assoc] at heq'
    rw [heq', ok_bind]
    cases eq with
    | false =>
      obtain rfl := Except.ok.inj h
      simp only [framed, Option.map_some, Nat.add_assoc]
      rfl
    | true =>
      have hurl := requestUrl_framed pre post h
      simp only [Nat.add_assoc] at hurl
      exact hurl

/-- Reading a request line is the same inside a larger buffer. -/
theorem requestLine_framed {delims : List UInt8} {q : Option Nat} (pre post : List UInt8)
    (h : requestLine delims line text q = .ok res) :
    requestLine delims (pre ++ (line ++ post)) (pre.length + text) (q.map (pre.length + ·)) =
      .ok (framed pre post res) := by
  unfold requestLine at h ⊢
  obtain ⟨r, hr, h⟩ := bind_eq_ok.mp h
  simp only [strpbrk_framed hr, ok_bind]
  cases r with
  | none =>
    obtain rfl := Except.ok.inj h
    rfl
  | some p =>
    obtain ⟨buf, hbuf, h⟩ := bind_eq_ok.mp h
    obtain ⟨eq, heq, h⟩ := bind_eq_ok.mp h
    simp only [Option.map_some, store_framed hbuf, ok_bind, strcasecmp_framed heq, Nat.add_assoc]
    cases eq with
    | false =>
      obtain rfl := Except.ok.inj h
      rfl
    | true => exact requestTarget_framed pre post h

end Framed

/-! ## The line scan -/

/-- How a scan ends that has `pre` before it and the bytes `x` to read. -/
inductive ScanEnd (pre x : List UInt8) (scan : LineScan) : Prop where
  | stopped (u rest : List UInt8) (hx : x = u ++ rest) (hu : Clean u)
      (hstatus : scan.status ≠ .lineOk) (hbuf : scan.buf = pre ++ x)
      (hchecked : scan.checked = pre.length + u.length)
  | line (u rest : List UInt8) (hx : x = u ++ CR :: LF :: rest) (hu : Clean u)
      (hstatus : scan.status = .lineOk) (hbuf : scan.buf = pre ++ (u ++ 0 :: 0 :: rest))
      (hchecked : scan.checked = pre.length + u.length + 2)

/-- A scan that starts behind a byte other than CR reads and stores only bytes before the read
index, and it finds a line only at a CR that LF follows. -/
theorem lineScan_confined (pre x : List UInt8) (hpre : pre.getLast? ≠ some CR) :
    ∃ scan, ScanEnd pre x scan ∧ ∀ post,
      lineScan (pre ++ (x ++ post)) pre.length (pre.length + x.length) =
        .ok { scan with buf := scan.buf ++ post } := by
  cases cut x with
  | clean _ hu =>
    refine ⟨⟨.lineOpen, pre ++ x, pre.length + x.length⟩, .stopped x [] (List.append_nil x).symm hu
      (by simp) rfl rfl, fun post => ?_⟩
    rw [lineScan_clean pre x post hu, List.append_assoc]
  | cr u hu =>
    refine ⟨⟨.lineOpen, pre ++ (u ++ [CR]), pre.length + u.length⟩, .stopped u [CR] rfl hu
      (by simp) rfl rfl, fun post => ?_⟩
    have hscan := lineScan_cr pre u post hu
    simpa [Nat.add_assoc] using hscan
  | badCr u b w hu hb =>
    refine ⟨⟨.lineBad, pre ++ (u ++ CR :: b :: w), pre.length + u.length⟩,
      .stopped u (CR :: b :: w) rfl hu (by simp) rfl rfl, fun post => ?_⟩
    have hscan := lineScan_badCr pre u (w ++ post) b (pre.length + (u ++ CR :: b :: w).length) hu hb
      (by simp only [List.length_append, List.length_cons]; omega)
    simpa using hscan
  | badLf u w hu =>
    refine ⟨⟨.lineBad, pre ++ (u ++ LF :: w), pre.length + u.length⟩,
      .stopped u (LF :: w) rfl hu (by simp) rfl rfl, fun post => ?_⟩
    have hscan := lineScan_badLf pre u (w ++ post) (pre.length + (u ++ LF :: w).length) hu hpre
      (by simp only [List.length_append, List.length_cons]; omega)
    simpa using hscan
  | crlf u w hu =>
    refine ⟨⟨.lineOk, pre ++ (u ++ 0 :: 0 :: w), pre.length + u.length + 2⟩,
      .line u w rfl hu rfl rfl rfl, fun post => ?_⟩
    have hscan := lineScan_crlf pre u (w ++ post) (pre.length + (u ++ CR :: LF :: w).length) hu
      (by simp only [List.length_append, List.length_cons]; omega)
    simpa using hscan

end ServerListings.Interface
