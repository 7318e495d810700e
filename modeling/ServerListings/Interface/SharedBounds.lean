import ServerListings.Lib.Terminated
import ServerListings.Model.SharedParser

/-!
# The shared parser stays inside its buffer

`lineScan` and `requestLine` on an array with a terminator: they do not fault, keep the
terminator, and leave indices of the array behind. Nothing is assumed of the bytes.
-/

set_option autoImplicit false

namespace ServerListings.Interface

open Lib.CMem Lib.LineReader ServerListings.Model

/-- A line scan advances the checked index up to the read index at most, and past at least
one byte when it finds a line. -/
structure ScanBounds (n checked read : Nat) (scan : LineScan) : Prop where
  buf : Terminated n scan.buf
  checked_le : checked ≤ scan.checked
  le_read : scan.checked ≤ read
  line : scan.status = .lineOk → checked < scan.checked

/-- The loop over the bytes of a line stays in the buffer. -/
theorem lineLoop_bounds {n read : Nat} (hread : read ≤ n) : ∀ (k : Nat) (buf : List UInt8)
    (checked : Nat), Terminated n buf → checked + k = read →
    ∃ scan, lineLoop k buf checked read = .ok scan ∧ ScanBounds n checked read scan := by
  intro k
  induction k with
  | zero =>
    intro buf checked hbuf hk
    exact ⟨_, rfl, hbuf, Nat.le_refl _, by simp only; omega, by simp⟩
  | succ k ih =>
    intro buf checked hbuf hk
    obtain ⟨b, hb⟩ := hbuf.load (i := checked) (by omega)
    have hstop : ∀ status, status ≠ LineStatus.lineOk →
        ScanBounds n checked read ⟨status, buf, checked⟩ :=
      fun status hstatus => ⟨hbuf, Nat.le_refl _, by simp only; omega, by simp [hstatus]⟩
    unfold lineLoop
    rw [hb, ok_bind]
    by_cases hcr : b = CR
    · rw [if_pos hcr]
      by_cases hlast : checked + 1 = read
      · rw [if_pos hlast]
        exact ⟨_, rfl, hstop _ (by simp)⟩
      rw [if_neg hlast]
      obtain ⟨b', hb'⟩ := hbuf.load (i := checked + 1) (by omega)
      rw [hb', ok_bind]
      by_cases hlf : b' = LF
      · rw [if_pos hlf, hbuf.store (by omega), ok_bind, (hbuf.set _).store (by omega), ok_bind]
        exact ⟨_, rfl, (hbuf.set _).set _, by simp only; omega, by simp only; omega, by simp⟩
      · rw [if_neg hlf]
        exact ⟨_, rfl, hstop _ (by simp)⟩
    rw [if_neg hcr]
    by_cases hlf : b = LF
    · rw [if_pos hlf]
      by_cases hpos : checked > 1
      · obtain ⟨b', hb'⟩ := hbuf.load (i := checked - 1) (by omega)
        rw [if_pos hpos, hb', ok_bind]
        by_cases hback : b' = CR
        · rw [if_pos hback, hbuf.store (by omega), ok_bind, (hbuf.set _).store (by omega), ok_bind]
          exact ⟨_, rfl, (hbuf.set _).set _, by simp only; omega, by simp only; omega, by simp⟩
        · rw [if_neg hback]
          exact ⟨_, rfl, hstop _ (by simp)⟩
      · rw [if_neg hpos]
        exact ⟨_, rfl, hstop _ (by simp)⟩
    rw [if_neg hlf]
    obtain ⟨scan, hscan, hb⟩ := ih buf (checked + 1) hbuf (by omega)
    refine ⟨scan, hscan, hb.buf, Nat.le_of_succ_le hb.checked_le, hb.le_read, ?_⟩
    intro hok
    have := hb.line hok
    omega

/-- Looking for a line end stays in the buffer. -/
theorem lineScan_bounds {n checked read : Nat} {buf : List UInt8} (hbuf : Terminated n buf)
    (hchecked : checked ≤ read) (hread : read ≤ n) :
    ∃ scan, lineScan buf checked read = .ok scan ∧ ScanBounds n checked read scan :=
  lineLoop_bounds hread _ buf checked hbuf (by omega)

/-- What taking a request line apart leaves behind: the terminator, and a URL pointer into
the array, which an accepted line has. -/
structure RequestBounds (n : Nat) (res : RequestLine) : Prop where
  buf : Terminated n res.buf
  url : ∀ p, res.url = some p → p ≤ n
  accepted : res.accepted = true → ∃ p, res.url = some p

/-- Reading the URL of a request line stays in the buffer. -/
theorem requestUrl_bounds {n url version : Nat} {buf : List UInt8} (hbuf : Terminated n buf)
    (hurl : url ≤ n) : ∃ res, requestUrl buf url version = .ok res ∧ RequestBounds n res := by
  obtain ⟨b, hb, hlen⟩ := hbuf.strncasecmp (bytes "http://") hurl
  have hseven : (bytes "http://").length = 7 := by decide
  unfold requestUrl
  rw [hb, ok_bind]
  cases b with
  | false =>
    obtain ⟨c, hc⟩ := hbuf.load hurl
    simp only [Bool.false_eq_true, if_false, pure_bind, hc, ok_bind]
    exact ⟨_, rfl, hbuf, by rintro q ⟨⟩; exact hurl, fun _ => ⟨url, rfl⟩⟩
  | true =>
    have := hlen rfl
    obtain ⟨r, hr, hq⟩ := hbuf.strpbrk (p := url + 7) [SLASH] (by omega)
    simp only [if_true, strchr, hr, ok_bind]
    cases r with
    | none => exact ⟨_, rfl, hbuf, by simp, by simp⟩
    | some p =>
      have hp := Nat.le_of_lt (hq p rfl).2
      obtain ⟨c, hc⟩ := hbuf.load hp
      simp only [hc, ok_bind]
      exact ⟨_, rfl, hbuf, by rintro q ⟨⟩; exact hp, fun _ => ⟨p, rfl⟩⟩

/-- Reading what follows the method stays in the buffer. -/
theorem requestTarget_bounds {n url : Nat} {buf : List UInt8} (hbuf : Terminated n buf)
    (hurl : url ≤ n) : ∃ res, requestTarget buf url = .ok res ∧ RequestBounds n res := by
  obtain ⟨k, hk, hle⟩ := hbuf.strspn [TAB] hurl
  obtain ⟨r, hr, hq⟩ := hbuf.strpbrk [TAB] hle
  unfold requestTarget
  simp only [hk, ok_bind, hr]
  cases r with
  | none => exact ⟨_, rfl, hbuf, by rintro q ⟨⟩; exact hle, by simp⟩
  | some version =>
    have hversion := (hq version rfl).2
    have hbuf' := hbuf.set version
    obtain ⟨j, hj, hle'⟩ := hbuf'.strspn (p := version + 1) [TAB] (by omega)
    obtain ⟨b, hb⟩ := hbuf'.strcasecmp (bytes "HTTP/1.1") hle'
    simp only [hbuf.store (Nat.le_of_lt hversion), ok_bind, hj, hb]
    cases b with
    | false => exact ⟨_, rfl, hbuf', by rintro q ⟨⟩; exact hle, by simp⟩
    | true => exact requestUrl_bounds hbuf' hle

/-- Reading a request line stays in the buffer. -/
theorem requestLine_bounds {n text : Nat} {buf : List UInt8} (delims : List UInt8)
    (version : Option Nat) (hbuf : Terminated n buf) (htext : text ≤ n) :
    ∃ res, requestLine delims buf text version = .ok res ∧ RequestBounds n res := by
  obtain ⟨r, hr, hq⟩ := hbuf.strpbrk delims htext
  unfold requestLine
  simp only [hr, ok_bind]
  cases r with
  | none => exact ⟨_, rfl, hbuf, by simp, by simp⟩
  | some url =>
    have hurl := (hq url rfl).2
    have hbuf' := hbuf.set url
    obtain ⟨b, hb⟩ := hbuf'.strcasecmp (bytes "GET") htext
    simp only [hbuf.store (Nat.le_of_lt hurl), ok_bind, hb]
    cases b with
    | false => exact ⟨_, rfl, hbuf', by rintro q ⟨⟩; exact hurl, by simp⟩
    | true => exact requestTarget_bounds hbuf' hurl

end ServerListings.Interface
