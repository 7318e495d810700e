import Mathlib.Data.List.Induction
import ServerListings.Interface.HttpBounds
import ServerListings.Interface.HttpHead
import ServerListings.Interface.ServedFile

/-!
# When a request with a body is complete

`parse_content` measures the body from `m_checked_idx`. A call that finds the body incomplete
runs `parse_line` over it, and from the first such call that moves `m_checked_idx` on, no
call finds the body complete any more. `parse_line` stays where it is only when the part of
the body in the buffer `Stalls`, so the request is completed by its last byte exactly when
every chunk that ends inside the body leaves such a part behind (`body_completes_iff`).
-/

set_option autoImplicit false

namespace ServerListings.Analysis.BodyCompletion

open Lib.CMem Lib.LineReader ServerListings.Model ServerListings.Model.Http ServerListings.Interface

/-- A scan that starts at these bytes does not get past the first of them. -/
def Stalls (w : List UInt8) : Prop :=
  w = [] ∨ w = [CR] ∨ (∃ b r, w = CR :: b :: r ∧ b ≠ LF) ∨ ∃ r, w = LF :: r

/-- A body that starts with a byte other than CR and LF does not stall. -/
theorem not_stalls_of_clean {b : UInt8} {w : List UInt8} (hb : b ≠ CR ∧ b ≠ LF) :
    ¬ Stalls (b :: w) := by
  rintro (h | h | ⟨b', r, h, -⟩ | ⟨r, h⟩)
  · cases h
  · exact hb.1 (List.cons.inj h).1
  · exact hb.1 (List.cons.inj h).1
  · exact hb.2 (List.cons.inj h).1

/-- The scan of a body. -/
theorem lineScan_body (pre w post : List UInt8) (hpre : pre.getLast? ≠ some CR) :
    ∃ scan, lineScan (pre ++ (w ++ post)) pre.length (pre.length + w.length) = .ok scan ∧
      ((Stalls w ∧ scan.status ≠ .lineOk ∧ scan.buf = pre ++ (w ++ post) ∧
          scan.checked = pre.length) ∨
        (¬ Stalls w ∧ pre.length < scan.checked)) := by
  cases cut w with
  | clean _ hw =>
    refine ⟨_, lineScan_clean pre w post hw, ?_⟩
    cases w with
    | nil => exact Or.inl ⟨Or.inl rfl, by simp, rfl, rfl⟩
    | cons b w => exact Or.inr ⟨not_stalls_of_clean (hw b (by simp)), by simp⟩
  | cr u hu =>
    have hscan := lineScan_cr pre u post hu
    rw [show pre ++ (u ++ CR :: post) = pre ++ (u ++ [CR] ++ post) by simp,
      show pre.length + u.length + 1 = pre.length + (u ++ [CR]).length by simp [Nat.add_assoc]] at hscan
    refine ⟨_, hscan, ?_⟩
    cases u with
    | nil => exact Or.inl ⟨Or.inr (Or.inl rfl), by simp, rfl, rfl⟩
    | cons b u => exact Or.inr ⟨not_stalls_of_clean (hu b (by simp)), by simp⟩
  | crlf u r hu =>
    have hscan := lineScan_crlf pre u (r ++ post) (pre.length + (u ++ CR :: LF :: r).length) hu
      (by simp only [List.length_append, List.length_cons]; omega)
    rw [show pre ++ (u ++ CR :: LF :: (r ++ post)) = pre ++ (u ++ CR :: LF :: r ++ post) by simp]
      at hscan
    refine ⟨_, hscan, Or.inr ⟨?_, by simp only; omega⟩⟩
    cases u with
    | nil =>
      rintro (h | h | ⟨b, r', h, hb⟩ | ⟨r', h⟩)
      · cases h
      · simp at h
      · exact hb (List.cons.inj (List.cons.inj h).2).1.symm
      · exact absurd (List.cons.inj h).1 (by decide)
    | cons b u => exact not_stalls_of_clean (hu b (by simp))
  | badCr u b r hu hb =>
    have hscan := lineScan_badCr pre u (r ++ post) b (pre.length + (u ++ CR :: b :: r).length) hu hb
      (by simp only [List.length_append, List.length_cons]; omega)
    rw [show pre ++ (u ++ CR :: b :: (r ++ post)) = pre ++ (u ++ CR :: b :: r ++ post) by simp] at hscan
    refine ⟨_, hscan, ?_⟩
    cases u with
    | nil => exact Or.inl ⟨Or.inr (Or.inr (Or.inl ⟨b, r, rfl, hb⟩)), by simp, rfl, rfl⟩
    | cons b' u => exact Or.inr ⟨not_stalls_of_clean (hu b' (by simp)), by simp⟩
  | badLf u r hu =>
    have hscan := lineScan_badLf pre u (r ++ post) (pre.length + (u ++ LF :: r).length) hu hpre
      (by simp only [List.length_append, List.length_cons]; omega)
    rw [show pre ++ (u ++ LF :: (r ++ post)) = pre ++ (u ++ LF :: r ++ post) by simp] at hscan
    refine ⟨_, hscan, ?_⟩
    cases u with
    | nil => exact Or.inl ⟨Or.inr (Or.inr (Or.inr ⟨r, rfl⟩)), by simp, rfl, rfl⟩
    | cons b u => exact Or.inr ⟨not_stalls_of_clean (hu b (by simp)), by simp⟩

/-! ## A body that is too short -/

/-- A connection in the body whose announced end lies behind the bytes received. -/
structure Short (c : HttpConn) : Prop where
  bounded : Bounded c
  checkState : c.mCheckState = .checkStateContent
  length_nonneg : 0 ≤ c.mContentLength
  length_lt : c.mContentLength < readBufferSize
  missing : (c.mReadIdx : Int) < c.mContentLength + c.mCheckedIdx

/-- `parse_content` on such a connection waits for more. -/
theorem Short.iterate {c : HttpConn} (h : Short c) (ls : LineStatus) :
    ∃ ls' c', c.nextLine ls = .ok (ls', c') ∧ Short c' ∧ c'.mReadIdx = c.mReadIdx ∧
      c'.mContentLength = c.mContentLength ∧ c.mCheckedIdx ≤ c'.mCheckedIdx ∧
      (ls' = .lineOk → ls ≠ .lineOk → c.mCheckedIdx < c'.mCheckedIdx) ∧
      c.iterate ls = .ok (if ls' ≠ .lineOk then .ret .noRequest c'
        else .again .lineOpen { c' with mStartLine := c'.mCheckedIdx }) ∧
      Short { c' with mStartLine := c'.mCheckedIdx } := by
  obtain ⟨ls', c', hline, hb, ⟨hread, hstate, hlength⟩, hle, hlt⟩ := nextLine_bounds ls h.bounded
  have hmissing : (c'.mReadIdx : Int) < c'.mContentLength + c'.mCheckedIdx := by
    have := h.missing
    rw [hread, hlength]
    omega
  have hshort : Short c' := ⟨hb, by rw [hstate, h.checkState], by rw [hlength]; exact h.length_nonneg,
    by rw [hlength]; exact h.length_lt, hmissing⟩
  refine ⟨ls', c', hline, hshort, hread, hlength, hle, ?_, ?_,
    ⟨hb.enterLine, hshort.checkState, hshort.length_nonneg, hshort.length_lt, hmissing⟩⟩
  · intro hok hls
    exact hlt hok fun h0 => hls h0.2
  · unfold HttpConn.iterate
    rw [hline, ok_bind]
    by_cases hok : ls' ≠ .lineOk
    · simp only [if_pos hok]
      rfl
    · obtain ⟨s, hs⟩ := hb.startLine_fetch
      have hsum : addInt c'.mContentLength c'.mCheckedIdx =
          .ok (c'.mContentLength + c'.mCheckedIdx) := by
        have h1 := hshort.length_nonneg
        have h2 := hshort.length_lt
        have h3 := hb.checked_le
        have h4 := hb.read_le
        rw [addInt_eq_ok]
        simp only [readBufferSize] at h2 h4
        exact ⟨⟨by unfold intMin; omega, by unfold intMax; omega⟩, rfl⟩
      simp only [if_neg hok, hs, ok_bind, HttpConn.dispatch, hshort.checkState,
        HttpConn.parseContent, hsum, if_neg (not_le.mpr hmissing)]
      rfl

/-- The loop on such a connection returns `NO_REQUEST` and leaves such a connection behind.
The induction is on the iterations left. -/
theorem readLoop_short (fs : FileSystem) (fuel : Nat) : ∀ (ls : LineStatus) (c : HttpConn),
    Short c → budget ls c ≤ fuel →
    ∃ c', c.readLoop fs fuel ls = .ok (.noRequest, c') ∧ Short c' ∧ c'.mReadIdx = c.mReadIdx ∧
      c'.mContentLength = c.mContentLength ∧ c.mCheckedIdx ≤ c'.mCheckedIdx ∧
      ∀ ls₁ c₁, c.nextLine ls = .ok (ls₁, c₁) → c₁.mCheckedIdx ≤ c'.mCheckedIdx := by
  induction fuel with
  | zero =>
    intro ls c _ hfuel
    unfold budget at hfuel
    split at hfuel <;> omega
  | succ fuel ih =>
    intro ls c h hfuel
    obtain ⟨ls', c', hline, hshort, hread, hlength, hle, hlt, hiter, hnext⟩ := h.iterate ls
    rw [HttpConn.readLoop, hiter, ok_bind]
    have hfirst : ∀ k, c'.mCheckedIdx ≤ k →
        ∀ ls₁ c₁, c.nextLine ls = .ok (ls₁, c₁) → c₁.mCheckedIdx ≤ k := by
      intro k hk ls₁ c₁ h₁
      obtain ⟨-, rfl⟩ := results_unique hline h₁
      exact hk
    by_cases hok : ls' ≠ .lineOk
    · rw [if_pos hok]
      exact ⟨c', rfl, hshort, hread, hlength, hle, hfirst _ (Nat.le_refl _)⟩
    · rw [if_neg hok]
      have hbudget : budget .lineOpen { c' with mStartLine := c'.mCheckedIdx } ≤ fuel := by
        have h1 := hshort.bounded.checked_le
        unfold budget at hfuel ⊢
        simp only [h.checkState, hshort.checkState, hread, true_and] at hfuel h1 ⊢
        by_cases hls : ls = .lineOk
        · simp only [hls, ne_eq, not_true_eq_false, if_false, reduceCtorEq, not_false_eq_true,
            if_true] at hfuel ⊢
          omega
        · have := hlt (not_not.mp hok) hls
          simp only [hls, ne_eq, not_false_eq_true, if_true, reduceCtorEq] at hfuel ⊢
          omega
      obtain ⟨c'', hrest, hshort', hread', hlength', hle', -⟩ := ih .lineOpen _ hnext hbudget
      exact ⟨c'', hrest, hshort', hread'.trans hread, hlength'.trans hlength, hle.trans hle',
        hfirst _ hle'⟩

/-! ## A call at the start of the body -/

/-- The connection is `AtBody` in a read buffer that it does not fill. -/
structure Waits (c : HttpConn) (h : HeadState) (hd w : List UInt8) (free : Nat) : Prop where
  atBody : AtBody c h hd w free
  size : hd.length + w.length + free = readBufferSize
  free_pos : 1 ≤ free

/-- A connection that waits for its body is in bounds. -/
theorem Waits.bounded {c : HttpConn} {h : HeadState} {hd w url : List UInt8} {free : Nat}
    (hw : Waits c h hd w free) (hurl : h.url = some url)
    (hlength : intMin ≤ h.contentLength ∧ h.contentLength ≤ intMax) : Bounded c := by
  obtain ⟨pre, hpre, -, hbuf, hstr⟩ := hw.atBody.buffer
  have hsize := hw.size
  have hfree := hw.free_pos
  have hread := hw.atBody.readIdx
  obtain ⟨p, hp, hle⟩ : ∃ p, c.mUrl = some p ∧ p ≤ pre.length := by
    rw [hurl] at hstr
    cases hm : c.mUrl with
    | none =>
      rw [hm] at hstr
      cases hstr
    | some p =>
      refine ⟨p, rfl, ?_⟩
      by_contra hlt
      rw [hm, strAt, fetch, List.drop_eq_nil_of_le (by omega)] at hstr
      simp [Except.map] at hstr
  refine ⟨⟨?_, ?_⟩, ?_, ?_, ?_, ?_, ?_, ?_, ?_⟩
  · simp only [hbuf, List.length_append, List.length_replicate, hpre, readBufferSize] at hsize ⊢
    omega
  · rw [hbuf, ← List.append_assoc, List.getElem?_append_right
      (by simp only [List.length_append, hpre]; omega), List.getElem?_replicate, if_pos]
    simp only [List.length_append, hpre]
    omega
  · rw [hw.atBody.realFile]
    exact terminated_zeros _
  · rw [hw.atBody.startLine, hw.atBody.checkedIdx]
  · rw [hw.atBody.checkedIdx, hread]
    exact Nat.le_add_right _ _
  · omega
  · intro q hq
    obtain rfl : p = q := by simpa [hp] using hq
    omega
  · exact fun _ => ⟨p, hp⟩
  · rwa [hw.atBody.contentLength]

/-- The call runs `do_request` on a request for `url` after reading a body. -/
def CallsDoRequest (fs : FileSystem) (res : Checked (HttpCode × HttpConn)) (url : List UInt8) :
    Prop :=
  ∃ d c' : HttpConn, d.mCheckState = .checkStateContent ∧ res = d.doRequest fs ∧
    res = .ok (requestCode fs url, c')

section Body

variable {fs : FileSystem} {c : HttpConn} {h : HeadState} {hd w url : List UInt8} {free n : Nat}

/-- The whole body is there. -/
theorem readLoop_body_done (hw : Waits c h hd w free) (hurl : h.url = some url)
    (hlength : h.contentLength = n) (hpos : 1 ≤ n) (hdone : n ≤ w.length) (fuel : Nat) :
    CallsDoRequest fs (c.readLoop fs (fuel + 1) .lineOk) url := by
  have hsize := hw.size
  have hfree := hw.free_pos
  simp only [readBufferSize] at hsize
  have hb : Bounded c := hw.bounded hurl (by rw [hlength]; unfold intMin intMax; omega)
  obtain ⟨pre, hpre, -, hbuf, hstr⟩ := hw.atBody.buffer
  obtain ⟨s, hs⟩ := hb.startLine_fetch
  have hsum : addInt c.mContentLength c.mCheckedIdx = .ok ((n : Int) + hd.length) := by
    rw [hw.atBody.contentLength, hlength, hw.atBody.checkedIdx, addInt_eq_ok]
    exact ⟨⟨by unfold intMin; omega, by unfold intMax; omega⟩, rfl⟩
  have hread : (c.mReadIdx : Int) ≥ (n : Int) + hd.length := by
    rw [hw.atBody.readIdx]
    omega
  have hstore : storeInt c.mReadBuf (c.mStartLine + c.mContentLength) 0 =
      .ok (pre ++ (w ++ List.replicate free 0).set n 0) := by
    rw [hw.atBody.startLine, hw.atBody.contentLength, hlength, ← Int.natCast_add, storeInt_natCast,
      store_of_lt _ (by rw [hb.readBuf.length]; simp only [readBufferSize]; omega), hbuf,
      List.set_append_right _ _ (by omega), hpre, Nat.add_sub_cancel_left]
  have hiter : c.iterate .lineOk = .ok (.doRequest { c with
      mReadBuf := pre ++ (w ++ List.replicate free 0).set n 0
      mStartLine := c.mCheckedIdx }) := by
    simp only [HttpConn.iterate, HttpConn.nextLine, hw.atBody.checkState, and_self, if_true,
      show (pure (LineStatus.lineOk, c) : Checked _) = .ok (LineStatus.lineOk, c) from rfl, ok_bind,
      ne_eq, not_true_eq_false, if_false, hs, HttpConn.dispatch, HttpConn.parseContent, hsum,
      if_pos hread, hstore]
    rfl
  generalize hd' : HttpConn.mk _ _ _ _ _ _ _ _ _ _ _ _ _ _ _ _ _ _ _ _ = d at hiter
  have hstr' : strAt d.mReadBuf d.mUrl = .ok (some url) := by
    rw [← hd', ← hurl]
    exact strAt_append_right _ hstr
  have hreal : Terminated (filenameLen - 1) d.mRealFile := by
    rw [← hd', hw.atBody.realFile]
    exact terminated_zeros _
  obtain ⟨m, st, a, hdo, -⟩ := doRequest_eq fs hstr' hreal
  rw [HttpConn.readLoop, hiter, ok_bind]
  exact ⟨d, _, by rw [← hd']; exact hw.atBody.checkState, rfl, hdo⟩

/-- Part of the body is missing. -/
theorem readLoop_body_wait (fs : FileSystem) (hw : Waits c h hd w free) (hurl : h.url = some url)
    (hlength : h.contentLength = n) (hn : n < readBufferSize) (hmissing : w.length < n)
    {fuel : Nat} (hfuel : w.length + 2 ≤ fuel) :
    ∃ c', c.readLoop fs fuel .lineOk = .ok (.noRequest, c') ∧
      ((Stalls w ∧ Waits c' h hd w free) ∨
        (¬ Stalls w ∧ Short c' ∧ c'.mReadIdx = hd.length + w.length ∧ hd.length < c'.mCheckedIdx ∧
          c'.mContentLength = n)) := by
  have hb : Bounded c := hw.bounded hurl (by
    rw [hlength]
    simp only [readBufferSize] at hn
    unfold intMin intMax
    omega)
  have hclen : c.mContentLength = n := hw.atBody.contentLength.trans hlength
  have hstart : ({ c with mStartLine := c.mCheckedIdx } : HttpConn) = c := by
    have hidx : c.mStartLine = c.mCheckedIdx := by
      rw [hw.atBody.startLine, hw.atBody.checkedIdx]
    exact congrArg (fun k => ({ c with mStartLine := k } : HttpConn)) hidx.symm
  have hshort : Short c := by
    refine ⟨hb, hw.atBody.checkState, by omega, by omega, ?_⟩
    rw [hw.atBody.readIdx, hclen, hw.atBody.checkedIdx]
    omega
  obtain ⟨fuel, rfl⟩ : ∃ k, fuel = k + 1 := ⟨fuel - 1, by omega⟩
  have hfirst : c.iterate .lineOk = .ok (.again .lineOpen c) := by
    obtain ⟨ls', c', hline, -, -, -, -, -, hiter, -⟩ := hshort.iterate .lineOk
    have hstay : c.nextLine .lineOk = .ok (.lineOk, c) := by
      rw [HttpConn.nextLine, if_pos ⟨hw.atBody.checkState, rfl⟩]
      rfl
    obtain ⟨rfl, rfl⟩ := results_unique hstay hline
    rw [hiter, if_neg (by simp), hstart]
  rw [readLoop_again hfirst]
  obtain ⟨pre, hpre, hcr, hbuf, hstr⟩ := hw.atBody.buffer
  obtain ⟨scan, hscan, hcases⟩ := lineScan_body pre w (List.replicate free 0) hcr
  rw [← hbuf, hpre, ← hw.atBody.readIdx, ← hw.atBody.checkedIdx] at hscan
  have hline : c.nextLine .lineOpen =
      .ok (scan.status, { c with mReadBuf := scan.buf, mCheckedIdx := scan.checked }) := by
    rw [HttpConn.nextLine, if_neg (by simp), HttpConn.parseLine, hscan]
    rfl
  rcases hcases with ⟨hstalls, hstatus, hsbuf, hschecked⟩ | ⟨hmoves, hlt⟩
  · obtain ⟨fuel, rfl⟩ : ∃ k, fuel = k + 1 := ⟨fuel - 1, by omega⟩
    have hiter : c.iterate .lineOpen =
        .ok (.ret .noRequest { c with mReadBuf := scan.buf, mCheckedIdx := scan.checked }) := by
      rw [HttpConn.iterate, hline, ok_bind]
      simp only [if_pos hstatus]
      rfl
    rw [readLoop_ret hiter]
    refine ⟨_, rfl, Or.inl ⟨hstalls, ⟨⟨⟨pre, hpre, hcr, hsbuf, hstr⟩, hw.atBody.startLine, ?_,
      hw.atBody.readIdx, hw.atBody.checkState, hw.atBody.contentLength, hw.atBody.realFile⟩,
      hw.size, hw.free_pos⟩⟩⟩
    rw [← hpre]
    exact hschecked
  · obtain ⟨c', hrest, hshort', hread, hlen, -, hadvance⟩ :=
      readLoop_short fs fuel .lineOpen c hshort (by
        rw [budget, if_pos ⟨hw.atBody.checkState, by simp⟩, hw.atBody.readIdx, hw.atBody.checkedIdx]
        omega)
    refine ⟨c', hrest, Or.inr ⟨hmoves, hshort', hread.trans hw.atBody.readIdx, ?_, hlen.trans hclen⟩⟩
    have := hadvance _ _ hline
    simp only at this
    omega

end Body

/-! ## The calls of a stream -/

/-- Every chunk so far that ended inside the body left a part of it that stalls. -/
def Smooth (hd : List UInt8) (chunks : List (List UInt8)) : Prop :=
  ∀ p, p <+: chunks → Stalls (p.flatten.drop hd.length)

/-- Where the connection stands after the calls for some chunks of a request whose header
part is `hd`, described by `h`, and whose body has `n` bytes. -/
inductive Stage (hd : List UInt8) (h : HeadState) (n : Nat) (chunks : List (List UInt8))
    (c : HttpConn) : Prop
  | head (h' : HeadState) (hlt : chunks.flatten.length < hd.length)
      (ht : Tracks c chunks.flatten h' (readBufferSize - chunks.flatten.length))
  | waits (w : List UInt8) (hs : chunks.flatten = hd ++ w) (hsmooth : Smooth hd chunks)
      (hw : Waits c h hd w (readBufferSize - chunks.flatten.length))
  | lost (hle : hd.length ≤ chunks.flatten.length) (hsmooth : ¬ Smooth hd chunks) (hshort : Short c)
      (hread : c.mReadIdx = chunks.flatten.length) (hpast : hd.length < c.mCheckedIdx)
      (hlength : c.mContentLength = n)

/-- Where nothing came behind the header part the split is smooth. -/
theorem smooth_of_le {hd : List UInt8} {chunks : List (List UInt8)}
    (h : chunks.flatten.length ≤ hd.length) : Smooth hd chunks := by
  rintro p ⟨r, rfl⟩
  rw [List.flatten_append, List.length_append] at h
  exact Or.inl (List.drop_eq_nil_of_le (by omega))

/-- The next chunk adds one end. -/
theorem smooth_concat {hd : List UInt8} {chunks : List (List UInt8)} (data : List UInt8) :
    Smooth hd (chunks ++ [data]) ↔
      Smooth hd chunks ∧ Stalls ((chunks ++ [data]).flatten.drop hd.length) := by
  constructor
  · intro h
    exact ⟨fun p hp => h p (hp.trans (List.prefix_append _ _)), h _ (List.prefix_refl _)⟩
  · rintro ⟨h, hlast⟩ p hp
    rcases List.prefix_concat_iff.mp hp with rfl | hp
    · exact hlast
    · exact h p hp

section Calls

variable {fs : FileSystem} {c : HttpConn} {hd body url : List UInt8} {h : HeadState} {n : Nat}
  {before : List (List UInt8)} {data : List UInt8}

/-- What the call after the chunk `data` comes to: it waits before the last byte of the body,
and with the last byte it runs `do_request` or has lost count. -/
def CallOutcome (fs : FileSystem) (res : Checked (HttpCode × HttpConn)) (hd url : List UInt8)
    (h : HeadState) (n : Nat) (before : List (List UInt8)) (data : List UInt8) : Prop :=
  ((before ++ [data]).flatten.length < hd.length + n →
    ∃ c', res = .ok (.noRequest, c') ∧ Stage hd h n (before ++ [data]) c') ∧
  (hd.length + n ≤ (before ++ [data]).flatten.length →
    (Smooth hd before → CallsDoRequest fs res url) ∧
    (¬ Smooth hd before → ∃ c', res = .ok (.noRequest, c')))

/-- The call reaches the body, or starts there, with the count intact. -/
theorem body_call {w : List UInt8} {fuel : Nat} (hhead : IsHead hd h) (hurl : h.url = some url)
    (hlength : h.contentLength = n) (hsize : hd.length + n < readBufferSize)
    (hs : (before ++ [data]).flatten = hd ++ w) (hsmooth : Smooth hd before)
    (hw : Waits c h hd w (readBufferSize - (before ++ [data]).flatten.length))
    (hfuel : w.length + 2 ≤ fuel) :
    CallOutcome fs (c.readLoop fs fuel .lineOk) hd url h n before data := by
  have hpos : 1 ≤ n := by
    obtain ⟨a, b, st, -, -, hstep⟩ := hhead
    rcases step_eq_error headReader hstep with ⟨-, -, hline⟩ | hbad
    · obtain ⟨rfl, hne⟩ := headReader_line_body hline
      omega
    · cases hbad
  have hflat : (before ++ [data]).flatten.length = hd.length + w.length := by
    rw [hs, List.length_append]
  have hdrop : (before ++ [data]).flatten.drop hd.length = w := by rw [hs, List.drop_left]
  constructor
  · intro hlt
    obtain ⟨c', hres, hstalls | hlost⟩ :=
      readLoop_body_wait fs hw hurl hlength (by omega) (by omega) hfuel
    · refine ⟨c', hres, .waits w hs ?_ hstalls.2⟩
      exact (smooth_concat data).mpr ⟨hsmooth, hdrop ▸ hstalls.1⟩
    · obtain ⟨hmoves, hshort, hread, hpast, hlen⟩ := hlost
      refine ⟨c', hres, .lost (by omega) ?_ hshort (by omega) hpast hlen⟩
      intro hall
      exact hmoves (hdrop ▸ ((smooth_concat data).mp hall).2)
  · intro hle
    refine ⟨fun _ => ?_, fun hns => absurd hsmooth hns⟩
    obtain ⟨fuel, rfl⟩ : ∃ k, fuel = k + 1 := ⟨fuel - 1, by omega⟩
    exact readLoop_body_done hw hurl hlength hpos (by omega) fuel

/-- A chunk that arrives while the connection waits in the body. -/
theorem receive_waits {w : List UInt8} {free : Nat} (data : List UInt8)
    (hw : Waits c h hd w free) (hdata : data.length < free) :
    ∃ c', c.receive data = .ok c' ∧ Waits c' h hd (w ++ data) (free - data.length) := by
  obtain ⟨pre, hpre, hcr, hbuf, hstr⟩ := hw.atBody.buffer
  have hcopy : copyIn c.mReadBuf c.mReadIdx data =
      .ok (pre ++ w ++ data ++ List.replicate (free - data.length) 0) := by
    rw [hbuf, hw.atBody.readIdx, ← hpre, ← List.length_append, ← List.append_assoc,
      copyIn_zeros _ _ _ (by omega)]
  have hsize := hw.size
  refine ⟨_, HttpConn.receive_of_copyIn hcopy, ⟨⟨pre, hpre, hcr, by simp, hstr⟩,
    hw.atBody.startLine, hw.atBody.checkedIdx, ?_, hw.atBody.checkState, hw.atBody.contentLength,
    hw.atBody.realFile⟩, ?_, by omega⟩
  · simp only [hw.atBody.readIdx, List.length_append]
    omega
  · rw [List.length_append]
    omega

/-- The call for a chunk that arrives in the header part. -/
theorem call_head (fs : FileSystem) {h' : HeadState} (hhead : IsHead hd h) (hurl : h.url = some url)
    (hlength : h.contentLength = n) (hsize : hd.length + n < readBufferSize)
    (hinit : (before ++ [data]).flatten <+: hd ++ body)
    (hfit : before.flatten.length + data.length ≤ hd.length + n)
    (hlt : before.flatten.length < hd.length)
    (ht : Tracks c before.flatten h' (readBufferSize - before.flatten.length)) :
    ∃ c', c.receive data = .ok c' ∧
      CallOutcome fs (c'.processRead fs) hd url h n before data := by
  have hflat : (before ++ [data]).flatten = before.flatten ++ data := by simp
  have hlen : (before ++ [data]).flatten.length = before.flatten.length + data.length := by
    rw [hflat, List.length_append]
  obtain ⟨c', hreceive, hout⟩ := processRead_head fs data ht (by omega)
  refine ⟨c', hreceive, ?_⟩
  rw [← hflat, Nat.sub_sub, ← hlen] at hout
  by_cases hin : (before ++ [data]).flatten.length < hd.length
  · -- still in the header part
    obtain ⟨t, ht⟩ := List.prefix_of_prefix_length_le hinit (List.prefix_append hd body)
      (Nat.le_of_lt hin)
    have hne : t ≠ [] := by
      rintro rfl
      rw [List.append_nil] at ht
      rw [ht] at hin
      exact Nat.lt_irrefl _ hin
    obtain ⟨st, hst⟩ := hhead.prefix_ok ht hne
    rw [hst] at hout
    obtain ⟨c₁, hres, htracks⟩ := hout
    exact ⟨fun _ => ⟨c₁, hres, .head _ hin htracks⟩, fun hle => by omega⟩
  · -- the chunk reaches the body
    obtain ⟨w, hw⟩ := List.prefix_of_prefix_length_le (List.prefix_append hd body) hinit
      (Nat.not_lt.mp hin)
    have hread : readHead (before ++ [data]).flatten = .error (.body h) := by
      rw [← hw]
      exact feed_append_error headReader w hhead.stops
    rw [hread] at hout
    obtain ⟨c₁, fuel, hd', w', hres, hs, hhead', hat, hfuel⟩ := hout
    obtain rfl : hd = hd' := hhead.unique hhead' (hw.trans hs)
    have hcount : (before ++ [data]).flatten.length = hd.length + w'.length := by
      rw [hs, List.length_append]
    rw [hres]
    exact body_call hhead hurl hlength hsize hs (smooth_of_le (Nat.le_of_lt hlt))
      ⟨hat, by omega, by omega⟩ hfuel

/-- The call for a chunk that arrives after the count was lost. -/
theorem call_lost (fs : FileSystem) (hsize : hd.length + n < readBufferSize)
    (hfit : before.flatten.length + data.length ≤ hd.length + n)
    (hle : hd.length ≤ before.flatten.length) (hsmooth : ¬ Smooth hd before) (hshort : Short c)
    (hread : c.mReadIdx = before.flatten.length) (hpast : hd.length < c.mCheckedIdx)
    (hclen : c.mContentLength = n) :
    ∃ c', c.receive data = .ok c' ∧
      CallOutcome fs (c'.processRead fs) hd url h n before data := by
  have hlen : (before ++ [data]).flatten.length = before.flatten.length + data.length := by simp
  obtain ⟨m, hreceive, hb⟩ := receive_bounds data hshort.bounded (by omega)
  refine ⟨_, hreceive, ?_⟩
  generalize hc' : HttpConn.mk _ _ _ _ _ _ _ _ _ _ _ _ _ _ _ _ _ _ _ _ = c' at hb ⊢
  have hshort' : Short c' := by
    rw [← hc'] at hb ⊢
    refine ⟨hb, hshort.checkState, hshort.length_nonneg, hshort.length_lt, ?_⟩
    simp only
    omega
  obtain ⟨c'', hres, hshort'', hread', hlen', hle', -⟩ :=
    readLoop_short fs (c'.mReadIdx - c'.mCheckedIdx + 2) .lineOk c' hshort' (by simp [budget])
  have hread'' : c''.mReadIdx = (before ++ [data]).flatten.length := by
    rw [hread', ← hc', hlen, ← hread]
  have hlost : ¬ Smooth hd (before ++ [data]) := fun hall => hsmooth ((smooth_concat data).mp hall).1
  have hpast' : hd.length < c''.mCheckedIdx := by
    refine Nat.lt_of_lt_of_le hpast (Nat.le_trans ?_ hle')
    rw [← hc']
  have hclen' : c''.mContentLength = n := by rw [hlen', ← hc', hclen]
  exact ⟨fun _ => ⟨c'', hres, .lost (by omega) hlost hshort'' hread'' hpast' hclen'⟩,
    fun _ => ⟨fun hall => absurd hall hsmooth, fun _ => ⟨c'', hres⟩⟩⟩

/-- The call after a chunk, at every stage. -/
theorem call_stage (fs : FileSystem) {n : Nat} (hhead : IsHead hd h) (hurl : h.url = some url)
    (hlength : h.contentLength = n) (hbody : body.length = n)
    (hsize : hd.length + n < readBufferSize) (hstage : Stage hd h n before c)
    (hinit : (before ++ [data]).flatten <+: hd ++ body) :
    ∃ c', c.receive data = .ok c' ∧
      CallOutcome fs (c'.processRead fs) hd url h n before data := by
  have hflat : (before ++ [data]).flatten = before.flatten ++ data := by simp
  have hfit : before.flatten.length + data.length ≤ hd.length + n := by
    have hle := hinit.length_le
    rwa [hflat, List.length_append, List.length_append, hbody] at hle
  cases hstage with
  | head h' hlt ht => exact call_head fs hhead hurl hlength hsize hinit hfit hlt ht
  | waits w hs hsmooth hw =>
    obtain ⟨c', hreceive, hw'⟩ := receive_waits data hw (by omega)
    refine ⟨c', hreceive, ?_⟩
    rw [Nat.sub_sub, ← List.length_append, ← hflat] at hw'
    unfold HttpConn.processRead
    refine body_call hhead hurl hlength hsize (by rw [hflat, hs, List.append_assoc]) hsmooth hw' ?_
    rw [hw'.atBody.readIdx, hw'.atBody.checkedIdx]
    omega
  | lost hle hsmooth hshort hread hpast hclen =>
    exact call_lost fs hsize hfit hle hsmooth hshort hread hpast hclen

/-- The connection after the calls for chunks that end before the last byte of the body. -/
theorem readChunks_stage (fs : FileSystem) (c : HttpConn) {n : Nat} (hhead : IsHead hd h)
    (hurl : h.url = some url) (hlength : h.contentLength = n) (hbody : body.length = n)
    (hsize : hd.length + n < readBufferSize) (chunks : List (List UInt8))
    (hinit : chunks.flatten <+: hd ++ body) (hlt : chunks.flatten.length < hd.length + n) :
    ∃ c₁, c.init.readChunks fs chunks = .ok (.noRequest, c₁) ∧ Stage hd h n chunks c₁ := by
  induction chunks using List.reverseRecOn with
  | nil =>
    obtain ⟨a, b, st, rfl, -, -⟩ := hhead
    exact ⟨c.init, rfl, .head HeadState.init (by simp) (tracks_init c)⟩
  | append_singleton before data ih =>
    have hflat : (before ++ [data]).flatten = before.flatten ++ data := by simp
    have hbefore : before.flatten <+: hd ++ body := by
      rw [hflat] at hinit
      exact (List.prefix_append _ _).trans hinit
    obtain ⟨c₁, hread, hstage⟩ := ih hbefore (by
      rw [hflat, List.length_append] at hlt
      omega)
    obtain ⟨c₂, hreceive, hout⟩ :=
      call_stage fs hhead hurl hlength hbody hsize hstage hinit
    obtain ⟨c₃, hres, hstage'⟩ := hout.1 hlt
    exact ⟨c₃, by rw [readChunks_concat data hread, hreceive, ok_bind, hres], hstage'⟩

end Calls

/-- In a list of chunks there is one in which a given size is reached. -/
theorem exists_chunk_reaching (size : Nat) (p rest : List (List UInt8))
    (hp : p.flatten.length < size) (hsize : size ≤ (p ++ rest).flatten.length) :
    ∃ before data after, p ++ rest = before ++ data :: after ∧ p <+: before ∧
      before.flatten.length < size ∧ size ≤ (before ++ [data]).flatten.length := by
  induction rest generalizing p with
  | nil =>
    rw [List.append_nil] at hsize
    omega
  | cons data rest ih =>
    by_cases hreach : size ≤ (p ++ [data]).flatten.length
    · exact ⟨p, data, rest, rfl, List.prefix_refl _, hp, hreach⟩
    · obtain ⟨before, d, after, heq, hpre, hlt, hle⟩ := ih (p ++ [data]) (by omega) (by simpa using hsize)
      exact ⟨before, d, after, by simpa using heq, (List.prefix_append _ _).trans hpre, hlt, hle⟩

/-- `process_read` waits after every chunk that ends before byte number `size`, and runs
`do_request` in the call after the chunk that contains it. -/
structure CompletesOnLastByte (fs : FileSystem) (c : HttpConn) (url : List UInt8) (size : Nat)
    (chunks : List (List UInt8)) : Prop where
  waits : ∀ before data after, chunks = before ++ data :: after →
    (before ++ [data]).flatten.length < size →
    ∃ c', c.init.readChunks fs (before ++ [data]) = .ok (.noRequest, c')
  completes : ∀ before data after, chunks = before ++ data :: after →
    before.flatten.length < size → size ≤ (before ++ [data]).flatten.length →
    ∃ c₁ c₂, c.init.readChunks fs before = .ok (.noRequest, c₁) ∧ c₁.receive data = .ok c₂ ∧
      CallsDoRequest fs (c₂.processRead fs) url

/-- A request with a body is completed by its last byte exactly when every chunk that ends
inside the body leaves a part of it behind that stalls. -/
theorem body_completes_iff (fs : FileSystem) (c : HttpConn) (body : List UInt8) {hd url : List UInt8}
    {h : HeadState} {chunks : List (List UInt8)} (hhead : IsHead hd h) (hurl : h.url = some url)
    (hlength : h.contentLength = body.length) (hsize : hd.length + body.length < readBufferSize)
    (hsplit : chunks.flatten = hd ++ body) :
    CompletesOnLastByte fs c url (hd.length + body.length) chunks ↔
      ∀ p, p <+: chunks → hd.length < p.flatten.length →
        p.flatten.length < hd.length + body.length → Stalls (p.flatten.drop hd.length) := by
  have htotal : chunks.flatten.length = hd.length + body.length := by
    rw [hsplit, List.length_append]
  have hinit : ∀ p, p <+: chunks → p.flatten <+: hd ++ body := by
    rintro p ⟨r, rfl⟩
    rw [← hsplit, List.flatten_append]
    exact List.prefix_append _ _
  have hpre : ∀ before data after, chunks = before ++ data :: after → before ++ [data] <+: chunks := by
    rintro before data after rfl
    exact ⟨after, by simp⟩
  have hstage := readChunks_stage fs c hhead hurl hlength rfl hsize
  constructor
  · intro hdone p hp hin hlt
    obtain ⟨rest, rfl⟩ := hp
    obtain ⟨before, data, after, heq, hpb, hblt, hble⟩ :=
      exists_chunk_reaching _ p rest hlt (by omega)
    have hchunk := hinit _ (hpre before data after heq)
    obtain ⟨c₁, c₂, hread, hreceive, d, c', -, -, hcall⟩ := hdone.completes _ _ _ heq hblt hble
    obtain ⟨c₁', hread', hst⟩ := hstage before
      ((by simp : before.flatten <+: (before ++ [data]).flatten).trans hchunk) hblt
    obtain ⟨-, rfl⟩ := results_unique hread hread'
    obtain ⟨c₂', hreceive', hout⟩ := call_stage fs hhead hurl hlength rfl hsize hst hchunk
    obtain rfl := result_unique hreceive hreceive'
    by_contra hmoves
    obtain ⟨c'', hwait⟩ := (hout.2 hble).2 fun hsmooth => hmoves (hsmooth p hpb)
    exact requestCode_ne_noRequest fs url (results_unique hcall hwait).1
  · intro hall
    constructor
    · intro before data after heq hlt
      obtain ⟨c', hread, -⟩ := hstage _ (hinit _ (hpre before data after heq)) hlt
      exact ⟨c', hread⟩
    · intro before data after heq hlt hle
      have hchunk := hinit _ (hpre before data after heq)
      obtain ⟨c₁, hread, hst⟩ := hstage before
        ((by simp : before.flatten <+: (before ++ [data]).flatten).trans hchunk) hlt
      obtain ⟨c₂, hreceive, hout⟩ := call_stage fs hhead hurl hlength rfl hsize hst hchunk
      refine ⟨c₁, c₂, hread, hreceive, (hout.2 hle).1 ?_⟩
      intro p hp
      by_cases hin : hd.length < p.flatten.length
      · refine hall p (hp.trans ?_) hin (Nat.lt_of_le_of_lt ?_ hlt)
        · rw [heq]
          exact List.prefix_append _ _
        · obtain ⟨r, rfl⟩ := hp
          rw [List.flatten_append, List.length_append]
          omega
      · exact Or.inl (List.drop_eq_nil_of_le (by omega))

set_option maxRecDepth 100000 in
/-- A header part that announces a body of two bytes. -/
theorem isHead_two_bytes : IsHead (bytes "GET\t/a\tHTTP/1.1\r\nContent-Length:2\r\n\r\n")
    ⟨true, some (bytes "/a"), none, false, 2⟩ := by
  have hlast : bytes "GET\t/a\tHTTP/1.1\r\nContent-Length:2\r\n\r\n" =
      bytes "GET\t/a\tHTTP/1.1\r\nContent-Length:2\r\n\r" ++ [LF] := by decide
  rw [hlast]
  exact isHead_of_announced (by decide) (by decide)

/-- The whole body in one chunk. -/
theorem body_completes_iff_one_chunk :
    CompletesOnLastByte default default (bytes "/a") (37 + 2)
        [bytes "GET\t/a\tHTTP/1.1\r\nContent-Length:2\r\n\r\n", bytes "ab"] ↔
      ∀ p, p <+: [bytes "GET\t/a\tHTTP/1.1\r\nContent-Length:2\r\n\r\n", bytes "ab"] →
        37 < p.flatten.length → p.flatten.length < 37 + 2 → Stalls (p.flatten.drop 37) :=
  body_completes_iff default default (bytes "ab") isHead_two_bytes rfl (by decide) (by decide)
    (by decide)

set_option maxRecDepth 100000 in
/-- A body of two bytes that arrive one by one: no call ever completes the request. -/
theorem body_not_completed :
    ¬ ∀ (fs : FileSystem) (c : HttpConn) (hd body url : List UInt8) (h : HeadState)
      (chunks : List (List UInt8)), IsHead hd h → h.url = some url →
      h.contentLength = body.length → hd.length + body.length < readBufferSize →
      chunks.flatten = hd ++ body →
      CompletesOnLastByte fs c url (hd.length + body.length) chunks := by
  intro hall
  have hdone := hall default default _ (bytes "ab") _ _
    [bytes "GET\t/a\tHTTP/1.1\r\nContent-Length:2\r\n\r\na", bytes "b"] isHead_two_bytes rfl
    (by decide) (by decide) (by decide)
  obtain ⟨c₁, c₂, hread, hreceive, d, c', -, -, hcall⟩ :=
    hdone.completes [bytes "GET\t/a\tHTTP/1.1\r\nContent-Length:2\r\n\r\na"] (bytes "b") [] rfl
      (by decide) (by decide)
  have hcode : ((default : HttpConn).init.readChunks default
      [bytes "GET\t/a\tHTTP/1.1\r\nContent-Length:2\r\n\r\na", bytes "b"]).map (·.1) =
      .ok .noRequest := by decide
  have hlast := readChunks_concat (bytes "b") hread
  rw [hreceive, ok_bind, hcall, List.singleton_append] at hlast
  rw [hlast] at hcode
  have hwait : requestCode default (bytes "/a") = .noRequest := by simpa [Except.map] using hcode
  exact requestCode_ne_noRequest _ _ hwait

end ServerListings.Analysis.BodyCompletion
