import ServerListings.Model.HttpIo

/-!
# The text of a response

`Written c s` says that the write buffer of `c` holds the text `s`. Every `add_response`
either appends its text or leaves the text as it is. A prepared response starts with the `H`
of its status line and has no other `H` in the write buffer, which is what tells a response
that is sent on from one that is sent again.
-/

set_option autoImplicit false

namespace ServerListings.Interface

open Lib.CMem ServerListings.Model.Http

/-- The write buffer holds the text `s`. -/
structure Written (c : HttpConn) (s : List UInt8) : Prop where
  writeIdx : c.mWriteIdx = s.length
  text : c.mWriteBuf.take s.length = s
  length : c.mWriteBuf.length = writeBufferSize

/-- Only the write buffer and its index may differ. -/
def SameReply (c c' : HttpConn) : Prop :=
  ∃ m i, c' = { c with mWriteBuf := m, mWriteIdx := i }

/-- Nothing has changed. -/
theorem SameReply.refl (c : HttpConn) : SameReply c c := ⟨c.mWriteBuf, c.mWriteIdx, rfl⟩

/-- Changes of the write buffer one after the other. -/
theorem SameReply.trans {c c' c'' : HttpConn} (h : SameReply c c') (h' : SameReply c' c'') :
    SameReply c c'' := by
  obtain ⟨m, i, rfl⟩ := h
  obtain ⟨m', i', rfl⟩ := h'
  exact ⟨m', i', rfl⟩

/-- Only the write buffer and what `m_iv` refers to may differ. -/
def OnlyReply (c c' : HttpConn) : Prop :=
  ∃ m i iv₀ iv₁ n, c' = { c with
    mWriteBuf := m, mWriteIdx := i, mIv0 := iv₀, mIv1 := iv₁, mIvCount := n }

/-- The beginning of an array that bytes are copied behind. -/
theorem take_copyIn {m m' data : List UInt8} {i : Nat} (h : copyIn m i data = .ok m') {k : Nat}
    (hk : k ≤ data.length) : m'.take (i + k) = m.take i ++ data.take k := by
  obtain ⟨-, hfit⟩ := length_copyIn h
  obtain rfl : m.take i ++ data ++ m.drop (i + data.length) = m' := by
    rw [copyIn, if_pos hfit] at h
    exact Except.ok.inj h
  have hlen : (m.take i).length = i := List.length_take_of_le (by omega)
  rw [List.append_assoc, List.take_append, hlen, List.take_of_length_le (by omega),
    Nat.add_sub_cancel_left, List.take_append_of_le_length hk]

/-- `add_response` appends its text, or fails and leaves the text as it is. It fails exactly
where the text does not fit. -/
theorem addResponse_written {c : HttpConn} {s : List UInt8} (h : Written c s) (text : List UInt8) :
    ∃ ok c', c.addResponse text = .ok (ok, c') ∧ SameReply c c' ∧
      Written c' (if ok then s ++ text else s) ∧
      (ok = true ↔ s.length + text.length < writeBufferSize - 1) := by
  have hidx := h.writeIdx
  have hlen := h.length
  have htext := h.text
  rw [← hidx] at htext
  unfold HttpConn.addResponse
  by_cases hfull : c.mWriteIdx ≥ writeBufferSize
  · rw [if_pos hfull]
    exact ⟨false, c, rfl, SameReply.refl c, h, by simp; omega⟩
  rw [if_neg hfull]
  by_cases hzero : writeBufferSize - 1 - c.mWriteIdx = 0
  · have hnone : vsnprintf c.mWriteBuf c.mWriteIdx (writeBufferSize - 1 - c.mWriteIdx) text =
        .ok c.mWriteBuf := by
      rw [vsnprintf, if_pos hzero]
      rfl
    simp only [hnone, ok_bind]
    rw [if_pos (by omega)]
    exact ⟨false, c, rfl, SameReply.refl c, h, by simp; omega⟩
  obtain ⟨m, hm⟩ : ∃ m, copyIn c.mWriteBuf c.mWriteIdx
      (text.take (writeBufferSize - 1 - c.mWriteIdx - 1) ++ [0]) = .ok m := by
    refine ⟨_, if_pos ?_⟩
    rw [List.length_append, List.length_take, List.length_singleton]
    omega
  have hprint : vsnprintf c.mWriteBuf c.mWriteIdx (writeBufferSize - 1 - c.mWriteIdx) text = .ok m := by
    rw [vsnprintf, if_neg hzero, hm]
  obtain ⟨hmlen, -⟩ := length_copyIn hm
  simp only [hprint, ok_bind]
  by_cases hlong : text.length ≥ writeBufferSize - 1 - c.mWriteIdx
  · rw [if_pos hlong]
    have hbase := take_copyIn hm (Nat.zero_le _)
    rw [Nat.add_zero, List.take_zero, List.append_nil, htext, hidx] at hbase
    exact ⟨false, _, rfl, ⟨m, c.mWriteIdx, rfl⟩, ⟨hidx, hbase, hmlen.trans hlen⟩, by simp; omega⟩
  · rw [if_neg hlong]
    have htake : text.take (writeBufferSize - 1 - c.mWriteIdx - 1) = text :=
      List.take_of_length_le (by omega)
    rw [htake] at hm
    have hadd := take_copyIn hm (k := text.length) (by simp)
    rw [htext, hidx, ← List.length_append, List.take_append_of_le_length (Nat.le_refl _),
      List.take_length] at hadd
    exact ⟨true, _, rfl, ⟨m, _, rfl⟩, ⟨by simp [hidx], hadd, hmlen.trans hlen⟩, by simp; omega⟩

/-! ## The one `H` -/

/-- The byte that a response starts with. -/
abbrev H : UInt8 := 72

/-- A text that begins with `H` and has no other one. -/
def OneH (s : List UInt8) : Prop := ∃ t, s = H :: t ∧ H ∉ t

/-- A text without an H leaves the first one the only one. -/
theorem OneH.append {s t : List UInt8} (hs : OneH s) (ht : H ∉ t) : OneH (s ++ t) := by
  obtain ⟨u, rfl, hu⟩ := hs
  refine ⟨u ++ t, rfl, ?_⟩
  intro h
  rcases List.mem_append.mp h with h | h
  · exact hu h
  · exact ht h

/-- `digits` consists of digits. -/
theorem isDigit_of_mem_digits {n : Nat} {b : UInt8} (h : b ∈ digits n) : isDigit b = true := by
  obtain ⟨ch, hch, rfl⟩ := List.mem_map.mp h
  have hdigit := Nat.isDigit_of_mem_toDigits (by decide) (by decide) hch
  rw [Char.isDigit, Bool.and_eq_true, decide_eq_true_eq, decide_eq_true_eq] at hdigit
  have hlo : 48 ≤ ch.toNat := by
    have := hdigit.1
    rw [ge_iff_le, UInt32.le_iff_toNat_le] at this
    exact this
  have hhi : ch.toNat ≤ 57 := by
    have := hdigit.2
    rw [UInt32.le_iff_toNat_le] at this
    exact this
  have hnat : ch.toNat.toUInt8.toNat = ch.toNat := by
    simp only [Nat.toUInt8, UInt8.toNat_ofNat']
    omega
  rw [isDigit, decide_eq_true_eq, UInt8.le_iff_toNat_le, UInt8.le_iff_toNat_le, hnat]
  exact ⟨hlo, hhi⟩

/-- A byte that is neither a digit nor the sign is not in a number. -/
theorem notMem_decimal {b : UInt8} (hb : isDigit b = false) (hsign : b ≠ 45) (v : Int) :
    b ∉ decimal v := by
  have hdigits : ∀ n : Nat, b ∉ digits n := by
    intro n h
    rw [isDigit_of_mem_digits h] at hb
    cases hb
  unfold decimal
  split
  · intro h
    rcases List.mem_cons.mp h with h | h
    · exact hsign h
    · exact hdigits _ h
  · exact hdigits _

/-- No number has an H. -/
theorem h_notMem_decimal (v : Int) : H ∉ decimal v := notMem_decimal (by decide) (by decide) v

/-- An `add_response` of a text without `H` keeps the one `H`. -/
theorem addResponse_oneH {c : HttpConn} {s : List UInt8} (text : List UInt8) (h : Written c s)
    (hs : OneH s) (htext : H ∉ text) :
    ∃ ok c' s', c.addResponse text = .ok (ok, c') ∧ SameReply c c' ∧ Written c' s' ∧ OneH s' := by
  obtain ⟨ok, c', hadd, hsame, hw, -⟩ := addResponse_written h text
  refine ⟨ok, c', _, hadd, hsame, hw, ?_⟩
  split
  · exact hs.append htext
  · exact hs

/-- A byte that is in neither part is not in the whole. -/
theorem notMem_append {b : UInt8} {s t : List UInt8} (hs : b ∉ s) (ht : b ∉ t) : b ∉ s ++ t := by
  simp [hs, ht]

/-- The headers have no H. -/
theorem addHeaders_oneH {c : HttpConn} {s : List UInt8} (contentLen : Int) (h : Written c s)
    (hs : OneH s) :
    ∃ c' s', c.addHeaders contentLen = .ok c' ∧ SameReply c c' ∧ Written c' s' ∧ OneH s' := by
  obtain ⟨ok₁, c₁, s₁, h₁, hsame₁, hw₁, hone₁⟩ := addResponse_oneH
    (bytes "Content-Length: " ++ decimal contentLen ++ bytes "\r\n") h hs
    (notMem_append (notMem_append (by decide) (h_notMem_decimal _)) (by decide))
  obtain ⟨ok₂, c₂, s₂, h₂, hsame₂, hw₂, hone₂⟩ := addResponse_oneH
    (bytes "Connection: " ++ (if c₁.mLinger then bytes "keep-alive" else bytes "close") ++
      bytes "\r\n") hw₁ hone₁ (notMem_append (notMem_append (by decide) (by split <;> decide)) (by decide))
  obtain ⟨ok₃, c₃, s₃, h₃, hsame₃, hw₃, hone₃⟩ := addResponse_oneH (bytes "\r\n") hw₂ hone₂
    (by decide)
  refine ⟨c₃, s₃, ?_, hsame₁.trans (hsame₂.trans hsame₃), hw₃, hone₃⟩
  simp only [HttpConn.addHeaders, HttpConn.addContentLength, HttpConn.addLinger,
    HttpConn.addBlankLine, h₁, h₂, h₃, ok_bind]
  rfl

/-- A status line always fits into an empty write buffer. -/
theorem addStatusLine_oneH {c : HttpConn} (status : Int) (title : List UInt8) (h : Written c [])
    (hstatus : (decimal status).length = 3) (htitle : title.length ≤ 20) (hH : H ∉ title) :
    ∃ ok c' s', c.addStatusLine status title = .ok (ok, c') ∧ SameReply c c' ∧ Written c' s' ∧
      OneH s' := by
  obtain ⟨ok, c', hadd, hsame, hw, hfits⟩ := addResponse_written h
    (bytes "HTTP/1.1" ++ bytes " " ++ decimal status ++ bytes " " ++ title ++ bytes "\r\n")
  have hok : ok = true := by
    refine hfits.mpr ?_
    have h8 : (bytes "HTTP/1.1").length = 8 := by decide
    have h1 : (bytes " ").length = 1 := by decide
    have h2 : (bytes "\r\n").length = 2 := by decide
    simp only [List.length_append, List.length_nil, hstatus, h8, h1, h2, writeBufferSize]
    omega
  subst hok
  refine ⟨true, c', _, hadd, hsame, hw, ?_⟩
  simp only [if_true, List.nil_append]
  have hone : OneH (bytes "HTTP/1.1") := ⟨bytes "TTP/1.1", by decide, by decide⟩
  exact (((hone.append (by decide)).append (h_notMem_decimal _)).append (by decide)).append hH
    |>.append (by decide)

/-- What `process_write` prepares for `write`: the header in the write buffer, and the mapped
file behind it when the answer is a file. -/
structure Prepared (ret : HttpCode) (c : HttpConn) : Prop where
  header : OneH (c.mWriteBuf.take c.mWriteIdx)
  length : (c.mWriteBuf.take c.mWriteIdx).length = c.mWriteIdx
  iv0 : c.mIv0 = ⟨.writeBuf, c.mWriteIdx⟩
  page : ret ≠ .fileRequest → c.mIvCount = 1
  file : ret = .fileRequest →
    c.mIvCount = 2 ∧ c.mIv1 = ⟨.file c.mFileAddress, c.mFileStat.stSize⟩

/-- What was written is the first part of the write buffer. -/
theorem Written.header {c : HttpConn} {s : List UInt8} (h : Written c s) :
    c.mWriteBuf.take c.mWriteIdx = s := by
  rw [h.writeIdx, h.text]

/-- A page has one H. -/
theorem addPage_oneH {c : HttpConn} (status : Int) (title form : List UInt8) (h : Written c [])
    (hstatus : (decimal status).length = 3) (htitle : title.length ≤ 20) (hH : H ∉ title)
    (hform : H ∉ form) :
    ∃ fits c' s', c.addPage status title form = .ok (fits, c') ∧ Written c' s' ∧ OneH s' := by
  obtain ⟨ok₁, c₁, s₁, h₁, -, hw₁, hone₁⟩ := addStatusLine_oneH status title h hstatus htitle hH
  obtain ⟨c₂, s₂, h₂, -, hw₂, hone₂⟩ := addHeaders_oneH form.length hw₁ hone₁
  obtain ⟨ok₃, c₃, s₃, h₃, -, hw₃, hone₃⟩ := addResponse_oneH form hw₂ hone₂ hform
  refine ⟨ok₃, c₃, s₃, ?_, hw₃, hone₃⟩
  simp only [HttpConn.addPage, HttpConn.addContent, h₁, h₂, h₃, ok_bind]

/-- An answer with a page. -/
theorem page_prepared {c c' : HttpConn} {status : Int} {title form : List UInt8} {ret : HttpCode}
    (hret : ret ≠ .fileRequest) (h : Written c []) (hstatus : (decimal status).length = 3)
    (htitle : title.length ≤ 20) (hH : H ∉ title) (hform : H ∉ form)
    (hpage : HttpConn.processWrite.page c status title form = .ok (true, c')) : Prepared ret c' := by
  obtain ⟨fits, c₁, s₁, h₁, hw₁, hone₁⟩ := addPage_oneH status title form h hstatus htitle hH hform
  rw [HttpConn.processWrite.page, h₁, ok_bind] at hpage
  cases fits with
  | false => cases hpage
  | true =>
    obtain rfl : c₁.sendPage = c' := (Prod.mk.inj (Except.ok.inj hpage)).2
    refine ⟨?_, ?_, rfl, fun _ => rfl, fun h0 => absurd h0 hret⟩
    · exact hw₁.header.symm ▸ hone₁
    · exact (congrArg List.length hw₁.header).trans hw₁.writeIdx.symm

/-- Every response that `process_write` announces is prepared. -/
theorem processWrite_prepared {c c' : HttpConn} {ret : HttpCode} (h : Written c [])
    (hwrite : c.processWrite ret = .ok (true, c')) : Prepared ret c' := by
  cases ret with
  | fileRequest =>
    rw [HttpConn.processWrite] at hwrite
    split at hwrite
    · obtain ⟨ok₁, c₁, s₁, h₁, -, hw₁, hone₁⟩ := addStatusLine_oneH 200 ok200Title h
        (by decide) (by decide) (by decide)
      obtain ⟨c₂, s₂, h₂, -, hw₂, hone₂⟩ := addHeaders_oneH (toInt c₁.mFileStat.stSize) hw₁ hone₁
      simp only [h₁, h₂, ok_bind] at hwrite
      obtain rfl := (Prod.mk.inj (Except.ok.inj hwrite)).2
      refine ⟨?_, ?_, rfl, fun h0 => absurd rfl h0, fun _ => ⟨rfl, rfl⟩⟩
      · exact hw₂.header.symm ▸ hone₂
      · exact (congrArg List.length hw₂.header).trans hw₂.writeIdx.symm
    · obtain ⟨fits, c₁, s₁, h₁, -, -⟩ := addPage_oneH 200 ok200Title okString h
        (by decide) (by decide) (by decide) (by decide)
      rw [h₁] at hwrite
      cases hwrite
  | badRequest =>
    exact page_prepared (by simp) h (by decide) (by decide) (by decide) (by decide) hwrite
  | noResource =>
    exact page_prepared (by simp) h (by decide) (by decide) (by decide) (by decide) hwrite
  | forbiddenRequest =>
    exact page_prepared (by simp) h (by decide) (by decide) (by decide) (by decide) hwrite
  | internalError =>
    exact page_prepared (by simp) h (by decide) (by decide) (by decide) (by decide) hwrite
  | noRequest => cases hwrite
  | getRequest => cases hwrite
  | closedConnection => cases hwrite

end ServerListings.Interface
