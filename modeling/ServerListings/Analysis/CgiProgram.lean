import ServerListings.Model.CgiConn

/-!
# The CGI server runs the program named in the first line

However the bytes of a connection come, `process` finds the first CR LF that ends within the
buffer: the scan goes on where it stopped and looks one byte back, and no CR LF is in the bytes
that were scanned before (`scanLoop_spec`). `Named` says what happens when there is one and
`Unnamed` what happens when there is none.
-/

set_option autoImplicit false

namespace ServerListings.Analysis.CgiProgram

open Lib.CMem Lib.LineReader ServerListings.Model ServerListings.Model.CgiConn

/-- A CR LF whose LF is at `k`. -/
def LineEnd (s : List UInt8) (k : Nat) : Prop := 1 ≤ k ∧ s[k - 1]? = some CR ∧ s[k]? = some LF

def FirstLineEnd (s : List UInt8) (k : Nat) : Prop := LineEnd s k ∧ ∀ j, j < k → ¬ LineEnd s j

/-- All bytes of a connection. -/
def received (inputs : List CgiInput) : List UInt8 := inputs.flatMap fun i => i.portions.flatten

/-- The bytes of a stream that have room in the buffer. -/
def fitting (s : List UInt8) : List UInt8 := s.take (bufferSize - 1)

/-- The object with the bytes `got` in its buffer. -/
def loaded (c : CgiConn) (got : List UInt8) : CgiConn :=
  { c with mBuf := got ++ List.replicate (bufferSize - got.length) 0, mReadIdx := got.length }

/-- The program is looked for once, and run once if the file is there and `fork` succeeds. -/
def runEffects (sys : CgiSystem) (c : CgiConn) (name : List UInt8) : List CgiEffect :=
  if sys.hasFile name then [.access name, .fork, .removefd c.mEpollfd c.mSockfd]
  else [.access name, .removefd c.mEpollfd c.mSockfd]

def runChild (sys : CgiSystem) (c : CgiConn) (name : List UInt8) : List CgiEffect :=
  if sys.hasFile name ∧ sys.forks then [.closeStdout, .dup c.mSockfd, .execl name, .exit] else []

/-- The first line of the bytes `s` ends at `k`. The `recv` that brings the byte at `k` is the
last one, and right after it the program is run that the bytes before the CR name. `start`
bytes were there before. -/
structure Named (sys : CgiSystem) (c : CgiConn) (s : List UInt8) (k start : Nat) (r : CgiCall) :
    Prop where
  bound : r.conn.mReadIdx ≤ bufferSize - 1
  removed : r.removed = true
  effects : ∃ ns : List Nat, ∃ n, start + ns.sum ≤ k ∧ k < start + ns.sum + n ∧
    r.effects = ns.map .recv ++ .recv n :: runEffects sys c (cstr (s.take (k - 1)))
  child : r.child = runChild sys c (cstr (s.take (k - 1)))

/-- No line ends in the bytes `s`. No program is run, and the connection is removed if the
buffer is full or the stream has ended. -/
structure Unnamed (c : CgiConn) (s : List UInt8) (ended : Prop) (start : Nat) (r : CgiCall) :
    Prop where
  bound : r.conn.mReadIdx ≤ bufferSize - 1
  removed : r.removed = true ↔ s.length = bufferSize - 1 ∨ ended
  effects : ∃ ns : List Nat, start + ns.sum = s.length ∧
    r.effects = ns.map .recv ++ if r.removed then [.removefd c.mEpollfd c.mSockfd] else []
  child : r.child = []
  waiting : r.removed = false → r.conn = loaded c s

/-- How a byte stream comes: no `recv` returns an empty portion, and the calls before the last
one end with `EAGAIN`. -/
structure Arrives (inputs : List CgiInput) : Prop where
  portions : ∀ i ∈ inputs, ∀ p ∈ i.portions, p ≠ []
  again : ∀ i ∈ inputs.dropLast, i.last = .again

/-- Whether the stream ends, with an end of stream or an error. -/
def Ended (inputs : List CgiInput) : Prop := ∃ i ∈ inputs, i.last ≠ .again

/-- What a call, or a sequence of calls, has to do with the bytes `s`. -/
def Handled (sys : CgiSystem) (c : CgiConn) (s : List UInt8) (ended : Prop) (start : Nat)
    (r : CgiCall) : Prop :=
  (∀ k, FirstLineEnd s k → Named sys c s k start r) ∧
    ((∀ k, ¬ LineEnd s k) → Unnamed c s ended start r)

section Lines

variable {s t : List UInt8} {k : Nat}

/-- A line ends inside the bytes. -/
theorem LineEnd.lt (h : LineEnd s k) : k < s.length := (List.getElem?_eq_some_iff.mp h.2.2).1

/-- The lines that end in the first bytes of a stream. -/
theorem lineEnd_append (t : List UInt8) (hk : k < s.length) : LineEnd (s ++ t) k ↔ LineEnd s k := by
  unfold LineEnd
  rw [List.getElem?_append_left hk, List.getElem?_append_left (by omega)]

/-- The first line stays the first one when more bytes come. -/
theorem FirstLineEnd.append (h : FirstLineEnd s k) (t : List UInt8) : FirstLineEnd (s ++ t) k := by
  have hk := h.1.lt
  refine ⟨(lineEnd_append t hk).mpr h.1, ?_⟩
  intro j hj
  rw [lineEnd_append t (by omega)]
  exact h.2 j hj

/-- There is only one first line. -/
theorem FirstLineEnd.unique {j : Nat} (h : FirstLineEnd s k) (h' : FirstLineEnd s j) : k = j := by
  rcases Nat.lt_trichotomy k j with hlt | heq | hlt
  · exact absurd h.1 (h'.2 k hlt)
  · exact heq
  · exact absurd h'.1 (h.2 j hlt)

/-- Where a line ends there is a first one. -/
theorem exists_firstLineEnd (h : ∃ k, LineEnd s k) : ∃ k, FirstLineEnd s k := by
  classical
  exact ⟨Nat.find h, Nat.find_spec h, fun j hj => Nat.find_min h hj⟩

/-- No line ends in no bytes. -/
theorem not_lineEnd_nil (k : Nat) : ¬ LineEnd [] k := fun h => absurd h.lt (Nat.not_lt_zero k)

/-- No more bytes have room than the buffer takes. -/
theorem length_fitting (s : List UInt8) : (fitting s).length = min (bufferSize - 1) s.length :=
  List.length_take

/-- A short stream has room as a whole. -/
theorem fitting_of_le (h : s.length ≤ bufferSize - 1) : fitting s = s := List.take_of_length_le h

/-- Once the buffer is full, the rest of the stream does not matter. -/
theorem fitting_append_full (h : s.length = bufferSize - 1) (t : List UInt8) :
    fitting (s ++ t) = s := List.take_left' h

end Lines

/-! ## The buffer -/

section Buffer

variable {sys : CgiSystem} {c : CgiConn} {got data s : List UInt8} {k : Nat} {last : RecvEnd}

/-- A new object has received nothing. -/
theorem loaded_nil (epollfd sockfd : Int) :
    loaded (CgiConn.init epollfd sockfd) [] = CgiConn.init epollfd sockfd := rfl

/-- The object when more bytes are in its buffer. -/
theorem loaded_append (c : CgiConn) (got data : List UInt8) :
    (⟨(loaded c got).mEpollfd, (loaded c got).mSockfd, (loaded c (got ++ data)).mBuf,
      (loaded c got).mReadIdx + data.length⟩ : CgiConn) = loaded c (got ++ data) := by
  have hread : (loaded c got).mReadIdx + data.length = (got ++ data).length :=
    List.length_append.symm
  rw [hread]
  rfl

/-- The room behind the bytes that were received. -/
theorem room_loaded (hfit : got.length ≤ bufferSize - 1) :
    (loaded c got).room = .ok (bufferSize - 1 - got.length) := if_pos hfit

/-- Received bytes are copied behind those that are there. -/
theorem copyIn_loaded (hfit : got.length + data.length ≤ bufferSize) :
    copyIn (loaded c got).mBuf (loaded c got).mReadIdx data = .ok (loaded c (got ++ data)).mBuf := by
  show copyIn (got ++ List.replicate (bufferSize - got.length) 0) got.length data =
    .ok (got ++ data ++ List.replicate (bufferSize - (got ++ data).length) 0)
  rw [copyIn_zeros got data _ (by omega), List.length_append, Nat.sub_sub]

/-- The last byte of the buffer stays NUL, so it is a string. -/
theorem fetch_loaded (hfit : got.length ≤ bufferSize - 1) :
    fetch (loaded c got).mBuf 0 = .ok (cstr got) := by
  obtain ⟨n, hn⟩ : ∃ n, bufferSize - got.length = n + 1 :=
    Nat.exists_eq_succ_of_ne_zero (by unfold bufferSize at *; omega)
  have hbuf : (loaded c got).mBuf = [] ++ (got ++ 0 :: List.replicate n 0) := by
    show got ++ List.replicate (bufferSize - got.length) 0 = _
    rw [hn]
    rfl
  rw [hbuf]
  exact fetch_append rfl

/-- A byte that was received is read in the buffer. -/
theorem load_front (post : List UInt8) (hk : k < s.length) : load (s ++ post) k = .ok s[k] := by
  rw [load, List.getElem?_append_left hk, List.getElem?_eq_getElem hk]

/-- The scan finds the first line end, when none is before the place where it starts. -/
theorem scanLoop_spec (post : List UInt8) (n : Nat) : ∀ idx : Nat, idx + n = s.length →
    (∀ j, j < idx → ¬ LineEnd s j) →
    (∃ k, scanLoop (s ++ post) n idx = .ok k ∧ FirstLineEnd s k) ∨
      (scanLoop (s ++ post) n idx = .ok s.length ∧ ∀ k, ¬ LineEnd s k) := by
  induction n with
  | zero =>
    intro idx hidx hbefore
    refine Or.inr ⟨congrArg Except.ok hidx, ?_⟩
    intro k hk
    exact hbefore k (by have := hk.lt; omega) hk
  | succ n ih =>
    intro idx hidx hbefore
    have hlt : idx < s.length := by omega
    have hnext : ¬ LineEnd s idx → ∀ j, j < idx + 1 → ¬ LineEnd s j := by
      intro hnot j hj
      rcases Nat.lt_succ_iff_lt_or_eq.mp hj with hj | rfl
      · exact hbefore j hj
      · exact hnot
    unfold scanLoop
    by_cases hone : 1 ≤ idx
    · have hlt' : idx - 1 < s.length := by omega
      rw [if_pos hone, load_front post hlt', ok_bind]
      by_cases hcr : s[idx - 1] = CR
      · rw [if_pos hcr, load_front post hlt, ok_bind]
        by_cases hlf : s[idx] = LF
        · rw [if_pos hlf]
          have hend : LineEnd s idx := by
            refine ⟨hone, ?_, ?_⟩
            · rw [List.getElem?_eq_getElem hlt', hcr]
            · rw [List.getElem?_eq_getElem hlt, hlf]
          exact Or.inl ⟨idx, rfl, hend, hbefore⟩
        · rw [if_neg hlf]
          apply ih (idx + 1) (by omega) (hnext _)
          rintro ⟨-, -, hend⟩
          rw [List.getElem?_eq_getElem hlt] at hend
          exact hlf (Option.some.inj hend)
      · rw [if_neg hcr]
        apply ih (idx + 1) (by omega) (hnext _)
        rintro ⟨-, hend, -⟩
        rw [List.getElem?_eq_getElem hlt'] at hend
        exact hcr (Option.some.inj hend)
    · rw [if_neg hone]
      apply ih (idx + 1) (by omega) (hnext _)
      rintro ⟨hpos, -⟩
      exact hone hpos

/-- The program is named by the bytes before the CR. -/
theorem startProgram_spec (sys : CgiSystem) (c : CgiConn) (hk : LineEnd got k) :
    ∃ r, startProgram sys (loaded c got) k = .ok r ∧ r.conn.mReadIdx = got.length ∧
      r.removed = true ∧ r.effects = runEffects sys c (cstr (got.take (k - 1))) ∧
      r.child = runChild sys c (cstr (got.take (k - 1))) := by
  have hlt := hk.lt
  have hpos := hk.1
  let rest := got.drop k ++ List.replicate (bufferSize - got.length) 0
  have hsplit : (loaded c got).mBuf = got.take (k - 1) ++ CR :: rest := by
    have hcr : got[k - 1]? = some CR := hk.2.1
    obtain ⟨hlt', hval⟩ := List.getElem?_eq_some_iff.mp hcr
    have hdrop : got.drop (k - 1) = CR :: got.drop k := by
      rw [List.drop_eq_getElem_cons hlt', hval, Nat.sub_add_cancel hpos]
    have hgot : got = got.take (k - 1) ++ CR :: got.drop k := by
      rw [← hdrop, List.take_append_drop]
    calc got ++ List.replicate (bufferSize - got.length) 0
        = (got.take (k - 1) ++ CR :: got.drop k) ++ List.replicate (bufferSize - got.length) 0 :=
          congrArg (· ++ List.replicate (bufferSize - got.length) 0) hgot
      _ = got.take (k - 1) ++ CR :: rest := List.append_assoc _ _ _
  have hlen : (got.take (k - 1)).length = k - 1 := List.length_take_of_le (by omega)
  have hstore : store (loaded c got).mBuf (k - 1) 0 = .ok (got.take (k - 1) ++ 0 :: rest) := by
    rw [hsplit]
    have hput := store_append_cons (got.take (k - 1)) rest CR 0
    rwa [hlen] at hput
  have hfetch : fetch ([] ++ (got.take (k - 1) ++ 0 :: rest)) 0 = .ok (cstr (got.take (k - 1))) :=
    fetch_append rfl
  rw [List.nil_append] at hfetch
  unfold startProgram
  rw [hstore, ok_bind]
  simp only
  rw [hfetch, ok_bind]
  unfold runEffects runChild
  cases hfile : sys.hasFile (cstr (got.take (k - 1))) with
  | false => exact ⟨_, rfl, rfl, rfl, by simp [loaded, remove], by simp [remove]⟩
  | true =>
    cases hfork : sys.forks with
    | false => exact ⟨_, rfl, rfl, rfl, by simp [loaded, remove], by simp [remove]⟩
    | true => exact ⟨_, rfl, rfl, rfl, by simp [loaded, remove], by simp [loaded]⟩

end Buffer

/-! ## Calls of `process` -/

section Calls

variable {sys : CgiSystem} {c : CgiConn} {got data s t : List UInt8} {ended : Prop} {start k : Nat}
  {last : RecvEnd} {r : CgiCall}

/-- Bytes that came before, in portions of the lengths `ns`. -/
theorem handled_prepend (ns : List Nat) (h : Handled sys c s ended (start + ns.sum) r) :
    Handled sys c s ended start { r with effects := ns.map .recv ++ r.effects } := by
  constructor
  · intro k hk
    have hr := h.1 k hk
    obtain ⟨ms, n, hle, hlt, heq⟩ := hr.effects
    refine ⟨hr.bound, hr.removed, ⟨ns ++ ms, n, ?_, ?_, ?_⟩, hr.child⟩
    · rw [List.sum_append]
      omega
    · rw [List.sum_append]
      omega
    · show ns.map CgiEffect.recv ++ r.effects = _
      rw [heq, List.map_append, List.append_assoc]
  · intro hnone
    have hr := h.2 hnone
    obtain ⟨ms, hsum, heq⟩ := hr.effects
    refine ⟨hr.bound, hr.removed, ⟨ns ++ ms, ?_, ?_⟩, hr.child, hr.waiting⟩
    · rw [List.sum_append]
      omega
    · show ns.map CgiEffect.recv ++ r.effects = _
      rw [heq, List.map_append, List.append_assoc]

/-- Where no line ends there is no first one. -/
theorem not_firstLineEnd (hnone : ∀ k, ¬ LineEnd s k) (k : Nat) : ¬ FirstLineEnd s k :=
  fun h => hnone k h.1

/-- `recv` into a full buffer, which returns 0, or the end of the stream. -/
theorem handled_remove (hfit : got.length ≤ bufferSize - 1) (hnone : ∀ k, ¬ LineEnd got k)
    (hwhy : got.length = bufferSize - 1 ∨ ended) :
    Handled sys c got ended got.length (loaded c got).remove := by
  refine ⟨fun k hk => absurd hk (not_firstLineEnd hnone k), fun _ => ?_⟩
  exact ⟨hfit, iff_of_true rfl hwhy, ⟨[], rfl, rfl⟩, rfl, fun h => absurd h.symm Bool.false_ne_true⟩

/-- `EAGAIN`. -/
theorem handled_wait (hfit : got.length < bufferSize - 1) (hnone : ∀ k, ¬ LineEnd got k)
    (hwhy : ¬ ended) : Handled sys c got ended got.length ⟨loaded c got, false, [], []⟩ := by
  refine ⟨fun k hk => absurd hk (not_firstLineEnd hnone k), fun _ => ?_⟩
  refine ⟨hfit.le, iff_of_false Bool.false_ne_true ?_, ⟨[], rfl, rfl⟩, rfl, fun _ => rfl⟩
  rintro (hfull | hend)
  · omega
  · exact hwhy hend

/-- No more bytes come, and no line has ended. -/
theorem handled_noBytes (hfit : got.length < bufferSize - 1) (hnone : ∀ k, ¬ LineEnd got k) :
    Handled sys c got (last ≠ .again) got.length ((loaded c got).noBytes last) := by
  cases last with
  | again => exact handled_wait hfit hnone (fun h => h rfl)
  | closed => exact handled_remove hfit.le hnone (Or.inr (by decide))
  | failed => exact handled_remove hfit.le hnone (Or.inr (by decide))

/-- What has no room in the buffer when a portion comes is lost for the rest of the stream. -/
theorem fitting_portion (hfit : got.length ≤ bufferSize - 1) (portion rest : List UInt8) :
    fitting (got ++ (portion ++ rest)) =
      fitting (got ++ portion.take (bufferSize - 1 - got.length) ++ rest) := by
  by_cases hlen : portion.length ≤ bufferSize - 1 - got.length
  · rw [List.take_of_length_le hlen, List.append_assoc]
  · have hfull : (got ++ portion.take (bufferSize - 1 - got.length)).length = bufferSize - 1 := by
      rw [List.length_append, List.length_take]
      omega
    conv_lhs => rw [← List.take_append_drop (bufferSize - 1 - got.length) portion]
    rw [List.append_assoc, ← List.append_assoc, fitting_append_full hfull,
      fitting_append_full hfull]

/-- What had room has room in a longer stream. -/
theorem fitting_append (hfit : s.length ≤ bufferSize - 1) (t : List UInt8) :
    ∃ u, fitting (s ++ t) = s ++ u := by
  refine ⟨t.take (bufferSize - 1 - s.length), ?_⟩
  rw [fitting, List.take_append, List.take_of_length_le hfit]

/-- The portion that brings the end of the first line. -/
theorem handled_start (hfit : (got ++ data).length ≤ bufferSize - 1)
    (hnone : ∀ k, ¬ LineEnd got k) (hk : FirstLineEnd (got ++ data) k)
    (hs : ∃ u, s = got ++ data ++ u) (hread : r.conn.mReadIdx = (got ++ data).length)
    (hremoved : r.removed = true)
    (heffects : r.effects = runEffects sys c (cstr ((got ++ data).take (k - 1))))
    (hchild : r.child = runChild sys c (cstr ((got ++ data).take (k - 1)))) :
    Handled sys c s ended got.length
      { r with effects := .recv data.length :: r.effects } := by
  obtain ⟨u, rfl⟩ := hs
  have hlt := hk.1.lt
  have hname : (got ++ data ++ u).take (k - 1) = (got ++ data).take (k - 1) :=
    List.take_append_of_le_length (by omega)
  constructor
  · intro j hj
    obtain rfl := hj.unique (hk.append u)
    refine ⟨hread.trans_le hfit, hremoved, ⟨[], data.length, ?_, ?_, ?_⟩, ?_⟩
    · by_contra hlt'
      exact hnone j ((lineEnd_append data (by simpa using hlt')).mp hk.1)
    · simpa using hlt
    · show CgiEffect.recv data.length :: r.effects = _
      rw [heffects, hname]
      rfl
    · rw [hname]
      exact hchild
  · intro hnone'
    exact absurd (hk.append u).1 (hnone' k)

/-- A portion for which there is room comes behind the bytes in the buffer, and is scanned. -/
theorem processLoop_stored {portion : List UInt8} {portions : List (List UInt8)}
    (hfit : got.length ≤ bufferSize - 1) (htake : portion.take (bufferSize - 1 - got.length) = data)
    (hdata : data.length ≠ 0) :
    processLoop sys last (portion :: portions) (loaded c got) = (do
      let idx ← scanLoop (loaded c (got ++ data)).mBuf data.length got.length
      let r ← if idx = (got ++ data).length then processLoop sys last portions (loaded c (got ++ data))
        else startProgram sys (loaded c (got ++ data)) idx
      pure { r with effects := .recv data.length :: r.effects }) := by
  have hlen : got.length + data.length ≤ bufferSize - 1 := by
    rw [← htake, List.length_take]
    omega
  have hfit' : (got ++ data).length ≤ bufferSize - 1 := by
    rw [List.length_append]
    exact hlen
  have hread : (loaded c got).mReadIdx + data.length = (got ++ data).length :=
    List.length_append.symm
  rw [processLoop, room_loaded hfit, ok_bind]
  simp only [htake]
  rw [if_neg hdata, copyIn_loaded (by unfold bufferSize at *; omega), ok_bind, loaded_append,
    fetch_loaded hfit', ok_bind, hread]
  rfl

/-- One call of `process`, with the bytes `got` in the buffer: no line end is in them, which is
what the scan of the next portion relies on. -/
theorem processLoop_spec (sys : CgiSystem) (c : CgiConn) (last : RecvEnd)
    (portions : List (List UInt8)) (hportions : ∀ p ∈ portions, p ≠ []) :
    ∀ got : List UInt8, got.length ≤ bufferSize - 1 → (∀ k, ¬ LineEnd got k) →
      ∃ r, processLoop sys last portions (loaded c got) = .ok r ∧
        Handled sys c (fitting (got ++ portions.flatten)) (last ≠ .again) got.length r := by
  induction portions with
  | nil =>
    intro got hfit hnone
    rw [List.flatten_nil, List.append_nil, fitting_of_le hfit]
    unfold processLoop
    rw [room_loaded hfit, ok_bind]
    by_cases hroom : bufferSize - 1 - got.length = 0
    · rw [if_pos hroom]
      exact ⟨_, rfl, handled_remove hfit hnone (Or.inl (by omega))⟩
    · rw [if_neg hroom]
      exact ⟨_, rfl, handled_noBytes (by omega) hnone⟩
  | cons portion portions ih =>
    intro got hfit hnone
    by_cases hroom : bufferSize - 1 - got.length = 0
    · have hfull : got.length = bufferSize - 1 := by omega
      have hnothing : (portion.take (bufferSize - 1 - got.length)).length = 0 := by
        rw [hroom]
        rfl
      unfold processLoop
      rw [room_loaded hfit, ok_bind]
      simp only
      rw [if_pos hnothing, fitting_append_full hfull]
      exact ⟨_, rfl, handled_remove hfit hnone (Or.inl hfull)⟩
    · obtain ⟨data, htake⟩ : ∃ data, portion.take (bufferSize - 1 - got.length) = data := ⟨_, rfl⟩
      have hdata : data.length ≠ 0 := by
        have hpos := List.length_pos_iff.mpr (hportions portion List.mem_cons_self)
        rw [← htake, List.length_take]
        omega
      have hfit' : (got ++ data).length ≤ bufferSize - 1 := by
        rw [← htake, List.length_append, List.length_take]
        omega
      rw [processLoop_stored hfit htake hdata, List.flatten_cons, fitting_portion hfit, htake]
      have hbefore : ∀ j, j < got.length → ¬ LineEnd (got ++ data) j := by
        intro j hj hend
        exact hnone j ((lineEnd_append data hj).mp hend)
      have hscan := scanLoop_spec (List.replicate (bufferSize - (got ++ data).length) 0)
        data.length got.length List.length_append.symm hbefore
      have hmem : ∀ p ∈ portions, p ≠ [] := fun p hp => hportions p (List.mem_cons_of_mem _ hp)
      rcases hscan with ⟨k, hscan, hk⟩ | ⟨hscan, hnone'⟩
      · change scanLoop (loaded c (got ++ data)).mBuf data.length got.length = .ok k at hscan
        obtain ⟨r, hr, hidx, hremoved, heffects, hchild⟩ := startProgram_spec sys c hk.1
        rw [hscan, ok_bind, if_neg hk.1.lt.ne, hr]
        refine ⟨{ r with effects := .recv data.length :: r.effects }, rfl, ?_⟩
        exact handled_start hfit' hnone hk (fitting_append hfit' _) hidx hremoved heffects hchild
      · change scanLoop (loaded c (got ++ data)).mBuf data.length got.length =
          .ok (got ++ data).length at hscan
        obtain ⟨r, hr, hhandled⟩ := ih hmem (got ++ data) hfit' hnone'
        rw [hscan, ok_bind, if_pos rfl, hr]
        refine ⟨{ r with effects := .recv data.length :: r.effects }, rfl, ?_⟩
        rw [List.length_append] at hhandled
        exact handled_prepend [data.length] hhandled

/-- The bytes of the first call come first. -/
theorem received_cons (i : CgiInput) (inputs : List CgiInput) :
    received (i :: inputs) = i.portions.flatten ++ received inputs := rfl

/-- The later calls come as calls should. -/
theorem Arrives.tail {i : CgiInput} {inputs : List CgiInput} (h : Arrives (i :: inputs)) :
    Arrives inputs := by
  refine ⟨fun j hj => h.portions j (List.mem_cons_of_mem _ hj), ?_⟩
  intro j hj
  have hne : inputs ≠ [] := by
    rintro rfl
    exact absurd hj List.not_mem_nil
  apply h.again
  rw [List.dropLast_cons_of_ne_nil hne]
  exact List.mem_cons_of_mem _ hj

/-- The call in which the stream ends is the last one. -/
theorem Arrives.eq_nil {i : CgiInput} {inputs : List CgiInput} (h : Arrives (i :: inputs))
    (hi : i.last ≠ .again) : inputs = [] := by
  by_contra hne
  apply hi (h.again i _)
  rw [List.dropLast_cons_of_ne_nil hne]
  exact List.mem_cons_self

/-- The stream ends in the first call or later. -/
theorem ended_cons {i : CgiInput} {inputs : List CgiInput} :
    Ended (i :: inputs) ↔ i.last ≠ .again ∨ Ended inputs := by
  unfold Ended
  simp only [List.mem_cons, exists_eq_or_imp]

/-- What comes after the first line does not matter. -/
theorem named_append (hk : FirstLineEnd s k) (h : Named sys c s k start r) (u : List UInt8) :
    Handled sys c (s ++ u) ended start r := by
  have hlt := hk.1.lt
  have hname : (s ++ u).take (k - 1) = s.take (k - 1) :=
    List.take_append_of_le_length (by omega)
  constructor
  · intro j hj
    obtain rfl := hj.unique (hk.append u)
    refine ⟨h.bound, h.removed, ?_, ?_⟩
    · rw [hname]
      exact h.effects
    · rw [hname]
      exact h.child
  · intro hnone
    exact absurd (hk.append u).1 (hnone k)

/-- The calls of `process` for one connection. The bytes that are in the buffer between two of
them leave room for more, as the connection is removed otherwise. -/
theorem serve_spec (sys : CgiSystem) (c : CgiConn) (inputs : List CgiInput) :
    Arrives inputs → ∀ got : List UInt8, got.length < bufferSize - 1 → (∀ k, ¬ LineEnd got k) →
      ∃ r, serve sys (loaded c got) inputs = .ok r ∧
        Handled sys c (fitting (got ++ received inputs)) (Ended inputs) got.length r := by
  induction inputs with
  | nil =>
    intro _ got hfit hnone
    have hend : ¬ Ended [] := fun ⟨_, hmem, _⟩ => List.not_mem_nil hmem
    rw [received, List.flatMap_nil, List.append_nil, fitting_of_le hfit.le]
    exact ⟨_, rfl, handled_wait hfit hnone hend⟩
  | cons i inputs ih =>
    intro harrives got hfit hnone
    obtain ⟨r, hr, hhandled⟩ := processLoop_spec sys c i.last i.portions
      (harrives.portions i List.mem_cons_self) got hfit.le hnone
    rw [received_cons, ← List.append_assoc]
    generalize got ++ i.portions.flatten = got' at hhandled ⊢
    have hstep : serve sys (loaded c got) (i :: inputs) =
        (if r.removed then pure r else do
          let rest ← serve sys r.conn inputs
          pure { rest with effects := r.effects ++ rest.effects, child := r.child ++ rest.child }) := by
      rw [serve, show CgiConn.process sys (loaded c got) i = .ok r from hr, ok_bind]
    rw [hstep]
    by_cases hline : ∃ k, LineEnd (fitting got') k
    · -- the first line ends in this call
      obtain ⟨k, hk⟩ := exists_firstLineEnd hline
      have hnamed := hhandled.1 k hk
      rw [if_pos hnamed.removed, fitting, List.take_append]
      exact ⟨r, rfl, named_append hk hnamed _⟩
    · have hnone' : ∀ k, ¬ LineEnd (fitting got') k := fun k hk => hline ⟨k, hk⟩
      have hun := hhandled.2 hnone'
      cases hrem : r.removed with
      | true =>
        have hall : fitting (got' ++ received inputs) = fitting got' := by
          rcases hun.removed.mp hrem with hfull | hend
          · have hlong : bufferSize - 1 ≤ got'.length := by
              rw [length_fitting] at hfull
              omega
            rw [fitting, List.take_append_of_le_length hlong, fitting]
          · rw [harrives.eq_nil hend]
            exact congrArg fitting (List.append_nil got')
        have hwhy : (fitting got').length = bufferSize - 1 ∨ Ended (i :: inputs) :=
          (hun.removed.mp hrem).imp_right fun hend => ended_cons.mpr (Or.inl hend)
        rw [if_pos rfl, hall]
        refine ⟨r, rfl, fun k hk => absurd hk (not_firstLineEnd hnone' k), fun _ => ?_⟩
        exact ⟨hun.bound, iff_of_true hrem hwhy, hun.effects, hun.child, hun.waiting⟩
      | false =>
        have hopen : ¬ ((fitting got').length = bufferSize - 1 ∨ i.last ≠ .again) := by
          rw [← hun.removed, hrem]
          exact Bool.false_ne_true
        have hshort : got'.length < bufferSize - 1 := by
          rw [length_fitting] at hopen
          omega
        have hgot : fitting got' = got' := fitting_of_le hshort.le
        rw [hgot] at hun hnone'
        obtain ⟨rest, hrest, hhandled'⟩ := ih harrives.tail got' hshort hnone'
        obtain ⟨ns, hsum, heffects⟩ := hun.effects
        rw [hrem, if_neg Bool.false_ne_true, List.append_nil] at heffects
        have hended : Ended (i :: inputs) ↔ Ended inputs := by
          rw [ended_cons, or_iff_right (fun hend => hopen (Or.inr hend))]
        rw [if_neg Bool.false_ne_true, hun.waiting hrem, hrest, ok_bind, hun.child, heffects,
          propext hended]
        refine ⟨_, rfl, handled_prepend ns ?_⟩
        rw [hsum]
        exact hhandled'

end Calls

/-- A call for the removal of a descriptor from `epoll`. -/
def removals (effects : List CgiEffect) : Nat :=
  effects.countP fun e => match e with
    | .removefd _ _ => true
    | _ => false

/-- Receiving removes nothing. -/
theorem removals_recv (ns : List Nat) (effects : List CgiEffect) :
    removals (ns.map .recv ++ effects) = removals effects := by
  induction ns with
  | nil => rfl
  | cons n ns ih => exact ih

/-- The bytes stay in the buffer and the connection is removed at most once. -/
theorem removals_le {sys : CgiSystem} {c : CgiConn} {s : List UInt8} {ended : Prop} {start : Nat}
    {r : CgiCall} (h : Handled sys c s ended start r) :
    r.conn.mReadIdx ≤ bufferSize - 1 ∧ removals r.effects ≤ 1 := by
  by_cases hline : ∃ k, LineEnd s k
  · obtain ⟨k, hk⟩ := exists_firstLineEnd hline
    have hnamed := h.1 k hk
    obtain ⟨ns, n, -, -, heffects⟩ := hnamed.effects
    refine ⟨hnamed.bound, ?_⟩
    rw [heffects, removals_recv]
    unfold runEffects
    split <;> exact le_refl 1
  · have hun := h.2 fun k hk => hline ⟨k, hk⟩
    obtain ⟨ns, -, heffects⟩ := hun.effects
    refine ⟨hun.bound, ?_⟩
    rw [heffects, removals_recv]
    split
    · exact le_refl 1
    · exact Nat.zero_le 1

/-- However the bytes of a connection are split, the program that the first line names is run,
right after its last byte has come. -/
theorem cgi_runs_first_line (sys : CgiSystem) (epollfd sockfd : Int) (inputs : List CgiInput)
    (harrives : Arrives inputs) :
    ∃ r, serve sys (CgiConn.init epollfd sockfd) inputs = .ok r ∧
      Handled sys (CgiConn.init epollfd sockfd) (fitting (received inputs)) (Ended inputs) 0 r ∧
      r.conn.mReadIdx ≤ bufferSize - 1 ∧ removals r.effects ≤ 1 := by
  obtain ⟨r, hr, hhandled⟩ := serve_spec sys (CgiConn.init epollfd sockfd) inputs harrives []
    (by decide) not_lineEnd_nil
  rw [loaded_nil] at hr
  exact ⟨r, hr, hhandled, removals_le hhandled⟩

/-- A client that sends `ls`, CR LF and more, with the CR and the LF in different calls. -/
def splitRequest : List CgiInput :=
  [⟨[[108], [115, CR]], .again⟩, ⟨[[LF, 97]], .again⟩]

/-- The request comes as calls should. -/
theorem splitRequest_arrives : Arrives splitRequest := ⟨by decide, by decide⟩

/-- The program of a request that comes in parts is run. -/
theorem cgi_runs_first_line_split :
    Arrives splitRequest ∧
      ∃ r, serve ⟨fun _ => true, true⟩ (CgiConn.init 4 7) splitRequest = .ok r ∧
        Handled ⟨fun _ => true, true⟩ (CgiConn.init 4 7) (fitting (received splitRequest))
          (Ended splitRequest) 0 r ∧
        r.conn.mReadIdx ≤ bufferSize - 1 ∧ removals r.effects ≤ 1 :=
  ⟨splitRequest_arrives, cgi_runs_first_line _ 4 7 splitRequest splitRequest_arrives⟩

end ServerListings.Analysis.CgiProgram
