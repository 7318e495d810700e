import Mathlib.Logic.Relation
import ServerListings.Interface.HttpBounds

/-!
# When the request parser stays inside its read buffer

A `Machine` is a connection together with the place inside `process_read` where it stands,
so that a run is a sequence of receptions, calls and steps of calls, in any order the
program allows. The invariant `Bounded` holds in every state of a run up to the first
`parse_content` whose subscript or sum does not fit (`ContentFits`), and that step faults.
-/

set_option autoImplicit false

namespace ServerListings.Analysis.ReadBufferSafety

open Lib.CMem Lib.LineReader ServerListings.Model ServerListings.Model.Http ServerListings.Interface

/-! ## The `switch` -/

/-- What the `switch` leaves behind. Only the blank line of a header part goes on to a body
without another scan. -/
def NextBounds (c : HttpConn) : Next → Prop
  | .ret _ c' => Bounded c' ∧ KeepsIdx c c'
  | .doRequest c' => Bounded c' ∧ KeepsIdx c c' ∧ ∃ p, c'.mUrl = some p
  | .again ls c' => Bounded c' ∧ KeepsIdx c c' ∧
      (c.mCheckState = .checkStateContent → c'.mCheckState = .checkStateContent ∧ ls ≠ .lineOk)

/-- The switch of `process_read` stays in bounds where the body fits. -/
theorem dispatch_bounds {c : HttpConn} {text : Nat} (h : Bounded c) (htext : text ≤ c.mCheckedIdx)
    (hfits : c.mCheckState = .checkStateContent → ContentFits c text) :
    ∃ next, c.dispatch text = .ok next ∧ NextBounds c next := by
  have hbuf : text ≤ readBufferSize - 1 := by
    have := h.checked_le
    have := h.read_le
    omega
  unfold HttpConn.dispatch
  cases hstate : c.mCheckState with
  | checkStateRequestline =>
    obtain ⟨ret, c', hparse, hb, hk⟩ := parseRequestLine_bounds h hbuf hstate
    simp only [hparse, ok_bind]
    split
    · exact ⟨_, rfl, hb, hk⟩
    · exact ⟨_, rfl, hb, hk, by rw [hstate]; intro h0; cases h0⟩
  | checkStateHeader =>
    obtain ⟨ret, c', hparse, hb, hk, hstate'⟩ := parseHeaders_bounds h hbuf (by simp [hstate])
    simp only [hparse, ok_bind]
    split
    · exact ⟨_, rfl, hb, hk⟩
    · split
      · exact ⟨_, rfl, hb, hk, hb.hasUrl hstate'⟩
      · exact ⟨_, rfl, hb, hk, by rw [hstate]; intro h0; cases h0⟩
  | checkStateContent =>
    obtain ⟨ret, buf, hparse, hb⟩ := parseContent_bounds h htext (hfits hstate)
    simp only [hparse, ok_bind]
    split
    · exact ⟨_, rfl, hb, ⟨rfl, rfl, rfl⟩, hb.hasUrl (by simp [hstate])⟩
    · exact ⟨_, rfl, hb, ⟨rfl, rfl, rfl⟩, fun _ => ⟨hstate, by simp⟩⟩

/-! ## The machine -/

/-- The places in `process_read` between which a step runs. -/
inductive Point
  | outside
  | test (lineStatus : LineStatus)
  | switch (text : Nat)
  | serve
  deriving DecidableEq, Repr

structure Machine where
  point : Point
  conn : HttpConn

/-- The next step of a call of `process_read`. -/
def Machine.next (fs : FileSystem) : Machine → Checked Machine
  | ⟨.outside, c⟩ => pure ⟨.outside, c⟩
  | ⟨.test lineStatus, c⟩ => do
    let (lineStatus, c) ← c.nextLine lineStatus
    if lineStatus ≠ .lineOk then
      pure ⟨.outside, c⟩
    else do
      let text := c.mStartLine
      let c := { c with mStartLine := c.mCheckedIdx }
      let _ ← fetch c.mReadBuf text
      pure ⟨.switch text, c⟩
  | ⟨.switch text, c⟩ => do
    match ← c.dispatch text with
    | .ret _ c => pure ⟨.outside, c⟩
    | .doRequest c => pure ⟨.serve, c⟩
    | .again lineStatus c => pure ⟨.test lineStatus, c⟩
  | ⟨.serve, c⟩ => do
    let (_, c) ← c.doRequest fs
    pure ⟨.outside, c⟩

/-- What can happen to a connection between two calls of `init()`: bytes arrive while
`process_read` is not running and the last byte of the buffer stays free, a call starts, and
a call goes on. -/
inductive Step (fs : FileSystem) : Machine → Checked Machine → Prop
  | recv {c : HttpConn} {data : List UInt8} (hfit : c.mReadIdx + data.length < readBufferSize) :
      Step fs ⟨.outside, c⟩ ((c.receive data).map fun c => ⟨.outside, c⟩)
  | call {c : HttpConn} : Step fs ⟨.outside, c⟩ (.ok ⟨.test .lineOk, c⟩)
  | run {m : Machine} (hin : m.point ≠ .outside) : Step fs m (m.next fs)

/-- A `parse_content` call that is next computes a subscript of the buffer and an `int`. -/
def Machine.Fits (m : Machine) : Prop :=
  ∀ text, m.point = .switch text → m.conn.mCheckState = .checkStateContent →
    ContentFits m.conn text

/-- A step that meets the condition and does not fault. -/
def FitStep (fs : FileSystem) (a b : Machine) : Prop := a.Fits ∧ Step fs a (.ok b)

/-- The indices of the read buffer are in order. -/
structure InOrder (c : HttpConn) : Prop where
  start_le : c.mStartLine ≤ c.mCheckedIdx
  checked_le : c.mCheckedIdx ≤ c.mReadIdx
  read_lt : c.mReadIdx < readBufferSize

/-- The invariant of the machine. -/
structure Inv (m : Machine) : Prop where
  bounded : Bounded m.conn
  text_le : ∀ text, m.point = .switch text → text ≤ m.conn.mCheckedIdx
  hasUrl : m.point = .serve → ∃ p, m.conn.mUrl = some p

/-- An object in bounds has its indices in order. -/
theorem Bounded.inOrder {c : HttpConn} (h : Bounded c) : InOrder c :=
  ⟨h.start_le, h.checked_le, Nat.lt_of_le_of_lt h.read_le (by decide)⟩

/-- Outside of `process_read` the invariant is that of the object. -/
theorem inv_outside {c : HttpConn} (h : Bounded c) : Inv ⟨.outside, c⟩ :=
  ⟨h, by simp, by simp⟩

/-- At the condition of the loop the invariant is that of the object. -/
theorem inv_test {c : HttpConn} (ls : LineStatus) (h : Bounded c) : Inv ⟨.test ls, c⟩ :=
  ⟨h, by simp, by simp⟩

/-- The place where a call goes on after the `switch`. -/
def Machine.after : Next → Machine
  | .ret _ c => ⟨.outside, c⟩
  | .doRequest c => ⟨.serve, c⟩
  | .again ls c => ⟨.test ls, c⟩

/-- The statement at the switch. -/
theorem next_switch (fs : FileSystem) {c : HttpConn} {text : Nat} {next : Next}
    (h : c.dispatch text = .ok next) :
    (⟨.switch text, c⟩ : Machine).next fs = .ok (Machine.after next) := by
  simp only [Machine.next, h, ok_bind]
  cases next <;> rfl

/-- A step that meets the condition keeps the invariant. -/
theorem next_inv (fs : FileSystem) {m : Machine} (h : Inv m) (hfits : m.Fits) :
    ∃ m', m.next fs = .ok m' ∧ Inv m' := by
  obtain ⟨point, c⟩ := m
  cases point with
  | outside => exact ⟨_, rfl, h⟩
  | test ls =>
    obtain ⟨ls', c', hline, hb, -⟩ := nextLine_bounds ls h.bounded
    simp only [Machine.next, hline, ok_bind]
    split
    · exact ⟨_, rfl, inv_outside hb⟩
    · obtain ⟨s, hs⟩ := hb.startLine_fetch
      simp only [hs, ok_bind]
      exact ⟨_, rfl, hb.enterLine, by rintro text ⟨⟩; exact hb.start_le, by simp⟩
  | switch text =>
    obtain ⟨next, hnext, hb⟩ := dispatch_bounds h.bounded (h.text_le text rfl) (hfits text rfl)
    refine ⟨_, next_switch fs hnext, ?_⟩
    cases next with
    | ret code c' => exact inv_outside hb.1
    | doRequest c' => exact ⟨hb.1, by rintro text ⟨⟩, fun _ => hb.2.2⟩
    | again ls c' => exact inv_test ls hb.1
  | serve =>
    obtain ⟨ret, c', hdo, hb, -⟩ := doRequest_bounds fs h.bounded (h.hasUrl rfl)
    simp only [Machine.next, hdo, ok_bind]
    exact ⟨_, rfl, inv_outside hb⟩

/-- A step that does not meet the condition faults. -/
theorem next_faults (fs : FileSystem) {m : Machine} (h : Inv m) (hfits : ¬ m.Fits) :
    ∃ e, m.next fs = .error e := by
  obtain ⟨point, c⟩ := m
  simp only [Machine.Fits, not_forall] at hfits
  obtain ⟨text, rfl, hstate, hbad⟩ := hfits
  obtain ⟨e, he⟩ := parseContent_faults h.bounded hbad
  refine ⟨e, ?_⟩
  simp only [Machine.next, HttpConn.dispatch, hstate, he, error_bind]

/-- A step that fits keeps the invariant, and does not fault. -/
theorem step_inv {fs : FileSystem} {a : Machine} {r : Checked Machine} (h : Inv a)
    (hfits : a.Fits) (hstep : Step fs a r) : ∃ b, r = .ok b ∧ Inv b := by
  cases hstep with
  | recv hfit =>
    obtain ⟨m, hreceive, hb⟩ := receive_bounds _ h.bounded hfit
    exact ⟨_, by rw [hreceive]; rfl, inv_outside hb⟩
  | call => exact ⟨_, rfl, inv_test _ h.bounded⟩
  | run hin => exact next_inv fs h hfits

/-- A run whose steps meet the condition. -/
theorem run_inv {fs : FileSystem} {a b : Machine} (h : Inv a)
    (hrun : Relation.ReflTransGen (FitStep fs) a b) : Inv b := by
  induction hrun with
  | refl => exact h
  | tail _ hstep ih =>
    obtain ⟨b, hb, hinv⟩ := step_inv ih hstep.1 hstep.2
    obtain rfl := Except.ok.inj hb
    exact hinv

/-! ## The calls of `process_read` are runs of the machine -/

/-- A statement that fits is a step. -/
theorem fitStep_next {fs : FileSystem} {m m' : Machine} (hin : m.point ≠ .outside) (hfits : m.Fits)
    (h : m.next fs = .ok m') : FitStep fs m m' := ⟨hfits, h ▸ .run hin⟩

/-- The condition of the loop always fits. -/
theorem fitStep_test {fs : FileSystem} {c : HttpConn} {ls : LineStatus} {m : Machine}
    (h : (⟨.test ls, c⟩ : Machine).next fs = .ok m) : FitStep fs ⟨.test ls, c⟩ m :=
  fitStep_next (by simp) (by rintro text ⟨⟩) h

/-- An iteration that goes on has used up one of the iterations left: it has scanned a byte, or
has come to the body. -/
theorem budget_again {c c₁ c' : HttpConn} {ls ls' : LineStatus} {fuel : Nat}
    (hread : c₁.mReadIdx = c.mReadIdx) (hstate : c₁.mCheckState = c.mCheckState)
    (hle : c₁.mCheckedIdx ≤ c₁.mReadIdx) (h1 : c'.mReadIdx = c₁.mReadIdx)
    (h2 : c'.mCheckedIdx = c₁.mCheckedIdx)
    (hlt : ¬ (c.mCheckState = .checkStateContent ∧ ls = .lineOk) → c.mCheckedIdx < c₁.mCheckedIdx)
    (hfirst : c.mCheckedIdx ≤ c₁.mCheckedIdx)
    (hcontent : c₁.mCheckState = .checkStateContent →
      c'.mCheckState = .checkStateContent ∧ ls' ≠ .lineOk)
    (hfuel : budget ls c ≤ fuel + 1) : budget ls' c' ≤ fuel := by
  rw [hstate] at hcontent
  unfold budget at hfuel ⊢
  by_cases hbody : c.mCheckState = .checkStateContent
  · rw [if_pos (hcontent hbody)]
    by_cases hls : ls = .lineOk
    · rw [if_neg fun h0 => h0.2 hls] at hfuel
      omega
    · have hscanned := hlt fun h0 => hls h0.2
      rw [if_pos ⟨hbody, hls⟩] at hfuel
      omega
  · have hscanned := hlt fun h0 => hbody h0.1
    rw [if_neg fun h0 => hbody h0.1] at hfuel
    split <;> omega

/-- If the steps of the call meet the condition, the loop returns, and it returns where the
machine leaves the call. The induction is on the iterations left. -/
theorem readLoop_run (fs : FileSystem) (fuel : Nat) : ∀ (ls : LineStatus) (c : HttpConn),
    Bounded c → budget ls c ≤ fuel →
    (∀ m, Relation.ReflTransGen (FitStep fs) ⟨.test ls, c⟩ m → m.Fits) →
    ∃ code c', c.readLoop fs fuel ls = .ok (code, c') ∧
      Relation.ReflTransGen (FitStep fs) ⟨.test ls, c⟩ ⟨.outside, c'⟩ := by
  induction fuel with
  | zero =>
    intro ls c _ hfuel
    unfold budget at hfuel
    split at hfuel <;> omega
  | succ fuel ih =>
    intro ls c hb hfuel hfits
    obtain ⟨ls', c₁, hline, hb₁, ⟨hread, hstate, -⟩, hle, hlt⟩ := nextLine_bounds ls hb
    by_cases hok : ls' ≠ .lineOk
    · have htest : (⟨.test ls, c⟩ : Machine).next fs = .ok ⟨.outside, c₁⟩ := by
        simp only [Machine.next, hline, ok_bind, if_pos hok]
        rfl
      have hiter : c.iterate ls = .ok (.ret .noRequest c₁) := by
        simp only [HttpConn.iterate, hline, ok_bind, if_pos hok]
        rfl
      exact ⟨.noRequest, c₁, readLoop_ret hiter fuel, .single (fitStep_test htest)⟩
    obtain rfl : ls' = .lineOk := not_not.mp hok
    obtain ⟨s, hs⟩ := hb₁.startLine_fetch
    have htest : (⟨.test ls, c⟩ : Machine).next fs =
        .ok ⟨.switch c₁.mStartLine, { c₁ with mStartLine := c₁.mCheckedIdx }⟩ := by
      simp only [Machine.next, hline, ok_bind, if_neg hok, hs]
      rfl
    have hswitch := Relation.ReflTransGen.single (fitStep_test htest)
    have hfits₂ := hfits _ hswitch
    obtain ⟨next, hnext, hbounds⟩ := dispatch_bounds hb₁.enterLine hb₁.start_le (hfits₂ _ rfl)
    have hiter : c.iterate ls = .ok next := by
      simp only [HttpConn.iterate, hline, ok_bind, if_neg hok, hs, hnext]
    have hrun := hswitch.tail (fitStep_next (by simp) hfits₂ (next_switch fs hnext))
    cases next with
    | ret code c' => exact ⟨code, c', readLoop_ret hiter fuel, hrun⟩
    | doRequest c' =>
      obtain ⟨ret, c'', hdo, -⟩ := doRequest_bounds fs hbounds.1 hbounds.2.2
      have hlast : (⟨.serve, c'⟩ : Machine).next fs = .ok ⟨.outside, c''⟩ := by
        simp only [Machine.next, hdo, ok_bind]
        rfl
      exact ⟨ret, c'', (readLoop_doRequest hiter fuel).trans hdo,
        hrun.tail (fitStep_next nofun (by rintro text ⟨⟩) hlast)⟩
    | again ls' c' =>
      obtain ⟨hb', hkeeps, hcontent⟩ := hbounds
      have hbudget : budget ls' c' ≤ fuel :=
        budget_again hread hstate hb₁.checked_le hkeeps.readIdx hkeeps.checkedIdx (hlt rfl) hle
          hcontent hfuel
      obtain ⟨code, c'', hrest, hrun'⟩ := ih ls' c' hb' hbudget fun m hm => hfits m (hrun.trans hm)
      exact ⟨code, c'', (readLoop_again hiter fuel).trans hrest, hrun.trans hrun'⟩

/-- In every run whose `parse_content` calls all compute a subscript of the read buffer and a
sum that is an `int`, the indices are in order, a next step faults exactly when it is a
`parse_content` call that does not, and every call of `process_read` returns. -/
theorem parser_in_bounds (fs : FileSystem) (c : HttpConn) {m : Machine}
    (hrun : Relation.ReflTransGen (FitStep fs) ⟨.outside, c.init⟩ m) :
    InOrder m.conn ∧
      (∀ r, Step fs m r → ((∃ m', r = .ok m') ↔ m.Fits)) ∧
      ((∀ m', Relation.ReflTransGen (FitStep fs) ⟨.test .lineOk, m.conn⟩ m' → m'.Fits) →
        ∃ code c', m.conn.processRead fs = .ok (code, c') ∧
          Relation.ReflTransGen (FitStep fs) ⟨.test .lineOk, m.conn⟩ ⟨.outside, c'⟩) := by
  have hinv := run_inv (inv_outside (bounded_init c)) hrun
  refine ⟨Bounded.inOrder hinv.bounded, ?_, ?_⟩
  · intro r hstep
    constructor
    · rintro ⟨m', hm'⟩
      by_contra hfits
      obtain ⟨e, he⟩ := next_faults fs hinv hfits
      cases hstep with
      | recv _ => exact hfits (by rintro text ⟨⟩)
      | call => exact hfits (by rintro text ⟨⟩)
      | run _ =>
        rw [he] at hm'
        cases hm'
    · intro hfits
      obtain ⟨b, hb, -⟩ := step_inv hinv hfits hstep
      exact ⟨b, hb⟩
  · refine readLoop_run fs _ .lineOk m.conn hinv.bounded ?_
    simp [budget]

/-- A request without a body, received in one chunk. -/
theorem parser_in_bounds_get : ∃ c,
    (default : HttpConn).init.receive (bytes "GET\t/a\tHTTP/1.1\r\n\r\n") = .ok c ∧ InOrder c ∧
      (∀ r, Step default ⟨.outside, c⟩ r → ((∃ m, r = .ok m) ↔ (⟨.outside, c⟩ : Machine).Fits)) ∧
      ((∀ m, Relation.ReflTransGen (FitStep default) ⟨.test .lineOk, c⟩ m → m.Fits) →
        ∃ code c', c.processRead default = .ok (code, c') ∧
          Relation.ReflTransGen (FitStep default) ⟨.test .lineOk, c⟩ ⟨.outside, c'⟩) := by
  have hfit : (default : HttpConn).init.mReadIdx + (bytes "GET\t/a\tHTTP/1.1\r\n\r\n").length <
      readBufferSize := by decide
  obtain ⟨c, hreceive⟩ : ∃ c, (default : HttpConn).init.receive
      (bytes "GET\t/a\tHTTP/1.1\r\n\r\n") = .ok c := by
    obtain ⟨m, hreceive, -⟩ := receive_bounds _ (bounded_init default) hfit
    exact ⟨_, hreceive⟩
  have hrun : Relation.ReflTransGen (FitStep default) ⟨.outside, (default : HttpConn).init⟩
      ⟨.outside, c⟩ := by
    have hstep : Step default _ _ := .recv hfit
    rw [hreceive] at hstep
    exact .single ⟨by rintro text ⟨⟩, hstep⟩
  exact ⟨_, hreceive, parser_in_bounds default default hrun⟩

set_option maxRecDepth 100000 in
/-- A negative body length makes `parse_content` store in front of the buffer, although every
chunk leaves room in it. -/
theorem parser_leaves_bounds :
    ¬ ∀ (fs : FileSystem) (c : HttpConn) (data : List UInt8), data.length < readBufferSize →
      ∃ res, (c.init.receive data >>= fun c => c.processRead fs) = .ok res := by
  intro h
  obtain ⟨res, hres⟩ := h default default
    (bytes "GET\t/a\tHTTP/1.1\r\nContent-Length:-100\r\n\r\n") (by decide)
  have hfault : ((default : HttpConn).init.receive
      (bytes "GET\t/a\tHTTP/1.1\r\nContent-Length:-100\r\n\r\n") >>=
        fun c => c.processRead default).isOk = false := by decide
  rw [hres] at hfault
  cases hfault

end ServerListings.Analysis.ReadBufferSafety
