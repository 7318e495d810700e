import ServerListings.Interface.Sockets
import ServerListings.Model.WebServer

/-!
# What a handler leaves in the epoll table

A call of `process` or of `write` ends in one of two ways: it arms the descriptor of its
connection again, or it does not. Each return path is one of these, and `main` or `process`
itself closes the connection on the paths that do not.
-/

set_option autoImplicit false

namespace ServerListings.Interface

open Lib.CMem ServerListings.Model ServerListings.Model.Http ServerListings.Model.WebServer

section Effects

variable {W : Type} {fd : Int} {c c' : HttpConn} {effects : List Effect}

/-- Effects are applied one after the other. -/
theorem applyEffects_append (s : Server W) (a b : List Effect) :
    s.applyEffects (a ++ b) = (s.applyEffects a).applyEffects b := List.foldl_append

/-- Unmapping a file concerns neither the descriptors nor the epoll table. -/
theorem applyEffects_unmap (s : Server W) (c : HttpConn) : s.applyEffects c.unmap.2 = s := by
  by_cases h : c.mFileAddress = 0
  · rw [HttpConn.unmap, if_neg (not_not.mpr h)]
    rfl
  · rw [HttpConn.unmap, if_pos h]
    rfl

/-- `unmap` leaves the descriptor. -/
theorem unmap_socket (c : HttpConn) : c.unmap.1.mSockfd = c.mSockfd := by
  unfold HttpConn.unmap
  split <;> rfl

/-- The effects arm the descriptor `fd`, and do nothing else to the server. -/
def Arms (fd : Int) (effects : List Effect) : Prop :=
  ∃ i, ∀ (W : Type) (s : Server W), s.applyEffects effects = s.applyEffect (.epollMod fd i)

/-- The effects do nothing to the server. -/
def Idle (effects : List Effect) : Prop := ∀ (W : Type) (s : Server W), s.applyEffects effects = s

/-- `modfd` arms its descriptor. -/
theorem arms_modfd (fd : Int) (i : Interest) : Arms fd (modfd fd i) := ⟨i, fun _ _ => rfl⟩

/-- `unmap` in front of `modfd` arms the descriptor as well. -/
theorem arms_unmap (c : HttpConn) (fd : Int) (i : Interest) : Arms fd (c.unmap.2 ++ modfd fd i) := by
  refine ⟨i, fun W s => ?_⟩
  rw [applyEffects_append, applyEffects_unmap]
  rfl

/-! ## Writing -/

/-- What a call of `write` leaves behind when it returns: it keeps the socket, and if it
returns true it has armed the descriptor. -/
structure WriteDone (fd : Int) (call : WriteCall) (ok : Bool) : Prop where
  socket : call.conn.mSockfd = fd
  effects : Arms fd call.effects ∨ (ok = false ∧ Idle call.effects)

/-- With everything sent `write` arms the descriptor or returns false. -/
theorem finishWrite_done (h : c.mSockfd = fd) (sent : List UInt8) (rest : List WritevResult) :
    WriteDone fd ⟨.finished, some c.finishWrite.1, c.finishWrite.2.1, c.finishWrite.2.2, sent, rest⟩
      c.finishWrite.1 := by
  have hsock : c.unmap.1.mSockfd = fd := (unmap_socket c).trans h
  unfold HttpConn.finishWrite
  by_cases hl : c.unmap.1.mLinger = true
  · simp only [if_pos hl]
    have hinit : c.unmap.1.init.mSockfd = fd := hsock
    exact ⟨hinit, Or.inl (hinit ▸ arms_unmap c _ _)⟩
  · simp only [if_neg hl]
    exact ⟨hsock, Or.inl (hsock ▸ arms_unmap c _ _)⟩

/-- When the loop of `write` returns it has armed the descriptor or returns false. -/
theorem writeLoop_done (mapped : Int → List UInt8) (h : c.mSockfd = fd) (ws : List WritevResult) :
    ∀ (toSend haveSent : Int) (ok : Bool), (c.writeLoop mapped toSend haveSent ws).ret = some ok →
      WriteDone fd (c.writeLoop mapped toSend haveSent ws) ok := by
  induction ws with
  | nil =>
    intro toSend haveSent ok hret
    cases hret
  | cons r ws ih =>
    intro toSend haveSent ok hret
    cases r with
    | eagain => exact ⟨h, Or.inl (h ▸ arms_modfd _ _)⟩
    | error =>
      refine ⟨(unmap_socket c).trans h, Or.inr ⟨(Option.some.inj hret).symm, fun W s => ?_⟩⟩
      exact applyEffects_unmap s c
    | accepted k =>
      unfold HttpConn.writeLoop at hret ⊢
      by_cases hdone : toSend - k ≤ haveSent + k
      · simp only [if_pos hdone] at hret ⊢
        rw [← Option.some.inj hret]
        exact finishWrite_done h _ _
      · simp only [if_neg hdone] at hret ⊢
        have hrest := ih _ _ ok hret
        exact ⟨hrest.socket, hrest.effects⟩

/-- A call of `write` that returns. -/
theorem write_done (mapped : Int → List UInt8) (h : c.mSockfd = fd) (ws : List WritevResult)
    {ok : Bool} (hret : (c.write mapped ws).ret = some ok) : WriteDone fd (c.write mapped ws) ok := by
  unfold HttpConn.write at hret ⊢
  by_cases hidx : c.mWriteIdx = 0
  · simp only [if_pos hidx] at hret ⊢
    exact ⟨h, Or.inl (h ▸ arms_modfd _ _)⟩
  · simp only [if_neg hidx] at hret ⊢
    exact writeLoop_done mapped h ws _ _ ok hret

/-! ## Processing -/

/-- A call of `process` arms the descriptor or closes the connection. After a close it calls
`modfd` on the descriptor -1. -/
theorem process_done {fs : FileSystem} (h : c.mSockfd = fd) (hfd : fd ≠ -1)
    (hok : c.process fs = .ok (c', effects)) :
    (c'.mSockfd = fd ∧ Arms fd effects) ∨
      (c'.mSockfd = -1 ∧ effects = removefd fd ++ [.userCount (-1)] ++ modfd (-1) .epollout) := by
  obtain ⟨⟨readRet, c₁⟩, hread, hok⟩ := bind_eq_ok.mp hok
  have hs₁ : c₁.mSockfd = fd := processRead_socket fs h _ hread
  by_cases hmore : readRet = .noRequest
  · simp only [if_pos hmore] at hok
    obtain ⟨rfl, rfl⟩ := Prod.mk.inj (Except.ok.inj hok)
    exact Or.inl ⟨hs₁, hs₁ ▸ arms_modfd _ _⟩
  · simp only [if_neg hmore] at hok
    obtain ⟨⟨writeRet, c₂⟩, hwrite, hok⟩ := bind_eq_ok.mp hok
    have hs₂ : c₂.mSockfd = fd := processWrite_socket readRet hs₁ _ hwrite
    cases writeRet with
    | true =>
      obtain ⟨rfl, rfl⟩ := Prod.mk.inj (Except.ok.inj hok)
      exact Or.inl ⟨hs₂, hs₂ ▸ arms_modfd _ _⟩
    | false =>
      have hopen : c₂.mSockfd ≠ -1 := by rwa [hs₂]
      simp only [Bool.not_false, if_true, HttpConn.closeConn, if_pos hopen] at hok
      obtain ⟨rfl, rfl⟩ := Prod.mk.inj (Except.ok.inj hok)
      exact Or.inr ⟨rfl, by rw [hs₂]⟩

end Effects

end ServerListings.Interface
