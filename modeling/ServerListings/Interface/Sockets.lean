import ServerListings.Interface.ReplySide

/-!
# The socket of a connection object

No member function but `init` and `close_conn` assigns `m_sockfd`.
-/

set_option autoImplicit false

namespace ServerListings.Interface

open Lib.CMem ServerListings.Model ServerListings.Model.Http

/-- The object that a computation results in has the socket `fd`. -/
def SameSocket {β : Type} (conn : β → HttpConn) (fd : Int) (x : Checked β) : Prop :=
  ∀ b, x = .ok b → (conn b).mSockfd = fd

/-- `process_read` leaves the descriptor. -/
theorem processRead_socket {fd : Int} {c : HttpConn} (fs : FileSystem) (h : c.mSockfd = fd) :
    SameSocket Prod.snd fd (c.processRead fs) := by
  intro r hr
  cases (processRead_end fs c).result hr with
  | noRequest hsame => exact (congrArg ReplySide.sockfd hsame).trans h
  | badRequest hsame => exact (congrArg ReplySide.sockfd hsame).trans h
  | doRequest hsame hdo =>
    have hfd := (congrArg ReplySide.sockfd hsame).trans h
    cases (doRequest_sought fs _).result hdo with
    | noResource => exact hfd
    | forbidden => exact hfd
    | directory => exact hfd
    | file => exact hfd

/-- `process_write` leaves the descriptor. -/
theorem processWrite_socket {fd : Int} {c : HttpConn} (ret : HttpCode) (h : c.mSockfd = fd) :
    SameSocket Prod.snd fd (c.processWrite ret) := by
  intro r hr
  obtain ⟨m, i, iv₀, iv₁, n, hc⟩ := (processWrite_onlyReply c ret).result hr
  rw [hc]
  exact h

/-- `read` leaves the descriptor. -/
theorem read_socket {fd : Int} {c : HttpConn} (rs : List RecvResult) (h : c.mSockfd = fd) :
    SameSocket Prod.snd fd (c.read rs) := by
  intro r hr
  exact (congrArg ReplySide.sockfd ((read_replySide rs c).result hr)).trans h

end ServerListings.Interface
