import ServerListings.Analysis.DefinedRuns
import ServerListings.Interface.StrayRequests

/-!
# When at most one party owns a connection

While no access leaves its array, a connection is at no more than one place in every state that
the server reaches, whatever the clients, the system calls and the workers do: the invariant
`Owned` holds before the event loop, and each step keeps it. A body length that makes
`parse_content` store into `m_sockfd` makes `process` arm a connection that another worker has.
-/

set_option autoImplicit false

namespace ServerListings.Analysis.ConnectionOwner

open Lib.Transition ServerListings.Model ServerListings.Model.Http ServerListings.Model.WebServer
  ServerListings.Interface ServerListings.Analysis.DefinedRuns

variable {W : Type}

/-- Every connection has at most one place, and is there once; the table reports only one
event of it. -/
structure Exclusive (s : Server W) : Prop where
  oneShot : ∀ fd r, Open s fd → s.epoll fd = some r → r.oneShot = true
  place : ∀ fd p q, IsAt s fd p → IsAt s fd q → p = q
  queued : s.queue.Nodup
  delivered : (s.pending.map Delivered.fd).Nodup
  worker : ∀ fd v w, s.working v = some fd → s.working w = some fd → v = w
  handled : ∀ d rest, s.pending = d :: rest → d.fd ≠ s.listenfd →
    Open s d.fd ∧ d.fd ∉ s.queue ∧ ∀ w, s.working w ≠ some d.fd

/-- Where each connection has an owner nobody shares one. -/
theorem exclusive_of_owned {s : Server W} {owner : Int → Option (Place W)} (h : Owned s owner) :
    Exclusive s := by
  refine ⟨?_, fun fd p q => h.places.unique, h.queueNodup, h.pendingNodup, ?_, ?_⟩
  · intro fd r ho hr
    obtain ⟨-, i, hi⟩ := h.socket fd ho
    rw [hi] at hr
    obtain rfl := Option.some.inj hr
    rfl
  · intro fd v w hv hw
    have hplace : Place.taken v = .taken w := h.places.unique (k := fd) hv hw
    exact Place.taken.inj hplace
  · intro d rest hp hd
    have hat : IsAt s d.fd .delivered := ⟨hd, by rw [hp]; exact List.mem_cons_self⟩
    refine ⟨h.open_of_at _ _ hat, ?_, ?_⟩
    · intro hq
      cases h.places.unique hat (show IsAt s d.fd .queued from hq)
    · intro w hw
      cases h.places.unique hat (show IsAt s d.fd (.taken w) from hw)

variable [DecidableEq W] {s₀ s : Server W}

/-- In every state that is reached by defined turns each connection is at most at one place: no
two workers have the same object, and `main` calls a member function only on an object that no
worker has. -/
theorem run_exclusive (hinit : Initial s₀) (hrun : Run Turn Server.Defined s₀ s) : Exclusive s := by
  obtain ⟨owner, howned⟩ := (run_defined (fun _ _ h => h) hinit hrun).2.owned
  exact exclusive_of_owned howned

/-- A client connects to the server and sends a byte: its only place is the batch. -/
theorem run_exclusive_arrived : Exclusive (arrived (Server.start fun _ => default) 5) :=
  run_exclusive (initial_start _) (((run_arrived_defined (ready_start _) (by omega)).mono
    fun _ _ h => h.1).embed fun _ _ _ => .step _)

/-- The 257th client sends a body length of -59. The worker that has its object arms the
connection 256 for it, whose object another worker has. -/
theorem exclusive_not_always : ¬ ∀ s₀ s : Server (Fin defaultThreadNumber),
    Initial s₀ → Run Turn (fun _ _ => True) s₀ s → Exclusive s := by
  intro hall
  obtain ⟨s, c', hrun, hturn, hw, hepoll⟩ := exists_strayRequests
  have hexclusive := hall _ _ (initial_start _) ((hrun.embed fun _ _ _ => .step _).step hturn trivial)
  rw [strayed_armed hepoll] at hexclusive
  have harmed : Function.update s.epoll 256 (some ⟨some .epollout, true⟩) 256 =
      some ⟨some .epollout, true⟩ := Function.update_self ..
  have htaken : Function.update s.working 1 none 0 = some 256 := by
    rw [Function.update_of_ne (by decide)]
    exact hw
  have hplace := hexclusive.place 256 .armed (.taken 0) ⟨.epollout, harmed⟩ htaken
  cases hplace

end ServerListings.Analysis.ConnectionOwner
