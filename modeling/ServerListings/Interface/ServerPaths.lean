import ServerListings.Model.WebServer

/-!
# Following the web server step by step

Which steps are possible can be decided, so a run can be computed from its list of actions.
-/

set_option autoImplicit false

namespace ServerListings.Interface

open Lib.CMem ServerListings.Model ServerListings.Model.Http ServerListings.Model.WebServer

section Paths

variable {W : Type} {s s' : Server W}

instance (s : Server W) (d : Delivered) : Decidable (s.Reported d) :=
  match he : s.epoll d.fd with
  | none => isFalse fun ⟨r, _, hr, _⟩ => by
      rw [he] at hr
      cases hr
  | some ⟨none, _⟩ => isFalse fun ⟨r, _, hr, hi, _⟩ => by
      rw [he] at hr
      obtain rfl := Option.some.inj hr
      cases hi
  | some ⟨some i, o⟩ =>
    decidable_of_iff ((d.events.readable → i = .epollin) ∧ (d.events.writable → i = .epollout) ∧
        (d.events.closing ∨ d.events.readable ∨ d.events.writable)) <| by
      constructor
      · rintro ⟨hread, hwrite, hflag⟩
        exact ⟨_, i, he, rfl, hread, hwrite, hflag⟩
      · rintro ⟨r, j, hr, hj, h⟩
        rw [he] at hr
        obtain rfl := Option.some.inj hr
        obtain rfl := Option.some.inj hj
        exact h

/-- The descriptor that `accept` returns was not open. -/
def NewClient (s : Server W) : Option Int → Prop
  | none => True
  | some connfd => 0 ≤ connfd ∧ s.descriptors connfd = none

instance (s : Server W) : ∀ accepted : Option Int, Decidable (NewClient s accepted)
  | none => inferInstanceAs (Decidable True)
  | some connfd => inferInstanceAs (Decidable (0 ≤ connfd ∧ s.descriptors connfd = none))

variable [DecidableEq W]

/-- The state after an action, if it is possible. -/
def follow (s : Server W) : ServerListings.Model.WebServer.Action W → Option (Server W)
  | .wait batch =>
    if s.pending = [] ∧ batch.length ≤ maxEventNumber ∧ (batch.map Delivered.fd).Nodup ∧
        ∀ d ∈ batch, s.Reported d then
      some (s.deliver batch)
    else none
  | .handle d input =>
    match s.pending with
    | [] => none
    | d' :: rest =>
      if d' = d ∧ NewClient s input.accepted then
        match Server.handleEvent { s with pending := rest } input d with
        | .ok s' => some s'
        | .error _ => none
      else none
  | .take w =>
    match s.queue with
    | [] => none
    | fd :: rest =>
      if s.working w = none then
        some { s with queue := rest, working := Function.update s.working w (some fd) }
      else none
  | .process w fs =>
    match s.working w with
    | none => none
    | some fd =>
      match s.work w fd fs with
      | .ok s' => some s'
      | .error _ => none

/-- What `follow` gives is a step. -/
theorem step_of_follow {a : ServerListings.Model.WebServer.Action W} (h : follow s a = some s') :
    Step s a s' := by
  cases a with
  | wait batch =>
    rw [follow] at h
    split at h
    · obtain rfl := Option.some.inj h
      obtain ⟨hempty, hlen, hnodup, hrep⟩ := ‹_ ∧ _›
      exact .wait batch hempty hlen hnodup hrep
    · cases h
  | handle d input =>
    rw [follow] at h
    split at h
    · cases h
    · rename_i d' rest hp
      split at h
      · obtain ⟨rfl, hnew⟩ := ‹_ ∧ _›
        split at h
        · rename_i s₁ hok
          obtain rfl := Option.some.inj h
          refine .handle _ rest input hp (fun connfd hfd => ?_) hok
          rwa [hfd] at hnew
        · cases h
      · cases h
  | take w =>
    rw [follow] at h
    split at h
    · cases h
    · rename_i fd rest hq
      split at h
      · obtain rfl := Option.some.inj h
        exact .take w fd rest ‹_› hq
      · cases h
  | process w fs =>
    rw [follow] at h
    split at h
    · cases h
    · rename_i fd hw
      split at h
      · rename_i s₁ hok
        obtain rfl := Option.some.inj h
        exact .process w fd fs hw hok
      · cases h

end Paths

end ServerListings.Interface
