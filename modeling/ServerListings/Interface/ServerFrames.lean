import ServerListings.Interface.HandlerEffects

/-!
# Which objects a handler uses

The handling of an event reads and writes one object of `users`, that of the descriptor of the
event or the one that `accept` returned. With other objects in the other places it does the
same.
-/

set_option autoImplicit false

namespace ServerListings.Interface.ServerFrames

open Lib.CMem ServerListings.Model ServerListings.Model.Http ServerListings.Model.WebServer

section Frames

variable {W : Type} {s s' s'' t t' t'' : Server W} {users : Int → HttpConn} {fd : Int} {c : HttpConn}

/-- The server with other objects and other requests of its workers. -/
def withWorkers (s : Server W) (users : Int → HttpConn) (working : W → Option Int) : Server W :=
  { s with users := users, working := working }

/-- Two servers that differ in objects and in what the workers have only, and not in the object of
`fd`. -/
structure Alike (fd : Int) (s t : Server W) : Prop where
  same : t = withWorkers s t.users t.working
  object : t.users fd = s.users fd

/-- From `s` and `t` the states `s'` and `t'` are reached by changes of the same kind, no
objects have changed but that of `fd`, which is the same now, and the workers have what they
had. -/
structure Follows (fd : Int) (s t s' t' : Server W) : Prop where
  same : t' = withWorkers s' t'.users t'.working
  working : s'.working = s.working
  working' : t'.working = t.working
  left : s'.users = Function.update s.users fd (s'.users fd)
  right : t'.users = Function.update t.users fd (s'.users fd)

/-- After the changes the object of `fd` is the same. -/
theorem Follows.alike (h : Follows fd s t s' t') : Alike fd s' t' where
  same := h.same
  object := by rw [h.right, Function.update_self]

/-- Changes one after the other. -/
theorem Follows.trans (h : Follows fd s t s' t') (h' : Follows fd s' t' s'' t'') :
    Follows fd s t s'' t'' where
  same := h'.same
  working := h'.working.trans h.working
  working' := h'.working'.trans h.working'
  left := by
    have hleft := h'.left
    rwa [h.left, Function.update_idem] at hleft
  right := by
    have hright := h'.right
    rwa [h.right, Function.update_idem] at hright

/-- No change. -/
theorem Alike.refl (h : Alike fd s t) : Follows fd s t s t where
  same := h.same
  working := rfl
  working' := rfl
  left := (Function.update_eq_self fd s.users).symm
  right := by rw [← h.object, Function.update_eq_self]

/-- A change that leaves the objects and the workers alone and does not look at them. -/
theorem Alike.step (h : Alike fd s t) {g : Server W → Server W} (hu : ∀ s, (g s).users = s.users)
    (hw : ∀ s, (g s).working = s.working)
    (hg : ∀ s users working, g (withWorkers s users working) = withWorkers (g s) users working) :
    Follows fd s t (g s) (g t) where
  same := by
    rw [hu t, hw t]
    conv_lhs => rw [h.same, hg]
  working := hw s
  working' := hw t
  left := by rw [hu, Function.update_eq_self]
  right := by rw [hu, hu, ← h.object, Function.update_eq_self]

/-! ## The effects of member functions -/

/-- An effect does not look at the objects and the workers. -/
theorem applyEffect_withWorkers (s : Server W) (users : Int → HttpConn) (working : W → Option Int)
    (e : Effect) :
    (withWorkers s users working).applyEffect e = withWorkers (s.applyEffect e) users working := by
  cases e with
  | epollAdd fd oneShot =>
    by_cases h : (s.descriptors fd).isNone ∨ (s.epoll fd).isSome
    · have h' : ((withWorkers s users working).descriptors fd).isNone ∨
          ((withWorkers s users working).epoll fd).isSome := h
      simp only [Server.applyEffect, if_pos h, if_pos h']
    · have h' : ¬ (((withWorkers s users working).descriptors fd).isNone ∨
          ((withWorkers s users working).epoll fd).isSome) := h
      simp only [Server.applyEffect, if_neg h, if_neg h']
      rfl
  | epollMod fd ev =>
    by_cases h : (s.epoll fd).isNone = true
    · have h' : ((withWorkers s users working).epoll fd).isNone = true := h
      simp only [Server.applyEffect, if_pos h, if_pos h']
    · have h' : ¬ ((withWorkers s users working).epoll fd).isNone = true := h
      simp only [Server.applyEffect, if_neg h, if_neg h']
      rfl
  | epollDel fd => rfl
  | close fd => rfl
  | userCount change => rfl
  | munmap addr length => rfl

/-- The effects of a call do not look at the objects and the workers. -/
theorem applyEffects_withWorkers (effects : List Effect) (s : Server W) (users : Int → HttpConn)
    (working : W → Option Int) :
    (withWorkers s users working).applyEffects effects =
      withWorkers (s.applyEffects effects) users working := by
  induction effects generalizing s with
  | nil => rfl
  | cons e effects ih =>
    show ((withWorkers s users working).applyEffect e).applyEffects effects = _
    rw [applyEffect_withWorkers, ih]
    rfl

/-- The effects of a call leave the objects and the workers alone. -/
theorem applyEffects_frame (effects : List Effect) (s : Server W) :
    (s.applyEffects effects).users = s.users ∧ (s.applyEffects effects).working = s.working := by
  have hswap : s.applyEffects effects = withWorkers (s.applyEffects effects) s.users s.working :=
    applyEffects_withWorkers effects s s.users s.working
  rw [hswap]
  exact ⟨rfl, rfl⟩

/-- Both servers take the effects of a call. -/
theorem Alike.applyEffects (h : Alike fd s t) (effects : List Effect) :
    Follows fd s t (s.applyEffects effects) (t.applyEffects effects) :=
  h.step (fun s => (applyEffects_frame effects s).1) (fun s => (applyEffects_frame effects s).2)
    (applyEffects_withWorkers effects)

/-- The object of `fd` is replaced in both. -/
theorem Alike.setObject (h : Alike fd s t) (c : HttpConn) :
    Follows fd s t { s with users := Function.update s.users fd c }
      { t with users := Function.update t.users fd c } where
  same := by
    conv_lhs => rw [h.same]
    rfl
  working := rfl
  working' := rfl
  left := by
    show Function.update s.users fd c = Function.update s.users fd (Function.update s.users fd c fd)
    rw [Function.update_self]
  right := by
    show Function.update t.users fd c = Function.update t.users fd (Function.update s.users fd c fd)
    rw [Function.update_self]

/-- A call of a member function on the object of `fd`. -/
theorem Alike.setUser (h : Alike fd s t) (c : HttpConn) (effects : List Effect) :
    Follows fd s t (s.setUser fd c effects) (t.setUser fd c effects) :=
  (h.setObject c).trans ((h.setObject c).alike.applyEffects effects)

/-- Both servers close the connection. -/
theorem Alike.closeConn (h : Alike fd s t) : Follows fd s t (s.closeConn fd) (t.closeConn fd) := by
  unfold Server.closeConn
  rw [h.object]
  exact h.setUser _ _

/-- Both servers append a request. -/
theorem Alike.append (h : Alike fd s t) (x : Int) :
    Follows fd s t (s.append x).2 (t.append x).2 := by
  have hframe : ∀ s : Server W, (s.append x).2.users = s.users ∧ (s.append x).2.working = s.working := by
    intro s
    unfold Server.append
    split <;> exact ⟨rfl, rfl⟩
  have hswap : ∀ (s : Server W) (users : Int → HttpConn) (working : W → Option Int),
      ((withWorkers s users working).append x).2 = withWorkers (s.append x).2 users working := by
    intro s users working
    by_cases hfull : s.queue.length > s.maxRequests
    · have hfull' : (withWorkers s users working).queue.length >
          (withWorkers s users working).maxRequests := hfull
      rw [Server.append, if_pos hfull', Server.append, if_pos hfull]
    · have hfits : ¬ (withWorkers s users working).queue.length >
          (withWorkers s users working).maxRequests := hfull
      rw [Server.append, if_neg hfits, Server.append, if_neg hfull]
      rfl
  exact h.step (g := fun s => (s.append x).2) (fun s => (hframe s).1) (fun s => (hframe s).2) hswap

/-! ## The handlers -/

/-- The second computation succeeds when the first one does, with a state that follows. -/
def FollowsOk (fd : Int) (s t : Server W) (x y : Checked (Server W)) : Prop :=
  ∀ s', x = .ok s' → ∃ t', y = .ok t' ∧ Follows fd s t s' t'

/-- Both handlers succeed. -/
theorem followsOk_pure (h : Follows fd s t s' t') : FollowsOk fd s t (pure s') (pure t') := by
  intro r hr
  obtain rfl := Except.ok.inj hr
  exact ⟨t', rfl, h⟩

/-- Where the first handler faults nothing is to be shown. -/
theorem followsOk_error {x : Checked (Server W)} (e : Fault) :
    FollowsOk fd s t (.error e) x := by
  intro r hr
  cases hr

/-- Both servers read from the connection. -/
theorem Alike.readClient (h : Alike fd s t) (rs : List RecvResult) :
    FollowsOk fd s t (s.readClient fd rs) (t.readClient fd rs) := by
  unfold Server.readClient
  rw [h.object]
  cases (s.users fd).read rs with
  | error e => exact followsOk_error e
  | ok r =>
    obtain ⟨ok, c⟩ := r
    have hset := h.setUser c []
    cases ok with
    | true => exact followsOk_pure (hset.trans (hset.alike.append fd))
    | false => exact followsOk_pure (hset.trans hset.alike.closeConn)

/-- Both servers write to the connection. -/
theorem Alike.writeClient (h : Alike fd s t) (mapped : Int → List UInt8) (ws : List WritevResult) :
    FollowsOk fd s t (s.writeClient fd mapped ws) (t.writeClient fd mapped ws) := by
  unfold Server.writeClient
  rw [h.object]
  have hset := h.setUser ((s.users fd).write mapped ws).conn ((s.users fd).write mapped ws).effects
  cases hret : ((s.users fd).write mapped ws).ret with
  | none =>
    simp only [hret]
    exact followsOk_error _
  | some ok =>
    simp only [hret]
    cases ok with
    | true => exact followsOk_pure hset
    | false => exact followsOk_pure (hset.trans hset.alike.closeConn)

/-- Both servers accept the client. -/
theorem Alike.acceptClient (h : Alike fd s t) :
    FollowsOk fd s t (s.acceptClient (some fd)) (t.acceptClient (some fd)) := by
  have hopen : Follows fd s t
      { s with descriptors := Function.update s.descriptors fd (some .client) }
      { t with descriptors := Function.update t.descriptors fd (some .client) } :=
    h.step (g := fun s => { s with descriptors := Function.update s.descriptors fd (some .client) })
      (fun _ => rfl) (fun _ => rfl) fun _ _ _ => rfl
  have hcount : t.userCount = s.userCount := by
    rw [h.same]
    rfl
  by_cases hbusy : s.userCount ≥ maxFd
  · have hbusy' : t.userCount ≥ maxFd := hcount.symm ▸ hbusy
    simp only [Server.acceptClient, if_pos hbusy, if_pos hbusy']
    exact followsOk_pure (hopen.trans (hopen.alike.applyEffects [.close fd]))
  · have hbusy' : ¬ t.userCount ≥ maxFd := hcount.symm ▸ hbusy
    simp only [Server.acceptClient, if_neg hbusy, if_neg hbusy']
    by_cases hrange : fd < 0 ∨ fd ≥ maxFd
    · rw [if_pos hrange]
      exact followsOk_error _
    · rw [if_neg hrange, if_neg hrange, h.object]
      exact followsOk_pure (hopen.trans (hopen.alike.setUser _ _))

/-- The handling of an event of a connection. -/
theorem Alike.handleEvent (h : Alike fd s t) (input : Server.Input) (d : Delivered) (hd : d.fd = fd)
    (hne : d.fd ≠ s.listenfd) : FollowsOk fd s t (s.handleEvent input d) (t.handleEvent input d) := by
  have hlisten : t.listenfd = s.listenfd := by
    rw [h.same]
    rfl
  subst hd
  unfold Server.handleEvent
  rw [hlisten, if_neg hne, if_neg hne]
  split
  · exact followsOk_pure h.closeConn
  · split
    · exact h.readClient _
    · split
      · exact h.writeClient _ _
      · exact followsOk_pure h.refl

end Frames

end ServerListings.Interface.ServerFrames
