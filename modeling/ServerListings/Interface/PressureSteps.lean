import ServerListings.Lib.Transition
import ServerListings.Model.PressureTest

/-!
# The steps of the pressure test

`write_nbytes` sends the whole buffer or gives up in the middle of it. A connection for which
something can be done is in the ready list or in the batch, and an event in the batch is one of an
open connection that is registered for it.
-/

set_option autoImplicit false

namespace ServerListings.Interface.Pressure

open Lib.CMem Lib.Readiness Lib.Transition ServerListings.Model.PressureTest

section Calls

variable {room : Nat} {fd x : Int}

/-- The bytes that are sent are all of the buffer, or less than that if a `send` fails. -/
theorem writeNbytes_spec (rs : List SendResult) : ∀ (buffer : List UInt8) (room : Nat), buffer ≠ [] →
    Sends rs buffer room → ((writeNbytes rs buffer).1 = true ∧ (writeNbytes rs buffer).2 = buffer) ∨
      ((writeNbytes rs buffer).1 = false ∧ (writeNbytes rs buffer).2 <+: buffer ∧
        (writeNbytes rs buffer).2.length < buffer.length) := by
  induction rs with
  | nil => exact fun _ _ _ h => h.elim
  | cons r rs ih =>
    intro buffer room hne h
    cases r with
    | failed => exact .inr ⟨rfl, List.nil_prefix, List.length_pos_iff.mpr hne⟩
    | sent n =>
      obtain ⟨hpos, hle, -, hrest⟩ := h
      unfold writeNbytes
      rw [List.length_drop]
      by_cases hall : buffer.length ≤ n
      · rw [if_pos (by omega)]
        exact .inl ⟨rfl, List.take_of_length_le hall⟩
      · rw [if_neg (by omega)]
        rw [if_neg hall] at hrest
        have hne' : buffer.drop n ≠ [] := by
          rw [Ne, List.drop_eq_nil_iff]
          exact hall
        obtain ⟨hok, hsent⟩ | ⟨hok, hprefix, hlen⟩ := ih (buffer.drop n) (room - n) hne' hrest
        · refine .inl ⟨hok, ?_⟩
          dsimp only
          rw [hsent, List.take_append_drop]
        · refine .inr ⟨hok, ?_, ?_⟩
          · have happend := (List.prefix_append_right_inj (buffer.take n)).mpr hprefix
            rwa [List.take_append_drop] at happend
          · rw [List.length_drop] at hlen
            rw [List.length_append, List.length_take]
            omega

/-- The string ends within the buffer unless the chunk fills it without a NUL byte. -/
theorem content_eq {chunk : List UInt8} (hlen : chunk.length ≤ bufferSize) :
    content chunk = if chunk.length < bufferSize ∨ 0 ∈ chunk then some (cstr chunk) else none := by
  unfold content fetch
  rw [List.drop_zero]
  by_cases hlt : chunk.length < bufferSize
  · obtain ⟨n, hn⟩ : ∃ n, bufferSize - chunk.length = n + 1 :=
      Nat.exists_eq_succ_of_ne_zero (by omega)
    rw [hn, List.replicate_succ, if_pos (List.mem_append_right _ List.mem_cons_self),
      cstr_append_zero, if_pos (.inl hlt)]
    rfl
  · have hzero : bufferSize - chunk.length = 0 := by omega
    rw [hzero, List.replicate_zero, List.append_nil]
    by_cases hmem : (0 : UInt8) ∈ chunk
    · rw [if_pos hmem, if_pos (.inr hmem)]
      rfl
    · rw [if_neg hmem, if_neg (by rintro (h | h); exacts [hlt h, hmem h])]
      rfl

end Calls

section Steps

variable {s s' : Tool} {a : Action} {e : Event} {rest : List Event} {c : Conn} {input : Input}
  {fd x : Int} {rs : List ConnectResult}

/-- An event of the connection is still to be handled. -/
def InBatch (s : Tool) (fd : Int) : Prop := fd ∈ s.batch.map Event.fd

/-- An event of an open connection is one that it is registered for. -/
def Agrees (e : Event) (c : Conn) : Prop :=
  (e.kind = .epollin → c.interest = .epollin) ∧ (e.kind = .epollout → c.interest = .epollout)

structure Watching (s : Tool) : Prop where
  noticed : ∀ fd c, s.conns fd = some c → c.can = true → c.ready = true ∨ InBatch s fd
  nodup : (s.batch.map Event.fd).Nodup
  events : ∀ e ∈ s.batch, ∃ c, s.conns e.fd = some c ∧ Agrees e c

/-- The connections of the start are registered for output. -/
theorem startConn_spec (rs : List ConnectResult) : ∀ conns : Int → Option Conn,
    (∀ fd c, conns fd = some c → ∃ room, c = Conn.add room) →
      ∀ fd c, startConn rs conns fd = some c → ∃ room, c = Conn.add room := by
  induction rs with
  | nil => exact fun conns h => h
  | cons r rs ih =>
    intro conns h
    cases r with
    | noSocket => exact ih conns h
    | refused => exact ih conns h
    | connected fd room =>
      refine ih _ fun x c hc => ?_
      by_cases hx : x = fd
      · subst hx
        rw [Function.update_self] at hc
        exact ⟨room, (Option.some.inj hc).symm⟩
      · rw [Function.update_of_ne hx] at hc
        exact h x c hc

/-- Before the loop every connection waits for room to send. -/
theorem watching_start : Watching (start rs) where
  noticed := by
    intro fd c hc hcan
    obtain ⟨room, rfl⟩ := startConn_spec rs (fun _ => none) (fun _ _ h => by cases h) fd c hc
    exact .inl hcan
  nodup := List.nodup_nil
  events := nofun

/-- What handling an event is. -/
inductive Handles (s : Tool) (e : Event) (c : Conn) (input : Input) : Option Conn → List Happening → Prop
  | received (chunk : List UInt8) (hkind : e.kind = .epollin) (hrecv : Tool.Returns c (.data chunk)) :
      Handles s e c input
        (some ({ c with input := c.input.drop chunk.length }.modify .epollout))
        [.received e.fd chunk (content chunk)]
  | written (hkind : e.kind = .epollout) (hsent : (writeNbytes input.sends request).2 = request) :
      Handles s e c input (some ({ c with room := c.room - request.length }.modify .epollin))
        [.sent e.fd request]
  | unwritten (part : List UInt8) (hkind : e.kind = .epollout) (hpart : part <+: request)
      (hlen : part.length < request.length) : Handles s e c input none [.sent e.fd part]
  | closed : Handles s e c input none []

/-- The request has bytes. -/
theorem request_ne_nil : request ≠ [] := by decide

/-- The branches for an event of an open connection. -/
theorem handles (hc : s.conns e.fd = some c) (hb : s.batch = e :: rest)
    (ha : s.Enabled (.handle input)) : ∃ o es, Handles s e c input o es ∧
      ({ s with batch := rest } : Tool).serve e input =
        (⟨Function.update s.conns e.fd o, rest⟩, es) := by
  obtain ⟨e', he', c', hc', hrecv, hsends⟩ := ha
  obtain rfl : e = e' := by
    rw [hb] at he'
    exact Option.some.inj he'
  obtain rfl := Option.some.inj (hc.symm.trans hc')
  unfold Tool.serve
  simp only [hc]
  cases hkind : e.kind with
  | epollin =>
    have hreturns := hrecv hkind
    cases hr : input.recv with
    | data chunk =>
      rw [hr] at hreturns
      exact ⟨_, _, .received chunk hkind hreturns, rfl⟩
    | again => exact ⟨_, _, .closed, rfl⟩
    | ended => exact ⟨_, _, .closed, rfl⟩
    | failed => exact ⟨_, _, .closed, rfl⟩
  | epollout =>
    simp only [Tool.writeEvent]
    obtain ⟨hok, hsent⟩ | ⟨hok, hprefix, hlen⟩ :=
      writeNbytes_spec input.sends request c.room request_ne_nil (hsends hkind)
    · refine ⟨_, _, .written hkind hsent, ?_⟩
      rw [hok, if_pos rfl, hsent]
      rfl
    · refine ⟨_, _, .unwritten _ hkind hprefix hlen, ?_⟩
      rw [hok, if_neg Bool.false_ne_true]
      rfl
  | epollerr => exact ⟨_, _, .closed, rfl⟩

/-- A connection is changed from outside, which it notices if it is registered for it. -/
theorem Watching.map (h : Watching s) {g : Conn → Conn} (hinterest : ∀ c, (g c).interest = c.interest)
    (hnotice : ∀ c, (g c).can = true → (g c).ready = true ∨
      c.can = true ∧ (c.ready = true → (g c).ready = true)) (fd : Int) :
    Watching { s with conns := Function.update s.conns fd ((s.conns fd).map g) } where
  noticed := by
    intro x c hc hcan
    replace hc : Function.update s.conns fd ((s.conns fd).map g) x = some c := hc
    by_cases hx : x = fd
    · subst hx
      rw [Function.update_self] at hc
      obtain ⟨c', hc', rfl⟩ := Option.map_eq_some_iff.mp hc
      obtain hready | ⟨hcan', hkeep⟩ := hnotice c' hcan
      · exact .inl hready
      · exact (h.noticed x c' hc' hcan').imp_left hkeep
    · rw [Function.update_of_ne hx] at hc
      exact h.noticed x c hc hcan
  nodup := h.nodup
  events := by
    intro e he
    obtain ⟨c, hc, hagrees⟩ := h.events e he
    show ∃ c, Function.update s.conns fd ((s.conns fd).map g) e.fd = some c ∧ _
    by_cases hx : e.fd = fd
    · rw [hx, Function.update_self, ← hx, hc]
      refine ⟨g c, rfl, ?_⟩
      unfold Agrees
      rw [hinterest]
      exact hagrees
    · rw [Function.update_of_ne hx]
      exact ⟨c, hc, hagrees⟩

/-- A change of the input is noticed. -/
theorem inputChange_notice (f : Stream → Stream) (c : Conn) (hcan : (c.inputChange f).can = true) :
    (c.inputChange f).ready = true ∨
      c.can = true ∧ (c.ready = true → (c.inputChange f).ready = true) := by
  obtain ⟨interest, ready, input, room⟩ := c
  cases interest with
  | epollin => exact .inl (Bool.or_true _)
  | epollout => exact .inr ⟨hcan, fun hready => by simp [Conn.inputChange, hready]⟩

/-- A change of the room is noticed. -/
theorem outputChange_notice (n : Nat) (c : Conn) (hcan : (c.outputChange n).can = true) :
    (c.outputChange n).ready = true ∨
      c.can = true ∧ (c.ready = true → (c.outputChange n).ready = true) := by
  obtain ⟨interest, ready, input, room⟩ := c
  cases interest with
  | epollin => exact .inr ⟨hcan, fun hready => by simp [Conn.outputChange, hready]⟩
  | epollout => exact .inl (Bool.or_true _)

/-- The input of a connection changes. -/
theorem Watching.inputChange (h : Watching s) (f : Stream → Stream) (fd : Int) : Watching
    { s with conns := Function.update s.conns fd ((s.conns fd).map fun c => c.inputChange f) } :=
  h.map (g := fun c => c.inputChange f) (fun _ => rfl) (inputChange_notice f) fd

/-- The room of a connection changes. -/
theorem Watching.outputChange (h : Watching s) (n : Nat) (fd : Int) : Watching
    { s with conns := Function.update s.conns fd ((s.conns fd).map fun c => c.outputChange n) } :=
  h.map (g := fun c => c.outputChange n) (fun _ => rfl) (outputChange_notice n) fd

/-- A batch is returned. -/
theorem Watching.deliver (h : Watching s) {batch : List Event} (hempty : s.batch = [])
    (hnodup : (batch.map Event.fd).Nodup) (hrep : ∀ e ∈ batch, s.Reported e) :
    Watching (s.deliver batch) where
  noticed := by
    intro x c hc hcan
    obtain ⟨c', hc', rfl⟩ := Option.map_eq_some_iff.mp hc
    by_cases hx : x ∈ batch.map Event.fd
    · exact .inr hx
    · refine .inl ?_
      have hready : c'.ready = true := by
        refine (h.noticed x c' hc' hcan).resolve_right fun hdue => ?_
        rw [InBatch, hempty] at hdue
        cases hdue
      simp [hready, hx]
  nodup := hnodup
  events := by
    intro e he
    obtain ⟨c, hc, hkind⟩ := hrep e he
    refine ⟨_, Option.map_eq_some_iff.mpr ⟨c, hc, rfl⟩, fun hk => ?_, fun hk => ?_⟩ <;>
      rcases hkind with ⟨hk', hi, -⟩ | ⟨hk', hi, -⟩ | hk'
    · exact hi
    · cases hk.symm.trans hk'
    · cases hk.symm.trans hk'
    · cases hk.symm.trans hk'
    · exact hi
    · cases hk.symm.trans hk'

/-- An event was handled. -/
theorem Watching.handled (h : Watching s) (hb : s.batch = e :: rest) {o : Option Conn}
    (ho : ∀ c, o = some c → c.can = true → c.ready = true) :
    Watching ⟨Function.update s.conns e.fd o, rest⟩ := by
  have hnodup := h.nodup
  rw [hb, List.map_cons, List.nodup_cons] at hnodup
  refine ⟨fun x c hc hcan => ?_, hnodup.2, fun e' he' => ?_⟩
  · replace hc : Function.update s.conns e.fd o x = some c := hc
    by_cases hx : x = e.fd
    · subst hx
      rw [Function.update_self] at hc
      exact .inl (ho c hc hcan)
    · rw [Function.update_of_ne hx] at hc
      refine (h.noticed x c hc hcan).imp_right fun hdue => ?_
      rw [InBatch, hb, List.map_cons] at hdue
      exact (List.mem_cons.mp hdue).resolve_left hx
  · have hne : e'.fd ≠ e.fd := fun heq => hnodup.1 (heq ▸ List.mem_map_of_mem he')
    show ∃ c, Function.update s.conns e.fd o e'.fd = some c ∧ _
    rw [Function.update_of_ne hne]
    exact h.events e' (hb ▸ List.mem_cons_of_mem e he')

/-- The next event is one of an open connection. -/
theorem exists_next (h : Watching s) (ha : s.Enabled (.handle input)) :
    ∃ e rest c, s.batch = e :: rest ∧ s.conns e.fd = some c ∧ Agrees e c := by
  obtain ⟨e, he, -⟩ := ha
  have hb : s.batch = e :: s.batch.tail := (List.cons_head?_tail he).symm
  obtain ⟨c, hc, hagrees⟩ := h.events e (hb ▸ List.mem_cons_self)
  exact ⟨e, _, c, hb, hc, hagrees⟩

/-- Every step keeps the connections watched. -/
theorem Watching.step (h : Watching s) (hs : Step s a s') : Watching s' := by
  obtain ⟨henabled, rfl⟩ := hs
  cases a with
  | arrive fd data => exact h.inputChange _ fd
  | shutdown fd => exact h.inputChange _ fd
  | acknowledge fd n => exact h.outputChange n fd
  | wait batch =>
    obtain ⟨hempty, -, -, hnodup, hrep⟩ := henabled
    exact h.deliver hempty hnodup hrep
  | handle input =>
    obtain ⟨e, rest, c, hb, hc, -⟩ := exists_next h henabled
    obtain ⟨o, es, hhandles, heq⟩ := handles hc hb henabled
    simp only [Tool.perform, hb, heq]
    refine h.handled hb fun c' hc' hcan => ?_
    cases hhandles with
    | received chunk hkind hrecv =>
      obtain rfl := Option.some.inj hc'
      exact hcan
    | written hkind hsent =>
      obtain rfl := Option.some.inj hc'
      exact hcan
    | unwritten part hkind hpart hlen => cases hc'
    | closed => cases hc'

/-- No connection is opened after `start_conn`. -/
theorem step_none (h : Watching s) (hs : Step s a s') (hnone : s.conns x = none) : s'.conns x = none := by
  obtain ⟨henabled, rfl⟩ := hs
  have hupdate : ∀ (fd : Int) (o : Option Conn), (s.conns fd = none → o = none) →
      Function.update s.conns fd o x = none := by
    intro fd o ho
    by_cases hx : x = fd
    · subst hx
      rw [Function.update_self, ho hnone]
    · rw [Function.update_of_ne hx, hnone]
  cases a with
  | arrive fd data => exact hupdate fd _ fun h => by rw [h]; rfl
  | shutdown fd => exact hupdate fd _ fun h => by rw [h]; rfl
  | acknowledge fd n => exact hupdate fd _ fun h => by rw [h]; rfl
  | wait batch =>
    show (s.conns x).map _ = none
    rw [hnone]
    rfl
  | handle input =>
    obtain ⟨e, rest, c, hb, hc, -⟩ := exists_next h henabled
    obtain ⟨o, es, -, heq⟩ := handles hc hb henabled
    simp only [Tool.perform, hb, heq]
    exact hupdate e.fd o fun h => by rw [hc] at h; cases h

/-- In every run the connections are watched. -/
theorem run_watching {cond : Tool → Action → Prop} (h : Run Step cond (start rs) s) : Watching s :=
  h.invariant watching_start fun _ _ _ hw hs _ => hw.step hs

/-- A descriptor without a connection at the start has none later. -/
theorem run_none {cond : Tool → Action → Prop} (h : Run Step cond (start rs) s)
    (hnone : (start rs).conns x = none) : s.conns x = none := by
  suffices hboth : Watching s ∧ s.conns x = none from hboth.2
  apply h.invariant (I := fun s => Watching s ∧ s.conns x = none) ⟨watching_start, hnone⟩
  exact fun s a s' hboth hs _ => ⟨hboth.1.step hs, step_none hboth.1 hs hboth.2⟩

end Steps

end ServerListings.Interface.Pressure
