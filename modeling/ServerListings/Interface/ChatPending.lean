import ServerListings.Lib.DenseTable
import ServerListings.Lib.FlagWord
import ServerListings.Model.PollChat

/-!
# The pending output of the chat clients

The clients have the elements of `fds` behind the first one. A client that is registered for
`POLLOUT` and has a `write_buf` waits for the text that is then in the buffer of another client.
This file says what the log owes to a client, and what a step must leave alone so that the text
a client waits for is still the one that it is owed.
-/

set_option autoImplicit false

namespace ServerListings.Interface.PollChat

open Lib.CMem Lib.FlagWord ServerListings.Model.PollChat

/-! ## Flags -/

section Flags

variable {events revents : BitVec 16} {k : Nat}

/-- `POLLOUT` is bit 2. -/
theorem has_POLLOUT (flags : BitVec 16) : has flags POLLOUT = flags.getLsbD 2 := by
  have hflag : POLLOUT = BitVec.twoPow 16 2 := by decide
  rw [has, hflag]
  exact and_flag flags (by decide)

/-- `POLLRDHUP` is bit 13. -/
theorem has_POLLRDHUP (flags : BitVec 16) : has flags POLLRDHUP = flags.getLsbD 13 := by
  have hflag : POLLRDHUP = BitVec.twoPow 16 13 := by decide
  rw [has, hflag]
  exact and_flag flags (by decide)

/-- What is reported is still reported when more is registered. -/
theorem reported_or (h : Reported events revents) (more : BitVec 16) :
    Reported (events ||| more) revents := by
  apply BitVec.eq_of_getLsbD_eq
  intro k hk
  have hbit := congrArg (fun w => w.getLsbD k) h
  simp only [BitVec.getLsbD_and, BitVec.getLsbD_not, BitVec.getLsbD_or, BitVec.getLsbD_zero] at hbit ⊢
  cases hr : revents.getLsbD k with
  | false => rfl
  | true =>
    rw [hr] at hbit
    cases hm : more.getLsbD k with
    | true => simp
    | false => simpa using hbit

/-- What is reported was registered, apart from what `poll` always reports. -/
theorem registered_of_reported (h : Reported events revents) (hbit : revents.getLsbD k = true)
    (hk : (POLLERR ||| POLLHUP ||| POLLNVAL).getLsbD k = false) : events.getLsbD k = true := by
  have hmask := getLsbD_of_masked h hbit
  rwa [BitVec.getLsbD_or, hk, Bool.or_false] at hmask

end Flags

/-! ## The log -/

section Logs

variable {log l : List Happening} {d : Int} {e : Happening} {pick : Happening → Option (List UInt8)}

/-- The texts that are picked from the log since a client was accepted. -/
def since (d : Int) (pick : Happening → Option (List UInt8)) (log : List Happening) : List (List UInt8) :=
  log.foldl (fun texts e => if e = .accepted d then [] else texts ++ (pick e).toList) []

/-- What was sent to a client since it was accepted. -/
def sentTo (d : Int) (log : List Happening) : List (List UInt8) :=
  since d (fun e => match e with
    | .sent fd text => if fd = d then some text else none
    | _ => none) log

/-- The data that was received from the other clients since the client was accepted. -/
def owedTo (d : Int) (log : List Happening) : List (List UInt8) :=
  since d (fun e => match e with
    | .received fd data => if fd = d then none else some data
    | _ => none) log

/-- One entry more since the client came. -/
theorem since_concat (h : e ≠ .accepted d) : since d pick (log ++ [e]) = since d pick log ++ (pick e).toList := by
  rw [since, List.foldl_append, List.foldl_cons, List.foldl_nil, if_neg h, ← since]

/-- Nothing has happened when the client comes. -/
theorem since_accepted : since d pick (log ++ [.accepted d]) = [] := by
  rw [since, List.foldl_append, List.foldl_cons, List.foldl_nil, if_pos rfl]

/-- Neither sent nor owed to the client. -/
def Foreign (d : Int) : Happening → Prop
  | .accepted fd => fd ≠ d
  | .received fd _ => fd = d
  | .sent fd _ => fd ≠ d
  | .closed _ => True

/-- What others do is not counted. -/
theorem since_append (h : ∀ e ∈ l, e ≠ .accepted d ∧ pick e = none) :
    since d pick (log ++ l) = since d pick log := by
  induction l generalizing log with
  | nil => rw [List.append_nil]
  | cons e l ih =>
    obtain ⟨hne, hnone⟩ := h e List.mem_cons_self
    rw [List.append_cons, ih fun e' he' => h e' (List.mem_cons_of_mem _ he'), since_concat hne, hnone]
    exact List.append_nil _

/-- What others do sends nothing to the client. -/
theorem sentTo_foreign (h : ∀ e ∈ l, Foreign d e) : sentTo d (log ++ l) = sentTo d log := by
  apply since_append
  intro e he
  have hforeign := h e he
  cases e with
  | accepted fd => exact ⟨fun heq => hforeign (Happening.accepted.inj heq), rfl⟩
  | received fd data => exact ⟨nofun, rfl⟩
  | sent fd text => exact ⟨nofun, if_neg hforeign⟩
  | closed fd => exact ⟨nofun, rfl⟩

/-- What others do owes nothing to the client. -/
theorem owedTo_foreign (h : ∀ e ∈ l, Foreign d e) : owedTo d (log ++ l) = owedTo d log := by
  apply since_append
  intro e he
  have hforeign := h e he
  cases e with
  | accepted fd => exact ⟨fun heq => hforeign (Happening.accepted.inj heq), rfl⟩
  | received fd data => exact ⟨nofun, if_pos hforeign⟩
  | sent fd text => exact ⟨nofun, rfl⟩
  | closed fd => exact ⟨nofun, rfl⟩

/-- A text that is sent. -/
theorem sentTo_sent (log : List Happening) (d : Int) (text : List UInt8) :
    sentTo d (log ++ [.sent d text]) = sentTo d log ++ [text] := by
  rw [sentTo, since_concat (by simp), ← sentTo]
  simp

/-- Sending leaves what was owed. -/
theorem owedTo_sent (log : List Happening) (d : Int) (text : List UInt8) :
    owedTo d (log ++ [.sent d text]) = owedTo d log := by
  rw [owedTo, since_concat (by simp), ← owedTo]
  exact List.append_nil _

/-- Receiving sends nothing. -/
theorem sentTo_received (log : List Happening) (d fd : Int) (data : List UInt8) :
    sentTo d (log ++ [.received fd data]) = sentTo d log := by
  rw [sentTo, since_concat (by simp), ← sentTo]
  exact List.append_nil _

/-- A text of another client is owed. -/
theorem owedTo_received (log : List Happening) {d fd : Int} (data : List UInt8) (h : fd ≠ d) :
    owedTo d (log ++ [.received fd data]) = owedTo d log ++ [data] := by
  rw [owedTo, since_concat (by simp), ← owedTo]
  simp [h]

end Logs

/-! ## What a client waits for -/

section Waiting

variable {log l : List Happening} {s s' : Server} {e e' : PollFd} {c : Int}

/-- The client in whose buffer the pending output of a client is. -/
def output (s : Server) (e : PollFd) : Option Int :=
  if has e.events POLLOUT then (s.users e.fd).writeBuf else none

/-- The pending output. -/
def awaited (s : Server) (e : PollFd) : List (List UInt8) :=
  ((output s e).map fun x => cstr (s.users x).buf).toList

/-- What was sent and what is pending is what is owed to the client. The pending output is not
in its own buffer. -/
structure Balanced (log : List Happening) (s : Server) (e : PollFd) : Prop where
  other : ∀ x, output s e = some x → x ≠ e.fd
  balance : sentTo e.fd log ++ awaited s e = owedTo e.fd log

/-- A step that leaves the pending output of a client as it is. -/
theorem Balanced.frame (h : Balanced log s e) (hfd : e'.fd = e.fd) (hout : output s' e' = output s e)
    (hbuf : ∀ x, output s e = some x → (s'.users x).buf = (s.users x).buf)
    (hl : ∀ a ∈ l, Foreign e.fd a) : Balanced (log ++ l) s' e' := by
  have hawaited : awaited s' e' = awaited s e := by
    rw [awaited, awaited, hout]
    cases houtput : output s e with
    | none => rfl
    | some x =>
      show [cstr (s'.users x).buf] = [cstr (s.users x).buf]
      rw [hbuf x houtput]
  refine ⟨fun x hx => ?_, ?_⟩
  · rw [hfd]
    exact h.other x (hout ▸ hx)
  · rw [hfd, hawaited, sentTo_foreign hl, owedTo_foreign hl]
    exact h.balance

/-- Without `POLLOUT` nothing is to be written. -/
theorem output_eq_none (h : has e.events POLLOUT = false) : output s e = none := by
  rw [output, h]
  rfl

/-- The clients' pending outputs are not in the buffer of `c`. -/
def BufferFree (s : Server) (c : Int) : Prop := ∀ e ∈ s.fds.tail, e.fd ≠ c → output s e ≠ some c

/-- The other clients have no pending output. -/
def AllSent (s : Server) (c : Int) : Prop := ∀ e ∈ s.fds.tail, e.fd ≠ c → output s e = none

end Waiting

end ServerListings.Interface.PollChat
