import ServerListings.Interface.ChatRounds
import ServerListings.Lib.Transition

/-!
# What the clients of the poll chat server are sent

The pending output of a client is a pointer into the read buffer of the sender. It is owed to
the client as long as nobody writes to this buffer and nobody moves the pointer. The server does
both: the next data of the sender or of another client replaces the text, and so does the last
client when the sender leaves. In the runs in which that does not happen, every client is sent
what was received from the others, in order.
-/

set_option autoImplicit false

namespace ServerListings.Analysis.PollChat

open Lib.Transition ServerListings.Model.PollChat ServerListings.Interface.PollChat

section Runs

variable {log : List Happening} {s : Server} {listenfd : Int} {users : Int → ClientData}

/-- Only texts are received, and none is overwritten. -/
def Undisturbed (s : Server) (a : Action) : Prop := ReceivesText a ∧ NoneOverwritten s a

/-- In an undisturbed run the tables and the log agree. -/
theorem kept_of_run
    (hrun : Logged Step Undisturbed Server.happens (start listenfd users) log s) : Kept log s := by
  apply hrun.invariant (I := Kept) (kept_start listenfd users)
  rintro log s a s' h hstep ⟨htext, hfree⟩
  exact h.step hstep htext hfree

/-- If the data has no NULs and is read only when no other client has pending output, and nothing
else writes to a buffer in which there is pending output, then every client is sent the data that was received
from the others since it was accepted, each piece once and in order, and all of it when it has
no pending output. -/
theorem messages_relayed
    (hrun : Logged Step Undisturbed Server.happens (start listenfd users) log s) {e : PollFd}
    (he : e ∈ s.fds.tail) :
    sentTo e.fd log <+: owedTo e.fd log ∧
      (output s e = none → sentTo e.fd log = owedTo e.fd log) := by
  have hbalance := ((kept_of_run hrun).balanced e he).balance
  refine ⟨⟨awaited s e, hbalance⟩, fun hnone => ?_⟩
  rw [awaited, hnone] at hbalance
  exact (List.append_nil _).symm.trans hbalance

end Runs

/-! ## Runs of two and three clients -/

section Schedules

variable {s s' : Server} {a : Action}

instance (s : Server) (c : Int) : ∀ o, Decidable (MayRead s c o)
  | .data _ => inferInstanceAs (Decidable (∀ e ∈ s.fds.tail, e.fd ≠ c → output s e = none))
  | .nothing | .conn _ | .eof | .again | .failed =>
    inferInstanceAs (Decidable (∀ e ∈ s.fds.tail, e.fd ≠ c → output s e ≠ some c))

instance (s : Server) (c : Int) : Decidable (BufferFree s c) :=
  inferInstanceAs (Decidable (∀ e ∈ s.fds.tail, e.fd ≠ c → output s e ≠ some c))

instance (s : Server) : ∀ a, Decidable (NoneOverwritten s a)
  | .handle o =>
    inferInstanceAs (Decidable (∀ e ∈ s.fds[s.i]?,
      (branch s.listenfd e = .receive → MayRead s e.fd o) ∧
        (branch s.listenfd e = .leave → s.fds.getLast? = some e ∨ BufferFree s e.fd)))
  | .poll _ | .pollFailure => isTrue trivial

instance : ∀ a, Decidable (ReceivesText a)
  | .handle (.data data) => inferInstanceAs (Decidable (0 ∉ data))
  | .handle .nothing | .handle (.conn _) | .handle .eof | .handle .again | .handle .failed
  | .poll _ | .pollFailure => isTrue trivial

instance (s : Server) (a : Action) : Decidable (Undisturbed s a) := inferInstanceAs (Decidable (_ ∧ _))

/-- The step function of the server. -/
def follow : Server → Action → Option Server := attempt Server.Enabled fun s a => (s.perform a).1

/-- What `follow` gives is a step. -/
theorem step_of_follow (h : follow s a = some s') : Step s a s' := attempt_eq_some h

end Schedules

/-- `poll` reports one descriptor. -/
def ready (fd : Int) (flag : BitVec 16) : Action := .poll fun d => if d = fd then flag else 0#16

/-- Two clients connect. -/
def twoClients : List Action :=
  [ready 3 POLLIN, .handle (.conn 5), .handle .nothing,
    ready 3 POLLIN, .handle (.conn 6), .handle .nothing, .handle .nothing]

/-- Data of the first client is received. -/
def message (text : List UInt8) : List Action :=
  [ready 5 POLLIN, .handle .nothing, .handle (.data text), .handle .nothing]

/-- The second client is writable. -/
def writable : List Action := ready 6 POLLOUT :: List.replicate 3 (.handle .nothing)

/-- Elements of `users` with a pointer and a text in them. -/
def junk (_ : Int) : ClientData := ⟨some 7, [74, 0]⟩

/-- The first message is sent before the second one is received. -/
theorem messages_relayed_two :
    ∃ log s, Logged Step Undisturbed Server.happens (start 3 junk) log s ∧
      sentTo 6 log = [[1], [2]] ∧ ∀ e ∈ s.fds.tail, sentTo e.fd log <+: owedTo e.fd log ∧
        (output s e = none → sentTo e.fd log = owedTo e.fd log) := by
  have hlog : (loggedSchedule follow Undisturbed Server.happens (start 3 junk)
      (twoClients ++ message [1] ++ writable ++ message [2] ++ writable)).map Prod.fst =
      some [.accepted 5, .accepted 6, .received 5 [1], .sent 6 [1], .received 5 [2], .sent 6 [2]] := by
    decide +kernel
  obtain ⟨⟨log, s⟩, hrun, heq⟩ := Option.map_eq_some_iff.mp hlog
  have hlogged := Logged.of_schedule .refl (fun s a s' => step_of_follow) (fun _ _ _ h => h) hrun
  rw [List.nil_append] at hlogged
  refine ⟨log, s, hlogged, ?_, fun e he => messages_relayed hlogged he⟩
  rw [show log = _ from heq]
  decide

/-- A client without pending output was not sent what it is owed. -/
def Wronged (log : List Happening) (s : Server) : Prop :=
  ∃ e ∈ s.fds.tail, output s e = none ∧ sentTo e.fd log ≠ owedTo e.fd log

instance (log : List Happening) (s : Server) : Decidable (Wronged log s) :=
  inferInstanceAs (Decidable (∃ e ∈ s.fds.tail, output s e = none ∧ sentTo e.fd log ≠ owedTo e.fd log))

/-- A schedule that wrongs a client is a run that does. -/
theorem exists_wronged {as : List Action}
    (h : (loggedSchedule follow (fun _ a => ReceivesText a) Server.happens (start 3 junk) as).any
      (fun r => Wronged r.1 r.2) = true) :
    ∃ log s, Logged Step (fun _ a => ReceivesText a) Server.happens (start 3 junk) log s ∧ Wronged log s := by
  obtain ⟨⟨log, s⟩, hrun, hwronged⟩ := (Option.any_eq_true _ _).mp h
  refine ⟨log, s, ?_, of_decide_eq_true hwronged⟩
  exact Logged.of_schedule .refl (fun s a s' => step_of_follow) (fun _ _ _ h => h) hrun

/-- The second message comes before the other client is writable: only this one is sent. -/
theorem message_replaced :
    ¬ ∀ log s, Logged Step (fun _ a => ReceivesText a) Server.happens (start 3 junk) log s →
      ∀ e ∈ s.fds.tail, output s e = none → sentTo e.fd log = owedTo e.fd log := by
  intro hall
  have hrun : (loggedSchedule follow (fun _ a => ReceivesText a) Server.happens (start 3 junk)
      (twoClients ++ message [1] ++ message [2] ++ writable)).any (fun r => Wronged r.1 r.2) = true := by
    decide +kernel
  obtain ⟨log, s, hlogged, e, he, hnone, hne⟩ := exists_wronged hrun
  exact hne (hall log s hlogged e he hnone)

/-- A third client connects, the first one sends and leaves, and the second one is writable. -/
def senderLeaves : List Action :=
  twoClients ++ [ready 3 POLLIN, .handle (.conn 7)] ++ List.replicate 3 (.handle .nothing) ++
    message [1] ++ [.handle .nothing, ready 5 POLLRDHUP] ++ List.replicate 4 (.handle .nothing) ++ writable

/-- It is sent what is in the buffer of the third client, which took the place of the first. -/
theorem leaver_replaced :
    ∃ log s, Logged Step (fun _ a => ReceivesText a) Server.happens (start 3 junk) log s ∧ Wronged log s := by
  have hrun : (loggedSchedule follow (fun _ a => ReceivesText a) Server.happens (start 3 junk) senderLeaves).any
      (fun r => Wronged r.1 r.2) = true := by decide +kernel
  exact exists_wronged hrun

end ServerListings.Analysis.PollChat
