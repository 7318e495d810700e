import ServerListings.Analysis.PollChat
import ServerListings.Interface.ChatInterest

/-!
# When the poll chat server asks for writability

A client should be registered for `POLLOUT` as long as it has a `write_buf`, and for `POLLIN`
otherwise. It is so until the first data is received from another client, if the element of
`users` that it was given had no pointer in it: nothing clears this pointer when a client is
accepted, and no flag is ever taken away.
-/

set_option autoImplicit false

namespace ServerListings.Analysis.PollInterest

open Lib.Transition ServerListings.Model.PollChat ServerListings.Interface.PollChat
open ServerListings.Analysis.PollChat

/-- `main` is at its call of `poll`. -/
def CallsPoll (s : Server) : Prop := s.running = true ∧ s.fds.length ≤ s.i

/-- The server asks for writability if it has something to write to the client, and for data if
it has not. -/
def Asks (s : Server) (e : PollFd) : Prop :=
  (has e.events POLLOUT = true ↔ (s.users e.fd).writeBuf ≠ none) ∧
    (has e.events POLLIN = true ↔ (s.users e.fd).writeBuf = none)

section Runs

variable {log : List Entry} {s : Server} {e : PollFd} {listenfd : Int} {users : Int → ClientData}

/-- In every run the interest is what the log says. -/
theorem interested_of_run
    (hrun : Logged Step (fun _ _ => True) witnessed (start listenfd users) log s) :
    Interested log s := by
  apply hrun.invariant (I := Interested) (interested_start listenfd users)
  intro log s a s' h hstep _
  exact h.step hstep

/-- A client that was not notified is registered for `POLLIN` only, and one that was for both. -/
theorem asks_of_interest (h : Interest log s e) :
    Asks s e ↔ foundAt e.fd log = none ∧ received e.fd log = [] := by
  constructor
  · rintro ⟨hout, hin⟩
    have hnull : (s.users e.fd).writeBuf = none := hin.mp h.pollin
    have hquiet : received e.fd log = [] := by
      by_contra hne
      exact hout.mp (h.pollout.mpr hne) hnull
    refine ⟨?_, hquiet⟩
    rw [← h.kept hquiet]
    exact hnull
  · rintro ⟨hfound, hquiet⟩
    have hnull : (s.users e.fd).writeBuf = none := (h.kept hquiet).trans hfound
    constructor
    · exact iff_of_false (fun hout => h.pollout.mp hout hquiet) (not_not.mpr hnull)
    · exact iff_of_true h.pollin hnull

/-- In every state of every run, the server asks of a client what it should if and only if
`write_buf` was null when the client was accepted and no data was received from another client
since. A client that was just accepted has what was there pending. -/
theorem asks_iff
    (hrun : Logged Step (fun _ _ => True) witnessed (start listenfd users) log s)
    (he : e ∈ s.fds.tail) :
    (Asks s e ↔ foundAt e.fd log = none ∧ received e.fd log = []) ∧
      ∀ before users', log = before ++ [(.accepted e.fd, users')] →
        ((s.users e.fd).writeBuf = none ↔ (users' e.fd).writeBuf = none) := by
  have h := (interested_of_run hrun).interest e he
  refine ⟨asks_of_interest h, ?_⟩
  rintro before users' rfl
  rw [h.kept (received_accepted before users' e.fd), foundAt_accepted]

end Runs

/-! ## Two clients -/

/-- Elements of `users` with null pointers. -/
def cleared (_ : Int) : ClientData := ⟨none, []⟩

/-- Two clients that have asked for nothing but to read. -/
theorem asks_iff_two :
    ∃ log s, Logged Step (fun _ _ => True) witnessed (start 3 cleared) log s ∧
      s.fds.tail.map PollFd.fd = [5, 6] ∧ ∀ e ∈ s.fds.tail,
        (Asks s e ↔ foundAt e.fd log = none ∧ received e.fd log = []) ∧
          ∀ before users', log = before ++ [(.accepted e.fd, users')] →
            ((s.users e.fd).writeBuf = none ↔ (users' e.fd).writeBuf = none) := by
  have hrun : (loggedSchedule follow (fun _ _ => True) witnessed (start 3 cleared) twoClients).map
      (fun r => r.2.fds.tail.map PollFd.fd) = some [5, 6] := by decide +kernel
  obtain ⟨⟨log, s⟩, hsome, hfds⟩ := Option.map_eq_some_iff.mp hrun
  have hlogged := Logged.of_schedule .refl (fun s a s' => step_of_follow) (fun _ _ _ h => h) hsome
  rw [List.nil_append] at hlogged
  exact ⟨log, s, hlogged, hfds, fun e he => asks_iff hlogged he⟩

instance (s : Server) (e : PollFd) : Decidable (Asks s e) := inferInstanceAs (Decidable (_ ∧ _))

instance (s : Server) : Decidable (CallsPoll s) := inferInstanceAs (Decidable (_ ∧ _))

/-- The first client sends a byte. At the next call of `poll` the second one is registered for
`POLLOUT` and `POLLIN`. -/
theorem asks_for_both :
    ¬ ∀ log s, Logged Step (fun _ _ => True) witnessed (start 3 cleared) log s → CallsPoll s →
      ∀ e ∈ s.fds.tail, Asks s e := by
  intro hall
  have hrun : (loggedSchedule follow (fun _ _ => True) witnessed (start 3 cleared)
      (twoClients ++ message [1])).any
        (fun r => CallsPoll r.2 ∧ ∃ e ∈ r.2.fds.tail, ¬ Asks r.2 e) = true := by
    decide +kernel
  obtain ⟨⟨log, s⟩, hsome, hbad⟩ := (Option.any_eq_true _ _).mp hrun
  have hlogged := Logged.of_schedule .refl (fun s a s' => step_of_follow) (fun _ _ _ h => h) hsome
  rw [List.nil_append] at hlogged
  obtain ⟨hpoll, e, he, hnot⟩ := of_decide_eq_true hbad
  exact hnot (hall log s hlogged hpoll e he)

end ServerListings.Analysis.PollInterest
