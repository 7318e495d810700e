import ServerListings.Interface.ChatRounds
import ServerListings.Lib.Transition

/-!
# One pass of the poll chat server over `fds`

A round looks at one element of `fds`. It goes on, adds an element at the end, or moves the last
element into the place of the one that it removes and looks at the same place again: to the
descriptors and their `revents`, the pass is a `Passing` over a table that changes.
-/

set_option autoImplicit false

namespace ServerListings.Interface.PollChat

open Lib.DenseTable Lib.Transition ServerListings.Model.PollChat

/-- What `poll` has said about an element of `fds`. -/
def polled (e : PollFd) : Int × BitVec 16 := (e.fd, e.revents)

/-- A round that was made: the element of `fds`, the branch, what `accept` or `recv` returned,
and what the server did. -/
structure Round where
  entry : PollFd
  branch : Branch
  outcome : Outcome
  did : List Happening

/-- The client leaves, or `recv` fails with an error other than `EAGAIN`. -/
def Leaves (b : Branch) (o : Outcome) : Prop := b = .leave ∨ (b = .receive ∧ o = .failed)

instance (b : Branch) (o : Outcome) : Decidable (Leaves b o) := inferInstanceAs (Decidable (_ ∨ _))

/-- In other branches no client leaves. -/
theorem not_leaves {b b' : Branch} (hb : b = b') (hleave : b' ≠ .leave) (hreceive : b' ≠ .receive)
    (o : Outcome) : ¬ Leaves b o := by
  subst hb
  rintro (h | ⟨h, -⟩)
  · exact hleave h
  · exact hreceive h

/-- A round of the loop over `fds`, with what `accept` or `recv` returns. `accept` returns a
descriptor that is not open. -/
def RoundStep (s : Server) (o : Outcome) (s' : Server) : Prop :=
  ∃ e, s.fds[s.i]? = some e ∧ (∀ connfd, o = .conn connfd → ∀ e' ∈ s.fds, e'.fd ≠ connfd) ∧
    s' = (s.round e o).1

def rounds (s : Server) (o : Outcome) : List Round :=
  match s.fds[s.i]? with
  | none => []
  | some e => [⟨e, branch s.listenfd e, o, (s.round e o).2⟩]

def acceptedFd : Happening → Option Int
  | .accepted fd => some fd
  | _ => none

def closedFd : Happening → Option Int
  | .closed fd => some fd
  | _ => none

/-- The clients that were accepted. -/
def accepted (log : List Round) : List Int := (log.flatMap Round.did).filterMap acceptedFd

/-- The calls of `close`. -/
def closings (log : List Round) : List Int := (log.flatMap Round.did).filterMap closedFd

/-- The rounds in which a client is removed. -/
def leaving (log : List Round) : List Round := log.filter fun r => Leaves r.branch r.outcome

/-- The descriptors of the clients. -/
def clients (s : Server) : List Int := s.fds.tail.map PollFd.fd

/-- The state when `poll` has returned. -/
structure AtPoll (s : Server) : Prop where
  index : s.i = 0
  listening : ∃ head rest, s.fds = head :: rest ∧ head.fd = s.listenfd ∧
    head.revents &&& ~~~(POLLIN ||| POLLERR) = 0#16
  nodup : (s.fds.map PollFd.fd).Nodup
  room : s.userCounter ≤ USER_LIMIT

section Effects

variable {s s' : Server} {e e' : PollFd} {o : Outcome} {log log' : List Round}

/-- The clients accepted in two parts of a pass. -/
theorem accepted_append (log log' : List Round) : accepted (log ++ log') = accepted log ++ accepted log' := by
  rw [accepted, List.flatMap_append, List.filterMap_append]
  rfl

/-- The connections closed in two parts of a pass. -/
theorem closings_append (log log' : List Round) : closings (log ++ log') = closings log ++ closings log' := by
  rw [closings, List.flatMap_append, List.filterMap_append]
  rfl

/-- The clients that leave in two parts of a pass. -/
theorem leaving_append (log log' : List Round) : leaving (log ++ log') = leaving log ++ leaving log' :=
  List.filter_append ..

/-- What a round does to what `poll` has said. -/
inductive RoundEffect (s : Server) (e : PollFd) (o : Outcome) : Server × List Happening → Prop where
  | next {s' : Server} {did : List Happening} (hfds : s'.fds.map polled = s.fds.map polled)
      (hindex : s'.i = s.i + 1) (haccepted : did.filterMap acceptedFd = [])
      (hclosed : did.filterMap closedFd = []) (hstays : ¬ Leaves (branch s.listenfd e) o) :
      RoundEffect s e o (s', did)
  | refused {s' : Server} {did : List Happening} {connfd : Int} (ho : o = .conn connfd)
      (hbranch : branch s.listenfd e = .accept) (hfds : s'.fds.map polled = s.fds.map polled)
      (hindex : s'.i = s.i + 1) (haccepted : did.filterMap acceptedFd = [])
      (hclosed : did.filterMap closedFd = [connfd]) : RoundEffect s e o (s', did)
  | added {s' : Server} {did : List Happening} {connfd : Int} (ho : o = .conn connfd)
      (hbranch : branch s.listenfd e = .accept)
      (hfds : s'.fds.map polled = s.fds.map polled ++ [(connfd, 0)]) (hindex : s'.i = s.i + 1)
      (haccepted : did.filterMap acceptedFd = [connfd]) (hclosed : did.filterMap closedFd = [])
      (hroom : s.userCounter < USER_LIMIT) : RoundEffect s e o (s', did)
  | removed {s' : Server} {did : List Happening} {last : PollFd} (hlast : s.fds.getLast? = some last)
      (hfds : s'.fds.map polled = ((s.fds.map polled).set s.i (polled last)).dropLast)
      (hindex : s'.i = s.i) (haccepted : did.filterMap acceptedFd = [])
      (hclosed : did.filterMap closedFd = [e.fd]) (hleaves : Leaves (branch s.listenfd e) o) :
      RoundEffect s e o (s', did)

/-- To notify the others changes nothing that `poll` was given. -/
theorem polled_notify (s : Server) (connfd : Int) :
    (s.notify connfd).fds.map polled = s.fds.map polled := by
  have hsame : ∀ e : PollFd, polled (if e.fd = connfd then e else
      { e with events := e.events ||| ~~~POLLIN ||| POLLOUT }) = polled e := by
    intro e
    split <;> rfl
  show (s.fds.take 1 ++ s.fds.tail.map _).map polled = _
  cases s.fds with
  | nil => rfl
  | cons head rest =>
    show polled head :: (rest.map _).map polled = polled head :: rest.map polled
    rw [List.map_map]
    exact congrArg _ (List.map_congr_left fun e _ => hsame e)

/-- An element that looks the same to `poll` takes the place of another one. -/
theorem polled_set (hi : s.fds[s.i]? = some e) (hsame : polled e' = polled e) :
    (s.fds.set s.i e').map polled = s.fds.map polled := by
  obtain ⟨hlt, hget⟩ := List.getElem?_eq_some_iff.mp hi
  rw [List.map_set, hsame, ← hget]
  apply List.ext_getElem?
  intro j
  rw [List.getElem?_set]
  grind

/-- A client is removed. -/
theorem remove_effect (hi : s.fds[s.i]? = some e) (hleaves : Leaves (branch s.listenfd e) o)
    (hfds : s'.fds = s.fds) (hindex : s'.i = s.i) (hlisten : s'.listenfd = s.listenfd) :
    (s'.remove e).1.listenfd = s.listenfd ∧ RoundEffect s e o (s'.remove e) := by
  obtain ⟨hlt, -⟩ := List.getElem?_eq_some_iff.mp hi
  obtain ⟨last, hlast⟩ : ∃ last, s.fds.getLast? = some last :=
    Option.isSome_iff_exists.mp (List.getLast?_isSome.mpr (List.ne_nil_of_length_pos (by omega)))
  have hlast' : s'.fds.getLast? = some last := by rw [hfds, hlast]
  simp only [Server.remove, hlast']
  refine ⟨hlisten, .removed hlast ?_ hindex rfl rfl hleaves⟩
  rw [hfds, hindex, ← List.map_set, List.map_dropLast]

/-- What a round does to `fds`. -/
theorem round_effect (hi : s.fds[s.i]? = some e) (o : Outcome) :
    (s.round e o).1.listenfd = s.listenfd ∧ RoundEffect s e o (s.round e o) := by
  unfold Server.round
  cases hbranch : branch s.listenfd e with
  | accept =>
    have hstays := not_leaves hbranch (by simp) (by simp) o
    cases o with
    | conn connfd =>
      show (s.accept connfd).1.listenfd = _ ∧ RoundEffect s e _ (s.accept connfd)
      unfold Server.accept
      split
      · exact ⟨rfl, .refused rfl hbranch rfl rfl rfl rfl⟩
      · rename_i hroom
        refine ⟨rfl, .added rfl hbranch ?_ rfl rfl rfl (Nat.lt_of_not_le hroom)⟩
        rw [List.map_append]
        rfl
    | _ => exact ⟨rfl, .next rfl rfl rfl rfl hstays⟩
  | error =>
    have hstays := not_leaves hbranch (by simp) (by simp) o
    exact ⟨rfl, .next rfl rfl rfl rfl hstays⟩
  | leave => exact remove_effect hi (Or.inl hbranch) rfl rfl rfl
  | receive =>
    have hstays : o ≠ .failed → ¬ Leaves (branch s.listenfd e) o := by
      rw [hbranch]
      rintro hne (h | ⟨-, h⟩)
      · cases h
      · exact hne h
    cases o with
    | data data => exact ⟨rfl, .next (polled_notify _ _) rfl rfl rfl (hstays nofun)⟩
    | failed => exact remove_effect hi (Or.inr ⟨hbranch, rfl⟩) rfl rfl rfl
    | _ => exact ⟨rfl, .next rfl rfl rfl rfl (hstays nofun)⟩
  | send =>
    have hstays := not_leaves hbranch (by simp) (by simp) o
    show (s.send e).1.listenfd = _ ∧ RoundEffect s e _ (s.send e)
    unfold Server.send
    split
    · exact ⟨rfl, .next rfl rfl rfl rfl hstays⟩
    · exact ⟨rfl, .next (polled_set hi rfl) rfl rfl rfl hstays⟩
  | none =>
    have hstays := not_leaves hbranch (by simp) (by simp) o
    exact ⟨rfl, .next rfl rfl rfl rfl hstays⟩

end Effects

end ServerListings.Interface.PollChat
