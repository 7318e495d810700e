import ServerListings.Interface.ChatRounds

/-!
# What the clients of the chat server are registered for

`|=` adds flags to `events` and takes none away. So a client stays registered for `POLLIN`, and
it is registered for `POLLOUT` from the first data on that is received from another client.
Before that nobody writes to its `write_buf`: what is there was there when the client was
accepted. `Interest` says this of a client, with a log that also has `users` as it was before
each entry.
-/

set_option autoImplicit false

namespace ServerListings.Interface.PollChat

open Lib.CMem Lib.FlagWord ServerListings.Model.PollChat

/-- A happening and what `users` was before it. -/
abbrev Entry := Happening × (Int → ClientData)

def entries (users : Int → ClientData) (l : List Happening) : List Entry := l.map fun x => (x, users)

/-- What the server does in a step, with `users` before it. -/
def witnessed (s : Server) (a : Action) : List Entry := entries s.users (s.happens a)

/-- What `accept` of a client found in `write_buf` of its element of `users`. -/
def foundAt (d : Int) (log : List Entry) : Option Int :=
  log.foldl (fun found x => if x.1 = .accepted d then (x.2 d).writeBuf else found) none

/-- The data that was received from the other clients since the client was accepted. -/
def received (d : Int) (log : List Entry) : List (List UInt8) := owedTo d (log.map Prod.fst)

section Flags

variable {events : BitVec 16}

/-- `POLLIN` is the lowest bit. -/
theorem has_POLLIN (flags : BitVec 16) : has flags POLLIN = flags.getLsbD 0 := by
  have hflag : POLLIN = BitVec.twoPow 16 0 := by decide
  rw [has, hflag]
  exact and_flag flags (by decide)

/-- An entry that waits for room in the socket as well still asks for `POLLIN`. -/
theorem POLLIN_notified (h : has events POLLIN = true) :
    has (events ||| ~~~POLLIN ||| POLLOUT) POLLIN = true := by
  rw [has_POLLIN] at h ⊢
  rw [BitVec.getLsbD_or, BitVec.getLsbD_or, h, Bool.true_or, Bool.true_or]

/-- An entry asks for `POLLIN` again after something was sent. -/
theorem POLLIN_sent (events : BitVec 16) : has (events ||| ~~~POLLOUT ||| POLLIN) POLLIN = true := by
  have hbit : POLLIN.getLsbD 0 = true := by decide
  rw [has_POLLIN, BitVec.getLsbD_or, hbit, Bool.or_true]

/-- After `send` a client is registered for `POLLOUT` as before: `~POLLOUT` has every other flag. -/
theorem POLLOUT_sent (events : BitVec 16) :
    has (events ||| ~~~POLLOUT ||| POLLIN) POLLOUT = has events POLLOUT := by
  have hout : (~~~POLLOUT).getLsbD 2 = false := by decide
  have hin : POLLIN.getLsbD 2 = false := by decide
  rw [has_POLLOUT, has_POLLOUT, BitVec.getLsbD_or, BitVec.getLsbD_or, hout, hin, Bool.or_false,
    Bool.or_false]

end Flags

section Logs

variable {log l : List Entry} {d : Int} {users : Int → ClientData} {hs : List Happening}

/-- The happenings of the entries of a log. -/
theorem map_entries (users : Int → ClientData) (hs : List Happening) :
    (entries users hs).map Prod.fst = hs := by
  rw [entries, List.map_map]
  exact List.map_id hs

/-- What a client was accepted with stays until it is accepted again. -/
theorem foundAt_append (h : ∀ x ∈ l, x.1 ≠ .accepted d) : foundAt d (log ++ l) = foundAt d log := by
  induction l generalizing log with
  | nil => rw [List.append_nil]
  | cons x l ih =>
    have hx := h x List.mem_cons_self
    rw [List.append_cons, ih fun y hy => h y (List.mem_cons_of_mem _ hy), foundAt, List.foldl_append,
      List.foldl_cons, List.foldl_nil, if_neg hx, ← foundAt]

/-- What is found at a new client is what was in `users`. -/
theorem foundAt_accepted (log : List Entry) (users : Int → ClientData) (d : Int) :
    foundAt d (log ++ [(.accepted d, users)]) = (users d).writeBuf := by
  rw [foundAt, List.foldl_append, List.foldl_cons, List.foldl_nil, if_pos rfl]

/-- Nothing was received from a new client. -/
theorem received_accepted (log : List Entry) (users : Int → ClientData) (d : Int) :
    received d (log ++ [(.accepted d, users)]) = [] := by
  rw [received, List.map_append]
  exact since_accepted

/-- What happens to others brings no bytes. -/
theorem received_foreign (h : ∀ x ∈ hs, Foreign d x) :
    received d (log ++ entries users hs) = received d log := by
  rw [received, List.map_append, map_entries]
  exact owedTo_foreign h

/-- What happens to others leaves the client's first message alone. -/
theorem foundAt_foreign (h : ∀ x ∈ hs, Foreign d x) :
    foundAt d (log ++ entries users hs) = foundAt d log := by
  apply foundAt_append
  intro x hx
  obtain ⟨y, hy, rfl⟩ := List.mem_map.mp hx
  rintro rfl
  exact h _ hy rfl

end Logs

section Interest

variable {log : List Entry} {s s' : Server} {e e' : PollFd} {c : Int} {hs : List Happening}
  {users : Int → ClientData}

/-- What a client is registered for, and what is in its `write_buf` as long as it was not
notified. -/
structure Interest (log : List Entry) (s : Server) (e : PollFd) : Prop where
  pollin : has e.events POLLIN = true
  pollout : has e.events POLLOUT = true ↔ received e.fd log ≠ []
  kept : received e.fd log = [] → (s.users e.fd).writeBuf = foundAt e.fd log

/-- The elements of `fds` are in order and every client is registered in this way. -/
structure Interested (log : List Entry) (s : Server) : Prop where
  shaped : Shaped s
  interest : ∀ e ∈ s.fds.tail, Interest log s e

/-- A step that does not concern the client. -/
theorem Interest.frame (h : Interest log s e) (hfd : e'.fd = e.fd) (hevents : e'.events = e.events)
    (hbuf : (s'.users e.fd).writeBuf = (s.users e.fd).writeBuf) (hl : ∀ x ∈ hs, Foreign e.fd x) :
    Interest (log ++ entries users hs) s' e' := by
  constructor
  · rw [hevents]
    exact h.pollin
  · rw [hevents, hfd, received_foreign hl]
    exact h.pollout
  · rw [hfd, received_foreign hl, foundAt_foreign hl, hbuf]
    exact h.kept

/-- A step that does nothing to `fds` and to the `write_buf` of the clients. -/
theorem Interested.frame (h : Interested log s) (hfds : s'.fds = s.fds) (hfd : s'.listenfd = s.listenfd)
    (hbuf : ∀ d, (s'.users d).writeBuf = (s.users d).writeBuf)
    (hl : ∀ e ∈ s.fds.tail, ∀ x ∈ hs, Foreign e.fd x) :
    Interested (log ++ entries users hs) s' := by
  refine ⟨h.shaped.congr hfds hfd, fun e he => ?_⟩
  rw [hfds] at he
  exact (h.interest e he).frame rfl rfl (hbuf _) (hl e he)

/-- The next element of `fds` is looked at. -/
theorem Interested.idle (h : Interested log s) : Interested (log ++ entries users []) s.next :=
  h.frame rfl rfl (fun _ => rfl) fun _ _ _ hx => absurd hx List.not_mem_nil

/-- `poll` returns. -/
theorem Interested.poll {revents : Int → BitVec 16} (h : Interested log s)
    (hrevents : ∀ e ∈ s.fds, Reported e.events (revents e.fd)) :
    Interested (log ++ entries users []) (s.poll revents) := by
  refine ⟨h.shaped.poll hrevents, fun e he => ?_⟩
  obtain ⟨e₀, he₀, rfl⟩ := mem_tail_poll he
  exact (h.interest e₀ he₀).frame rfl rfl rfl fun _ hx => absurd hx List.not_mem_nil

/-- A new client is registered for `POLLIN`, and has in its `write_buf` what was there. -/
theorem interest_accepted (log : List Entry) (s s' : Server) (hbuf : s'.users = s.users) (connfd : Int) :
    Interest (log ++ entries s.users [.accepted connfd]) s'
      ⟨connfd, POLLIN ||| POLLRDHUP ||| POLLERR, 0⟩ := by
  have hnone := received_accepted log s.users connfd
  have hin : has (POLLIN ||| POLLRDHUP ||| POLLERR) POLLIN = true := by decide
  have hout : has (POLLIN ||| POLLRDHUP ||| POLLERR) POLLOUT = false := by decide
  refine ⟨hin, ?_, fun _ => ?_⟩
  · show has (POLLIN ||| POLLRDHUP ||| POLLERR) POLLOUT = true ↔ _
    rw [hout]
    exact iff_of_false Bool.false_ne_true fun hne => hne hnone
  · rw [hbuf]
    exact (foundAt_accepted log s.users connfd).symm

/-- A client is accepted and registered for `POLLIN`. -/
theorem Interested.accept {connfd : Int} (h : Interested log s) (hnew : ∀ e ∈ s.fds, e.fd ≠ connfd) :
    Interested (log ++ entries s.users (s.accept connfd).2) (s.accept connfd).1 := by
  have hold : ∀ e ∈ s.fds.tail, connfd ≠ e.fd :=
    fun e he => (hnew e (List.mem_of_mem_tail he)).symm
  unfold Server.accept
  split
  · refine h.frame rfl rfl (fun _ => rfl) fun e he x hx => ?_
    simp only [List.mem_cons, List.not_mem_nil, or_false] at hx
    rcases hx with rfl | rfl
    · exact hold e he
    · exact trivial
  · have hregistered : Reported (POLLIN ||| POLLRDHUP ||| POLLERR) 0 := by decide
    refine ⟨h.shaped.append rfl rfl hnew hregistered, fun e he => ?_⟩
    rcases h.shaped.mem_tail_append he with he | rfl
    · refine (h.interest e he).frame rfl rfl rfl fun x hx => ?_
      rw [List.mem_singleton.mp hx]
      exact hold e he
    · refine interest_accepted log s _ ?_ connfd
      rfl

/-- A client is removed, and the last element takes its place. -/
theorem Interested.remove (h : Interested log s) (hi : s.fds[s.i]? = some e)
    (hne : e.fd ≠ s.listenfd) :
    Interested (log ++ entries users (s.remove e).2) (s.remove e).1 := by
  obtain ⟨last, -, hlog, husers, hshaped, hothers⟩ := h.shaped.remove hi hne
  rw [hlog]
  refine ⟨hshaped, fun e' he' => ?_⟩
  obtain ⟨htail, hother⟩ := hothers e' he'
  refine (h.interest e' htail).frame rfl rfl ?_ fun x hx => ?_
  · rw [husers, Function.update_of_ne hother]
  · rw [List.mem_singleton.mp hx]
    exact trivial

/-- A message of a client is read into its buffer. -/
theorem Interested.fill (h : Interested log s) (c : Int) (buf : List UInt8) :
    Interested log (s.fill c buf) := by
  have hfill : Interested (log ++ entries s.users []) (s.fill c buf) :=
    h.frame rfl rfl (fill_writeBuf s c buf) fun _ _ _ hx => absurd hx List.not_mem_nil
  rwa [show log ++ entries s.users [] = log from List.append_nil _] at hfill

/-! ## Data -/

/-- The others are registered for `POLLOUT` too when data of a client was received. -/
theorem Interest.received {data : List UInt8} (h : Interest log s e) (c : Int) :
    Interest (log ++ entries users [.received c data]) (s.notify c) (prepared c e) := by
  by_cases hc : e.fd = c
  · have hkeep : prepared c e = e := by rw [prepared, if_pos hc]
    rw [hkeep]
    refine h.frame rfl rfl ?_ fun x hx => ?_
    · rw [hc, notify_users_self]
    · rw [List.mem_singleton.mp hx]
      exact hc.symm
  · have hmore : PollChat.received e.fd (log ++ entries users [.received c data]) =
        PollChat.received e.fd log ++ [data] := by
      rw [PollChat.received, List.map_append, map_entries, owedTo_received _ _ (Ne.symm hc),
        ← PollChat.received]
    refine ⟨?_, ?_, ?_⟩
    · rw [prepared, if_neg hc]
      exact POLLIN_notified h.pollin
    · rw [prepared_fd, hmore]
      exact iff_of_true (has_prepared hc) (by simp)
    · rw [prepared_fd, hmore]
      intro hnil
      exact absurd hnil (by simp)

/-- The other clients are registered for room in their sockets. -/
theorem Interested.received {data : List UInt8} (h : Interested log s) (c : Int) :
    Interested (log ++ entries users [.received c data]) (s.notify c) := by
  refine ⟨h.shaped.notify c, fun e he => ?_⟩
  obtain ⟨e₀, he₀, rfl⟩ := h.shaped.mem_tail_notify he
  exact (h.interest e₀ he₀).received c

/-- A client that is sent its pending output was notified, and stays registered for both. -/
theorem Interest.sent {text : List UInt8} (h : Interest log s e) (hout : has e.events POLLOUT = true) :
    Interest (log ++ entries users [.sent e.fd text]) (afterSend s e)
      { e with events := e.events ||| ~~~POLLOUT ||| POLLIN } := by
  have hsame : PollChat.received e.fd (log ++ entries users [.sent e.fd text]) =
      PollChat.received e.fd log := by
    rw [PollChat.received, List.map_append, map_entries, owedTo_sent, ← PollChat.received]
  refine ⟨POLLIN_sent e.events, ?_, ?_⟩
  · show has (e.events ||| ~~~POLLOUT ||| POLLIN) POLLOUT = true ↔ _
    rw [POLLOUT_sent, hsame]
    exact h.pollout
  · show PollChat.received e.fd (log ++ entries users [.sent e.fd text]) = [] → _
    rw [hsame]
    intro hnil
    exact absurd hnil (h.pollout.mp hout)

/-- A client is sent its message. -/
theorem Interested.send (h : Interested log s) (hi : s.fds[s.i]? = some e) (hne : e.fd ≠ s.listenfd)
    (hout : has e.events POLLOUT = true) :
    Interested (log ++ entries users (s.send e).2) (s.send e).1 := by
  unfold Server.send
  split
  · exact h.idle
  · refine ⟨h.shaped.afterSend hi hne, fun e' he' => ?_⟩
    rcases h.shaped.mem_tail_afterSend hi hne he' with ⟨he, rfl⟩ | ⟨he', hfd'⟩
    · exact (h.interest e he).sent hout
    · refine (h.interest e' he').frame rfl rfl ?_ fun x hx => ?_
      · show (Function.update s.users e.fd { s.users e.fd with writeBuf := none } e'.fd).writeBuf = _
        rw [Function.update_of_ne hfd']
      · rw [List.mem_singleton.mp hx]
        exact hfd'.symm

/-! ## The steps -/

/-- A client's message is received, or the client leaves. -/
theorem Interested.receive {o : Outcome} (h : Interested log s) (hi : s.fds[s.i]? = some e)
    (hne : e.fd ≠ s.listenfd) :
    Interested (log ++ entries users (s.receive e o).2) (s.receive e o).1 := by
  cases o with
  | data data =>
    have hdata : Interested (log ++ entries users [.received e.fd data])
        ((s.fill e.fd (data ++ List.replicate (BUFFER_SIZE - data.length) 0)).notify e.fd) :=
      (h.fill e.fd _).received e.fd
    exact ⟨hdata.shaped.congr rfl rfl, fun e' he' =>
      ⟨(hdata.interest e' he').pollin, (hdata.interest e' he').pollout, (hdata.interest e' he').kept⟩⟩
  | failed => exact (h.fill e.fd (List.replicate BUFFER_SIZE 0)).remove hi hne
  | nothing => exact (h.fill e.fd (List.replicate BUFFER_SIZE 0)).idle
  | conn connfd => exact (h.fill e.fd (List.replicate BUFFER_SIZE 0)).idle
  | eof => exact (h.fill e.fd (List.replicate BUFFER_SIZE 0)).idle
  | again => exact (h.fill e.fd (List.replicate BUFFER_SIZE 0)).idle

/-- The branch for one element of `fds`. -/
theorem Interested.round {o : Outcome} (h : Interested log s) (hi : s.fds[s.i]? = some e)
    (hfits : s.Fits (branch s.listenfd e) o) :
    Interested (log ++ entries s.users (s.round e o).2) (s.round e o).1 := by
  have he := List.mem_of_getElem? hi
  unfold Server.round
  cases hbranch : branch s.listenfd e with
  | accept =>
    cases o with
    | conn connfd => exact h.accept hfits.2
    | nothing | data _ | eof | again | failed => exact h.idle
  | error => exact h.idle
  | leave => exact h.remove hi (h.shaped.fd_of_leave he hbranch)
  | receive => exact h.receive hi (fd_of_receive hbranch)
  | send =>
    exact h.send hi (h.shaped.fd_of_send he hbranch) (h.shaped.events_of_send he hbranch)
  | none => exact h.idle

/-- Every step keeps the registrations. -/
theorem Interested.step {a : Action} (h : Interested log s) (hstep : Step s a s') :
    Interested (log ++ witnessed s a) s' := by
  obtain ⟨henabled, rfl⟩ := hstep
  cases a with
  | poll revents => exact h.poll henabled.2.2
  | pollFailure =>
    exact h.frame rfl rfl (fun _ => rfl) fun _ _ _ hx => absurd hx List.not_mem_nil
  | handle o =>
    obtain ⟨e, hi, hfits⟩ := henabled
    have hperform : s.perform (.handle o) = s.round e o := by
      have hi' : s.fds[s.i]? = some e := hi
      simp only [Server.perform, hi']
    rw [witnessed, Server.happens, hperform]
    exact h.round hi hfits

/-- Before the loop there are no clients. -/
theorem interested_start (listenfd : Int) (users : Int → ClientData) :
    Interested [] (start listenfd users) :=
  ⟨(kept_start listenfd users).shaped, fun _ he => absurd he List.not_mem_nil⟩

end Interest

end ServerListings.Interface.PollChat
