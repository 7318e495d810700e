import Mathlib.Data.List.Nodup
import ServerListings.Interface.ChatPending

/-!
# The rounds of the chat server

`Kept` says that `fds` is in order and that every client is balanced. Each branch of a round
keeps it, if the branch that reads or removes a client finds no text in its buffer that another
client still waits for.
-/

set_option autoImplicit false

namespace ServerListings.Interface.PollChat

open Lib.CMem Lib.DenseTable ServerListings.Model.PollChat

section Rounds

variable {log l : List Happening} {s s' : Server} {e e' : PollFd} {c : Int} {rest : List PollFd}
  {head : PollFd} {k : Nat}

/-- The first element of `fds` is the listening socket, which is registered for `POLLIN` and
`POLLERR` only, and the descriptors are different. -/
structure Shaped (s : Server) : Prop where
  listening : ∃ head rest, s.fds = head :: rest ∧ head.fd = s.listenfd ∧
    head.events = POLLIN ||| POLLERR
  nodup : (s.fds.map PollFd.fd).Nodup
  reported : ∀ e ∈ s.fds, Reported e.events e.revents

/-- Every client is balanced. -/
structure Kept (log : List Happening) (s : Server) : Prop where
  shaped : Shaped s
  balanced : ∀ e ∈ s.fds.tail, Balanced log s e

/-- A descriptor has one entry. -/
theorem Shaped.eq_of_fd (h : Shaped s) (he : e ∈ s.fds) (he' : e' ∈ s.fds) (hfd : e.fd = e'.fd) :
    e = e' := List.inj_on_of_nodup_map h.nodup he he' hfd

/-! ## The branch of a round -/

/-- The listening socket is registered for nothing else. -/
theorem Shaped.listen_events (h : Shaped s) (he : e ∈ s.fds) (hfd : e.fd = s.listenfd) :
    e.events = POLLIN ||| POLLERR := by
  obtain ⟨head, rest, hfds, hhead, hevents⟩ := h.listening
  have heq : e = head := by
    apply h.eq_of_fd he
    · rw [hfds]
      exact List.mem_cons_self
    · rw [hfd, hhead]
  rw [heq, hevents]

/-- It is a client that is received from. -/
theorem fd_of_receive {n : Int} (h : branch n e = .receive) : e.fd ≠ n := by
  unfold branch at h
  grind

/-- A client leaves on `POLLRDHUP`. -/
theorem revents_of_leave {n : Int} (h : branch n e = .leave) : has e.revents POLLRDHUP = true := by
  unfold branch at h
  grind

/-- A client is sent to on `POLLOUT`. -/
theorem revents_of_send {n : Int} (h : branch n e = .send) : has e.revents POLLOUT = true := by
  unfold branch at h
  grind

/-- It is a client that leaves. -/
theorem Shaped.fd_of_leave (h : Shaped s) (he : e ∈ s.fds) (hbranch : branch s.listenfd e = .leave) :
    e.fd ≠ s.listenfd := by
  intro hfd
  have hbit := revents_of_leave hbranch
  rw [has_POLLRDHUP] at hbit
  have hregistered := registered_of_reported (h.reported e he) hbit (by decide)
  rw [h.listen_events he hfd] at hregistered
  exact absurd hregistered (by decide)

/-- A client for which there is something to send was registered for it. -/
theorem Shaped.events_of_send (h : Shaped s) (he : e ∈ s.fds)
    (hbranch : branch s.listenfd e = .send) : has e.events POLLOUT = true := by
  have hbit := revents_of_send hbranch
  rw [has_POLLOUT] at hbit ⊢
  exact registered_of_reported (h.reported e he) hbit (by decide)

/-- It is a client that is sent to. -/
theorem Shaped.fd_of_send (h : Shaped s) (he : e ∈ s.fds) (hbranch : branch s.listenfd e = .send) :
    e.fd ≠ s.listenfd := by
  intro hfd
  have hregistered := h.events_of_send he hbranch
  rw [h.listen_events he hfd] at hregistered
  exact absurd hregistered (by decide)

/-- The place of a client in `fds`. -/
theorem Shaped.place (h : Shaped s) (hi : s.fds[s.i]? = some e) (hne : e.fd ≠ s.listenfd) :
    ∃ head rest k, s.fds = head :: rest ∧ head.fd = s.listenfd ∧ head.events = POLLIN ||| POLLERR ∧
      s.i = k + 1 ∧ rest[k]? = some e := by
  obtain ⟨head, rest, hfds, hfd, hevents⟩ := h.listening
  cases hk : s.i with
  | zero =>
    rw [hfds, hk] at hi
    obtain rfl := Option.some.inj hi
    exact absurd hfd hne
  | succ k =>
    rw [hfds, hk, List.getElem?_cons_succ] at hi
    exact ⟨head, rest, k, hfds, hfd, hevents, rfl, hi⟩

/-- The other clients have other descriptors. -/
theorem ne_of_eraseIdx (hnodup : (rest.map PollFd.fd).Nodup) (hk : rest[k]? = some e)
    (he' : e' ∈ rest.eraseIdx k) : e' ∈ rest ∧ e'.fd ≠ e.fd := by
  obtain ⟨hlt, rfl⟩ := List.getElem?_eq_some_iff.mp hk
  have hperm := List.getElem_cons_eraseIdx_perm hlt
  have hnodup' := ((hperm.map PollFd.fd).nodup_iff).mpr hnodup
  rw [List.map_cons, List.nodup_cons] at hnodup'
  refine ⟨List.mem_of_mem_eraseIdx he', fun heq => hnodup'.1 ?_⟩
  exact List.mem_map.mpr ⟨e', he', heq⟩

/-! ## Rounds that send and receive nothing -/

/-- Entries of the log that concern no client. -/
theorem Kept.foreign (h : Kept log s) (hl : ∀ e ∈ s.fds.tail, ∀ a ∈ l, Foreign e.fd a) :
    Kept (log ++ l) s :=
  ⟨h.shaped, fun e he => (h.balanced e he).frame rfl rfl (fun _ _ => rfl) (hl e he)⟩

/-- The shape is one of the entries. -/
theorem Shaped.congr (h : Shaped s) (hfds : s'.fds = s.fds) (hfd : s'.listenfd = s.listenfd) :
    Shaped s' := by
  obtain ⟨head, rest, hold, hhead, hevents⟩ := h.listening
  refine ⟨⟨head, rest, hfds.trans hold, hhead.trans hfd.symm, hevents⟩, ?_, ?_⟩
  · rw [hfds]
    exact h.nodup
  · rw [hfds]
    exact h.reported

/-- Going on to the next entry leaves the clients balanced. -/
theorem Kept.next (h : Kept log s) : Kept log s.next :=
  ⟨h.shaped.congr rfl rfl, fun e he => ⟨(h.balanced e he).other, (h.balanced e he).balance⟩⟩

/-- `poll` keeps the shape. -/
theorem Shaped.poll {revents : Int → BitVec 16} (h : Shaped s)
    (hrevents : ∀ e ∈ s.fds, Reported e.events (revents e.fd)) : Shaped (s.poll revents) := by
  obtain ⟨head, rest, hfds, hfd, hevents⟩ := h.listening
  refine ⟨⟨{ head with revents := revents head.fd },
    rest.map fun e => { e with revents := revents e.fd }, ?_, hfd, hevents⟩, ?_, ?_⟩
  · rw [Server.poll, hfds]
    rfl
  · rw [Server.poll, List.map_map]
    exact h.nodup
  · intro e he
    obtain ⟨e₀, he₀, rfl⟩ := List.mem_map.mp he
    exact hrevents e₀ he₀

/-- A client after a call of `poll`. -/
theorem mem_tail_poll {revents : Int → BitVec 16} (he : e ∈ (s.poll revents).fds.tail) :
    ∃ e₀ ∈ s.fds.tail, e = { e₀ with revents := revents e₀.fd } := by
  have hmap : e ∈ s.fds.tail.map fun e => { e with revents := revents e.fd } := by
    rw [List.map_tail]
    exact he
  obtain ⟨e₀, he₀, rfl⟩ := List.mem_map.mp hmap
  exact ⟨e₀, he₀, rfl⟩

/-- `poll` leaves the clients balanced. -/
theorem Kept.poll {revents : Int → BitVec 16} (h : Kept log s)
    (hrevents : ∀ e ∈ s.fds, Reported e.events (revents e.fd)) : Kept log (s.poll revents) := by
  refine ⟨h.shaped.poll hrevents, fun e he => ?_⟩
  obtain ⟨e₀, he₀, rfl⟩ := mem_tail_poll he
  exact ⟨(h.balanced e₀ he₀).other, (h.balanced e₀ he₀).balance⟩

/-- A new client is owed nothing. -/
theorem balanced_accepted {connfd : Int} (log : List Happening) (s : Server) :
    Balanced (log ++ [.accepted connfd]) s ⟨connfd, POLLIN ||| POLLRDHUP ||| POLLERR, 0⟩ := by
  have hquiet : has (POLLIN ||| POLLRDHUP ||| POLLERR) POLLOUT = false := by decide
  have hout : output s ⟨connfd, POLLIN ||| POLLRDHUP ||| POLLERR, 0⟩ = none := output_eq_none hquiet
  refine ⟨fun x hx => ?_, ?_⟩
  · rw [hout] at hx
    cases hx
  · rw [sentTo, owedTo, since_accepted, since_accepted, awaited, hout]
    rfl

/-- An element is added behind the last one. -/
theorem Shaped.append (h : Shaped s) (hfds : s'.fds = s.fds ++ [e]) (hfd : s'.listenfd = s.listenfd)
    (hnew : ∀ e' ∈ s.fds, e'.fd ≠ e.fd) (hreported : Reported e.events e.revents) : Shaped s' := by
  obtain ⟨head, rest, hold, hhead, hevents⟩ := h.listening
  refine ⟨⟨head, rest ++ [e], ?_, hhead.trans hfd.symm, hevents⟩, ?_, ?_⟩
  · rw [hfds, hold, List.cons_append]
  · rw [hfds, List.map_append, List.map_singleton, List.nodup_append]
    refine ⟨h.nodup, List.nodup_singleton _, ?_⟩
    intro a ha b hb heq
    obtain ⟨e', he', rfl⟩ := List.mem_map.mp ha
    exact hnew e' he' (heq.trans (List.mem_singleton.mp hb))
  · intro e' he'
    rw [hfds] at he'
    rcases List.mem_append.mp he' with he' | he'
    · exact h.reported e' he'
    · rw [List.mem_singleton.mp he']
      exact hreported

/-- A client after another one was added. -/
theorem Shaped.mem_tail_append (h : Shaped s) (he : e ∈ (s.fds ++ [e']).tail) :
    e ∈ s.fds.tail ∨ e = e' := by
  obtain ⟨head, rest, hfds, -⟩ := h.listening
  rw [hfds] at he ⊢
  exact (List.mem_append.mp he).imp id List.mem_singleton.mp

/-- Accepting a client leaves all balanced. -/
theorem Kept.accept {connfd : Int} (h : Kept log s) (hnew : ∀ e ∈ s.fds, e.fd ≠ connfd) :
    Kept (log ++ (s.accept connfd).2) (s.accept connfd).1 := by
  have hold : ∀ e ∈ s.fds.tail, connfd ≠ e.fd :=
    fun e he => (hnew e (List.mem_of_mem_tail he)).symm
  unfold Server.accept
  split
  · apply h.next.foreign
    intro e he a ha
    simp only [List.mem_cons, List.not_mem_nil, or_false] at ha
    rcases ha with rfl | rfl
    · exact hold e he
    · exact trivial
  · have hregistered : Reported (POLLIN ||| POLLRDHUP ||| POLLERR) 0 := by decide
    refine ⟨h.shaped.append rfl rfl hnew hregistered, fun e he => ?_⟩
    rcases h.shaped.mem_tail_append he with he | rfl
    · refine (h.balanced e he).frame rfl rfl (fun _ _ => rfl) fun a ha => ?_
      rw [List.mem_singleton.mp ha]
      exact hold e he
    · exact balanced_accepted log _

/-! ## A client leaves -/

/-- The elements of `fds` after a client was removed: those of the other clients. -/
theorem Shaped.remaining (h : Shaped s) (hi : s.fds[s.i]? = some e) (hne : e.fd ≠ s.listenfd) :
    ∃ head others last, head.fd = s.listenfd ∧ head.events = POLLIN ||| POLLERR ∧ head ∈ s.fds ∧
      s.fds.getLast? = some last ∧ (s.fds.set s.i last).dropLast = head :: others ∧
      ((head :: others).map PollFd.fd).Nodup ∧ ∀ e' ∈ others, e' ∈ s.fds.tail ∧ e'.fd ≠ e.fd := by
  obtain ⟨head, rest, k, hfds, hfd, hevents, hindex, hk⟩ := h.place hi hne
  obtain ⟨hlt, -⟩ := List.getElem?_eq_some_iff.mp hk
  have hrest : rest ≠ [] := List.ne_nil_of_length_pos (Nat.zero_lt_of_lt hlt)
  obtain ⟨last, hlast⟩ : ∃ last, rest.getLast? = some last :=
    Option.isSome_iff_exists.mp (List.getLast?_isSome.mpr hrest)
  have hperm := perm_eraseIdx hlast hlt
  have hnodup := h.nodup
  rw [hfds, List.map_cons, List.nodup_cons] at hnodup
  have hsub : ∀ e' ∈ (rest.set k last).dropLast, e' ∈ rest ∧ e'.fd ≠ e.fd :=
    fun e' he' => ne_of_eraseIdx hnodup.2 hk (hperm.mem_iff.mp he')
  refine ⟨head, (rest.set k last).dropLast, last, hfd, hevents, ?_, ?_, ?_, ?_, ?_⟩
  · rw [hfds]
    exact List.mem_cons_self
  · rw [hfds, List.getLast?_cons, hlast]
    rfl
  · rw [hfds, hindex, List.set_cons_succ, List.dropLast_cons_of_ne_nil]
    simpa using hrest
  · rw [List.map_cons, List.nodup_cons]
    refine ⟨fun hmem => hnodup.1 ?_, ?_⟩
    · obtain ⟨e', he', heq⟩ := List.mem_map.mp hmem
      exact List.mem_map.mpr ⟨e', (hsub e' he').1, heq⟩
    · refine ((hperm.map PollFd.fd).nodup_iff).mpr ?_
      exact hnodup.2.sublist ((List.eraseIdx_sublist rest k).map PollFd.fd)
  · rw [hfds]
    exact hsub

/-- The removal of a client: what becomes of `users` and who is left. -/
theorem Shaped.remove (h : Shaped s) (hi : s.fds[s.i]? = some e) (hne : e.fd ≠ s.listenfd) :
    ∃ last, s.fds.getLast? = some last ∧ (s.remove e).2 = [.closed e.fd] ∧
      (s.remove e).1.users = Function.update s.users e.fd (s.users last.fd) ∧
      Shaped (s.remove e).1 ∧
      ∀ e' ∈ (s.remove e).1.fds.tail, e' ∈ s.fds.tail ∧ e'.fd ≠ e.fd := by
  obtain ⟨head, others, last, hfd, hevents, hhead, hlast, hfds, hnodup, hothers⟩ := h.remaining hi hne
  have hremove : s.remove e = ({ s with
      users := Function.update s.users e.fd (s.users last.fd), fds := head :: others },
      [.closed e.fd]) := by
    rw [Server.remove, hlast]
    simp only [hfds]
  rw [hremove]
  refine ⟨last, hlast, rfl, rfl, ⟨⟨head, others, rfl, hfd, hevents⟩, hnodup, ?_⟩, hothers⟩
  intro e' he'
  rcases List.mem_cons.mp he' with rfl | he'
  · exact h.reported e' hhead
  · exact h.reported e' (List.mem_of_mem_tail (hothers e' he').1)

/-- No text that a client waits for is in the buffer of the client that leaves, unless it is the
last one, whose element of `users` stays as it is. -/
theorem Kept.remove (h : Kept log s) (hi : s.fds[s.i]? = some e) (hne : e.fd ≠ s.listenfd)
    (hfree : s.fds.getLast? = some e ∨ BufferFree s e.fd) :
    Kept (log ++ (s.remove e).2) (s.remove e).1 := by
  obtain ⟨last, hlast, hlog, husers, hshaped, hothers⟩ := h.shaped.remove hi hne
  rw [hlog]
  refine ⟨hshaped, fun e' he' => ?_⟩
  obtain ⟨htail, hother⟩ := hothers e' he'
  refine (h.balanced e' htail).frame rfl ?_ ?_ ?_
  · rw [output, husers, Function.update_of_ne hother]
    rfl
  · intro x hx
    rw [husers]
    by_cases hxe : x = e.fd
    · subst hxe
      rcases hfree with heq | hfree
      · obtain rfl : last = e := Option.some.inj (hlast.symm.trans heq)
        rw [Function.update_self]
      · exact absurd hx (hfree e' htail hother)
    · rw [Function.update_of_ne hxe]
  · intro a ha
    rw [List.mem_singleton.mp ha]
    exact trivial

/-! ## Data of a client -/

/-- `recv` leaves the texts to be written. -/
theorem fill_writeBuf (s : Server) (c : Int) (buf : List UInt8) (d : Int) :
    ((s.fill c buf).users d).writeBuf = (s.users d).writeBuf := by
  show (Function.update s.users c _ d).writeBuf = _
  by_cases hd : d = c
  · subst hd
    rw [Function.update_self]
  · rw [Function.update_of_ne hd]

/-- `recv` leaves the buffers of the others. -/
theorem fill_buf_of_ne (s : Server) {c d : Int} (buf : List UInt8) (hd : d ≠ c) :
    ((s.fill c buf).users d).buf = (s.users d).buf := by
  show (Function.update s.users c _ d).buf = _
  rw [Function.update_of_ne hd]

/-- `recv` fills the buffer. -/
theorem fill_buf_self (s : Server) (c : Int) (buf : List UInt8) :
    ((s.fill c buf).users c).buf = buf := by
  show (Function.update s.users c _ c).buf = _
  rw [Function.update_self]

/-- `recv` leaves what is to be written. -/
theorem output_fill (s : Server) (c : Int) (buf : List UInt8) (e : PollFd) :
    output (s.fill c buf) e = output s e := by
  rw [output, output, fill_writeBuf]

/-- `memset` of a buffer that no other client waits for. -/
theorem Kept.fill {buf : List UInt8} (h : Kept log s) (hfree : BufferFree s c) :
    Kept log (s.fill c buf) := by
  refine ⟨h.shaped.congr rfl rfl, fun e he => ?_⟩
  have hbuf : ∀ x, output s e = some x → ((s.fill c buf).users x).buf = (s.users x).buf := by
    intro x hx
    apply fill_buf_of_ne
    rintro rfl
    by_cases hex : e.fd = x
    · exact (h.balanced e he).other x hx hex.symm
    · exact hfree e he hex hx
  have hkept := (h.balanced e he).frame (l := []) rfl (output_fill s c buf e) hbuf nofun
  rwa [List.append_nil] at hkept

/-- The element of another client after the loop that prepares it for `send`. -/
def prepared (c : Int) (e : PollFd) : PollFd :=
  if e.fd = c then e else { e with events := e.events ||| ~~~POLLIN ||| POLLOUT }

/-- Preparing an entry leaves its descriptor. -/
theorem prepared_fd (c : Int) (e : PollFd) : (prepared c e).fd = e.fd := by
  unfold prepared
  split <;> rfl

/-- Preparing an entry leaves what is reported of it. -/
theorem reported_prepared (h : Reported e.events e.revents) (c : Int) :
    Reported (prepared c e).events (prepared c e).revents := by
  unfold prepared
  split
  · exact h
  · exact reported_or (reported_or h _) _

/-- A prepared entry has `POLLOUT`. -/
theorem has_prepared (h : e.fd ≠ c) : has (prepared c e).events POLLOUT = true := by
  rw [prepared, if_neg h, has_POLLOUT, BitVec.getLsbD_or]
  have hbit : POLLOUT.getLsbD 2 = true := by decide
  rw [hbit, Bool.or_true]

/-- Notifying leaves the buffers. -/
theorem notify_buf (s : Server) (c d : Int) : ((s.notify c).users d).buf = (s.users d).buf := by
  show (if _ then _ else _ : ClientData).buf = _
  split <;> rfl

/-- Notifying leaves the sender. -/
theorem notify_users_self (s : Server) (c : Int) : (s.notify c).users c = s.users c :=
  if_neg fun h => h.1 rfl

/-- The others are given the sender's text. -/
theorem notify_writeBuf (he : e ∈ s.fds.tail) (hne : e.fd ≠ c) :
    ((s.notify c).users e.fd).writeBuf = some c := by
  have hmem : e.fd ∈ s.fds.tail.map PollFd.fd := List.mem_map.mpr ⟨e, he, rfl⟩
  show (if _ then _ else _ : ClientData).writeBuf = _
  rw [if_pos ⟨hne, hmem⟩]

/-- Notifying prepares the entries of the clients. -/
theorem notify_fds (h : s.fds = head :: rest) (c : Int) :
    (s.notify c).fds = head :: rest.map (prepared c) := by
  rw [Server.notify, h]
  rfl

/-- Notifying keeps the shape. -/
theorem Shaped.notify (h : Shaped s) (c : Int) : Shaped (s.notify c) := by
  obtain ⟨head, rest, hfds, hfd, hevents⟩ := h.listening
  have hnew := notify_fds hfds c
  refine ⟨⟨head, _, hnew, hfd, hevents⟩, ?_, ?_⟩
  · have hsame : PollFd.fd ∘ prepared c = PollFd.fd := funext (prepared_fd c)
    have hnodup := h.nodup
    rw [hfds] at hnodup
    rw [hnew, List.map_cons, List.map_map, hsame]
    exact hnodup
  · rw [hnew]
    intro e he
    rcases List.mem_cons.mp he with rfl | he
    · exact h.reported e (hfds ▸ List.mem_cons_self)
    · obtain ⟨e₀, he₀, rfl⟩ := List.mem_map.mp he
      exact reported_prepared (h.reported e₀ (hfds ▸ List.mem_cons_of_mem _ he₀)) c

/-- A client after the others were prepared for `send`. -/
theorem Shaped.mem_tail_notify (h : Shaped s) (he : e ∈ (s.notify c).fds.tail) :
    ∃ e₀ ∈ s.fds.tail, e = prepared c e₀ := by
  obtain ⟨head, rest, hfds, -⟩ := h.listening
  rw [notify_fds hfds c] at he
  obtain ⟨e₀, he₀, rfl⟩ := List.mem_map.mp he
  exact ⟨e₀, by rwa [hfds], rfl⟩

/-- The string in a buffer into which data was read. -/
theorem cstr_filled {data : List UInt8} (hzero : (0 : UInt8) ∉ data) (hlen : data.length < BUFFER_SIZE) :
    cstr (data ++ List.replicate (BUFFER_SIZE - data.length) 0) = data := by
  obtain ⟨m, hm⟩ : ∃ m, BUFFER_SIZE - data.length = m + 1 := ⟨BUFFER_SIZE - data.length - 1, by omega⟩
  rw [hm, List.replicate_succ, cstr_append_zero, cstr_of_notMem hzero]

/-- The sender keeps its pending output, which is in another buffer. -/
theorem Balanced.received_self {data buf : List UInt8} (h : Balanced log s e) :
    Balanced (log ++ [.received e.fd data]) ((s.fill e.fd buf).notify e.fd) (prepared e.fd e) := by
  have hout : output ((s.fill e.fd buf).notify e.fd) (prepared e.fd e) = output s e := by
    rw [prepared, if_pos rfl, output, notify_users_self, fill_writeBuf]
    rfl
  refine h.frame (prepared_fd _ _) hout (fun x hx => ?_) fun a ha => ?_
  · rw [notify_buf, fill_buf_of_ne s _ (h.other x hx)]
  · rw [List.mem_singleton.mp ha]
    rfl

/-- The data becomes the pending output of a client that has none. -/
theorem Balanced.received {data buf : List UInt8} (h : Balanced log s e) (he : e ∈ s.fds.tail)
    (hne : e.fd ≠ c) (hnone : output s e = none) (hbuf : cstr buf = data) :
    Balanced (log ++ [.received c data]) ((s.fill c buf).notify c) (prepared c e) := by
  have hout : output ((s.fill c buf).notify c) (prepared c e) = some c := by
    rw [output, has_prepared hne, prepared_fd]
    exact notify_writeBuf (s := s.fill c buf) he hne
  have hbefore := h.balance
  rw [awaited, hnone] at hbefore
  refine ⟨fun x hx => ?_, ?_⟩
  · obtain rfl := Option.some.inj (hout.symm.trans hx)
    rw [prepared_fd]
    exact hne.symm
  · rw [prepared_fd, awaited, hout, sentTo_received, owedTo_received log data hne.symm, ← hbefore]
    show sentTo e.fd log ++ [cstr (((s.fill c buf).notify c).users c).buf] = _
    rw [notify_buf, fill_buf_self, hbuf, Option.map_none, Option.toList_none, List.append_nil]

/-- Data is received when no other client has pending output. -/
theorem Kept.received {data : List UInt8} (h : Kept log s) (hsent : AllSent s c)
    (hzero : (0 : UInt8) ∉ data) (hlen : data.length < BUFFER_SIZE) :
    Kept (log ++ [.received c data])
      ((s.fill c (data ++ List.replicate (BUFFER_SIZE - data.length) 0)).notify c) := by
  have hshaped : Shaped (s.fill c (data ++ List.replicate (BUFFER_SIZE - data.length) 0)) :=
    h.shaped.congr rfl rfl
  refine ⟨hshaped.notify c, fun e he => ?_⟩
  obtain ⟨e₀, he₀, rfl⟩ := hshaped.mem_tail_notify he
  have hkept := h.balanced e₀ he₀
  by_cases hc : e₀.fd = c
  · subst hc
    exact hkept.received_self
  · exact hkept.received he₀ hc (hsent e₀ he₀ hc) (cstr_filled hzero hlen)

/-! ## Data for a client -/

/-- The state after `send`. -/
def afterSend (s : Server) (e : PollFd) : Server :=
  { s.next with
    fds := s.fds.set s.i { e with events := e.events ||| ~~~POLLOUT ||| POLLIN }
    users := Function.update s.users e.fd { s.users e.fd with writeBuf := none } }

/-- The client is sent its pending output, and has none afterwards. -/
theorem Balanced.sent {x : Int} {events : BitVec 16} (h : Balanced log s e) (hout : output s e = some x) :
    Balanced (log ++ [.sent e.fd (cstr (s.users x).buf)]) (afterSend s e) { e with events := events } := by
  have hnone : output (afterSend s e) { e with events := events } = none := by
    show (if _ then (Function.update s.users e.fd _ e.fd).writeBuf else none) = none
    rw [Function.update_self, ite_self]
  have hbefore := h.balance
  rw [awaited, hout] at hbefore
  refine ⟨fun y hy => ?_, ?_⟩
  · rw [hnone] at hy
    cases hy
  · rw [sentTo_sent, owedTo_sent, ← hbefore, awaited, hnone]
    exact List.append_nil _

/-- The other clients are not concerned. -/
theorem Balanced.notSent {text : List UInt8} (h : Balanced log s e') (hne : e'.fd ≠ e.fd) :
    Balanced (log ++ [.sent e.fd text]) (afterSend s e) e' := by
  refine h.frame rfl ?_ (fun x _ => ?_) fun a ha => ?_
  · show (if _ then (Function.update s.users e.fd _ e'.fd).writeBuf else none) = _
    rw [Function.update_of_ne hne]
    rfl
  · show (Function.update s.users e.fd { s.users e.fd with writeBuf := none } x).buf = _
    by_cases hx : x = e.fd
    · subst hx
      rw [Function.update_self]
    · rw [Function.update_of_ne hx]
  · rw [List.mem_singleton.mp ha]
    exact hne.symm

/-- Sending keeps the shape. -/
theorem Shaped.afterSend (h : Shaped s) (hi : s.fds[s.i]? = some e) (hne : e.fd ≠ s.listenfd) :
    Shaped (afterSend s e) := by
  obtain ⟨head, rest, k, hfds, hfd, hevents, hindex, hk⟩ := h.place hi hne
  refine ⟨⟨head, rest.set k { e with events := e.events ||| ~~~POLLOUT ||| POLLIN }, ?_, hfd, hevents⟩,
    ?_, ?_⟩
  · rw [PollChat.afterSend, hfds, hindex]
    rfl
  · have hmap : (s.fds.set s.i { e with events := e.events ||| ~~~POLLOUT ||| POLLIN }).map PollFd.fd =
        s.fds.map PollFd.fd := by
      apply List.ext_getElem?
      intro j
      rw [List.getElem?_map, List.getElem?_map, List.getElem?_set]
      grind
    rw [PollChat.afterSend, hmap]
    exact h.nodup
  · intro e' he'
    rcases List.mem_or_eq_of_mem_set he' with he' | rfl
    · exact h.reported e' he'
    · exact reported_or (reported_or (h.reported e (List.mem_of_getElem? hi)) _) _

/-- A client after another one was sent its pending output. -/
theorem Shaped.mem_tail_afterSend (h : Shaped s) (hi : s.fds[s.i]? = some e) (hne : e.fd ≠ s.listenfd)
    (he' : e' ∈ (PollChat.afterSend s e).fds.tail) :
    (e ∈ s.fds.tail ∧ e' = { e with events := e.events ||| ~~~POLLOUT ||| POLLIN }) ∨
      (e' ∈ s.fds.tail ∧ e'.fd ≠ e.fd) := by
  obtain ⟨head, rest, k, hfds, -, -, hindex, hk⟩ := h.place hi hne
  obtain ⟨hlt, -⟩ := List.getElem?_eq_some_iff.mp hk
  have hmem : e' ∈ rest.set k { e with events := e.events ||| ~~~POLLOUT ||| POLLIN } := by
    rw [PollChat.afterSend, hfds, hindex] at he'
    exact he'
  have hnodup := h.nodup
  rw [hfds, List.map_cons, List.nodup_cons] at hnodup
  rw [hfds]
  rcases List.mem_cons.mp ((List.set_perm_cons_eraseIdx hlt _).mem_iff.mp hmem) with rfl | hother
  · exact Or.inl ⟨List.mem_of_getElem? hk, rfl⟩
  · exact Or.inr (ne_of_eraseIdx hnodup.2 hk hother)

/-- The pending output of a client is sent. -/
theorem Kept.send (h : Kept log s) (hi : s.fds[s.i]? = some e) (hne : e.fd ≠ s.listenfd)
    (hout : has e.events POLLOUT = true) : Kept (log ++ (s.send e).2) (s.send e).1 := by
  unfold Server.send
  split
  · rw [List.append_nil]
    exact h.next
  · rename_i x hx
    refine ⟨h.shaped.afterSend hi hne, fun e' he' => ?_⟩
    rcases h.shaped.mem_tail_afterSend hi hne he' with ⟨he, rfl⟩ | ⟨he', hfd'⟩
    · have houtput : output s e = some x := by rw [output, hout, if_pos rfl, hx]
      exact (h.balanced e he).sent houtput
    · exact (h.balanced e' he').notSent hfd'

/-! ## The steps -/

/-- What a read of a client may find: for data, that no other client has pending output; for
`memset` alone, that none is in the buffer. -/
def MayRead (s : Server) (c : Int) : Outcome → Prop
  | .data _ => AllSent s c
  | _ => BufferFree s c

/-- A step overwrites no pending output. -/
def NoneOverwritten (s : Server) : Action → Prop
  | .handle o => ∀ e ∈ s.fds[s.i]?,
      (branch s.listenfd e = .receive → MayRead s e.fd o) ∧
        (branch s.listenfd e = .leave → s.fds.getLast? = some e ∨ BufferFree s e.fd)
  | _ => True

/-- Data that is received has no NUL. -/
def IsText : Outcome → Prop
  | .data data => 0 ∉ data
  | _ => True

/-- Only texts are received. -/
def ReceivesText : Action → Prop
  | .handle o => IsText o
  | _ => True

/-- A round without a branch leaves the clients balanced. -/
theorem Kept.idle (h : Kept log s) : Kept (log ++ []) s.next := by
  rw [List.append_nil]
  exact h.next

/-- Receiving leaves the clients balanced. -/
theorem Kept.receive {o : Outcome} (h : Kept log s) (hi : s.fds[s.i]? = some e)
    (hne : e.fd ≠ s.listenfd) (hfits : s.Fits .receive o) (htext : IsText o)
    (hread : MayRead s e.fd o) :
    Kept (log ++ (s.receive e o).2) (s.receive e o).1 := by
  cases o with
  | data data =>
    obtain ⟨-, hpos, hlen⟩ := hfits
    have hlt : data.length < BUFFER_SIZE := Nat.lt_of_le_of_lt hlen (by decide)
    exact (h.received hread htext hlt).next
  | failed =>
    have hfree : BufferFree (s.fill e.fd (List.replicate BUFFER_SIZE 0)) e.fd := by
      intro e' he' hother
      rw [output_fill]
      exact hread e' he' hother
    exact (h.fill hread).remove hi hne (Or.inr hfree)
  | nothing => exact (h.fill hread).idle
  | conn connfd => exact (h.fill hread).idle
  | eof => exact (h.fill hread).idle
  | again => exact (h.fill hread).idle

/-- A round that overwrites no pending output. -/
theorem Kept.round {o : Outcome} (h : Kept log s) (hi : s.fds[s.i]? = some e)
    (hfits : s.Fits (branch s.listenfd e) o) (htext : IsText o)
    (hread : branch s.listenfd e = .receive → MayRead s e.fd o)
    (hleave : branch s.listenfd e = .leave → s.fds.getLast? = some e ∨ BufferFree s e.fd) :
    Kept (log ++ (s.round e o).2) (s.round e o).1 := by
  have he := List.mem_of_getElem? hi
  unfold Server.round
  cases hbranch : branch s.listenfd e with
  | accept =>
    cases o with
    | conn connfd => exact h.accept hfits.2
    | nothing | data _ | eof | again | failed => exact h.idle
  | error => exact h.idle
  | leave => exact h.remove hi (h.shaped.fd_of_leave he hbranch) (hleave hbranch)
  | receive =>
    rw [hbranch] at hfits
    exact h.receive hi (fd_of_receive hbranch) hfits htext (hread hbranch)
  | send => exact h.send hi (h.shaped.fd_of_send he hbranch) (h.shaped.events_of_send he hbranch)
  | none => exact h.idle

/-- A step leaves the clients balanced. -/
theorem Kept.step {a : Action} (h : Kept log s) (hstep : Step s a s') (htext : ReceivesText a)
    (hfree : NoneOverwritten s a) : Kept (log ++ s.happens a) s' := by
  obtain ⟨henabled, rfl⟩ := hstep
  cases a with
  | poll revents =>
    rw [show s.happens (.poll revents) = [] from rfl, List.append_nil]
    exact h.poll henabled.2.2
  | pollFailure =>
    rw [show s.happens .pollFailure = [] from rfl, List.append_nil]
    exact ⟨h.shaped.congr rfl rfl,
      fun e he => ⟨(h.balanced e he).other, (h.balanced e he).balance⟩⟩
  | handle o =>
    obtain ⟨e, hi, hfits⟩ := henabled
    obtain ⟨hread, hleave⟩ := hfree e hi
    have hperform : s.perform (.handle o) = s.round e o := by
      have hi' : s.fds[s.i]? = some e := hi
      simp only [Server.perform, hi']
    rw [Server.happens, hperform]
    exact h.round hi hfits htext hread hleave

/-- Without clients all are balanced. -/
theorem kept_start (listenfd : Int) (users : Int → ClientData) : Kept [] (start listenfd users) := by
  refine ⟨⟨⟨_, [], rfl, rfl, rfl⟩, List.nodup_singleton _, ?_⟩, nofun⟩
  intro e he
  rw [List.mem_singleton.mp he]
  show Reported (POLLIN ||| POLLERR) 0
  decide

end Rounds

end ServerListings.Interface.PollChat
