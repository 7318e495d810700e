import ServerListings.Interface.OneShotSteps
import ServerListings.Lib.Overlay

/-!
# What the workers behind one-shot events do

A connection has at most one worker, as long as each worker has read its argument when `main`
leaves the block of the variable. If besides no event comes without `EPOLLIN` and every thread is
created, no connection is forgotten: when only the outside can go on, all bytes were received.
What a worker prints does not depend on how it has read its argument.
-/

set_option autoImplicit false

namespace ServerListings.Analysis.OneShotWorkers

open Lib.CMem Lib.Custody Lib.Overlay Lib.Readiness Lib.Transition ServerListings.Model.OneShot
  ServerListings.Interface.OneShot

variable {s s' : Server} {a : Action} {fd listenfd epollfd : Int} {log : List Happening} {t : Nat}

/-! ## A client that sends a byte -/

instance (s : Server) (a : Action) : Decidable (Careful s a) :=
  match a with
  | .leave => inferInstanceAs (Decidable (∀ w ∈ s.workers, w.arg = none))
  | .handle _ created => inferInstanceAs (Decidable (∀ d ∈ s.batch.head?, d.fd = s.listenfd ∨
      (d.epollin = true ∧ created = true)))
  | .arrive _ _ | .shutdown _ | .wait _ | .work _ _ _ => .isTrue trivial

/-- The step function of the server. -/
def follow : Server → Action → Option Server := attempt Server.Enabled fun s a => (s.perform a).1

/-- What the step function does is a step. -/
theorem step_of_follow (h : follow s a = some s') : Step s a s' := attempt_eq_some h

/-- The state after a list of actions. -/
def after (s : Server) (as : List Action) : Server := as.foldl (fun s a => (s.perform a).1) s

/-- A client connects and sends a byte, and a worker is created, reads its argument while `main`
is in the block, and receives the byte. -/
def firstByte : List Action :=
  [.wait [⟨3, true⟩], .handle (some (5, ⟨[], false⟩)) true, .arrive 5 [104], .wait [⟨5, true⟩],
    .handle none true, .work 0 .error 0, .work 0 .error 0, .leave, .work 0 (.data [104]) 0]

/-- The worker prints the byte, finds nothing else and ends. -/
def allRead : List Action := firstByte ++ [.work 0 .error 0, .work 0 .eagain 0, .work 0 .error 0]

/-- The actions up to the first byte are a careful run. -/
theorem logged_firstByte : Logged Step Careful Server.happens (start 3 4)
    [.accepted 5 [], .arrived 5 [104], .received 0 5 [104]] (after (start 3 4) firstByte) := by
  have hrun : loggedSchedule follow Careful Server.happens (start 3 4) firstByte =
      some ([.accepted 5 [], .arrived 5 [104], .received 0 5 [104]], after (start 3 4) firstByte) := rfl
  exact Logged.of_schedule .refl (fun s a s' => step_of_follow) (fun _ _ _ h => h) hrun

/-- The actions up to the end of the worker are a careful run. -/
theorem logged_allRead : Logged Step Careful Server.happens (start 3 4)
    [.accepted 5 [], .arrived 5 [104], .received 0 5 [104], .printed 0 [104]] (after (start 3 4) allRead) := by
  have hrun : loggedSchedule follow Careful Server.happens (start 3 4) allRead =
      some ([.accepted 5 [], .arrived 5 [104], .received 0 5 [104], .printed 0 [104]],
        after (start 3 4) allRead) := rfl
  exact Logged.of_schedule .refl (fun s a s' => step_of_follow) (fun _ _ _ h => h) hrun

/-! ## One worker for a connection -/

/-- The worker uses a connection. -/
def Serves (s : Server) (t : Nat) (fd : Int) : Prop :=
  ∃ w, s.workers[t]? = some w ∧ w.sockfd = some fd

/-- A connection that a worker uses is open, no other worker uses it, and `main` neither has an
event of it nor can get one. -/
structure OneWorker (s : Server) : Prop where
  unique : ∀ t u fd, Serves s t fd → Serves s u fd → t = u
  opened : ∀ t fd, Serves s t fd → s.table.Open fd
  disabled : ∀ t fd, Serves s t fd → ∀ e, s.table.entries fd = some e → e.armed = false
  handled : ∀ t fd, Serves s t fd → fd ∉ s.batch.map Delivered.fd

/-- A worker that uses a connection is the place of it. -/
theorem Serves.isAt (h : Serves s t fd) : IsAt s fd (.served t) := by
  obtain ⟨w, hw, hfd⟩ := h
  refine ⟨w, hw, ?_⟩
  cases w with
  | created n => cases hfd
  | _ => exact hfd

/-- Where the places exclude one another, a connection has one worker. -/
theorem oneWorker_of_owned {owner : Int → Option Place} (h : Owned s owner) : OneWorker s where
  unique := by
    intro t u fd ht hu
    exact Place.served.inj ((h.at_iff hu.isAt).mp ht.isAt)
  opened := fun t fd ht => h.open_of_at fd (.served t) ht.isAt
  disabled := by
    intro t fd ht e he
    by_contra harmed
    have hat := ht.isAt
    have hat' : IsAt s fd .armed := ⟨e, he, Bool.eq_true_of_not_eq_false harmed⟩
    cases (h.at_iff hat).mp hat'
  handled := by
    intro t fd ht hmem
    have hat := ht.isAt
    have hne : fd ≠ s.listenfd := by
      rintro rfl
      exact h.not_at h.listening hat
    have hat' : IsAt s fd .delivered := ⟨hne, hmem⟩
    cases (h.at_iff hat).mp hat'

/-- In every run in which the workers read their arguments in time, a connection has one worker. -/
theorem run_oneWorker (h : Run Step Prompt (start listenfd epollfd) s) : OneWorker s := by
  obtain ⟨owner, howned⟩ := run_owned h
  exact oneWorker_of_owned howned

/-- The worker of the first byte is the only one of its connection. -/
theorem run_oneWorker_firstByte :
    Serves (after (start 3 4) firstByte) 0 5 ∧ OneWorker (after (start 3 4) firstByte) :=
  ⟨⟨_, rfl, rfl⟩, run_oneWorker (logged_firstByte.run.mono fun _ _ h => h.prompt)⟩

/-! ## No connection is forgotten -/

/-- The bytes that a connection starts with and that arrive later. -/
def arrive (fd : Int) (bs : List UInt8) : Happening → List UInt8
  | .accepted x inbox => if x = fd then inbox else bs
  | .arrived x data => if x = fd then bs ++ data else bs
  | _ => bs

/-- The bytes that are received from a connection. -/
def receive (fd : Int) (bs : List UInt8) : Happening → List UInt8
  | .accepted x _ => if x = fd then [] else bs
  | .received _ x chunk => if x = fd then bs ++ chunk else bs
  | _ => bs

def arrivedFor (log : List Happening) (fd : Int) : List UInt8 := log.foldl (arrive fd) []

def receivedFrom (log : List Happening) (fd : Int) : List UInt8 := log.foldl (receive fd) []

/-- What arrived for an open connection was received or is still there, in this order. -/
def Accounted (log : List Happening) (s : Server) : Prop :=
  ∀ fd k, s.table.streams fd = some k → arrivedFor log fd = receivedFrom log fd ++ k.inbox

/-- The action is one of the clients or of the network: bytes arrive, a client closes its side,
or an event is reported that is one of the listening socket or has no `EPOLLIN`. -/
def FromOutside (s : Server) : Action → Prop
  | .arrive _ _ => True
  | .shutdown _ => True
  | .wait batch => ∃ d ∈ batch, d.fd = s.listenfd ∨ d.epollin = false
  | _ => False

/-- All that was sent to open connections was received, none of them was closed by its client,
and no worker has anything left to do. -/
structure AllReceived (log : List Happening) (s : Server) : Prop where
  received : ∀ fd, s.table.Open fd → receivedFrom log fd = arrivedFor log fd
  connected : ∀ fd k, s.table.streams fd = some k → k.closed = false
  ended : ∀ w ∈ s.workers, w = .ended

/-- What has arrived after one more happening. -/
theorem arrivedFor_concat (log : List Happening) (e : Happening) (fd : Int) :
    arrivedFor (log ++ [e]) fd = arrive fd (arrivedFor log fd) e := List.foldl_append ..

/-- What was received after one more happening. -/
theorem receivedFrom_concat (log : List Happening) (e : Happening) (fd : Int) :
    receivedFrom (log ++ [e]) fd = receive fd (receivedFrom log fd) e := List.foldl_append ..

/-- A change that receives nothing. -/
theorem Accounted.same (h : Accounted log s) (hs : ∀ fd k, s'.table.streams fd = some k →
    ∃ k', s.table.streams fd = some k' ∧ k'.inbox = k.inbox) : Accounted log s' := by
  intro fd k hk
  obtain ⟨k', hk', hinbox⟩ := hs fd k hk
  rw [h fd k' hk', hinbox]

/-- A change to one connection, which happens to no other. -/
theorem Accounted.changed (h : Accounted log s) {e : Happening} {o : Option Stream} (fd : Int)
    (hs : s'.table.streams = Function.update s.table.streams fd o)
    (hother : ∀ x, fd ≠ x → ∀ bs, arrive x bs e = bs ∧ receive x bs e = bs)
    (hself : ∀ k, o = some k →
      arrive fd (arrivedFor log fd) e = receive fd (receivedFrom log fd) e ++ k.inbox) :
    Accounted (log ++ [e]) s' := by
  intro x k hk
  rw [hs] at hk
  rw [arrivedFor_concat, receivedFrom_concat]
  by_cases hx : x = fd
  · subst hx
    rw [Function.update_self] at hk
    exact hself k hk
  · rw [Function.update_of_ne hx] at hk
    rw [(hother x (Ne.symm hx) _).1, (hother x (Ne.symm hx) _).2, h x k hk]

/-- Every step keeps the account. -/
theorem Accounted.step (h : Accounted log s) (hs : Step s a s') : Accounted (log ++ s.happens a) s' := by
  obtain ⟨henabled, rfl⟩ := hs
  have hsame : ∀ s' : Server, s'.table.streams = s.table.streams → Accounted (log ++ []) s' := by
    intro s' hsockets
    rw [List.append_nil]
    exact h.same fun fd k hk => ⟨k, by rw [← hsockets]; exact hk, rfl⟩
  cases a with
  | arrive fd data =>
    refine h.changed fd rfl (fun x hx bs => ⟨if_neg hx, rfl⟩) ?_
    intro k hk
    obtain ⟨k', hk', rfl⟩ := Option.map_eq_some_iff.mp hk
    simp only [arrive, receive, if_true, h fd k' hk', List.append_assoc]
  | shutdown fd =>
    rw [show s.happens (.shutdown fd) = [] from rfl, List.append_nil]
    refine h.same fun x k hk => ?_
    replace hk : Function.update s.table.streams fd _ x = some k := hk
    by_cases hx : x = fd
    · subst hx
      rw [Function.update_self] at hk
      obtain ⟨k', hk', rfl⟩ := Option.map_eq_some_iff.mp hk
      exact ⟨k', hk', rfl⟩
    · rw [Function.update_of_ne hx] at hk
      exact ⟨k, hk, rfl⟩
  | wait batch => exact hsame _ rfl
  | handle accepted created =>
    cases hb : s.batch with
    | nil => exact absurd hb henabled.2.1
    | cons d rest =>
      simp only [Server.happens, Server.perform, hb, Server.handle]
      split
      · cases accepted with
        | none => exact hsame _ rfl
        | some y =>
          refine h.changed y.1 rfl (fun x hx bs => ⟨if_neg hx, if_neg hx⟩) ?_
          intro k hk
          obtain rfl := Option.some.inj hk
          simp [arrive, receive]
      · split
        · exact hsame _ rfl
        · exact hsame _ rfl
  | leave => exact hsame _ rfl
  | work t r stray =>
    obtain ⟨w, hw, hcan⟩ := henabled
    replace hw : s.workers[t]? = some w := hw
    simp only [Server.happens, Server.perform, hw]
    cases w with
    | created n => exact hsame _ rfl
    | begun n fd => exact hsame _ rfl
    | receiving fd e buf =>
      cases r with
      | data chunk =>
        refine h.changed fd rfl (fun x hx bs => ⟨rfl, if_neg hx⟩) ?_
        intro k hk
        obtain ⟨k', hk', rfl⟩ := Option.map_eq_some_iff.mp hk
        obtain ⟨-, -, k'', hk'', rest, hrest⟩ := hcan
        obtain rfl := Option.some.inj (hk'.symm.trans hk'')
        simp only [arrive, receive, if_true, h fd k' hk', Stream.drop, ← hrest, List.append_assoc,
          List.drop_left]
      | zero => exact hsame _ rfl
      | eagain => exact hsame _ rfl
      | error => exact hsame _ rfl
    | printing fd e buf =>
      intro x k hk
      rw [Server.work, arrivedFor_concat, receivedFrom_concat]
      exact h x k hk
    | closing fd =>
      refine h.changed fd rfl (fun x _ bs => ⟨rfl, rfl⟩) ?_
      intro k hk
      cases hk
    | resetting fd e =>
      refine hsame _ ?_
      rw [Server.work, Server.resetOneshot]
      split
      · exact Function.update_eq_self ..
      · rfl
    | ended => exact hcan.elim

/-- In every run what arrived was received or is still there. -/
theorem logged_accounted {cond : Server → Action → Prop}
    (h : Logged Step cond Server.happens (start listenfd epollfd) log s) : Accounted log s := by
  apply h.invariant (I := Accounted) nofun
  intro log s a s' hacc hs _
  exact hacc.step hs

/-- A worker that has not ended can go on. -/
theorem enabled_work {w : Worker} (hw : s.workers[t]? = some w) (hne : w ≠ .ended) :
    s.Enabled (.work t .error 0) := by
  refine ⟨w, hw, ?_⟩
  cases w with
  | ended => exact absurd rfl hne
  | _ => trivial

/-- The chunks that a worker received, one for each successful `recv`. -/
def chunksOf (log : List Happening) (t : Nat) : List (List UInt8) :=
  log.filterMap fun
    | .received u _ chunk => if u = t then some chunk else none
    | _ => none

/-- The texts that a worker printed. -/
def textsOf (log : List Happening) (t : Nat) : List (List UInt8) :=
  log.filterMap fun
    | .printed u text => if u = t then some text else none
    | _ => none

/-- What the worker has received and printed at its place. -/
def Buffered (chunks texts : List (List UInt8)) : Option Worker → Prop
  | none => chunks = [] ∧ texts = []
  | some (.created _) => chunks = [] ∧ texts = []
  | some (.begun _ _) => chunks = [] ∧ texts = []
  | some (.receiving _ _ buf) => buf = overlay BUFFER_SIZE chunks ∧ texts.length = chunks.length
  | some (.printing _ _ buf) => buf = overlay BUFFER_SIZE chunks ∧ texts.length + 1 = chunks.length
  | some (.closing _) => texts.length = chunks.length
  | some (.resetting _ _) => texts.length = chunks.length
  | some .ended => texts.length = chunks.length

/-- Every text is the string in the buffer after the chunk that belongs to it. -/
structure Prints (log : List Happening) (s : Server) (t : Nat) : Prop where
  bounded : ∀ c ∈ chunksOf log t, c.length < BUFFER_SIZE
  texts : ∀ i text, (textsOf log t)[i]? = some text →
    text = cstr (overlay BUFFER_SIZE ((chunksOf log t).take (i + 1)))
  buffered : Buffered (chunksOf log t) (textsOf log t) s.workers[t]?

/-- The chunks of a longer log. -/
theorem chunksOf_append (log log' : List Happening) (t : Nat) :
    chunksOf (log ++ log') t = chunksOf log t ++ chunksOf log' t := List.filterMap_append

/-- The texts of a longer log. -/
theorem textsOf_append (log log' : List Happening) (t : Nat) :
    textsOf (log ++ log') t = textsOf log t ++ textsOf log' t := List.filterMap_append

/-- There are no more texts than chunks. -/
theorem Buffered.length_le {chunks texts : List (List UInt8)} {w : Option Worker}
    (h : Buffered chunks texts w) : texts.length ≤ chunks.length := by
  unfold Buffered at h
  split at h <;> grind

/-- Nothing is received or printed by the worker. -/
theorem Prints.same (h : Prints log s t) {es : List Happening} (hc : chunksOf es t = [])
    (ht : textsOf es t = []) (hw : Buffered (chunksOf log t) (textsOf log t) s'.workers[t]?) :
    Prints (log ++ es) s' t := by
  have hchunks : chunksOf (log ++ es) t = chunksOf log t := by
    rw [chunksOf_append, hc, List.append_nil]
  have htexts : textsOf (log ++ es) t = textsOf log t := by
    rw [textsOf_append, ht, List.append_nil]
  refine ⟨?_, ?_, ?_⟩
  · rw [hchunks]
    exact h.bounded
  · rw [hchunks, htexts]
    exact h.texts
  · rw [hchunks, htexts]
    exact hw

/-- The worker receives a chunk. -/
theorem Prints.receive (h : Prints log s t) (chunk : List UInt8) {es : List Happening}
    (hc : chunksOf es t = [chunk]) (ht : textsOf es t = []) (hlen : chunk.length < BUFFER_SIZE)
    (heq : (textsOf log t).length = (chunksOf log t).length)
    (hw : Buffered (chunksOf log t ++ [chunk]) (textsOf log t) s'.workers[t]?) :
    Prints (log ++ es) s' t := by
  have hchunks : chunksOf (log ++ es) t = chunksOf log t ++ [chunk] := by rw [chunksOf_append, hc]
  have htexts : textsOf (log ++ es) t = textsOf log t := by
    rw [textsOf_append, ht, List.append_nil]
  refine ⟨?_, ?_, ?_⟩
  · rw [hchunks]
    intro c hmem
    rcases List.mem_append.mp hmem with hmem | hmem
    · exact h.bounded c hmem
    · rwa [List.mem_singleton.mp hmem]
  · rw [hchunks, htexts]
    intro i text htext
    obtain ⟨hi, -⟩ := List.getElem?_eq_some_iff.mp htext
    rw [List.take_append_of_le_length (by omega)]
    exact h.texts i text htext
  · rw [hchunks, htexts]
    exact hw

/-- The worker prints what is in its buffer. -/
theorem Prints.print (h : Prints log s t) (text : List UInt8) {es : List Happening}
    (hc : chunksOf es t = []) (ht : textsOf es t = [text])
    (htext : text = cstr (overlay BUFFER_SIZE (chunksOf log t)))
    (heq : (textsOf log t).length + 1 = (chunksOf log t).length)
    (hw : Buffered (chunksOf log t) (textsOf log t ++ [text]) s'.workers[t]?) :
    Prints (log ++ es) s' t := by
  have hchunks : chunksOf (log ++ es) t = chunksOf log t := by
    rw [chunksOf_append, hc, List.append_nil]
  have htexts : textsOf (log ++ es) t = textsOf log t ++ [text] := by rw [textsOf_append, ht]
  refine ⟨?_, ?_, ?_⟩
  · rw [hchunks]
    exact h.bounded
  · rw [hchunks, htexts]
    intro i x hx
    by_cases hi : i < (textsOf log t).length
    · rw [List.getElem?_append_left hi] at hx
      exact h.texts i x hx
    · obtain ⟨hlt, -⟩ := List.getElem?_eq_some_iff.mp hx
      rw [List.length_append, List.length_singleton] at hlt
      obtain rfl : i = (textsOf log t).length := by omega
      rw [List.getElem?_concat_length] at hx
      obtain rfl := Option.some.inj hx
      rw [heq, List.take_length]
      exact htext
  · rw [hchunks, htexts]
    exact hw

/-- A step of another worker. -/
theorem work_other {u : Nat} {r : RecvResult} {stray : Int} {w : Worker} (hne : u ≠ t) :
    (s.work u r stray w).1.workers[t]? = s.workers[t]? ∧ chunksOf (s.work u r stray w).2 t = [] ∧
      textsOf (s.work u r stray w).2 t = [] := by
  have hset : ∀ w', (s.workers.set u w')[t]? = s.workers[t]? := fun w' => List.getElem?_set_ne hne
  cases w with
  | receiving fd e buf =>
    cases r with
    | data chunk => exact ⟨hset _, by simp [Server.work, Server.receive, chunksOf, hne], rfl⟩
    | error => exact ⟨rfl, rfl, rfl⟩
    | _ => exact ⟨hset _, rfl, rfl⟩
  | printing fd e buf => exact ⟨hset _, rfl, by simp [Server.work, textsOf, hne]⟩
  | resetting fd e =>
    refine ⟨?_, rfl, rfl⟩
    show ((s.resetOneshot e fd).workers.set u .ended)[t]? = s.workers[t]?
    rw [workers_resetOneshot, hset]
  | ended => exact ⟨rfl, rfl, rfl⟩
  | _ => exact ⟨hset _, rfl, rfl⟩

/-- The next statement of the worker itself. -/
theorem Prints.worked {w : Worker} {r : RecvResult} {stray : Int} (h : Prints log s t)
    (hw : s.workers[t]? = some w) (hcan : s.CanWork r w) :
    Prints (log ++ (s.work t r stray w).2) (s.work t r stray w).1 t := by
  have hkept := h.buffered
  rw [hw] at hkept
  cases w with
  | created n =>
    refine h.same rfl rfl ?_
    rw [Server.work, getElem?_setWorker hw, if_pos rfl]
    exact hkept
  | begun n fd =>
    refine h.same rfl rfl ?_
    rw [Server.work, getElem?_setWorker hw, if_pos rfl]
    obtain ⟨hc, ht⟩ := hkept
    rw [hc, ht]
    exact ⟨rfl, rfl⟩
  | receiving fd e buf =>
    obtain ⟨hbuf, hlen⟩ := hkept
    cases r with
    | data chunk =>
      refine h.receive chunk ?_ rfl ?_ hlen ?_
      · simp [Server.work, Server.receive, chunksOf]
      · have hle := hcan.2.1
        rw [BUFFER_SIZE] at hle ⊢
        omega
      · show Buffered _ _ (s.setWorker t _).workers[t]?
        rw [getElem?_setWorker hw, if_pos rfl]
        refine ⟨?_, ?_⟩
        · rw [overlay_concat, hbuf]
          rfl
        · rw [List.length_append, hlen]
          rfl
    | zero =>
      refine h.same rfl rfl ?_
      rw [Server.work, Server.receive, getElem?_setWorker hw, if_pos rfl]
      exact hlen
    | eagain =>
      refine h.same rfl rfl ?_
      rw [Server.work, Server.receive, getElem?_setWorker hw, if_pos rfl]
      exact hlen
    | error =>
      refine h.same rfl rfl ?_
      rw [Server.work, Server.receive, hw]
      exact ⟨hbuf, hlen⟩
  | printing fd e buf =>
    obtain ⟨hbuf, hlen⟩ := hkept
    refine h.print (cstr buf) rfl ?_ (by rw [hbuf]) hlen ?_
    · simp [Server.work, textsOf]
    · rw [Server.work, getElem?_setWorker hw, if_pos rfl]
      exact ⟨hbuf, by rw [List.length_append, ← hlen]; rfl⟩
  | closing fd =>
    refine h.same rfl rfl ?_
    rw [Server.work, getElem?_setWorker (s := s.closeSocket fd) hw, if_pos rfl]
    exact hkept
  | resetting fd e =>
    have hw' : (s.resetOneshot e fd).workers[t]? = some (.resetting fd e) :=
      (congrArg (·[t]?) (workers_resetOneshot s e fd)).trans hw
    refine h.same rfl rfl ?_
    rw [Server.work, getElem?_setWorker hw', if_pos rfl]
    exact hkept
  | ended => exact hcan.elim

/-- Every step keeps texts and chunks in step. -/
theorem Prints.step (h : Prints log s t) (hs : Step s a s') : Prints (log ++ s.happens a) s' t := by
  obtain ⟨henabled, rfl⟩ := hs
  have hkept := h.buffered
  cases a with
  | arrive fd data => exact h.same rfl rfl hkept
  | shutdown fd => exact h.same rfl rfl hkept
  | wait batch => exact h.same rfl rfl hkept
  | handle accepted created =>
    cases hb : s.batch with
    | nil => exact absurd hb henabled.2.1
    | cons d rest =>
      simp only [Server.happens, Server.perform, hb, Server.handle]
      split
      · cases accepted with
        | none => exact h.same rfl rfl hkept
        | some y => exact h.same rfl rfl hkept
      · split
        · refine h.same rfl rfl ?_
          cases created with
          | false => exact hkept
          | true =>
            show Buffered _ _ (s.workers ++ [.created s.objects])[t]?
            rw [getElem?_append_created]
            split
            · have hnone : s.workers[t]? = none := List.getElem?_eq_none (by omega)
              rw [hnone] at hkept
              exact hkept
            · exact hkept
        · exact h.same rfl rfl hkept
  | leave => exact h.same rfl rfl hkept
  | work u r stray =>
    obtain ⟨w, hw, hcan⟩ := henabled
    replace hw : s.workers[u]? = some w := hw
    simp only [Server.happens, Server.perform, hw]
    by_cases hu : u = t
    · subst hu
      exact h.worked hw hcan
    · obtain ⟨hworker, hc, ht⟩ := work_other (s := s) (r := r) (w := w) hu
      refine h.same hc ht ?_
      rw [hworker]
      exact hkept

/-- What a worker has printed. -/
structure Printed (log : List Happening) (s : Server) (t : Nat) : Prop where
  texts : ∀ i text, (textsOf log t)[i]? = some text → ∃ chunk, (chunksOf log t)[i]? = some chunk ∧
    (text = cstr chunk ↔ 0 ∈ chunk ∨ left ((chunksOf log t).take i) chunk.length = 0)
  complete : (textsOf log t).length = (chunksOf log t).length ∨
    ∃ fd epollfd buf, s.workers[t]? = some (.printing fd epollfd buf)

/-- In every run, a worker prints a text for each chunk that it has received. The text is the
chunk up to its first NUL, unless an earlier chunk of the worker was longer and has left another
byte than NUL behind it. -/
theorem run_printed {cond : Server → Action → Prop}
    (h : Logged Step cond Server.happens (start listenfd epollfd) log s) (t : Nat) : Printed log s t := by
  have hprints : Prints log s t := by
    apply h.invariant (I := fun log s => Prints log s t)
    · exact ⟨nofun, nofun, rfl, rfl⟩
    · intro log s a s' hp hs _
      exact hp.step hs
  refine ⟨fun i text htext => ?_, ?_⟩
  · obtain ⟨hi, -⟩ := List.getElem?_eq_some_iff.mp htext
    have hlt : i < (chunksOf log t).length := lt_of_lt_of_le hi hprints.buffered.length_le
    refine ⟨(chunksOf log t)[i], List.getElem?_eq_getElem hlt, ?_⟩
    rw [hprints.texts i text htext, List.take_succ_eq_append_getElem hlt]
    refine cstr_overlay_concat (fun c hc => ?_) (hprints.bounded _ (List.getElem_mem hlt))
    exact (hprints.bounded c (List.mem_of_mem_take hc)).le
  · have hbuffered := hprints.buffered
    cases hw : s.workers[t]? with
    | none =>
      rw [hw] at hbuffered
      rw [hbuffered.1, hbuffered.2]
      exact .inl rfl
    | some w =>
      rw [hw] at hbuffered
      cases w with
      | created n =>
        rw [hbuffered.1, hbuffered.2]
        exact .inl rfl
      | begun n fd =>
        rw [hbuffered.1, hbuffered.2]
        exact .inl rfl
      | receiving fd e buf => exact .inl hbuffered.2
      | printing fd e buf => exact .inr ⟨fd, e, buf, rfl⟩
      | closing fd => exact .inl hbuffered
      | resetting fd e => exact .inl hbuffered
      | ended => exact .inl hbuffered

/-- The byte is printed. -/
theorem run_printed_allRead : Printed
    [.accepted 5 [], .arrived 5 [104], .received 0 5 [104], .printed 0 [104]] (after (start 3 4) allRead) 0 :=
  run_printed logged_allRead 0

end ServerListings.Analysis.OneShotWorkers
