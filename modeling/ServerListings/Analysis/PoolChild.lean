import ServerListings.Analysis.CgiProgram
import ServerListings.Interface.PoolChildSources

/-!
# What a child of the pool does for its connections

A connection is served by several calls of `process`, between which other connections are served
and descriptors are used again. `Conversation` collects the calls since a connection was accepted.
Until it is removed its object has what was received (`Waiting`), and when it has been removed the
calls together handled the bytes that were received (`Finished`). So no call of `process` faults,
and the events of a child are handled as `PoolChildSources` needs it.
-/

set_option autoImplicit false

namespace ServerListings.Analysis.PoolChild

open Lib.CMem Lib.Readiness Lib.Transition ServerListings.Model ServerListings.Model.CgiConn
open ServerListings.Model.PoolChild ServerListings.Interface.PoolChild
open ServerListings.Analysis.CgiProgram
open ServerListings.Model.ProcessPool (Signal)

/-- The calls of `process` for a connection, each with the system and the input that it found. -/
structure Conversation where
  systems : List CgiSystem
  inputs : List CgiInput
  effects : List CgiEffect
  child : List CgiEffect

/-- The bytes that were received in the conversation. -/
def Conversation.got (v : Conversation) : List UInt8 := received v.inputs

/-- One more call. -/
def Conversation.call (v : Conversation) (sys : CgiSystem) (input : CgiInput)
    (effects child : List CgiEffect) : Conversation :=
  ⟨v.systems ++ [sys], v.inputs ++ [input], v.effects ++ effects, v.child ++ child⟩

/-- The system is the one that the last call found. -/
def Conversation.Found (v : Conversation) (sys : CgiSystem) : Prop := ∀ y ∈ v.systems.getLast?, y = sys

/-- The conversation of a descriptor begins when it is accepted. -/
def talk (fd : Int) (v : Conversation) : Happening → Conversation
  | .accepted x _ => if x = fd then ⟨[], [], [], []⟩ else v
  | .called x sys input effects child => if x = fd then v.call sys input effects child else v
  | _ => v

/-- The conversation that a descriptor has had since it was accepted. -/
def conversation (log : List Happening) (fd : Int) : Conversation :=
  log.foldl (talk fd) ⟨[], [], [], []⟩

/-- The bytes that a connection starts with and that arrive later. -/
def arrive (fd : Int) (bs : List UInt8) : Happening → List UInt8
  | .accepted x inbox => if x = fd then inbox else bs
  | .arrived x data => if x = fd then bs ++ data else bs
  | _ => bs

/-- The bytes that have arrived for a connection. -/
def arrivedFor (log : List Happening) (fd : Int) : List UInt8 := log.foldl (arrive fd) []

/-- The conversation goes on: `conn` is the object that started as `c`. -/
structure Waiting (c conn : CgiConn) (v : Conversation) (arrived inbox : List UInt8) : Prop where
  object : conn = loaded c v.got
  short : v.got.length < bufferSize - 1
  noLine : ∀ k, ¬ LineEnd v.got k
  effects : ∃ ns : List Nat, ns.sum = v.got.length ∧ v.effects = ns.map .recv
  child : v.child = []
  portions : ∀ i ∈ v.inputs, ∀ p ∈ i.portions, p ≠ []
  again : ∀ i ∈ v.inputs, i.last = .again
  arrived : arrived = v.got ++ inbox

/-- The conversation is over. -/
structure Finished (c : CgiConn) (v : Conversation) (arrived : List UInt8) : Prop where
  arrives : Arrives v.inputs
  sent : v.got <+: arrived
  handled : ∃ sys conn, v.Found sys ∧
    Handled sys c (fitting v.got) (Ended v.inputs) 0 ⟨conn, true, v.effects, v.child⟩

section Talks

variable {c conn : CgiConn} {v : Conversation} {arrived inbox : List UInt8} {sys : CgiSystem}
  {input : CgiInput} {r : CgiCall} {log : List Happening} {s : Child}

/-- The conversation after more has happened. -/
theorem conversation_append (log es : List Happening) (fd : Int) :
    conversation (log ++ es) fd = es.foldl (talk fd) (conversation log fd) := List.foldl_append ..

/-- What has arrived after more has happened. -/
theorem arrivedFor_append (log es : List Happening) (fd : Int) :
    arrivedFor (log ++ es) fd = es.foldl (arrive fd) (arrivedFor log fd) := List.foldl_append ..

/-- A call adds the bytes that it received. -/
theorem got_call (effects child : List CgiEffect) :
    (v.call sys input effects child).got = v.got ++ input.portions.flatten := by
  unfold Conversation.got Conversation.call received
  rw [List.flatMap_append, List.flatMap_singleton]

/-- A conversation that has just begun. -/
theorem waiting_init (epollfd fd : Int) (inbox : List UInt8) :
    Waiting (CgiConn.init epollfd fd) (CgiConn.init epollfd fd) ⟨[], [], [], []⟩ inbox inbox where
  object := (loaded_nil epollfd fd).symm
  short := by decide
  noLine := not_lineEnd_nil
  effects := ⟨[], rfl, rfl⟩
  child := rfl
  portions := nofun
  again := nofun
  arrived := rfl

/-- More bytes arrive, and nothing is received. -/
theorem Waiting.more (h : Waiting c conn v arrived inbox) (data : List UInt8) :
    Waiting c conn v (arrived ++ data) (inbox ++ data) where
  object := h.object
  short := h.short
  noLine := h.noLine
  effects := h.effects
  child := h.child
  portions := h.portions
  again := h.again
  arrived := by rw [h.arrived, List.append_assoc]

/-- What a call of `process` finds: portions of what is there, and all of it unless it fails. -/
structure Finds (input : CgiInput) (inbox : List UInt8) : Prop where
  portions : ∀ p ∈ input.portions, p ≠ []
  sent : input.portions.flatten <+: inbox
  all : input.last = .again → input.portions.flatten = inbox

/-- What `recv` can return is found by the call. -/
theorem Finds.of_fits {fd : Int} {k : Stream} (h : s.Fits fd input) (hk : s.table.streams fd = some k) :
    Finds input k.inbox := by
  obtain ⟨k', hk', hportions, hcases⟩ := h
  obtain rfl := Option.some.inj (hk.symm.trans hk')
  rcases hcases with ⟨hlast, hsent⟩ | ⟨hlast, hall, -⟩ | ⟨-, hall, -⟩
  · exact ⟨hportions, hsent, fun hagain => absurd (hlast.symm.trans hagain) (by decide)⟩
  · exact ⟨hportions, hall ▸ List.prefix_rfl, fun _ => hall⟩
  · exact ⟨hportions, hall ▸ List.prefix_rfl, fun _ => hall⟩

/-- A call handles what came before and what it found. -/
theorem Waiting.process (h : Waiting c conn v arrived inbox) (sys : CgiSystem)
    (hfinds : Finds input inbox) : ∃ r, conn.process sys input = .ok r ∧
      Handled sys c (fitting (v.got ++ input.portions.flatten)) (input.last ≠ .again) v.got.length r := by
  obtain ⟨r, hr, hhandled⟩ := processLoop_spec sys c input.last input.portions hfinds.portions v.got
    h.short.le h.noLine
  refine ⟨r, ?_, hhandled⟩
  rw [h.object]
  exact hr

/-- When a call does not remove the connection, no line has ended and there is room. -/
theorem unnamed_of_not_removed {t : List UInt8} {ended : Prop} {start : Nat}
    (h : Handled sys c (fitting t) ended start r) (hremoved : r.removed = false) :
    t.length < bufferSize - 1 ∧ ¬ ended ∧ (∀ k, ¬ LineEnd t k) ∧ Unnamed c t ended start r := by
  have hnone : ∀ k, ¬ LineEnd (fitting t) k := by
    intro k hk
    obtain ⟨j, hj⟩ := exists_firstLineEnd ⟨k, hk⟩
    have hrem := (h.1 j hj).removed
    rw [hremoved] at hrem
    cases hrem
  have hun := h.2 hnone
  have hopen : ¬ ((fitting t).length = bufferSize - 1 ∨ ended) := by
    rw [← hun.removed, hremoved]
    exact Bool.false_ne_true
  have hshort : t.length < bufferSize - 1 := by
    rw [length_fitting] at hopen
    omega
  rw [fitting_of_le hshort.le] at hnone hun
  exact ⟨hshort, fun hend => hopen (.inr hend), hnone, hun⟩

/-- After a call that does not remove the connection, the conversation goes on. -/
theorem Waiting.stays (h : Waiting c conn v arrived inbox) (hfinds : Finds input inbox)
    (hr : conn.process sys input = .ok r) (hremoved : r.removed = false) :
    Waiting c r.conn (v.call sys input r.effects r.child) arrived [] := by
  obtain ⟨r', hr', hhandled⟩ := h.process sys hfinds
  obtain rfl := Except.ok.inj (hr.symm.trans hr')
  obtain ⟨hshort, hend, hnone, hun⟩ := unnamed_of_not_removed hhandled hremoved
  have hagain : input.last = .again := not_not.mp hend
  obtain ⟨ns, hsum, heffects⟩ := h.effects
  obtain ⟨ms, hsum', heffects'⟩ := hun.effects
  rw [hremoved, if_neg Bool.false_ne_true, List.append_nil] at heffects'
  refine ⟨?_, ?_, ?_, ⟨ns ++ ms, ?_, ?_⟩, ?_, ?_, ?_, ?_⟩
  · rw [got_call]
    exact hun.waiting hremoved
  · rwa [got_call]
  · rwa [got_call]
  · rw [got_call, List.sum_append, hsum, hsum']
  · rw [List.map_append, ← heffects, ← heffects']
    rfl
  · show v.child ++ r.child = []
    rw [h.child, hun.child]
    rfl
  · intro i hi
    rcases List.mem_append.mp hi with hi | hi
    · exact h.portions i hi
    · rw [List.mem_singleton.mp hi]
      exact hfinds.portions
  · intro i hi
    rcases List.mem_append.mp hi with hi | hi
    · exact h.again i hi
    · rw [List.mem_singleton.mp hi]
      exact hagain
  · rw [got_call, h.arrived, hfinds.all hagain, List.append_nil]

/-- The stream ends in the last call or has not ended. -/
theorem ended_call (hagain : ∀ i ∈ v.inputs, i.last = .again) (effects child : List CgiEffect) :
    Ended (v.call sys input effects child).inputs ↔ input.last ≠ .again := by
  constructor
  · rintro ⟨i, hi, hlast⟩
    rcases List.mem_append.mp hi with hi | hi
    · exact absurd (hagain i hi) hlast
    · rwa [List.mem_singleton.mp hi] at hlast
  · intro hlast
    exact ⟨input, List.mem_append_right _ List.mem_cons_self, hlast⟩

/-- A call that removes the connection is the last one of the conversation. -/
theorem Waiting.ends (h : Waiting c conn v arrived inbox) (hfinds : Finds input inbox)
    (hr : conn.process sys input = .ok r) (hremoved : r.removed = true) :
    Finished c (v.call sys input r.effects r.child) arrived := by
  obtain ⟨r', hr', hhandled⟩ := h.process sys hfinds
  obtain rfl := Except.ok.inj (hr.symm.trans hr')
  obtain ⟨ns, hsum, heffects⟩ := h.effects
  refine ⟨⟨?_, ?_⟩, ?_, sys, r.conn, ?_, ?_⟩
  · intro i hi
    rcases List.mem_append.mp hi with hi | hi
    · exact h.portions i hi
    · rw [List.mem_singleton.mp hi]
      exact hfinds.portions
  · intro i hi
    apply h.again i
    rwa [Conversation.call, List.dropLast_concat] at hi
  · rw [got_call, h.arrived]
    exact (List.prefix_append_right_inj _).mpr hfinds.sent
  · intro y hy
    rw [Conversation.call, List.getLast?_concat] at hy
    exact (Option.some.inj hy).symm
  · rw [got_call, propext (ended_call h.again r.effects r.child)]
    have hlast : Handled sys c (fitting (v.got ++ input.portions.flatten)) (input.last ≠ .again)
        (0 + ns.sum) r := by
      rwa [Nat.zero_add, hsum]
    have hwhole := handled_prepend ns hlast
    rw [← heffects] at hwhole
    have hrec : (⟨r.conn, true, v.effects ++ r.effects, v.child ++ r.child⟩ : CgiCall) =
        { r with effects := v.effects ++ r.effects } := by
      rw [h.child, List.nil_append, ← hremoved]
    show Handled sys c _ _ 0 ⟨r.conn, true, v.effects ++ r.effects, v.child ++ r.child⟩
    rw [hrec]
    exact hwhole

end Talks

/-! ## Runs -/

/-- What is known of the conversation of a descriptor. -/
structure TalkAt (log : List Happening) (s : Child) (fd : Int) : Prop where
  accepted : s.table.Open fd → ∃ inbox, .accepted fd inbox ∈ log
  waiting : ∀ k, s.table.streams fd = some k →
    Waiting (CgiConn.init s.epollfd fd) (s.users fd) (conversation log fd) (arrivedFor log fd) k.inbox
  finished : s.table.streams fd = none → (∃ inbox, .accepted fd inbox ∈ log) →
    Finished (CgiConn.init s.epollfd fd) (conversation log fd) (arrivedFor log fd)

section Runs

variable {s s' : Child} {a : Action} {d : Report Int} {rest : List (Report Int)} {log es : List Happening}
  {epollfd pipefd sigfd fd x : Int} {users : Int → CgiConn}

/-- The call that is made for an open connection. -/
theorem serves_of_talks (h : ∀ fd, TalkAt log s fd) : Serves s := by
  rintro fd sys input ⟨k, hk⟩ hfits
  have hwaiting := (h fd).waiting k hk
  obtain ⟨r, hr, hhandled⟩ := hwaiting.process sys (Finds.of_fits hfits hk)
  exact ⟨r, hr, fun hrem => not_not.mp (unnamed_of_not_removed hhandled hrem).2.1⟩

/-- A step that has nothing to do with the connection. -/
theorem TalkAt.congr (h : TalkAt log s x) (hepoll : s'.epollfd = s.epollfd)
    (husers : s'.users x = s.users x)
    (hinbox : (s'.table.streams x).map Stream.inbox = (s.table.streams x).map Stream.inbox)
    (htalk : es.foldl (talk x) (conversation log x) = conversation log x)
    (harrive : es.foldl (arrive x) (arrivedFor log x) = arrivedFor log x)
    (haccepted : ∀ inbox, .accepted x inbox ∉ es) : TalkAt (log ++ es) s' x where
  accepted := by
    rintro ⟨k, hk⟩
    rw [hk, Option.map_some] at hinbox
    obtain ⟨k', hk', -⟩ := Option.map_eq_some_iff.mp hinbox.symm
    exact (h.accepted ⟨k', hk'⟩).imp fun _ => List.mem_append_left _
  waiting := by
    intro k hk
    rw [hk, Option.map_some] at hinbox
    obtain ⟨k', hk', heq⟩ := Option.map_eq_some_iff.mp hinbox.symm
    rw [conversation_append, htalk, arrivedFor_append, harrive, hepoll, husers, ← heq]
    exact h.waiting k' hk'
  finished := by
    rintro hk ⟨inbox, hmem⟩
    rw [hk, Option.map_none] at hinbox
    rw [conversation_append, htalk, arrivedFor_append, harrive, hepoll]
    exact h.finished (Option.map_eq_none_iff.mp hinbox.symm)
      ⟨inbox, (List.mem_append.mp hmem).resolve_right (haccepted inbox)⟩

/-- A step that makes no difference to any connection. -/
theorem TalkAt.same (h : TalkAt log s x) (hepoll : s'.epollfd = s.epollfd) (husers : s'.users = s.users)
    (htable : s'.table.streams = s.table.streams) : TalkAt (log ++ []) s' x :=
  h.congr hepoll (congrFun husers x) (by rw [htable]) rfl rfl nofun

/-- Bytes arrive for a connection. -/
theorem TalkAt.arrive (h : TalkAt log s x) (hopen : s.table.Open fd) (data : List UInt8) :
    TalkAt (log ++ [.arrived fd data]) (s.perform (.arrive fd data)).1 x := by
  have hstream : (s.perform (.arrive fd data)).1.table.streams = Function.update s.table.streams fd
      ((s.table.streams fd).map fun k => { k with inbox := k.inbox ++ data }) := rfl
  by_cases hx : x = fd
  · subst hx
    obtain ⟨k, hk⟩ := hopen
    rw [hk, Option.map_some] at hstream
    have haccepted := (h.accepted ⟨k, hk⟩).imp fun _ => List.mem_append_left [.arrived x data]
    refine ⟨fun _ => haccepted, fun k' hk' => ?_, fun hnone => ?_⟩
    · rw [hstream, Function.update_self] at hk'
      obtain rfl := Option.some.inj hk'
      rw [conversation_append, arrivedFor_append]
      simp only [List.foldl_cons, List.foldl_nil, talk, PoolChild.arrive, if_true]
      exact (h.waiting k hk).more data
    · rw [hstream, Function.update_self] at hnone
      cases hnone
  · refine h.congr rfl rfl ?_ rfl ?_ (by simp)
    · rw [hstream, Function.update_of_ne hx]
    · simp only [List.foldl_cons, List.foldl_nil, PoolChild.arrive, if_neg (Ne.symm hx)]

/-- A client closes its side. -/
theorem TalkAt.shutdown (h : TalkAt log s x) (fd : Int) :
    TalkAt (log ++ []) (s.perform (.shutdown fd)).1 x := by
  refine h.congr rfl rfl ?_ rfl rfl nofun
  show (Function.update s.table.streams fd _ x).map Stream.inbox = _
  by_cases hx : x = fd
  · subst hx
    rw [Function.update_self, Option.map_map]
    rfl
  · rw [Function.update_of_ne hx]

/-- A new connection, and a new conversation. -/
theorem TalkAt.accept (h : TalkAt log s x) (accepted : Option (Int × Stream)) :
    TalkAt (log ++ (s.accept accepted).2) (s.accept accepted).1 x := by
  cases accepted with
  | none => exact h.same rfl rfl rfl
  | some y =>
    obtain ⟨connfd, k⟩ := y
    have hstream : (s.accept (some (connfd, k))).1.table.streams =
        Function.update s.table.streams connfd (some k) := rfl
    have husers : (s.accept (some (connfd, k))).1.users =
        Function.update s.users connfd (CgiConn.init s.epollfd connfd) := rfl
    by_cases hx : x = connfd
    · subst hx
      refine ⟨fun _ => ⟨k.inbox, List.mem_append_right _ List.mem_cons_self⟩, fun k' hk' => ?_,
        fun hnone => ?_⟩
      · rw [hstream, Function.update_self] at hk'
        obtain rfl := Option.some.inj hk'
        rw [conversation_append, arrivedFor_append, husers, Function.update_self]
        simp only [Child.accept, List.foldl_cons, List.foldl_nil, talk, PoolChild.arrive, if_true]
        exact waiting_init s.epollfd x k.inbox
      · rw [hstream, Function.update_self] at hnone
        cases hnone
    · refine h.congr rfl ?_ ?_ ?_ ?_ ?_
      · rw [husers, Function.update_of_ne hx]
      · rw [hstream, Function.update_of_ne hx]
      · simp only [Child.accept, List.foldl_cons, List.foldl_nil, talk, if_neg (Ne.symm hx)]
      · simp only [Child.accept, List.foldl_cons, List.foldl_nil, PoolChild.arrive,
          if_neg (Ne.symm hx)]
      · intro inbox hmem
        exact hx (Happening.accepted.inj (List.mem_singleton.mp hmem)).1

/-- A call of `process`. -/
theorem TalkAt.called (h : TalkAt log s x) {sys : CgiSystem} {input : CgiInput} {r : CgiCall}
    (hopen : s.table.Open fd) (hfits : s.Fits fd input) (hr : (s.users fd).process sys input = .ok r) :
    TalkAt (log ++ [.called fd sys input r.effects r.child])
      ({ s with batch := rest }.processed fd r) x := by
  have husers : ({ s with batch := rest }.processed fd r).users = Function.update s.users fd r.conn := rfl
  by_cases hx : x = fd
  · subst hx
    obtain ⟨k, hk⟩ := hopen
    have hwaiting := h.waiting k hk
    have hfinds := Finds.of_fits hfits hk
    have haccepted := (h.accepted ⟨k, hk⟩).imp fun _ =>
      List.mem_append_left [.called x sys input r.effects r.child]
    refine ⟨fun _ => haccepted, fun k' hk' => ?_, fun hnone _ => ?_⟩
    · rw [conversation_append, arrivedFor_append, husers, Function.update_self]
      simp only [List.foldl_cons, List.foldl_nil, talk, PoolChild.arrive, if_true]
      cases hrem : r.removed with
      | true =>
        simp only [Child.processed, hrem, if_true, Table.remove, Table.streams_set_self] at hk'
        cases hk'
      | false =>
        simp only [Child.processed, hrem, Bool.false_eq_true, if_false, Table.drain,
          Table.streams_set_self, hk, Option.map_some] at hk'
        obtain rfl := Option.some.inj hk'
        exact hwaiting.stays hfinds hr hrem
    · rw [conversation_append, arrivedFor_append]
      simp only [List.foldl_cons, List.foldl_nil, talk, PoolChild.arrive, if_true]
      cases hrem : r.removed with
      | true => exact hwaiting.ends hfinds hr hrem
      | false =>
        simp only [Child.processed, hrem, Bool.false_eq_true, if_false, Table.drain,
          Table.streams_set_self, hk, Option.map_some] at hnone
        cases hnone
  · refine h.congr rfl ?_ ?_ ?_ ?_ (by simp)
    · rw [husers, Function.update_of_ne hx]
    · cases hrem : r.removed with
      | true => simp only [Child.processed, hrem, if_true, Table.remove, Table.streams_set_of_ne hx]
      | false =>
        simp only [Child.processed, hrem, Bool.false_eq_true, if_false, Table.drain,
          Table.streams_set_of_ne hx]
    · simp only [List.foldl_cons, List.foldl_nil, talk, if_neg (Ne.symm hx)]
    · simp only [List.foldl_cons, List.foldl_nil, PoolChild.arrive]

/-- Every step keeps the conversation of every descriptor. -/
theorem TalkAt.step (h : ∀ fd, TalkAt log s fd) (hsources : Sources s) (hs : Step s a s') (x : Int) :
    TalkAt (log ++ s.happens a) s' x := by
  obtain ⟨henabled, rfl⟩ := hs
  cases a with
  | arrive fd data =>
    obtain ⟨-, k, hk, -⟩ := henabled
    exact (h x).arrive ⟨k, hk⟩ data
  | shutdown fd => exact (h x).shutdown fd
  | exit => exact (h x).same rfl rfl rfl
  | raise g => exact (h x).congr rfl rfl rfl rfl rfl (by simp [Child.happens, Child.perform])
  | signal g => exact (h x).same rfl rfl rfl
  | wait batch => exact (h x).same rfl rfl rfl
  | fail => exact (h x).same rfl rfl rfl
  | leave => exact (h x).same rfl rfl rfl
  | handle input =>
    cases hb : s.batch with
    | nil =>
      obtain ⟨d, hd, -⟩ := henabled
      rw [hb] at hd
      cases hd
    | cons d rest =>
      have hrest : ∀ fd, TalkAt log { s with batch := rest } fd := fun fd =>
        ⟨(h fd).accepted, (h fd).waiting, (h fd).finished⟩
      simp only [Child.happens, Child.perform, hb]
      have hhandles := handles hsources (serves_of_talks h) hb henabled
      generalize ({ s with batch := rest } : Child).handle d input = after at hhandles ⊢
      cases hhandles with
      | pipe hp => exact (hrest x).accept input.accepted
      | signals hsig =>
        rw [Child.readSignals, handleSignals_eq]
        exact (hrest x).same rfl rfl rfl
      | connection hopen hfits r hr hagain => exact (h x).called hopen hfits hr
      | nothing hin => exact (hrest x).same rfl rfl rfl

/-- No step that is handled as it should ends in a fault. -/
theorem fault_not_mem_happens (hsources : Sources s) (hserves : Serves s) (ha : s.Enabled a) (fd : Int) :
    .fault fd ∉ s.happens a := by
  cases a with
  | handle input =>
    cases hb : s.batch with
    | nil => simp [Child.happens, Child.perform, hb]
    | cons d rest =>
      simp only [Child.happens, Child.perform, hb]
      have hhandles := handles hsources hserves hb ha
      generalize ({ s with batch := rest } : Child).handle d input = after at hhandles ⊢
      cases hhandles with
      | pipe hp => cases input.accepted <;> simp [Child.accept]
      | signals hsig => exact List.not_mem_nil
      | connection hopen hfits r hr hagain => simp
      | nothing hin => exact List.not_mem_nil
  | _ => simp [Child.happens, Child.perform]

/-- What holds in every run. -/
structure Served (log : List Happening) (s : Child) : Prop where
  sources : Sources s
  talks : ∀ fd, TalkAt log s fd
  sound : ∀ fd, .fault fd ∉ log

/-- It holds before the loop. -/
theorem served_start (hne : pipefd ≠ sigfd) : Served [] (start epollfd pipefd sigfd users) :=
  ⟨sources_start epollfd pipefd sigfd users hne, fun _ => ⟨nofun, nofun, nofun⟩, nofun⟩

/-- Every step keeps it. -/
theorem Served.step (h : Served log s) (hs : Step s a s') : Served (log ++ s.happens a) s' := by
  have hserves := serves_of_talks h.talks
  refine ⟨step_sources h.sources hserves hs, TalkAt.step h.talks h.sources hs, fun fd hmem => ?_⟩
  exact (List.mem_append.mp hmem).elim (h.sound fd) (fault_not_mem_happens h.sources hserves hs.1 fd)

/-- It holds in every run. -/
theorem logged_served {cond : Child → Action → Prop} (hne : pipefd ≠ sigfd)
    (h : Logged Step cond Child.happens (start epollfd pipefd sigfd users) log s) : Served log s :=
  h.invariant (I := Served) (served_start hne) fun _ _ _ _ hserved hs _ => hserved.step hs

/-- In every careful run no signal is lost. -/
theorem logged_alarmed (hne : pipefd ≠ sigfd)
    (h : Logged Step Careful Child.happens (start epollfd pipefd sigfd users) log s) :
    Alarmed log s := by
  suffices hboth : Served log s ∧ Alarmed log s from hboth.2
  apply h.invariant (I := fun log s => Served log s ∧ Alarmed log s)
  · exact ⟨served_start hne, alarmed_start epollfd pipefd sigfd users⟩
  · rintro log s a s' ⟨hserved, halarmed⟩ hs hcareful
    exact ⟨hserved.step hs,
      halarmed.step hserved.sources (serves_of_talks hserved.talks) hs hcareful⟩

/-! ## Two clients -/

instance (s : Child) (a : Action) : Decidable (Careful s a) :=
  match a with
  | .signal _ => inferInstanceAs (Decidable (s.signals.length < signalsSize))
  | .arrive _ _ | .shutdown _ | .exit | .raise _ | .wait _ | .fail | .handle _ | .leave => .isTrue trivial

/-- The step function of a child. -/
def follow : Child → Action → Option Child := attempt Child.Enabled fun s a => (s.perform a).1

/-- What the step function does is a step. -/
theorem step_of_follow (h : follow s a = some s') : Step s a s' := attempt_eq_some h

def found (portions : List (List UInt8)) : Input :=
  ⟨none, ⟨fun _ => true, true⟩, ⟨portions, .again⟩⟩

def connects (fd : Int) : Input := ⟨some (fd, ⟨[], false⟩), ⟨fun _ => true, true⟩, ⟨[], .again⟩⟩

/-- The first client sends `ls`, CR LF in two parts, and the second one a byte in between. -/
def twoClients : List Action :=
  [.wait [⟨4, true⟩], .handle (connects 7), .arrive 7 [108, 115, 13], .wait [⟨7, true⟩, ⟨4, true⟩],
    .handle (found [[108, 115, 13]]), .handle (connects 8), .arrive 8 [97], .arrive 7 [10],
    .wait [⟨8, true⟩, ⟨7, true⟩], .handle (found [[97]]), .handle (found [[10]])]

/-- The program of the first client ends, and the child waits for it. -/
def programEnds : List Action :=
  twoClients ++ [.exit, .signal .sigchld, .wait [⟨5, true⟩], .handle (found [])]

/-- A child with its descriptors. -/
def beginning : Child := start 3 4 5 fun _ => CgiConn.init 0 0

def resultOf (as : List Action) : Option (List Happening × Child) :=
  loggedSchedule follow Careful Child.happens beginning as

/-- A schedule that is possible, with a test of what it comes to. -/
theorem exists_result {as : List Action} {test : List Happening × Child → Bool}
    (h : (resultOf as).any test = true) :
    ∃ log s, Logged Step Careful Child.happens beginning log s ∧ test (log, s) = true :=
  exists_logged (fun _ _ _ => step_of_follow) h

/-- The connection that is accepted, with the bytes that it starts with. -/
def acceptance : Happening → Option (Int × List UInt8)
  | .accepted fd inbox => some (fd, inbox)
  | _ => none

/-- What was accepted is in the log. -/
theorem mem_of_acceptance {inbox : List UInt8} (h : (fd, inbox) ∈ log.filterMap acceptance) :
    .accepted fd inbox ∈ log := by
  obtain ⟨e, he, heq⟩ := List.mem_filterMap.mp h
  cases e with
  | accepted x y =>
    obtain ⟨rfl, rfl⟩ := Prod.mk.inj (Option.some.inj heq)
    exact he
  | _ => cases heq

/-! ## One conversation for a connection -/

/-- The calls since the descriptor was accepted have handled, as one conversation, bytes that
arrived for it, with the files that the last call found and as its `fork` went. The connection is
removed exactly when it is not open any more. -/
structure Conversed (log : List Happening) (s : Child) (fd : Int) : Prop where
  arrives : Arrives (conversation log fd).inputs
  sent : (conversation log fd).got <+: arrivedFor log fd
  handled : ∃ sys r, (conversation log fd).Found sys ∧
    Handled sys (CgiConn.init s.epollfd fd) (fitting (conversation log fd).got)
      (Ended (conversation log fd).inputs) 0 r ∧ r.effects = (conversation log fd).effects ∧
      r.child = (conversation log fd).child ∧ (r.removed = true ↔ ¬ s.table.Open fd)

/-- A conversation that goes on handles its bytes whatever the system is: no line has ended. -/
theorem Waiting.handled {c conn : CgiConn} {v : Conversation} {arrived inbox : List UInt8}
    (h : Waiting c conn v arrived inbox) (sys : CgiSystem) :
    Handled sys c (fitting v.got) (Ended v.inputs) 0 ⟨conn, false, v.effects, v.child⟩ := by
  have hend : ¬ Ended v.inputs := fun ⟨i, hi, hlast⟩ => hlast (h.again i hi)
  obtain ⟨ns, hsum, heffects⟩ := h.effects
  have hwait : Handled sys c v.got (Ended v.inputs) v.got.length ⟨loaded c v.got, false, [], []⟩ :=
    handled_wait h.short h.noLine hend
  rw [← hsum, ← Nat.zero_add ns.sum] at hwait
  have hall := handled_prepend ns hwait
  rw [List.append_nil, ← heffects, ← h.object, ← h.child] at hall
  rwa [fitting_of_le h.short.le]

/-- What is known of a conversation, as one sequence of calls. -/
theorem TalkAt.conversed (h : TalkAt log s x) (hmem : ∃ inbox, .accepted x inbox ∈ log) :
    Conversed log s x := by
  cases hk : s.table.streams x with
  | none =>
    have hfinished := h.finished hk hmem
    obtain ⟨sys, conn, hfound, hhandled⟩ := hfinished.handled
    refine ⟨hfinished.arrives, hfinished.sent, sys, _, hfound, hhandled, rfl, rfl,
      iff_of_true rfl ?_⟩
    rintro ⟨k, hk'⟩
    rw [hk] at hk'
    cases hk'
  | some k =>
    have hwaiting := h.waiting k hk
    refine ⟨⟨hwaiting.portions, fun i hi => hwaiting.again i (List.mem_of_mem_dropLast hi)⟩, ?_,
      (conversation log x).systems.getLast?.getD ⟨fun _ => true, true⟩, _, fun y hy => ?_,
      hwaiting.handled _, rfl, rfl, iff_of_false Bool.false_ne_true ?_⟩
    · rw [hwaiting.arrived]
      exact List.prefix_append _ _
    · rw [Option.mem_def.mp hy, Option.getD_some]
    · exact fun hclosed => hclosed ⟨k, hk⟩

/-- The action is one of clients, programs, other processes or the parent. -/
def FromOutside (s : Child) : Action → Prop
  | .arrive _ _ => True
  | .shutdown _ => True
  | .exit => True
  | .raise _ => True
  | .fail => True
  | .wait batch => ∃ d ∈ batch, d.fd = s.pipefd ∨ d.readable = false
  | _ => False

/-- The child has waited for all programs that have ended. The open connections have received what
was sent to them, which has no line end, and are not closed by their clients. It leaves room,
because a `recv` into a full buffer returns 0 and removes the connection. No signal has come that
ends the child. -/
structure Settled (log : List Happening) (s : Child) : Prop where
  reaped : s.zombies = 0
  received : ∀ fd, s.table.Open fd → (conversation log fd).got = arrivedFor log fd ∧
    (∀ k, ¬ LineEnd (arrivedFor log fd) k) ∧ (arrivedFor log fd).length < bufferSize - 1
  connected : ∀ fd k, s.table.streams fd = some k → k.closed = false
  unstopped : ∀ g, Ends g → .raised g ∉ log

/-- An event can be handled. -/
theorem exists_handle (h : Sources s) (hne : s.batch ≠ []) : ∃ input, s.Enabled (.handle input) := by
  obtain ⟨d, rest, hb⟩ := List.exists_cons_of_ne_nil hne
  refine ⟨⟨none, ⟨fun _ => true, true⟩, ⟨[], .failed⟩⟩, d, by rw [hb]; rfl, nofun, fun hp hs _ => ?_⟩
  obtain ⟨k, hk⟩ := h.watched.opened d (by rw [hb]; exact List.mem_cons_self) fun hx => hx.elim hp hs
  exact ⟨k, hk, nofun, .inl ⟨rfl, List.nil_prefix⟩⟩

/-- A state in which only the outside can go on: no event is left of the descriptor that is
open. -/
structure Idle (s : Child) (fd : Int) : Prop where
  batch : s.batch = []
  mStop : s.mStop = false
  signals : s.signals = []
  pending : ∀ g, s.pending g = false
  entry : ∀ e ∈ s.table.entries fd, e.ready = false
  only : ∀ x, s.table.Open x → x = fd

/-- In an idle state only the outside can go on. -/
theorem Idle.fromOutside {fd : Int} (h : Idle s fd) (ha : s.Enabled a) : FromOutside s a := by
  cases a with
  | signal g =>
    have hp : s.pending g = true := ha
    rw [h.pending g] at hp
    cases hp
  | handle input =>
    obtain ⟨d, hd, -⟩ := ha
    rw [h.batch] at hd
    cases hd
  | leave =>
    have hstop := ha.2.1
    rw [h.mStop] at hstop
    cases hstop
  | wait batch =>
    obtain ⟨-, -, -, hne, -, -, hrep⟩ := ha
    obtain ⟨d, hd⟩ := List.exists_mem_of_ne_nil _ hne
    refine ⟨d, hd, ?_⟩
    rcases hrep d hd with hp | ⟨-, -, -, hsignals⟩ | ⟨e, he, k, hk, -, hready⟩
    · exact .inl hp
    · exact absurd h.signals hsignals
    · refine .inr (Bool.eq_false_of_not_eq_true fun hin => ?_)
      have heq := h.only d.fd ⟨k, hk⟩
      have hnot := h.entry e (heq ▸ he)
      rw [hready hin] at hnot
      cases hnot
  | _ => trivial

end Runs

end ServerListings.Analysis.PoolChild
