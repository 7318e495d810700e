import ServerListings.Lib.Readiness
import ServerListings.Lib.EdgeTriggered
import Mathlib.Data.List.Nodup

/-!
# Event loops over a readiness table

A loop waits for a batch of reports, of streams or of a few special sources, and handles one after
the other. `Watched` says that the reports of streams are of open ones and that no stream is
forgotten. `Behind` is about a queue that is served once for each report of its source, however
much is in it.
-/

set_option autoImplicit false

namespace Lib.Readiness

/-- A report of a source that could be read or not. -/
structure Report (κ : Type) where
  fd : κ
  readable : Bool
  deriving DecidableEq, Repr

/-- A report that the source can be read is still to be handled. -/
def Due {κ : Type} (batch : List (Report κ)) (x : κ) : Prop := ⟨x, true⟩ ∈ batch

/-- The state of a loop. The streams that are relied on to be handled are `handled`. What a report
says of a stream stays true until it is handled. -/
structure Watched {κ : Type} (special : κ → Prop) (T : Table κ) (batch : List (Report κ))
    (handled : κ → Prop) : Prop where
  edge : T.Edge handled
  apart : ∀ x, special x → ¬ T.Open x
  nodup : (batch.map Report.fd).Nodup
  opened : ∀ d ∈ batch, ¬ special d.fd → T.Open d.fd
  readable : ∀ x, Due batch x → ∀ k, T.streams x = some k → k.readable = true

section Loops

variable {κ : Type} {special handled handled' : κ → Prop} {T T' : Table κ}
  {batch rest : List (Report κ)} {d : Report κ} {x : κ}

/-- Without connections there is nothing to watch. -/
theorem watched_empty : Watched special (Table.empty κ) [] handled :=
  ⟨Table.edge_empty, fun _ _ => nofun, List.nodup_nil, nofun, nofun⟩

/-- A batch is reported, and a stream in it as it is. -/
theorem Watched.report (h : Watched special T [] handled) (hedge : T'.Edge handled')
    (hstreams : T'.streams = T.streams) (hnodup : (batch.map Report.fd).Nodup)
    (hfound : ∀ d ∈ batch, special d.fd ∨ ∃ k, T.streams d.fd = some k ∧ d.readable = k.readable) :
    Watched special T' batch handled' where
  edge := hedge
  apart := by
    rintro x hx ⟨k, hk⟩
    exact h.apart x hx ⟨k, hstreams ▸ hk⟩
  nodup := hnodup
  opened := by
    intro d hd hs
    obtain ⟨k, hk, -⟩ := (hfound d hd).resolve_left hs
    exact ⟨k, hstreams ▸ hk⟩
  readable := by
    intro x hx k hk
    rw [hstreams] at hk
    obtain ⟨k', hk', hread⟩ := (hfound _ hx).resolve_left fun hs => h.apart x hs ⟨k, hk⟩
    obtain rfl := Option.some.inj (hk.symm.trans hk')
    exact hread.symm

/-- The entries of a batch wait for the next change of their streams. -/
theorem edge_report [DecidableEq κ] (h : Watched special T [] (Due []))
    (hfound : ∀ d ∈ batch, special d.fd ∨ ∃ k, T.streams d.fd = some k ∧ d.readable = k.readable) :
    (T.report (batch.map Report.fd) Entry.waiting).Edge (Due batch) := by
  refine h.edge.report (fun x hx => by cases hx) fun x hx k hk hread => ?_
  obtain ⟨⟨fd, readable⟩, hd, rfl⟩ := List.mem_map.mp hx
  obtain ⟨k', hk', hread'⟩ := (hfound _ hd).resolve_left fun hs => h.apart fd hs ⟨k, hk⟩
  obtain rfl := Option.some.inj (hk.symm.trans hk')
  obtain rfl : readable = true := hread'.trans hread
  exact hd

/-- An event is reported once in a batch. -/
theorem Watched.rest_nodup (h : Watched special T (d :: rest) handled) :
    d.fd ∉ rest.map Report.fd ∧ (rest.map Report.fd).Nodup := by
  have hnodup := h.nodup
  rwa [List.map_cons, List.nodup_cons] at hnodup

/-- What is due later is not the event that is handled. -/
theorem Watched.ne_of_due (h : Watched special T (d :: rest) handled) (hx : Due rest x) : x ≠ d.fd := by
  rintro rfl
  exact h.rest_nodup.1 (List.mem_map.mpr ⟨_, hx, rfl⟩)

/-- What is left to be handled besides the next report. -/
theorem due_rest (hx : x = d.fd → d.readable = false) (h : Due (d :: rest) x) : Due rest x := by
  rcases List.mem_cons.mp h with rfl | h
  · cases hx rfl
  · exact h

/-- The next report has been handled, in which only its own stream was changed or closed. -/
theorem Watched.finish (h : Watched special T (d :: rest) handled) (hedge : T'.Edge handled')
    (hstreams : ∀ x, x ≠ d.fd → T'.streams x = T.streams x) (hopen : T'.Open d.fd → T.Open d.fd) :
    Watched special T' rest handled' where
  edge := hedge
  apart := by
    rintro x hx ⟨k, hk⟩
    by_cases hxd : x = d.fd
    · subst hxd
      exact h.apart d.fd hx (hopen ⟨k, hk⟩)
    · exact h.apart x hx ⟨k, (hstreams x hxd).symm.trans hk⟩
  nodup := h.rest_nodup.2
  opened := by
    intro e he hs
    obtain ⟨k, hk⟩ := h.opened e (List.mem_cons_of_mem d he) hs
    refine ⟨k, (hstreams e.fd fun heq => h.rest_nodup.1 ?_).trans hk⟩
    exact heq ▸ List.mem_map_of_mem he
  readable := by
    intro x hx k hk
    exact h.readable x (List.mem_cons_of_mem d hx) k ((hstreams x (h.ne_of_due hx)).symm.trans hk)

variable [DecidableEq κ]

/-- The next report is of a special source, or of a stream that cannot be read. -/
theorem Watched.next (h : Watched special T (d :: rest) handled)
    (hd : T.Open d.fd → d.readable = false)
    (hrest : ∀ y, (y = d.fd → d.readable = false) → handled y → handled' y) :
    Watched special T rest handled' := by
  refine h.finish ?_ (fun _ _ => rfl) id
  cases hin : d.readable with
  | true =>
    refine h.edge.done (x := d.fd) (fun k hk => ?_) fun y hy => hrest y fun heq => absurd heq hy
    rw [hd ⟨k, hk⟩] at hin
    cases hin
  | false => exact h.edge.mono fun y => hrest y fun _ => hin

/-- A change that takes nothing away to read keeps the connections watched. -/
theorem Watched.change (h : Watched special T batch handled) (x : κ) {f : Stream → Stream}
    (hf : ∀ k, k.readable = true → (f k).readable = true) :
    Watched special (T.change x f) batch handled where
  edge := h.edge.change
  apart := fun y hy ho => h.apart y hy ((Table.open_set_map f).mp ho)
  nodup := h.nodup
  opened := fun d hd hs => (Table.open_set_map f).mpr (h.opened d hd hs)
  readable := by
    intro y hy k hk
    by_cases hyx : y = x
    · subst hyx
      rw [Table.change, Table.streams_set_self] at hk
      obtain ⟨k', hk', rfl⟩ := Option.map_eq_some_iff.mp hk
      exact hf k' (h.readable y hy k' hk')
    · rw [Table.change, Table.streams_set_of_ne hyx] at hk
      exact h.readable y hy k hk

/-- Bytes arrive. -/
theorem Watched.arrive (h : Watched special T batch handled) (x : κ) (data : List UInt8) :
    Watched special (T.change x fun k => { k with inbox := k.inbox ++ data }) batch handled := by
  refine h.change x fun k hread => Bool.eq_true_of_not_eq_false fun hnot => ?_
  obtain ⟨hinbox, hclosed⟩ := Stream.readable_eq_false.mp hnot
  rw [Stream.readable_eq_false.mpr ⟨(List.append_eq_nil_iff.mp hinbox).1, hclosed⟩] at hread
  cases hread

/-- The other side closes. -/
theorem Watched.hangUp (h : Watched special T batch handled) (x : κ) :
    Watched special (T.change x fun k => { k with closed := true }) batch handled :=
  h.change x fun _ _ => Bool.or_true _

/-- A stream is opened at a new place. -/
theorem Watched.add (h : Watched special T batch handled) (hx : ¬ special x)
    (hnone : T.streams x = none) (k : Stream) : Watched special (T.add x k) batch handled where
  edge := h.edge.add k
  apart := by
    intro y hy ho
    have hne : y ≠ x := by
      rintro rfl
      exact hx hy
    exact h.apart y hy ((Table.open_set_of_ne hne).mp ho)
  nodup := h.nodup
  opened := by
    intro d hd hs
    by_cases hdx : d.fd = x
    · exact ⟨k, by rw [hdx]; exact Table.streams_set_self⟩
    · exact (Table.open_set_of_ne hdx).mpr (h.opened d hd hs)
  readable := by
    intro y hy k' hk'
    have hne : y ≠ x := by
      rintro rfl
      obtain ⟨k'', hk''⟩ := h.opened _ hy hx
      rw [hnone] at hk''
      cases hk''
    rw [Table.add, Table.streams_set_of_ne hne] at hk'
    exact h.readable y hy k' hk'

end Loops

/-! ## Queues -/

section Queues

open Lib.EdgeTriggered

variable {α : Type} [DecidableEq α] {edge : Bool} {batch rest : List α} {x y : α} {base n n' : Nat}

/-- A queue of length `n` has `base` more than are going to be served for the reports of its source
that are still to come or to be handled. -/
def Behind (base n : Nat) (edge : Bool) (batch : List α) (x : α) : Prop :=
  base + pending (fun _ => edge) batch x ≤ n

/-- What is left and not in the batch is behind. -/
theorem behind_quiet (hx : x ∉ batch) : Behind n n false batch x := by
  rw [Behind, pending, List.count_eq_zero.mpr hx]
  exact le_rfl

/-- No fewer are left than at the start. -/
theorem Behind.le (h : Behind base n edge batch x) : base ≤ n := le_trans (Nat.le_add_right ..) h

/-- Something is put into the queue, whose source is reported at most once more. -/
theorem Behind.put (h : Behind base n edge batch x) : Behind base (n + 1) true batch x := by
  unfold Behind pending at *
  rw [if_pos rfl]
  omega

/-- Reports come, which take the edges of their sources away. -/
theorem Behind.report (h : Behind base n edge [] x) (hnodup : batch.Nodup)
    (hedge : x ∈ batch → edge = true) : Behind base n (edge && decide (x ∉ batch)) batch x := by
  unfold Behind pending at *
  by_cases hx : x ∈ batch
  · rw [List.count_eq_one_of_mem hnodup hx]
    simp only [hedge hx, if_true, List.count_nil] at h
    simp only [hx, not_true_eq_false, decide_false, Bool.and_false, Bool.false_eq_true, if_false]
    omega
  · rw [List.count_eq_zero.mpr hx]
    simpa only [hx, not_false_eq_true, decide_true, Bool.and_true, List.count_nil] using h

/-- A report is handled, and the queue is served at most once. -/
theorem Behind.serve (h : Behind base n edge (x :: rest) x) (hn : n ≤ n' + 1) :
    Behind base n' edge rest x := by
  unfold Behind at *
  rw [pending_handled rfl, List.tail_cons] at h
  omega

/-- A report of something else is handled. -/
theorem Behind.other (h : Behind base n edge (y :: rest) x) (hne : x ≠ y) :
    Behind base n edge rest x := by
  unfold Behind at *
  rwa [pending_handled_of_ne rfl hne, List.tail_cons] at h

end Queues

end Lib.Readiness
