import Mathlib.Data.Set.Card
import HeapFlow.Proofs.Parts

/-!
# In what order work is served

What a work list does after any history of chores (`Chore`) is said here in terms of what was added
and what polls have answered. The *adds* of a pointer are the sets that were added for it since it
was last polled; the oldest of them is when it was *enqueued*. The next poll takes the pointer that
was enqueued first together with the union of its adds (`WorkList.Next`). The invariant behind this
is `WorkList.Tracks`.
-/

namespace HeapFlow

open List

/-- A use of a work list. -/
inductive Chore where
  | objects (p : PtrId) (s : Objects)
  | call (e : CCallEdge)
  | poll

namespace Work

def pointer? : Work → Option PtrId
  | objects p _ => some p
  | call _ => none

def call? : Work → Option CCallEdge
  | objects _ _ => none
  | call e => some e

end Work

namespace WorkList

/-- The work list after a history of chores, youngest first. A poll that takes nothing leaves the
work list as it is. -/
def after : List Chore → WorkList
  | [] => {}
  | .objects p s :: h => (after h).addObjects p s
  | .call e :: h => (after h).addCall e
  | .poll :: h => (after h).poll.elim (after h) Prod.snd

/-- What a poll after a history takes. -/
def answer (h : List Chore) : Option Work :=
  (after h).poll.map Prod.fst

/-- The sets added for a pointer since it was last polled, youngest first, with the times. -/
def adds (p : PtrId) : List Chore → List (Nat × Objects)
  | [] => []
  | .objects q s :: h => if q = p then (h.length, s) :: adds p h else adds p h
  | .call _ :: h => adds p h
  | .poll :: h => if (answer h).bind Work.pointer? = some p then [] else adds p h

/-- When the current entry of a pointer was enqueued. -/
def enqueued (p : PtrId) (h : List Chore) : Option Nat :=
  (adds p h).getLast?.map Prod.fst

/-- The call edges that were added, oldest first. -/
def added : List Chore → List CCallEdge
  | [] => []
  | .call e :: h => added h ++ [e]
  | .objects _ _ :: h | .poll :: h => added h

/-- The call edges that polls have taken, in this order. -/
def taken : List Chore → List CCallEdge
  | [] => []
  | .poll :: h => taken h ++ ((answer h).bind Work.call?).toList
  | .objects _ _ :: h | .call _ :: h => taken h

/-- **What the next poll takes**: the pointer that was enqueued first, with the union of the sets
added for it; if no pointer waits, the oldest call edge that was not taken; if there is none either,
nothing. -/
inductive Next (h : List Chore) : Option Work → Prop where
  | objects {p : PtrId} {s : Objects} {n : Nat} (hp : enqueued p h = some n)
      (first : ∀ q m, enqueued q h = some m → q ≠ p → n < m)
      (hs : ∀ o, o ∈ s ↔ ∃ a ∈ adds p h, o ∈ a.2) : Next h (some (.objects p s))
  | call {e : CCallEdge} {es : List CCallEdge} (hp : ∀ p, adds p h = [])
      (he : added h = taken h ++ e :: es) : Next h (some (.call e))
  | nothing (hp : ∀ p, adds p h = []) (he : added h = taken h) : Next h none

variable {h : List Chore} {w : WorkList} {p q : PtrId} {s : Objects}

theorem enqueued_eq_none_iff : enqueued p h = none ↔ adds p h = [] := by
  rw [enqueued, Option.map_eq_none_iff, getLast?_eq_none_iff]

theorem exists_enqueued (hp : adds p h ≠ []) : ∃ n, enqueued p h = some n :=
  Option.ne_none_iff_exists'.mp (mt enqueued_eq_none_iff.mp hp)

/-- Adds are older than the present. -/
theorem lt_length_of_mem_adds {a : Nat × Objects} (ha : a ∈ adds p h) : a.1 < h.length := by
  induction h with
  | nil => cases ha
  | cons x h ih =>
    have hlt : a ∈ adds p h → a.1 < (x :: h).length := fun ha => Nat.lt_succ_of_lt (ih ha)
    cases x with
    | objects q s =>
      rw [adds] at ha
      split at ha
      · rcases mem_cons.mp ha with rfl | ha
        · exact Nat.lt_succ_self _
        · exact hlt ha
      · exact hlt ha
    | call e => exact hlt ha
    | poll =>
      rw [adds] at ha
      split at ha
      · cases ha
      · exact hlt ha

theorem enqueued_lt_length {n : Nat} (hp : enqueued p h = some n) : n < h.length := by
  obtain ⟨a, ha, rfl⟩ := Option.map_eq_some_iff.mp hp
  exact lt_length_of_mem_adds (mem_of_getLast? ha)

/-- A pointer is enqueued when it gets its first set, and keeps its place when it gets more. -/
theorem enqueued_objects :
    enqueued q (.objects p s :: h) =
      if p = q then some ((enqueued q h).getD h.length) else enqueued q h := by
  rw [enqueued, adds]
  split
  · rw [getLast?_cons, enqueued]
    cases (adds q h).getLast? <;> rfl
  · rfl

/-- One pointer was enqueued before another one. -/
def Earlier (h : List Chore) (p q : PtrId) : Prop :=
  ∃ n m, enqueued p h = some n ∧ enqueued q h = some m ∧ n < m

/-- **A work list keeps track of its history.** -/
structure Tracks (h : List Chore) (w : WorkList) : Prop where
  wf : w.Wf
  queued : ∀ p, p ∈ w.pointers.toList ↔ adds p h ≠ []
  waits : ∀ p o, w.Waits p o ↔ ∃ a ∈ adds p h, o ∈ a.2
  order : w.pointers.toList.Pairwise (Earlier h)
  calls : added h = taken h ++ w.calls.toList

theorem toList_addObjects (hw : w.Wf) :
    (w.addObjects p s).pointers.toList =
      w.pointers.toList ++ if p ∈ w.pointers.toList then [] else [p] := by
  have hmem : p ∈ w.pointers.toList ↔ ∃ t, w.waiting? p = some t := by
    simp only [hw.order, mem_map, Prod.exists, exists_and_right, exists_eq_right,
      hw.waiting?_eq_some_iff]
  unfold addObjects
  split
  · rename_i t ht
    rw [if_pos (hmem.mpr ⟨t, ht⟩), append_nil]
  · rename_i hnone
    rw [if_neg (by simp [hmem, hnone]), Fifo.toList_push]

/-- Objects are added. -/
theorem Tracks.objects (hw : Tracks h w) (p : PtrId) (s : Objects) :
    Tracks (.objects p s :: h) (w.addObjects p s) where
  wf := addObjects_wf hw.wf p s
  queued q := by
    rw [toList_addObjects hw.wf, mem_append, hw.queued, adds]
    by_cases hpq : p = q
    · subst hpq
      by_cases hp : adds p h = [] <;> simp [hw.queued, hp]
    · by_cases hp : adds p h = [] <;> simp [hw.queued, hp, hpq, Ne.symm hpq]
  waits q o := by
    rw [waits_addObjects hw.wf, hw.waits, adds]
    by_cases hpq : p = q
    · subst hpq
      simp [or_comm]
    · simp [hpq, Ne.symm hpq]
  order := by
    have hold : ∀ {q r}, Earlier h q r → Earlier (.objects p s :: h) q r := by
      rintro q r ⟨n, m, hq, hr, hlt⟩
      refine ⟨n, m, ?_, ?_, hlt⟩ <;> rw [enqueued_objects]
      · split <;> simp [hq]
      · split <;> simp [hr]
    rw [toList_addObjects hw.wf]
    split
    · rw [append_nil]
      exact hw.order.imp hold
    · rename_i hp
      refine pairwise_append.mpr ⟨hw.order.imp hold, pairwise_singleton _ _, ?_⟩
      rintro q hq r hr
      cases mem_singleton.mp hr
      -- the pointer is new, so it is enqueued now, and all others were before
      obtain ⟨n, hn⟩ := exists_enqueued ((hw.queued q).mp hq)
      have hnone : enqueued p h = none := by
        rw [enqueued_eq_none_iff]
        exact not_not.mp (mt (hw.queued p).mpr hp)
      refine ⟨n, h.length, ?_, ?_, enqueued_lt_length hn⟩ <;> rw [enqueued_objects]
      · split <;> simp [hn]
      · simp [hnone]
  calls := by
    rw [calls_addObjects]
    exact hw.calls

theorem Tracks.call (hw : Tracks h w) (e : CCallEdge) : Tracks (.call e :: h) (w.addCall e) where
  wf := hw.wf.addCall e
  queued := hw.queued
  waits := hw.waits
  order := hw.order
  calls := by
    rw [addCall, Fifo.toList_push, added, taken, hw.calls, append_assoc]

theorem Wf.poll_takes (hw : w.Wf) :
    (w.poll.elim w Prod.snd).Wf ∧
    (w.poll.elim w Prod.snd).pending = w.pending.filter
      (fun e => (w.poll.map Prod.fst).bind Work.pointer? ≠ some e.1) ∧
    w.calls.toList = ((w.poll.map Prod.fst).bind Work.call?).toList ++
      (w.poll.elim w Prod.snd).calls.toList := by
  rcases hw.poll_cases with ⟨h, hp, -⟩ | ⟨p, t, w', h, hwf, -, hp, hc⟩ |
    ⟨e, w', h, hwf, hp, hp', hc⟩
  · simp [h, hp, hw]
  · rw [h]
    refine ⟨hwf, hp.trans ?_, by simp [Work.call?, hc]⟩
    refine filter_congr fun e _ => ?_
    simp [Work.pointer?, eq_comm]
  · rw [h]
    refine ⟨hwf, ?_, hc⟩
    simp [hp, hp']

/-- **A poll keeps track.** -/
theorem Tracks.poll (hw : Tracks h (after h)) : Tracks (.poll :: h) (after (.poll :: h)) := by
  obtain ⟨hwf, hpending, hcalls⟩ := hw.wf.poll_takes
  rw [← answer] at hpending hcalls
  rw [← after] at hwf hpending hcalls
  have hlist : (after (.poll :: h)).pointers.toList = (after h).pointers.toList.filter
      fun q => (answer h).bind Work.pointer? ≠ some q := by
    rw [hwf.order, hpending, hw.wf.order, filter_map]
    rfl
  refine ⟨hwf, fun q => ?_, fun q o => ?_, ?_, ?_⟩
  · rw [hlist, mem_filter, hw.queued, adds]
    by_cases hq : (answer h).bind Work.pointer? = some q <;> simp [hq]
  · rw [adds, Waits, hpending]
    by_cases hq : (answer h).bind Work.pointer? = some q
    · simp [hq]
    · simpa [hq, Waits] using hw.waits q o
  · rw [hlist]
    refine (hw.order.filter _).imp_of_mem ?_
    rintro q r hq hr ⟨n, m, hn, hm, hlt⟩
    have hkept : ∀ {q}, q ∈ (after h).pointers.toList.filter
        (fun q => (answer h).bind Work.pointer? ≠ some q) →
        enqueued q (.poll :: h) = enqueued q h := by
      intro q hq
      rw [enqueued, adds, if_neg (by simpa using (mem_filter.mp hq).2), enqueued]
    exact ⟨n, m, (hkept hq).trans hn, (hkept hr).trans hm, hlt⟩
  · rw [added, taken, append_assoc, ← hcalls]
    exact hw.calls

theorem tracks_after (h : List Chore) : Tracks h (after h) := by
  induction h with
  | nil => exact ⟨wf_empty, by simp [after, adds], by simp [Waits, after, adds], .nil, rfl⟩
  | cons x h ih =>
    cases x with
    | objects p s => exact ih.objects p s
    | call e => exact ih.call e
    | poll => exact ih.poll

theorem toList_of_poll_objects {w' : WorkList} (hpoll : w.poll = some (.objects p s, w')) :
    w.pointers.toList = p :: w'.pointers.toList := by
  unfold poll at hpoll
  split at hpoll
  · rename_i hpop
    cases hpoll
    exact Fifo.pop?_eq_some hpop
  · split at hpoll <;> cases hpoll

theorem Tracks.adds_eq_nil (hw : Tracks h w) (hempty : w.pending = []) (p : PtrId) :
    adds p h = [] := by
  have hp : p ∉ w.pointers.toList := by simp [hw.wf.order, hempty]
  exact not_not.mp (mt (hw.queued p).mpr hp)

/-- **A poll takes what is due.** -/
theorem next_answer (h : List Chore) : Next h (answer h) := by
  have hw := tracks_after h
  rw [answer]
  rcases hw.wf.poll_cases with
    ⟨hpoll, hempty, hcalls⟩ | ⟨p, s, w', hpoll, -, hmem, -⟩ | ⟨e, w', hpoll, -, hempty, -, hcalls⟩
  · rw [hpoll]
    exact .nothing (hw.adds_eq_nil hempty) (by simpa [hcalls] using hw.calls)
  · have hlist := toList_of_poll_objects hpoll
    have horder := hw.order
    rw [hlist, pairwise_cons] at horder
    obtain ⟨n, hn⟩ := exists_enqueued ((hw.queued p).mp (hlist ▸ .head _))
    rw [hpoll]
    refine .objects hn (fun q m hm hne => ?_) fun o => ?_
    · have hq : q ∈ (after h).pointers.toList := by
        rw [hw.queued, ne_eq, ← enqueued_eq_none_iff, hm]
        exact Option.some_ne_none m
      rw [hlist] at hq
      obtain ⟨n', m', hn', hm', hlt⟩ := horder.1 q ((mem_cons.mp hq).resolve_left hne)
      cases hn.symm.trans hn'
      cases hm.symm.trans hm'
      exact hlt
    · rw [← hw.waits]
      constructor
      · exact fun ho => ⟨s, hmem, ho⟩
      · rintro ⟨t, ht, ho⟩
        rwa [hw.wf.entry_unique hmem ht]
  · rw [hpoll]
    exact .call (hw.adds_eq_nil hempty) (hw.calls.trans (by rw [hcalls]))

theorem Tracks.size_eq (hw : Tracks h w) :
    w.size = {p | adds p h ≠ []}.ncard + ((added h).length - (taken h).length) := by
  have hset : {p | adds p h ≠ []} = (w.pointers.toList.toFinset : Set PtrId) := by
    ext p
    simp [hw.queued]
  have hnodup : w.pointers.toList.Nodup := hw.wf.order ▸ hw.wf.nodup
  rw [hset, Set.ncard_coe_finset, toFinset_card_of_nodup hnodup, hw.calls,
    length_append, Nat.add_sub_cancel_left, Fifo.length_toList, Fifo.length_toList, size]

end WorkList

open WorkList in
/-- **A work list serves what was added to it**, after every history of chores: the queued pointers
are distinct, they are the keys of the pending entries and those for which something was added since
they were last polled; the next poll takes what is due (`WorkList.Next`); call edges come out in the
order in which they were added, each as often; and the size counts the entries that wait. -/
theorem work_served (h : List Chore) :
    (after h).pointers.toList.Nodup ∧
    (∀ p, p ∈ (after h).pointers.toList ↔ p ∈ (after h).pending.map Prod.fst) ∧
    (∀ p, p ∈ (after h).pointers.toList ↔ adds p h ≠ []) ∧
    Next h (answer h) ∧
    added h = taken h ++ (after h).calls.toList ∧
    (after h).size = {p | adds p h ≠ []}.ncard + ((added h).length - (taken h).length) := by
  have hw := tracks_after h
  refine ⟨hw.wf.order ▸ hw.wf.nodup, fun p => ?_, hw.queued, next_answer h, hw.calls, hw.size_eq⟩
  rw [hw.wf.order]

end HeapFlow
