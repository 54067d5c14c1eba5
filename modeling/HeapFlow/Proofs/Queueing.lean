import HeapFlow.Proofs.Parts

/-!
# A queue gives the oldest element first

This file says what a queue gives after any history of uses (`QueueUse`). The elements that wait are
told by the history alone (`Fifo.waiting`); how the cells are arranged, and when the dead ones are
dropped, makes no difference to them. Dead cells are few, or fewer than half (`Fifo.Compact`).
-/

namespace HeapFlow

/-- A use of a queue. -/
inductive QueueUse (α : Type) where
  | push (a : α)
  | pop

namespace Fifo

variable {α : Type}

/-- The queue after a history of uses, youngest first. A pop that finds nothing changes nothing. -/
def after : List (QueueUse α) → Fifo α
  | [] => empty
  | .push a :: h => (after h).push a
  | .pop :: h => (after h).pop?.elim (after h) Prod.snd

/-- What a pop after a history gives. -/
def answer (h : List (QueueUse α)) : Option α :=
  (after h).pop?.map Prod.fst

/-- The elements that wait after a history, oldest first. -/
def waiting : List (QueueUse α) → List α
  | [] => []
  | .push a :: h => waiting h ++ [a]
  | .pop :: h => (waiting h).tail

/-- The elements that were pushed, oldest first. -/
def pushed : List (QueueUse α) → List α
  | [] => []
  | .push a :: h => pushed h ++ [a]
  | .pop :: h => pushed h

/-- The elements that pops have given, in this order. -/
def popped : List (QueueUse α) → List α
  | [] => []
  | .push _ :: h => popped h
  | .pop :: h => popped h ++ (answer h).toList

theorem pop?_takes (q : Fifo α) :
    q.pop?.map Prod.fst = q.toList.head? ∧ (q.pop?.elim q Prod.snd).toList = q.toList.tail := by
  cases h : q.pop? with
  | none => simp [pop?_eq_none h]
  | some x =>
    obtain ⟨a, q'⟩ := x
    simp [pop?_eq_some h]

/-- The cells in use are the elements that wait. -/
theorem toList_after (h : List (QueueUse α)) : (after h).toList = waiting h := by
  induction h with
  | nil => exact toList_empty
  | cons u h ih =>
    cases u with
    | push a => rw [after, toList_push, ih, waiting]
    | pop => rw [after, (pop?_takes _).2, ih, waiting]

theorem answer_eq (h : List (QueueUse α)) : answer h = (waiting h).head? := by
  rw [answer, (pop?_takes _).1, toList_after]

theorem pushed_eq (h : List (QueueUse α)) : pushed h = popped h ++ waiting h := by
  induction h with
  | nil => rfl
  | cons u h ih =>
    cases u with
    | push a => rw [pushed, popped, waiting, ih, List.append_assoc]
    | pop =>
      rw [pushed, popped, waiting, ih, answer_eq, List.append_assoc]
      cases waiting h <;> rfl

/-- **Dead cells are few, or fewer than the others.** -/
def Compact (q : Fifo α) : Prop :=
  slack < q.head → q.head * 2 < q.cells.size

/-- Dead cells are dropped when there are too many. -/
theorem compact_reclaim (q : Fifo α) : q.reclaim.Compact := by
  unfold reclaim
  split
  · intro h
    exact absurd h (Nat.not_lt_zero _)
  · rename_i hkept
    intro h
    exact Nat.lt_of_not_le fun hsize => hkept ⟨h, hsize⟩

theorem Compact.push {q : Fifo α} (hq : q.Compact) (a : α) : (q.push a).Compact := by
  intro h
  rw [Fifo.push, Array.size_push]
  exact Nat.lt_succ_of_lt (hq h)

theorem Compact.pop {q : Fifo α} (hq : q.Compact) : (q.pop?.elim q Prod.snd).Compact := by
  unfold pop?
  split
  · exact compact_reclaim _
  · exact hq

theorem compact_after (h : List (QueueUse α)) : (after h).Compact := by
  induction h with
  | nil => exact fun h => absurd h (Nat.not_lt_zero _)
  | cons u h ih =>
    cases u with
    | push a => exact ih.push a
    | pop => exact ih.pop

end Fifo

open Fifo in
/-- **A queue gives what was pushed, oldest first**, after every history of uses: a pop gives the
first of the elements that wait, and fails just if none waits; what was pushed is what was popped
and then what waits; the size and the test for emptiness agree with that; and the read position
stays within the cells, of which the dead ones are few or the fewer. -/
theorem elements_queued {α : Type} (h : List (QueueUse α)) :
    answer h = (waiting h).head? ∧
    ((after h).pop? = none ↔ waiting h = []) ∧
    pushed h = popped h ++ waiting h ∧
    (after h).size = (waiting h).length ∧
    (after h).isEmpty = (waiting h).isEmpty ∧
    (after h).head ≤ (after h).cells.size ∧
    (after h).Compact := by
  have hsize : (after h).size = (waiting h).length := by rw [← length_toList, toList_after]
  refine ⟨answer_eq h, ?_, pushed_eq h, hsize, ?_, (after h).head_le, compact_after h⟩
  · rw [← Option.map_eq_none_iff (f := Prod.fst), ← answer, answer_eq, List.head?_eq_none_iff]
  · rw [size] at hsize
    have hle := (after h).head_le
    rw [Bool.eq_iff_iff, isEmpty, beq_iff_eq, List.isEmpty_iff, ← List.length_eq_zero_iff]
    omega

end HeapFlow
