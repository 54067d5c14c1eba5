/-!
# A first-in first-out queue

The queue is an array with a read position: pushing appends, popping advances the position. Cells
before the position are dead; once they are many and make up at least half of the array, they are
dropped. The view `Fifo.toList` is the list of the live cells, and the operations act on it as on a
plain list.
-/

namespace HeapFlow

/-- A queue: the cells from `head` on are waiting, oldest first. -/
structure Fifo (α : Type) where
  cells : Array α := #[]
  head : Nat := 0
  /-- The read position never passes the end. -/
  head_le : head ≤ cells.size := by simp

namespace Fifo

variable {α : Type}

def empty : Fifo α := {}

instance : EmptyCollection (Fifo α) := ⟨empty⟩

instance : Inhabited (Fifo α) := ⟨empty⟩

def toList (q : Fifo α) : List α :=
  q.cells.toList.drop q.head

def size (q : Fifo α) : Nat :=
  q.cells.size - q.head

def isEmpty (q : Fifo α) : Bool :=
  q.head == q.cells.size

def push (q : Fifo α) (a : α) : Fifo α where
  cells := q.cells.push a
  head := q.head
  head_le := by
    have := q.head_le
    simp
    omega

/-- The dead cells are dropped when there are more than this many of them. -/
def slack : Nat := 32

/-- Drops the dead cells if they are many and at least half of all cells. -/
def reclaim (q : Fifo α) : Fifo α :=
  if slack < q.head ∧ q.cells.size ≤ q.head * 2 then
    { cells := q.cells.extract q.head q.cells.size }
  else q

def pop? (q : Fifo α) : Option (α × Fifo α) :=
  if h : q.head < q.cells.size then
    some (q.cells[q.head], reclaim { cells := q.cells, head := q.head + 1, head_le := h })
  else none

/-! ### The view -/

@[simp] theorem toList_empty : (empty : Fifo α).toList = [] := by
  simp [empty, toList]

@[simp] theorem toList_push (q : Fifo α) (a : α) : (q.push a).toList = q.toList ++ [a] := by
  have := q.head_le
  simp [push, toList, List.drop_append, Nat.sub_eq_zero_of_le this]

@[simp] theorem length_toList (q : Fifo α) : q.toList.length = q.size := by
  simp [toList, size]

@[simp] theorem toList_reclaim (q : Fifo α) : q.reclaim.toList = q.toList := by
  unfold reclaim
  split
  · simp only [toList, Array.toList_extract, List.extract_eq_take_drop, List.drop_zero]
    exact List.take_of_length_le (by simp)
  · rfl

end Fifo

end HeapFlow
