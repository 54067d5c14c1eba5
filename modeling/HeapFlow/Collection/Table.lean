/-!
# Tables of numbered keys

The elements of an analysis – contexts, objects, pointers, methods and call sites – are numbered in
the order in which they first turn up. A `Table` is the list of the keys seen so far without
repetition; the number of a key is its position. An index tells the number of each key, and a table
carries the proof that the index and the list agree (`Table.index_iff`).
-/

namespace HeapFlow

open List

/-- Distinct keys in the order of their arrival. -/
structure Table (κ : Type) where
  keys : Array κ
  index : List (κ × Nat)
  index_iff : ∀ k i, (k, i) ∈ index ↔ keys[i]? = some k
  nodup : keys.toList.Nodup

namespace Table

variable {κ : Type}

def empty : Table κ where
  keys := #[]
  index := []
  index_iff := by simp
  nodup := by simp

instance : EmptyCollection (Table κ) := ⟨empty⟩

instance : Inhabited (Table κ) := ⟨empty⟩

def size (t : Table κ) : Nat :=
  t.keys.size

def get? (t : Table κ) (i : Nat) : Option κ :=
  t.keys[i]?

def toList (t : Table κ) : List κ :=
  t.keys.toList

/-- The numbers of the keys that satisfy a test, in order of arrival. -/
def numbersWith (t : Table κ) (p : κ → Bool) : List Nat :=
  (List.range t.size).filter fun i => (t.get? i).any p

variable [DecidableEq κ]

/-- The number of a key, as the index tells. -/
def find? (t : Table κ) (k : κ) : Option Nat :=
  t.index.lookup k

theorem find?_eq_none_iff {t : Table κ} {k : κ} : t.find? k = none ↔ ¬ k ∈ t.keys := by
  rw [find?, lookup_eq_none_iff]
  constructor
  · intro h hk
    obtain ⟨i, hi⟩ := Array.mem_iff_getElem?.mp hk
    simpa using h _ ((t.index_iff k i).mpr hi)
  · rintro h ⟨k', i⟩ hx
    refine bne_iff_ne.mpr fun hk => h (Array.mem_of_getElem? (i := i) ?_)
    exact hk ▸ (t.index_iff k' i).mp hx

/-- Adds a key that is new, to the list and to the index. -/
def push (t : Table κ) (k : κ) (h : t.find? k = none) : Table κ where
  keys := t.keys.push k
  index := (k, t.keys.size) :: t.index
  index_iff k' i := by
    rw [mem_cons, t.index_iff, Array.getElem?_push, Prod.mk.injEq]
    split
    · next hi => simp [hi, eq_comm]
    · next hi => simp [hi]
  nodup := by
    have hk : ¬ k ∈ t.keys.toList := by simpa using find?_eq_none_iff.1 h
    simp only [Array.toList_push]
    exact nodup_append.2 ⟨t.nodup, by simp, by
      intro a ha b hb hab
      simp only [mem_singleton] at hb
      exact hk (hb ▸ hab ▸ ha)⟩

/-- The number of a key; a key that is new gets the next one. -/
def intern (t : Table κ) (k : κ) : Nat × Table κ :=
  match h : t.find? k with
  | some i => (i, t)
  | none => (t.size, t.push k h)

/-! ### What a request does -/

omit [DecidableEq κ] in
@[simp] theorem get?_empty (i : Nat) : (empty : Table κ).get? i = none := by
  simp [get?, empty]

@[simp] theorem size_push (t : Table κ) (k : κ) (h : t.find? k = none) :
    (t.push k h).size = t.size + 1 := by
  simp [push, size]

theorem get?_push (t : Table κ) (k : κ) (h : t.find? k = none) (i : Nat) :
    (t.push k h).get? i = if i = t.size then some k else t.get? i :=
  Array.getElem?_push

/-- A key that is there has its number already. -/
theorem intern_of_find? {t : Table κ} {k : κ} {i : Nat} (h : t.find? k = some i) :
    t.intern k = (i, t) := by
  unfold intern
  split
  · rename_i j hj
    rw [Option.some.inj (hj.symm.trans h)]
  · rename_i hnone
    cases hnone.symm.trans h

/-- A key that is new is added behind the others. -/
theorem intern_of_new {t : Table κ} {k : κ} (h : t.find? k = none) :
    t.intern k = (t.size, t.push k h) := by
  unfold intern
  split
  · rename_i j hj
    cases hj.symm.trans h
  · rfl

/-- A new key that satisfies a test is the last one that does. -/
theorem numbersWith_push (t : Table κ) (k : κ) (h : t.find? k = none) (p : κ → Bool) :
    (t.push k h).numbersWith p = t.numbersWith p ++ if p k then [t.size] else [] := by
  have hold : ∀ i ∈ List.range t.size,
      ((t.push k h).get? i).any p = (t.get? i).any p := by
    intro i hi
    rw [get?_push, if_neg (Nat.ne_of_lt (mem_range.1 hi))]
  rw [numbersWith, numbersWith, size_push, range_succ, filter_append,
    filter_congr hold, filter_cons, filter_nil, get?_push, if_pos rfl,
    Option.any_some]

end Table

end HeapFlow
