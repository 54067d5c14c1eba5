/-!
# Finite sets in increasing order

A points-to set is a finite set that is always enumerated in increasing order, whatever the order in
which its elements arrived. `OrderedSet` keeps the elements in a strictly increasing list, so that
two sets with the same elements are *equal*. The elements are handles (natural numbers) in the
analysis and integers elsewhere; all that is asked of them is a strict total order, `StrictTotal`.
-/

namespace HeapFlow

open List

/-- The order `<` is transitive and compares any two elements in exactly one way. -/
class StrictTotal (α : Type) [LT α] : Prop where
  trans : ∀ {a b c : α}, a < b → b < c → a < c
  irrefl : ∀ a : α, ¬ a < a
  tri : ∀ {a b : α}, ¬ a < b → a ≠ b → b < a

instance : StrictTotal Nat where
  trans := Nat.lt_trans
  irrefl := Nat.lt_irrefl
  tri := fun h hne => by omega

instance : StrictTotal Int where
  trans := Int.lt_trans
  irrefl := Int.lt_irrefl
  tri := fun h hne => by omega

section Sorted

variable {α : Type} [LT α] [DecidableLT α] [DecidableEq α]

/-- Puts an element at its place in an increasing list; an element that is there is not repeated. -/
def insertSorted (a : α) : List α → List α
  | [] => [a]
  | b :: rest =>
    if a < b then a :: b :: rest else if a = b then b :: rest else b :: insertSorted a rest

@[simp] theorem mem_insertSorted {a x : α} {l : List α} :
    x ∈ insertSorted a l ↔ x = a ∨ x ∈ l := by
  induction l with
  | nil => simp [insertSorted]
  | cons b rest ih =>
    unfold insertSorted
    split
    · simp
    · split
      · rename_i h
        subst h
        simp
      · simp only [mem_cons, ih]
        grind

theorem pairwise_insertSorted [StrictTotal α] (a : α) {l : List α} (h : l.Pairwise (· < ·)) :
    (insertSorted a l).Pairwise (· < ·) := by
  induction l with
  | nil => simp [insertSorted]
  | cons b rest ih =>
    obtain ⟨hb, hrest⟩ := pairwise_cons.1 h
    unfold insertSorted
    split
    · rename_i hab
      refine pairwise_cons.2 ⟨fun x hx => ?_, h⟩
      rcases mem_cons.1 hx with rfl | hx
      · exact hab
      · exact StrictTotal.trans hab (hb x hx)
    · rename_i hab
      split
      · exact h
      · rename_i hne
        refine pairwise_cons.2 ⟨fun x hx => ?_, ih hrest⟩
        rcases mem_insertSorted.1 hx with rfl | hx
        · exact StrictTotal.tri hab hne
        · exact hb x hx

end Sorted

/-- A finite set, kept as the strictly increasing list of its elements. -/
structure OrderedSet (α : Type) [LT α] where
  toList : List α
  /-- The order is strict, so no element occurs twice. -/
  sorted : toList.Pairwise (· < ·) := by simp

namespace OrderedSet

variable {α : Type} [LT α]

theorem ext_toList {s t : OrderedSet α} (h : s.toList = t.toList) : s = t := by
  cases s
  cases t
  simp_all

instance [DecidableEq α] : DecidableEq (OrderedSet α) := fun s t =>
  if h : s.toList = t.toList then isTrue (ext_toList h)
  else isFalse fun e => h (e ▸ rfl)

def empty : OrderedSet α :=
  ⟨[], List.Pairwise.nil⟩

instance : EmptyCollection (OrderedSet α) := ⟨empty⟩

instance : Inhabited (OrderedSet α) := ⟨empty⟩

instance : Membership α (OrderedSet α) := ⟨fun s a => a ∈ s.toList⟩

def singleton (a : α) : OrderedSet α :=
  ⟨[a], pairwise_singleton _ a⟩

def size (s : OrderedSet α) : Nat :=
  s.toList.length

def isEmpty (s : OrderedSet α) : Bool :=
  s.toList.isEmpty

def filter (p : α → Bool) (s : OrderedSet α) : OrderedSet α :=
  ⟨s.toList.filter p, s.sorted.filter p⟩

variable [DecidableEq α]

instance (a : α) (s : OrderedSet α) : Decidable (a ∈ s) :=
  inferInstanceAs (Decidable (a ∈ s.toList))

def contains (s : OrderedSet α) (a : α) : Bool :=
  s.toList.contains a

def diff (s t : OrderedSet α) : OrderedSet α :=
  s.filter fun a => !t.contains a

variable [DecidableLT α] [StrictTotal α]

def insert (s : OrderedSet α) (a : α) : OrderedSet α :=
  ⟨insertSorted a s.toList, pairwise_insertSorted a s.sorted⟩

def ofList (l : List α) : OrderedSet α :=
  l.foldl insert empty

def union (s t : OrderedSet α) : OrderedSet α :=
  t.toList.foldl insert s

/-- The elements between braces, separated by blanks. -/
def text (toText : α → String) (s : OrderedSet α) : String :=
  "\x7b" ++ " ".intercalate (s.toList.map toText) ++ "\x7d"

/-! ### Membership -/

omit [DecidableEq α] [DecidableLT α] [StrictTotal α] in
theorem mem_def {s : OrderedSet α} {a : α} : a ∈ s ↔ a ∈ s.toList :=
  Iff.rfl

omit [DecidableEq α] [DecidableLT α] [StrictTotal α] in
@[simp] theorem mem_empty {a : α} : ¬ a ∈ (empty : OrderedSet α) := by
  simp [mem_def, empty]

omit [DecidableEq α] [DecidableLT α] [StrictTotal α] in
@[simp] theorem mem_singleton {a b : α} : a ∈ singleton b ↔ a = b := by
  simp [mem_def, singleton]

omit [DecidableEq α] [DecidableLT α] [StrictTotal α] in
@[simp] theorem mem_filter {p : α → Bool} {s : OrderedSet α} {a : α} :
    a ∈ s.filter p ↔ a ∈ s ∧ p a = true := by
  simp [mem_def, filter]

omit [DecidableLT α] [StrictTotal α] in
theorem contains_iff {s : OrderedSet α} {a : α} : s.contains a = true ↔ a ∈ s := by
  simp [mem_def, contains]

omit [DecidableLT α] [StrictTotal α] in
@[simp] theorem mem_diff {s t : OrderedSet α} {a : α} : a ∈ s.diff t ↔ a ∈ s ∧ ¬ a ∈ t := by
  rw [diff, mem_filter, ← contains_iff (s := t)]
  simp

@[simp] theorem mem_insert {s : OrderedSet α} {a x : α} : x ∈ s.insert a ↔ x = a ∨ x ∈ s := by
  simp [mem_def, insert]

theorem mem_foldl_insert {l : List α} {s : OrderedSet α} {x : α} :
    x ∈ l.foldl insert s ↔ x ∈ s ∨ x ∈ l := by
  induction l generalizing s with
  | nil => simp
  | cons a l ih =>
    rw [foldl_cons, ih]
    simp only [mem_insert, mem_cons]
    grind

@[simp] theorem mem_ofList {l : List α} {x : α} : x ∈ ofList l ↔ x ∈ l := by
  simp [ofList, mem_foldl_insert]

@[simp] theorem mem_union {s t : OrderedSet α} {x : α} : x ∈ s.union t ↔ x ∈ s ∨ x ∈ t := by
  rw [union, mem_foldl_insert, mem_def (s := t)]

end OrderedSet

end HeapFlow
