import HeapFlow.Collection.Table

/-!
# Tables with groups

Some keys are asked for together: the instances of one abstract object, the pointers of one
variable. A `Catalog` is a table that lists the numbers of its keys by group. Keys need not belong
to a group. A catalog carries the proof that the list of each group is what going through all keys
would give (`Catalog.members_eq`).
-/

namespace HeapFlow

/-! ### Lists by group -/

section Groups

variable {γ β : Type} [DecidableEq γ]

/-- The members in the list of a group; a group without a list has none. -/
def membersIn (lists : List (γ × List β)) (g : γ) : List β :=
  (lists.lookup g).getD []

/-- Adds a member to the list of a group, which is begun if it is missing. -/
def enlist (g : γ) (b : β) : List (γ × List β) → List (γ × List β)
  | [] => [(g, [b])]
  | (h, bs) :: rest => if h = g then (h, bs ++ [b]) :: rest else (h, bs) :: enlist g b rest

theorem membersIn_cons (h : γ) (bs : List β) (rest : List (γ × List β)) (g : γ) :
    membersIn ((h, bs) :: rest) g = if g = h then bs else membersIn rest g := by
  by_cases hg : g = h
  · simp [membersIn, hg]
  · simp [membersIn, List.lookup_cons, beq_false_of_ne hg, hg]

/-- Only the list of the group is longer. -/
theorem membersIn_enlist (g : γ) (b : β) (lists : List (γ × List β)) (h : γ) :
    membersIn (enlist g b lists) h = membersIn lists h ++ if g = h then [b] else [] := by
  induction lists with
  | nil =>
    rw [enlist, membersIn_cons]
    by_cases hg : g = h
    · simp [membersIn, hg]
    · simp [membersIn, hg, Ne.symm hg]
  | cons x rest ih =>
    obtain ⟨f, bs⟩ := x
    unfold enlist
    by_cases hf : f = g
    · subst hf
      rw [if_pos rfl, membersIn_cons, membersIn_cons]
      by_cases hh : h = f
      · simp [hh]
      · simp [hh, Ne.symm hh]
    · rw [if_neg hf, membersIn_cons, membersIn_cons, ih]
      by_cases hh : h = f
      · simp [hh, Ne.symm hf]
      · simp [hh]

end Groups

/-! ### Catalogs -/

/-- **A table whose keys are listed by group.** -/
structure Catalog {κ γ : Type} [DecidableEq γ] (group : κ → Option γ) extends Table κ where
  /-- The numbers of the members of each group. -/
  lists : List (γ × List Nat)
  members_eq : ∀ g, membersIn lists g = toTable.numbersWith fun k => group k = some g

namespace Catalog

variable {κ γ : Type} [DecidableEq γ] {group : κ → Option γ}

def empty : Catalog group where
  toTable := Table.empty
  lists := []
  members_eq _ := rfl

instance : Inhabited (Catalog group) := ⟨empty⟩

@[simp] theorem toTable_empty : (empty : Catalog group).toTable = Table.empty := rfl

/-- The numbers of the members of a group, in order of arrival. -/
def members (c : Catalog group) (g : γ) : List Nat :=
  membersIn c.lists g

variable [DecidableEq κ]

/-- The lists with one key more, whose number is the next one. -/
def listsWith (c : Catalog group) (k : κ) : List (γ × List Nat) :=
  match group k with
  | some g => enlist g c.size c.lists
  | none => c.lists

theorem membersIn_listsWith (c : Catalog group) {k : κ} (h : c.find? k = none) (g : γ) :
    membersIn (c.listsWith k) g = (c.push k h).numbersWith fun k => group k = some g := by
  rw [Table.numbersWith_push, listsWith]
  cases hk : group k with
  | none => simp [c.members_eq]
  | some f =>
    simp only [membersIn_enlist, c.members_eq, Option.some.injEq, decide_eq_true_eq]

/-- The number of a key; a key that is new gets the next one and is listed in its group. -/
def intern (c : Catalog group) (k : κ) : Nat × Catalog group :=
  ((c.toTable.intern k).1, {
    toTable := (c.toTable.intern k).2
    lists := if (c.find? k).isSome then c.lists else c.listsWith k
    members_eq := fun g => by
      cases h : c.find? k with
      | some i =>
        rw [Table.intern_of_find? h]
        exact c.members_eq g
      | none =>
        rw [Table.intern_of_new h]
        exact membersIn_listsWith c h g })

/-- A key that is there has its number already, and asking for it changes nothing. -/
theorem intern_of_find? {c : Catalog group} {k : κ} {i : Nat} (h : c.find? k = some i) :
    c.intern k = (i, c) := by
  obtain ⟨t, lists, hmembers⟩ := c
  simp only [intern, h, Table.intern_of_find? h, Option.isSome_some, if_true]

end Catalog

end HeapFlow
