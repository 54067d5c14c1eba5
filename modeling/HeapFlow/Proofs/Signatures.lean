import HeapFlow.Proofs.Forms
import HeapFlow.Proofs.WellFormed
import HeapFlow.Source.Load

/-!
# Written types and signatures

Two methods with the same subsignature have the same number of parameters. That takes that no name
has a comma or a bracket in it, as the grammar has it: a type is written as it was read. The other
half of the file is about allocations: a type with `k` pairs of brackets behind it has at least `k`
dimensions.
-/

namespace HeapFlow

open List

/-- Pairs of square brackets, read backwards. -/
def brackets : Nat → List Char
  | 0 => []
  | n + 1 => ']' :: '[' :: brackets n

theorem brackets_append_stripBrackets (l : List Char) :
    brackets (stripBrackets l).1 ++ (stripBrackets l).2 = l := by
  fun_induction stripBrackets l with
  | case1 rest n base heq ih =>
    rw [heq] at ih
    simp only [brackets, cons_append, ih]
  | case2 rest h => rfl

theorem le_stripBrackets (k : Nat) (l : List Char) : k ≤ (stripBrackets (brackets k ++ l)).1 := by
  induction k with
  | zero => exact Nat.zero_le _
  | succ k ih =>
    simp only [brackets, cons_append, stripBrackets]
    omega

theorem reverse_repeated (k : Nat) : (repeated k "[]").toList.reverse = brackets k := by
  rw [repeated, String.toList_join]
  induction k with
  | zero => rfl
  | succ k ih =>
    rw [replicate_succ', flatMap_append, reverse_append, ih]
    rfl

namespace Ty

theorem dims_arrays (n : Nat) (t : Ty) : (t.arrays n).dims = t.dims + n := by
  induction n with
  | zero => rfl
  | succ n ih => simp only [arrays, dims, ih, Nat.add_assoc]

theorem reverse_name_arrays (n : Nat) (t : Ty) :
    (t.arrays n).name.toList.reverse = brackets n ++ t.name.toList.reverse := by
  induction n with
  | zero => rfl
  | succ n ih =>
    have h : "[]".toList = ['[', ']'] := rfl
    simp only [arrays, name, String.toList_append, h, reverse_append, ih, brackets]
    rfl

end Ty

namespace Program

variable {p : Program} {w : String} {t : Ty}

/-- How a type is found: the brackets are stripped, and what is left names a primitive type or a
class. -/
theorem exists_of_type? (h : p.type? w = some t) :
    ∃ (n : Nat) (u : Ty) (l : List Char), stripBrackets w.toList.reverse = (n, l) ∧ t = u.arrays n ∧
      u.name = String.ofList l.reverse := by
  obtain ⟨n, l, hstrip⟩ : ∃ n l, stripBrackets w.toList.reverse = (n, l) := ⟨_, _, rfl⟩
  simp only [type?, hstrip] at h
  split at h
  · rename_i prim hprim
    cases h
    exact ⟨n, .prim prim, l, hstrip, rfl, by simpa [Ty.name] using find?_some hprim⟩
  · obtain ⟨k, hk, rfl⟩ := Option.map_eq_some_iff.mp h
    exact ⟨n, .cls k.name, l, hstrip, rfl, name_of_class? hk⟩

/-- **A type is written as it was read.** -/
theorem name_of_type? (h : p.type? w = some t) : t.name = w := by
  obtain ⟨n, u, l, hstrip, rfl, hu⟩ := exists_of_type? h
  have hw := brackets_append_stripBrackets w.toList.reverse
  rw [hstrip] at hw
  rw [← String.toList_inj, ← reverse_inj, Ty.reverse_name_arrays, hu, ← hw]
  simp

theorem type?_append_brackets (p : Program) (w : String) :
    p.type? (w ++ "[]") = (p.type? w).map Ty.array := by
  obtain ⟨n, l, hstrip⟩ : ∃ n l, stripBrackets w.toList.reverse = (n, l) := ⟨_, _, rfl⟩
  have hstrip' : stripBrackets (w ++ "[]").toList.reverse = (n + 1, l) := by
    rw [String.toList_append, reverse_append]
    show stripBrackets (']' :: '[' :: w.toList.reverse) = _
    rw [stripBrackets, hstrip]
  rw [type?, hstrip', type?, hstrip]
  dsimp only
  split
  · rfl
  · rw [Option.map_map]
    rfl

theorem le_dims_of_type? {c : String} {k : Nat} (h : p.type? (c ++ repeated k "[]") = some t) :
    k ≤ t.dims := by
  obtain ⟨n, u, l, hstrip, rfl, -⟩ := exists_of_type? h
  have hk := le_stripBrackets k c.toList.reverse
  rw [String.toList_append, reverse_append, reverse_repeated] at hstrip
  rw [hstrip] at hk
  rw [Ty.dims_arrays]
  omega

end Program

/-- A name that can stand in a list of parameter types. -/
def Listable (w : String) : Prop :=
  w.toList ≠ [] ∧ ∀ c ∈ w.toList, c ≠ ',' ∧ c ≠ ')'

theorem count_comma_intercalate {ws : List String} (hne : ws ≠ []) (h : ∀ w ∈ ws, Listable w) :
    (",".intercalate ws).toList.count ',' + 1 = ws.length := by
  induction ws with
  | nil => exact absurd rfl hne
  | cons w ws ih =>
    have hw : w.toList.count ',' = 0 := count_eq_zero.mpr fun hc =>
      ((h w (.head _)).2 _ hc).1 rfl
    cases ws with
    | nil => simpa using hw
    | cons v ws =>
      have ih := ih (by simp) fun u hu => h u (.tail _ hu)
      have hsplit : (",".intercalate (w :: v :: ws)).toList =
          w.toList ++ ',' :: (",".intercalate (v :: ws)).toList := by
        simp [String.toList_intercalate, List.intercalate]
      rw [hsplit, count_append, count_cons_self, hw, length_cons]
      omega

theorem exists_cons_intercalate {w : String} (h : Listable w) (ws : List String) :
    ∃ c cs, (",".intercalate (w :: ws)).toList = c :: cs ∧ c ≠ ')' := by
  obtain ⟨hne, hchars⟩ := h
  obtain ⟨c, cs, hw⟩ := exists_cons_of_ne_nil hne
  have hc : c ≠ ')' := (hchars c (hw ▸ .head _)).2
  cases ws with
  | nil => exact ⟨c, cs, by simp [hw], hc⟩
  | cons v ws =>
    refine ⟨c, cs ++ ',' :: (",".intercalate (v :: ws)).toList, ?_, hc⟩
    simp [String.toList_intercalate, List.intercalate, hw]

theorem toList_subsignature (name : String) (ts : List Ty) : (subsignature name ts).toList =
    name.toList ++ '(' :: ((",".intercalate (ts.map Ty.name)).toList ++ [')']) := by
  simp [subsignature]

/-- **A subsignature tells the number of parameters.** -/
theorem arity_subsignature {name : String} {ts : List Ty} (hname : '(' ∉ name.toList)
    (hts : ∀ t ∈ ts, Listable t.name) : arity (subsignature name ts) = ts.length := by
  have hdrop : (subsignature name ts).toList.dropWhile (· ≠ '(') =
      '(' :: ((",".intercalate (ts.map Ty.name)).toList ++ [')']) := by
    rw [toList_subsignature, dropWhile_append_of_pos]
    · simp
    · intro c hc
      simp only [ne_eq, decide_not, Bool.not_eq_eq_eq_not, Bool.not_true, decide_eq_false_iff_not]
      rintro rfl
      exact hname hc
  rw [arity, hdrop]
  cases ts with
  | nil => rfl
  | cons t ts =>
    have hlistable : ∀ w ∈ (t :: ts).map Ty.name, Listable w := by
      intro w hw
      obtain ⟨u, hu, rfl⟩ := mem_map.mp hw
      exact hts u hu
    have hcount := count_comma_intercalate (by simp) hlistable
    obtain ⟨c, cs, hcons, hc⟩ := exists_cons_intercalate (hts t (.head _)) (ts.map Ty.name)
    rw [map_cons, hcons] at hcount ⊢
    split
    · rename_i heq
      cases heq
      exact absurd rfl hc
    · have hends : ('(' :: (c :: cs ++ [')'])).count ',' = (c :: cs).count ',' := by
        simp [count_cons]
      rw [hends, hcount, length_cons, length_map, length_cons]

namespace Grammar

theorem listable_of_declaration? {text : String} {t : Typed} (h : declaration? text = some t) :
    Listable t.type := by
  have ht := (spelled_of_declaration? h).1
  refine ⟨ht.1, fun c hc => ⟨?_, ?_⟩⟩ <;>
    · rintro rfl
      exact ht.not_mem rfl hc

theorem name_of_signature? {text : String} {sig : Signature} (h : signature? text = some sig) :
    '(' ∉ sig.name.toList :=
  (spelled_of_signature? h).not_mem rfl

end Grammar

end HeapFlow
