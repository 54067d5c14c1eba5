import HeapFlow.Program.Builder
import HeapFlow.Proofs.Contents

/-!
# Remembered answers

Answers about subtypes and dispatch are remembered, and the memory is asked before the hierarchy.
While the program stays as it is, every entry of the memory is what the hierarchy would answer now
(`Workbench.Remembers`), after any questions in any order (`Program.Asked.remembers`). Two types are
remembered in the order in which they are compared, and of two arrays also the elements. Dispatch is
remembered under the receiver and the subsignature alone, so it must not depend on the class that a
call names.
-/

namespace HeapFlow

theorem of_lookup_cons {α β : Type} [BEq α] [LawfulBEq α] {key key' : α} {answer answer' : β}
    {l : List (α × β)} (h : ((key, answer) :: l).lookup key' = some answer') :
    key' = key ∧ answer' = answer ∨ l.lookup key' = some answer' := by
  rw [List.lookup_cons] at h
  split at h
  · next heq => exact .inl ⟨beq_iff_eq.mp heq, (Option.some.inj h).symm⟩
  · exact .inr h

namespace Workbench

/-- **The memory agrees with the hierarchy of a program.** -/
structure Remembers (w : Workbench) (p : Program) : Prop where
  program : w.program = p
  compared : ∀ {sub super answer}, w.compared.lookup (sub, super) = some answer →
    answer = p.isSubtype sub super
  remembered : ∀ {recv subsig answer}, w.remembered.lookup (recv, subsig) = some answer →
    answer = (p.dispatch recv subsig).map (·.id)

variable {w : Workbench} {p : Program}

theorem Remembers.compare (h : w.Remembers p) (sub super : Ty) :
    { w with compared := ((sub, super), p.isSubtype sub super) :: w.compared }.Remembers p where
  program := h.program
  compared := by
    intro sub' super' answer hlookup
    rcases of_lookup_cons hlookup with ⟨hkey, hanswer⟩ | hlookup
    · cases hkey
      exact hanswer
    · exact h.compared hlookup
  remembered := h.remembered

theorem Remembers.look (h : w.Remembers p) {sub super : Ty} {x : Bool × Workbench}
    (hx : x.1 = p.isSubtype sub super ∧ x.2.Remembers p) :
    let asked := match w.compared.lookup (sub, super) with
      | some answer => (answer, w)
      | none => (x.1, { x.2 with compared := ((sub, super), x.1) :: x.2.compared })
    asked.1 = p.isSubtype sub super ∧ asked.2.Remembers p := by
  obtain ⟨hanswer, hx⟩ := hx
  cases hlookup : w.compared.lookup (sub, super) with
  | some answer => exact ⟨h.compared hlookup, h⟩
  | none =>
    refine ⟨hanswer, ?_⟩
    rw [hanswer]
    exact hx.compare sub super

/-- **A question about subtypes is answered as by the hierarchy**, and the memory stays right. -/
theorem Remembers.isSubtype (h : w.Remembers p) (sub super : Ty) :
    (w.isSubtype sub super).1 = p.isSubtype sub super ∧ (w.isSubtype sub super).2.Remembers p := by
  by_cases hsame : sub = super
  · subst hsame
    rw [p.isSubtype_refl]
    unfold Workbench.isSubtype
    rw [if_pos rfl]
    exact ⟨rfl, h⟩
  -- different types are looked up, and only arrays lead to another question
  induction sub generalizing w super with
  | prim a =>
    unfold Workbench.isSubtype
    simp [hsame, Ty.isReference, h, Program.isSubtype, Ne.symm hsame]
  | null =>
    unfold Workbench.isSubtype
    simp [hsame, h, Program.isSubtype]
  | cls a =>
    unfold Workbench.isSubtype
    rw [if_neg hsame, if_neg (by simp)]
    cases super with
    | prim b => simp [Ty.isReference, h, Program.isSubtype]
    | null | array => exact h.look (x := (false, w)) ⟨rfl, h⟩
    | cls b =>
      refine h.look (x := if Ty.cls b = .cls objectClass then (true, w)
        else (w.program.reaches a b, w)) ?_
      by_cases hroot : b = objectClass
      · simp [hroot, h, Program.isSubtype]
      · simp [hroot, h, Program.isSubtype, h.program]
  | array s ih =>
    unfold Workbench.isSubtype
    rw [if_neg hsame, if_neg (by simp)]
    cases super with
    | prim b => simp [Ty.isReference, h, Program.isSubtype]
    | null => exact h.look (x := (false, w)) ⟨rfl, h⟩
    | cls b =>
      refine h.look (x := if Ty.cls b = .cls objectClass then (true, w)
        else (w.program.isArrayInterface b, w)) ?_
      by_cases hroot : b = objectClass
      · simp [hroot, h, Program.isSubtype]
      · simp [hroot, h, Program.isSubtype, h.program]
    | array t =>
      refine h.look (x := if s.isReference && t.isReference then w.isSubtype s t
        else (s == t, w)) ?_
      have hne : s ≠ t := fun heq => hsame (heq ▸ rfl)
      by_cases href : (s.isReference && t.isReference) = true
      · simp only [href, if_true, Program.isSubtype, beq_eq_false_iff_ne.mpr hne, Bool.false_or]
        exact ih h t hne
      · simp only [href, Program.isSubtype]
        exact ⟨rfl, h⟩

/-- **A question about dispatch is answered as by the hierarchy**, and the memory stays right. -/
theorem Remembers.dispatch (h : w.Remembers p) (recv : Ty) (subsig : String) :
    (w.dispatch recv subsig).1 = (p.dispatch recv subsig).map (·.id) ∧
      (w.dispatch recv subsig).2.Remembers p := by
  unfold Workbench.dispatch
  cases hlookup : w.remembered.lookup (recv, subsig) with
  | some answer => exact ⟨h.remembered hlookup, h⟩
  | none =>
    cases hc : Program.receiverClass? recv with
    | none => exact ⟨by simp [Program.dispatch, hc], h⟩
    | some c =>
      have hfound : w.program.dispatch recv subsig = p.dispatch recv subsig := by rw [h.program]
      refine ⟨congrArg (Option.map Method.id) hfound, h.program, h.compared, ?_⟩
      intro recv' subsig' answer hlookup
      rcases of_lookup_cons hlookup with ⟨hkey, hanswer⟩ | hlookup
      · cases hkey
        rw [hanswer, hfound]
      · exact h.remembered hlookup

end Workbench

/-- **What a program remembers after questions**, in any order and number. -/
inductive Program.Asked (p : Program) : Workbench → Prop where
  | start : Asked p { program := p }
  | isSubtype {w : Workbench} (h : Asked p w) (sub super : Ty) : Asked p (w.isSubtype sub super).2
  | dispatch {w : Workbench} (h : Asked p w) (recv : Ty) (subsig : String) :
      Asked p (w.dispatch recv subsig).2

/-- Questions keep the memory right. -/
theorem Program.Asked.remembers {p : Program} {w : Workbench} (h : p.Asked w) : w.Remembers p := by
  induction h with
  | start => exact ⟨rfl, by simp, by simp⟩
  | isSubtype _ sub super ih => exact (ih.isSubtype sub super).2
  | dispatch _ recv subsig ih => exact (ih.dispatch recv subsig).2

end HeapFlow
