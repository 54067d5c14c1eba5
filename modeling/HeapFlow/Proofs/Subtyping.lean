import HeapFlow.Proofs.Remembering

/-!
# Subtypes

Which type is below which is given by six rules (`Program.Below`). Where nothing is above itself the
check says exactly what the rules say, and its search among the classes ends without the bound that
it is given. The rules are not transitive: an array is below the interfaces `Cloneable` and
`Serializable`, but not below what these are below. This is the only gap (`Program.Gap`), though it
may be hidden under more dimensions of arrays.
-/

namespace HeapFlow

open Relation

namespace Program

variable {p : Program}

/-- **The rules of subtyping.** -/
inductive Below (p : Program) : Ty → Ty → Prop where
  | same (t : Ty) : Below p t t
  | null {t : Ty} (ht : t.isReference = true) : Below p .null t
  | root {t : Ty} (ht : t.isReference = true) : Below p t (.cls objectClass)
  | cls {a b : String} (h : ReflTransGen p.Link a b) : Below p (.cls a) (.cls b)
  | implements {t : Ty} {b : String} {k : Class} (hk : p.class? b = some k)
      (hi : k.isInterface = true) (hb : b = "Cloneable" ∨ b = "Serializable") :
      Below p (.array t) (.cls b)
  | elems {s t : Ty} (hs : s.isReference = true) (ht : t.isReference = true) (h : Below p s t) :
      Below p (.array s) (.array t)

theorem isArrayInterface_iff {b : String} : p.isArrayInterface b = true ↔
    ∃ k, p.class? b = some k ∧ k.isInterface = true ∧ (b = "Cloneable" ∨ b = "Serializable") := by
  unfold isArrayInterface
  cases p.class? b with
  | none => simp
  | some k => simp [arrayInterfaces]

theorem Below.isReference {s t : Ty} (h : p.Below s t) (hs : s.isReference = true) :
    t.isReference = true := by
  cases h with
  | same => exact hs
  | null ht => exact ht
  | root | cls | implements | elems => rfl

/-- **The check says what the rules say.** -/
theorem Layered.isSubtype_iff (hp : p.Layered) {s t : Ty} :
    p.isSubtype s t = true ↔ p.Below s t := by
  constructor
  · intro h
    induction s generalizing t with
    | prim a =>
      rw [show t = .prim a by simpa [isSubtype] using h]
      exact .same _
    | null => exact .null h
    | cls a =>
      cases t with
      | cls b =>
        simp only [isSubtype, Bool.or_eq_true, beq_iff_eq] at h
        rcases h with rfl | h
        · exact .root rfl
        · exact .cls (hp.reaches_iff.mp h)
      | prim | null | array => cases h
    | array s ih =>
      cases t with
      | cls b =>
        simp only [isSubtype, Bool.or_eq_true, beq_iff_eq, isArrayInterface_iff] at h
        rcases h with rfl | ⟨k, hk, hi, hb⟩
        · exact .root rfl
        · exact .implements hk hi hb
      | array t =>
        simp only [isSubtype] at h
        split at h
        · next href =>
          rw [Bool.and_eq_true] at href
          rcases Bool.or_eq_true_iff.mp h with h | h
          · rw [beq_iff_eq.mp h]
            exact .same _
          · exact .elems href.1 href.2 (ih h)
        · rw [beq_iff_eq.mp h]
          exact .same _
      | prim | null => cases h
  · intro h
    induction h with
    | same t => exact p.isSubtype_refl t
    | null ht => exact ht
    | @root t ht =>
      cases t with
      | prim => cases ht
      | null => rfl
      | cls | array => simp [isSubtype]
    | cls h => simp [isSubtype, hp.reaches_iff.mpr h]
    | implements hk hi hb =>
      simp [isSubtype, isArrayInterface_iff.mpr ⟨_, hk, hi, hb⟩]
    | elems hs ht _ ih => simp [isSubtype, hs, ht, ih]

/-- **The gap in the rules.** The first type is an array, the second an interface that every array
implements, and the third a class that arrays are not below; or it is so of the elements of three
arrays. -/
inductive Gap (p : Program) : Ty → Ty → Ty → Prop where
  | implements (t : Ty) {b c : String} (hb : p.isArrayInterface b = true) (hroot : c ≠ objectClass)
      (hc : p.isArrayInterface c = false) : Gap p (.array t) (.cls b) (.cls c)
  | elems {a b c : Ty} (h : Gap p a b c) : Gap p (.array a) (.array b) (.array c)

theorem Gap.ne {a b c : Ty} (h : p.Gap a b c) : a ≠ c := by
  induction h with
  | implements => simp
  | elems _ ih => simpa using ih

/-- Across a gap there is no step. -/
theorem Gap.not_below {a b c : Ty} (h : p.Gap a b c) : ¬ p.Below a c := by
  induction h with
  | implements t hb hroot hc =>
    intro h
    cases h with
    | root => exact hroot rfl
    | implements hk hi hc' =>
      rw [isArrayInterface_iff.mpr ⟨_, hk, hi, hc'⟩] at hc
      cases hc
  | elems h ih =>
    intro hbelow
    cases hbelow with
    | same => exact h.ne rfl
    | elems _ _ hbelow => exact ih hbelow

theorem Linked.eq_root_of_link (hl : p.Linked) (hp : p.Layered) {b : String}
    (h : ReflTransGen p.Link objectClass b) : b = objectClass := by
  rcases ReflTransGen.cases_head h with heq | ⟨c, hc, -⟩
  · exact heq.symm
  · exact absurd hc (hl.not_link_root hp c)

/-- **Two steps are one step, or there is a gap.** -/
theorem Linked.below_trans (hl : p.Linked) (hp : p.Layered) {a b c : Ty} (hab : p.Below a b)
    (hbc : p.Below b c) : p.Below a c ∨ p.Gap a b c := by
  induction hab generalizing c with
  | same => exact .inl hbc
  | null hb => exact .inl (.null (hbc.isReference hb))
  | root ha =>
    cases hbc with
    | same | root => exact .inl (.root ha)
    | cls h =>
      rw [hl.eq_root_of_link hp h]
      exact .inl (.root ha)
  | cls hab =>
    cases hbc with
    | same => exact .inl (.cls hab)
    | root => exact .inl (.root rfl)
    | cls h => exact .inl (.cls (hab.trans h))
  | @implements t b k hk hi hb =>
    cases hbc with
    | same => exact .inl (.implements hk hi hb)
    | root => exact .inl (.root rfl)
    | @cls _ c h =>
      by_cases hroot : c = objectClass
      · rw [hroot]
        exact .inl (.root rfl)
      cases hc : p.isArrayInterface c with
      | true =>
        obtain ⟨k', hk', hi', hc'⟩ := isArrayInterface_iff.mp hc
        exact .inl (.implements hk' hi' hc')
      | false => exact .inr (.implements t (isArrayInterface_iff.mpr ⟨k, hk, hi, hb⟩) hroot hc)
  | elems hs ht hst ih =>
    cases hbc with
    | same => exact .inl (.elems hs ht hst)
    | root => exact .inl (.root rfl)
    | implements hk hi hb => exact .inl (.implements hk hi hb)
    | elems _ hu htu => exact (ih htu).imp (.elems hs hu) .elems

theorem Linked.isSubtype_trans_iff (hl : p.Linked) (hp : p.Layered) {a b c : Ty}
    (hab : p.isSubtype a b = true) (hbc : p.isSubtype b c = true) :
    p.isSubtype a c = true ↔ ¬ p.Gap a b c := by
  rw [hp.isSubtype_iff]
  refine ⟨fun h hgap => hgap.not_below h, fun hgap => ?_⟩
  exact (hl.below_trans hp (hp.isSubtype_iff.mp hab) (hp.isSubtype_iff.mp hbc)).resolve_right hgap

end Program

theorem State.mem_apply_ofType {s : State} {p : Program} {t : Ty} {l : Objects} {o : CObjId} :
    o ∈ (Transfer.ofType t).apply (s.fits p) l ↔
      o ∈ l ∧ p.isSubtype (s.registry.objType o) t = true :=
  OrderedSet.mem_filter

/-- **Subtyping is exact.** After any questions, whether a type is a subtype of another one is
answered as the rules say. For two classes the answer is that of a search among the classes above
the first one, which comes to an end by itself; for two arrays it is that for their elements. -/
theorem subtyping_exact {p : Program} (hp : p.Accepted) (hlayered : p.Layered) {w : Workbench}
    (hw : p.Asked w) (sub super : Ty) :
    ((w.isSubtype sub super).1 = true ↔ p.Below sub super) ∧
      ∀ a b, (p.class? a).isSome = true → p.Climbs b a (p.reaches a b) := by
  refine ⟨?_, fun a b ha => hp.linked.climbs hlayered b ha⟩
  rw [(hw.remembers.isSubtype sub super).1]
  exact hlayered.isSubtype_iff

/-- A program in which one of the interfaces that arrays implement is below another interface. -/
def clonesSource : ProgramSource where
  classes := [
    { name := "Copyable", isInterface := true },
    { name := "Cloneable", isInterface := true, implements := ["Copyable"] },
    { name := "A", implements := ["Cloneable"] },
    { name := "B", superclass := "A" }]

theorem layered_clones {p : Program} (hp : Program.load clonesSource = .ok p) : p.Layered := by
  obtain ⟨q, hq, hrank⟩ : ∃ q, Program.load clonesSource = .ok q ∧
      ∀ k ∈ q.classes, ∀ b ∈ k.super.toList ++ k.interfaces,
        ["Object", "Copyable", "Cloneable", "A"].idxOf b <
          ["Object", "Copyable", "Cloneable", "A"].idxOf k.name :=
    exists_of_any_toOption (by decide +kernel)
  cases Except.ok.inj (hp.symm.trans hq)
  exact Program.layered_of_rank _ hrank

/-- Arrays of arrays are compared with arrays, which leaves two answers behind; the answer that is
remembered then and another one that is not are what the rules say, and a search that has to go
through a superclass and two interfaces comes to an end. -/
theorem subtyping_exact_clones : ∃ p, Program.load clonesSource = .ok p ∧ p.Layered ∧
    let sub : Ty := .array (.array (.cls "B"))
    let w := (Workbench.isSubtype { program := p } sub (.array (.cls "Cloneable"))).2
    (p.Asked w ∧ w.compared = [((sub, .array (.cls "Cloneable")), true),
      ((.array (.cls "B"), .cls "Cloneable"), true)]) ∧
    p.Below sub (.array (.cls "Cloneable")) ∧ ¬ p.Below sub (.array (.cls "Copyable")) ∧
    p.Climbs "Copyable" "B" true := by
  obtain ⟨p, hp, hcompared, hyes, hno, hclass, hreaches⟩ :
      ∃ p, Program.load clonesSource = .ok p ∧
      let sub : Ty := .array (.array (.cls "B"))
      let w := (Workbench.isSubtype { program := p } sub (.array (.cls "Cloneable"))).2
      w.compared = [((sub, .array (.cls "Cloneable")), true),
        ((.array (.cls "B"), .cls "Cloneable"), true)] ∧
      (w.isSubtype sub (.array (.cls "Cloneable"))).1 = true ∧
      (w.isSubtype sub (.array (.cls "Copyable"))).1 = false ∧
      (p.class? "B").isSome = true ∧ p.reaches "B" "Copyable" = true :=
    exists_of_any_toOption (by decide +kernel)
  have hlayered := layered_clones hp
  have hasked := Program.Asked.start (p := p) |>.isSubtype (.array (.array (.cls "B")))
    (.array (.cls "Cloneable"))
  obtain ⟨hbelow, hclimbs⟩ := subtyping_exact ⟨_, hp⟩ hlayered hasked (.array (.array (.cls "B")))
    (.array (.cls "Cloneable"))
  obtain ⟨hnot, -⟩ := subtyping_exact ⟨_, hp⟩ hlayered hasked (.array (.array (.cls "B")))
    (.array (.cls "Copyable"))
  refine ⟨p, hp, hlayered, ⟨hasked, hcompared⟩, hbelow.mp hyes, fun h => ?_, ?_⟩
  · rw [hnot.mpr h] at hno
    cases hno
  · rw [← hreaches]
    exact hclimbs "B" "Copyable" hclass

/-- **Subtyping is transitive, but for one gap.** If a type is a subtype of another one and that of
a third one, the first is a subtype of the third just if there is no gap between them, and an object
that passes a filter for the second type passes one for the third just if there is no gap between
its type and them. -/
theorem subtyping_transitive_or_gap {p : Program} (hp : p.Accepted) (hlayered : p.Layered)
    {b c : Ty} (hbc : p.isSubtype b c = true) :
    (∀ a, p.isSubtype a b = true → (p.isSubtype a c = true ↔ ¬ p.Gap a b c)) ∧
      ∀ (s : State) (l : Objects) (o : CObjId), o ∈ (Transfer.ofType b).apply (s.fits p) l →
        (o ∈ (Transfer.ofType c).apply (s.fits p) l ↔ ¬ p.Gap (s.registry.objType o) b c) := by
  have htrans : ∀ a, p.isSubtype a b = true → (p.isSubtype a c = true ↔ ¬ p.Gap a b c) :=
    fun a hab => hp.linked.isSubtype_trans_iff hlayered hab hbc
  refine ⟨htrans, fun s l o ho => ?_⟩
  obtain ⟨ho, hab⟩ := State.mem_apply_ofType.mp ho
  rw [State.mem_apply_ofType, and_iff_right ho, htrans _ hab]

/-- In the example a class is below what the interface is below, and so is an array of arrays of the
class, as an array of arrays. -/
theorem subtyping_transitive_or_gap_clones : ∃ p, Program.load clonesSource = .ok p ∧ p.Layered ∧
    p.isSubtype (.array (.array (.cls "B"))) (.array (.array (.cls "A"))) = true ∧
    p.isSubtype (.array (.array (.cls "A"))) (.array (.array (.cls "Copyable"))) = true ∧
    ¬ p.Gap (.array (.array (.cls "B"))) (.array (.array (.cls "A")))
      (.array (.array (.cls "Copyable"))) ∧
    p.isSubtype (.array (.array (.cls "B"))) (.array (.array (.cls "Copyable"))) = true := by
  obtain ⟨p, hp, hab, hbc⟩ : ∃ p, Program.load clonesSource = .ok p ∧
      p.isSubtype (.array (.array (.cls "B"))) (.array (.array (.cls "A"))) = true ∧
      p.isSubtype (.array (.array (.cls "A"))) (.array (.array (.cls "Copyable"))) = true :=
    exists_of_any_toOption (by decide +kernel)
  have hlayered := layered_clones hp
  -- between classes there is no gap, however many dimensions are put on them
  have hgap : ¬ p.Gap (.array (.array (.cls "B"))) (.array (.array (.cls "A")))
      (.array (.array (.cls "Copyable"))) := by
    intro h
    cases h with
    | elems h => cases h with
      | elems h => cases h
  exact ⟨p, hp, hlayered, hab, hbc, hgap,
    ((subtyping_transitive_or_gap ⟨_, hp⟩ hlayered hbc).1 _ hab).mpr hgap⟩

/-- **Subtyping is not transitive.** In the example arrays are below an interface which is below
another one, and they are not below that. -/
theorem subtyping_not_transitive : ∃ p, Program.load clonesSource = .ok p ∧ p.Layered ∧
    p.isSubtype (.array (.cls "A")) (.cls "Cloneable") = true ∧
    p.isSubtype (.cls "Cloneable") (.cls "Copyable") = true ∧
    p.isSubtype (.array (.cls "A")) (.cls "Copyable") = false := by
  obtain ⟨p, hp, h⟩ : ∃ p, Program.load clonesSource = .ok p ∧
      p.isSubtype (.array (.cls "A")) (.cls "Cloneable") = true ∧
      p.isSubtype (.cls "Cloneable") (.cls "Copyable") = true ∧
      p.isSubtype (.array (.cls "A")) (.cls "Copyable") = false :=
    exists_of_any_toOption (by decide +kernel)
  exact ⟨p, hp, layered_clones hp, h⟩

end HeapFlow
