import HeapFlow.Proofs.Precision
import HeapFlow.Proofs.Remembering
import HeapFlow.Result.Session

/-!
# Answers about objects

A result answers questions by a union: of the points-to sets of all pointers in question, without
the contexts of the objects (`Session.Exact`). Two things stand between a question and the union:
answers are remembered (`Session.Right`, `Result.Asked`), and two variables are compared by a search
that halves an increasing list (`foundByHalving_iff`).
-/

namespace HeapFlow

/-- What lies below the place `i` is smaller than `x`, and what lies at `j` or above is not. -/
structure Splits (a : Array Nat) (x i j : Nat) : Prop where
  below : ∀ {k y}, k < i → a[k]? = some y → y < x
  above : ∀ {k y}, j ≤ k → a[k]? = some y → x ≤ y

variable {a : Array Nat} {x i j : Nat}

theorem le_of_places (ha : a.toList.Pairwise (· < ·)) {y : Nat} (hij : i ≤ j) (hx : a[i]? = some x)
    (hy : a[j]? = some y) : x ≤ y := by
  rcases Nat.eq_or_lt_of_le hij with rfl | hlt
  · exact Nat.le_of_eq (Option.some.inj (hx.symm.trans hy))
  · rw [← Array.getElem?_toList] at hx hy
    obtain ⟨hi, rfl⟩ := List.getElem?_eq_some_iff.mp hx
    obtain ⟨hj, rfl⟩ := List.getElem?_eq_some_iff.mp hy
    exact Nat.le_of_lt (List.pairwise_iff_getElem.mp ha i j hi hj hlt)

/-- **One halving**: the part that is left out lies on the right side of `x`. -/
theorem Splits.halve (ha : a.toList.Pairwise (· < ·)) (h : Splits a x i j) (hlt : i < j)
    (hj : j ≤ a.size) :
    (a.getD ((i + j) / 2) 0 < x → Splits a x ((i + j) / 2 + 1) j) ∧
      (¬ a.getD ((i + j) / 2) 0 < x → Splits a x i ((i + j) / 2)) := by
  have hmiddle : (i + j) / 2 < a.size := by omega
  have hat : a[(i + j) / 2]? = some (a.getD ((i + j) / 2) 0) := by
    rw [Array.getElem?_eq_getElem hmiddle, Array.getD_eq_getD_getElem?,
      Array.getElem?_eq_getElem hmiddle, Option.getD_some]
  refine ⟨fun hsmall => ⟨fun hk hy => ?_, h.above⟩, fun hlarge => ⟨h.below, fun hk hy => ?_⟩⟩
  · exact Nat.lt_of_le_of_lt (le_of_places ha (Nat.le_of_lt_succ hk) hy hat) hsmall
  · exact Nat.le_trans (Nat.le_of_not_lt hlarge) (le_of_places ha hk hat hy)

/-- **The search ends where the smaller elements end.** -/
theorem Splits.lowerBound (ha : a.toList.Pairwise (· < ·)) (h : Splits a x i j) (hij : i ≤ j)
    (hj : j ≤ a.size) : Splits a x (lowerBound a x i j) (lowerBound a x i j) := by
  fun_induction HeapFlow.lowerBound a x i j with
  | case1 i j hlt middle hsmall ih =>
    exact ih ((h.halve ha hlt hj).1 hsmall) (by omega) hj
  | case2 i j hlt middle hlarge ih =>
    exact ih ((h.halve ha hlt hj).2 hlarge) (by omega) (by omega)
  | case3 i j hlt =>
    cases Nat.le_antisymm hij (Nat.le_of_not_lt hlt)
    exact h

/-- **Halving finds what an increasing list has**, and nothing else. -/
theorem foundByHalving_iff {l : List Nat} (hl : l.Pairwise (· < ·)) :
    foundByHalving l.toArray x = true ↔ x ∈ l := by
  have hsplits : Splits l.toArray x 0 l.toArray.size := by
    refine ⟨fun hk => absurd hk (Nat.not_lt_zero _), fun hk hy => ?_⟩
    exact absurd (Array.getElem?_eq_some_iff.mp hy).1 (Nat.not_lt.mpr hk)
  have hend := hsplits.lowerBound hl (Nat.zero_le _) le_rfl
  rw [foundByHalving, beq_iff_eq, ← List.mem_toArray, Array.mem_iff_getElem?]
  refine ⟨fun h => ⟨_, h⟩, fun ⟨k, hk⟩ => ?_⟩
  -- the search ends neither behind the place of `x` nor before it
  rcases Nat.lt_trichotomy k (lowerBound l.toArray x 0 l.toArray.size) with hlt | heq | hgt
  · exact absurd (hend.below hlt hk) (Nat.lt_irrefl x)
  · exact heq ▸ hk
  · have hsize := (Array.getElem?_eq_some_iff.mp hk).1
    have hfirst := Array.getElem?_eq_getElem (Nat.lt_trans hgt hsize)
    have hle := le_of_places hl (Nat.le_of_lt hgt) hfirst hk
    rw [hfirst, Nat.le_antisymm hle (hend.above le_rfl hfirst)]

/-! ### Memories -/

/-- Every entry of a memory is the answer to the question that it is found under. -/
def Truthful {κ α : Type} [BEq κ] (find : κ → α) (memory : List (κ × α)) : Prop :=
  ∀ key answer, memory.lookup key = some answer → answer = find key

/-- **A question is answered as if nothing were remembered**, and the memory stays truthful. -/
theorem Truthful.consult {κ α : Type} [BEq κ] [LawfulBEq κ] {find : κ → α} {memory : List (κ × α)}
    (h : Truthful find memory) (key : κ) :
    (consult memory find key).1 = find key ∧ Truthful find (consult memory find key).2 := by
  unfold HeapFlow.consult
  cases hlookup : memory.lookup key with
  | some answer => exact ⟨h _ _ hlookup, h⟩
  | none =>
    refine ⟨rfl, fun key' answer hfound => ?_⟩
    rcases of_lookup_cons hfound with ⟨rfl, rfl⟩ | hfound
    · rfl
    · exact h _ _ hfound

namespace Session

/-- **The memory of a session is right for a result.** -/
structure Right (s : Session) (r : Result) : Prop where
  result : s.result = r
  vars : Truthful r.pointsTo s.vars
  varFields : Truthful (fun k => r.fieldPointsTo k.1 k.2) s.varFields
  objFields : Truthful (fun k => r.objFieldPointsTo k.1 k.2) s.objFields

variable {s : Session} {r : Result}

theorem Right.pointsTo (h : s.Right r) (v : Var) :
    (s.pointsTo v).1 = r.pointsTo v ∧ (s.pointsTo v).2.Right r := by
  cases h.result
  obtain ⟨hanswer, hvars⟩ := h.vars.consult v
  exact ⟨hanswer, rfl, hvars, h.varFields, h.objFields⟩

theorem Right.fieldPointsTo (h : s.Right r) (v : Var) (f : FieldId) :
    (s.fieldPointsTo v f).1 = r.fieldPointsTo v f ∧ (s.fieldPointsTo v f).2.Right r := by
  cases h.result
  obtain ⟨hanswer, hfields⟩ := h.varFields.consult (v, f)
  exact ⟨hanswer, rfl, h.vars, hfields, h.objFields⟩

theorem Right.objFieldPointsTo (h : s.Right r) (o : ObjId) (f : FieldId) :
    (s.objFieldPointsTo o f).1 = r.objFieldPointsTo o f ∧ (s.objFieldPointsTo o f).2.Right r := by
  cases h.result
  obtain ⟨hanswer, hfields⟩ := h.objFields.consult (o, f)
  exact ⟨hanswer, rfl, h.vars, h.varFields, hfields⟩

end Session

namespace Result

variable {r : Result}

/-- Answers are in increasing order. -/
theorem pairwise_collapse (ps : List PtrId) : (r.collapse ps).Pairwise (· < ·) :=
  OrderedSet.sorted _

/-- Variables may hold the same object just if their answers have one in common. -/
theorem mayAlias_iff {v w : Var} :
    r.mayAlias v w = true ↔ ∃ i, i ∈ r.pointsTo v ∧ i ∈ r.pointsTo w := by
  simp only [mayAlias, List.any_eq_true, List.contains_iff_mem]

end Result

theorem Session.Right.mayAlias {s : Session} {r : Result} (h : s.Right r) (v w : Var) :
    (s.mayAlias v w).1 = r.mayAlias v w ∧ (s.mayAlias v w).2.Right r := by
  obtain ⟨hw, hs⟩ := h.pointsTo w
  obtain ⟨hv, hs'⟩ := hs.pointsTo v
  refine ⟨?_, hs'⟩
  simp only [Session.mayAlias, hv, hw]
  rw [Bool.eq_iff_iff, Result.mayAlias_iff, List.any_eq_true]
  have hfound : ∀ i, foundByHalving (r.pointsTo w).toArray i = true ↔ i ∈ r.pointsTo w :=
    fun i => foundByHalving_iff (Result.pairwise_collapse _)
  simp only [hfound]

/-- **The sessions with a result**: what there is after any questions, in any order and number. -/
inductive Result.Asked (r : Result) : Session → Prop where
  | start : Asked r { result := r }
  | pointsTo {s : Session} (h : Asked r s) (v : Var) : Asked r (s.pointsTo v).2
  | fieldPointsTo {s : Session} (h : Asked r s) (v : Var) (f : FieldId) :
      Asked r (s.fieldPointsTo v f).2
  | objFieldPointsTo {s : Session} (h : Asked r s) (o : ObjId) (f : FieldId) :
      Asked r (s.objFieldPointsTo o f).2
  | mayAlias {s : Session} (h : Asked r s) (v w : Var) : Asked r (s.mayAlias v w).2

/-- **Questions keep the memory right.** -/
theorem Result.Asked.right {r : Result} {s : Session} (h : r.Asked s) : s.Right r := by
  induction h with
  | start => exact ⟨rfl, by simp [Truthful], by simp [Truthful], by simp [Truthful]⟩
  | pointsTo _ v ih => exact (ih.pointsTo v).2
  | fieldPointsTo _ v f ih => exact (ih.fieldPointsTo v f).2
  | objFieldPointsTo _ o f ih => exact (ih.objFieldPointsTo o f).2
  | mayAlias _ v w ih => exact (ih.mayAlias v w).2

/-! ### Unions -/

/-- There is a pointer, and an object in its points-to set. -/
def State.Contains (s : State) (x : Pointer) (o : CObjId) : Prop :=
  ∃ p, s.registry.pointers.get? p = some x ∧ o ∈ s.pointsTo p

/-- There is a pointer, and in its points-to set an object that is an abstract object in a
context. -/
def State.Shows (s : State) (x : Pointer) (i : ObjId) : Prop :=
  ∃ o, s.Contains x o ∧ s.registry.objId o = i

/-- A list has the numbers with a property, each once and in increasing order. -/
structure Enumerates (l : List ObjId) (P : ObjId → Prop) : Prop where
  increasing : l.Pairwise (· < ·)
  mem_iff : ∀ i, i ∈ l ↔ P i

namespace Result

variable {r : Result}

/-- What is listed for pointers is the union of their points-to sets. -/
theorem enumerates_collapse {ps : List PtrId} {Q : Pointer → Prop}
    (hps : ∀ p, p ∈ ps ↔ ∃ x, r.registry.pointers.get? p = some x ∧ Q x) :
    Enumerates (r.collapse ps) fun i => ∃ x, Q x ∧ r.state.Shows x i := by
  refine ⟨pairwise_collapse ps, fun i => ?_⟩
  rw [mem_collapse]
  constructor
  · rintro ⟨p, hp, o, ho, hi⟩
    obtain ⟨x, hx, hQ⟩ := (hps p).mp hp
    exact ⟨x, hQ, o, ⟨p, hx, ho⟩, hi⟩
  · rintro ⟨x, hQ, o, ⟨p, hx, ho⟩, hi⟩
    exact ⟨p, (hps p).mpr ⟨x, hx, hQ⟩, o, ho, hi⟩

theorem enumerates_slots {l : List CObjId} {B : CObjId → Prop} (hl : ∀ b, b ∈ l ↔ B b)
    (slot : CObjId → Pointer) :
    Enumerates (r.collapse (l.filterMap fun b => r.registry.pointer? (slot b))) fun i =>
      ∃ b, B b ∧ r.state.Shows (slot b) i := by
  have h : Enumerates (r.collapse (l.filterMap fun b => r.registry.pointer? (slot b))) _ :=
    r.enumerates_collapse (Q := fun x => ∃ b, B b ∧ x = slot b) fun p => by
      rw [Registry.mem_filterMap_pointer?]
      constructor
      · rintro ⟨b, hb, hp⟩
        exact ⟨_, hp, b, (hl b).mp hb, rfl⟩
      · rintro ⟨_, hp, b, hb, rfl⟩
        exact ⟨b, (hl b).mpr hb, hp⟩
  refine ⟨h.increasing, fun i => (h.mem_iff i).trans ?_⟩
  constructor
  · rintro ⟨_, ⟨b, hb, rfl⟩, hi⟩
    exact ⟨b, hb, hi⟩
  · rintro ⟨b, hb, hi⟩
    exact ⟨_, ⟨b, hb, rfl⟩, hi⟩

/-- The objects of a variable. -/
theorem enumerates_pointsTo (r : Result) (v : Var) :
    Enumerates (r.pointsTo v) fun i => ∃ c, r.state.Shows (.var c v) i := by
  have h : Enumerates (r.pointsTo v) _ :=
    r.enumerates_collapse (Q := fun x => ∃ c, x = .var c v) fun p => by
      rw [Registry.mem_pointersOf]
      exact ⟨fun ⟨c, hp⟩ => ⟨_, hp, c, rfl⟩, fun ⟨_, hp, c, hx⟩ => ⟨c, hx ▸ hp⟩⟩
  refine ⟨h.increasing, fun i => (h.mem_iff i).trans ?_⟩
  exact ⟨fun ⟨_, ⟨c, hx⟩, hi⟩ => ⟨c, hx ▸ hi⟩, fun ⟨c, hi⟩ => ⟨_, ⟨c, rfl⟩, hi⟩⟩

theorem enumerates_fieldPointsTo (r : Result) (v : Var) (f : FieldId) :
    Enumerates (r.fieldPointsTo v f) fun i =>
      ∃ b, (∃ c, r.state.Contains (.var c v) b) ∧ r.state.Shows (.field b f) i := by
  refine enumerates_slots (fun b => ?_) (.field · f)
  rw [List.mem_flatMap]
  constructor
  · rintro ⟨p, hp, hb⟩
    obtain ⟨c, hc⟩ := Registry.mem_pointersOf.mp hp
    exact ⟨c, p, hc, OrderedSet.mem_def.mpr hb⟩
  · rintro ⟨c, p, hc, hb⟩
    exact ⟨p, Registry.mem_pointersOf.mpr ⟨c, hc⟩, OrderedSet.mem_def.mp hb⟩

theorem enumerates_staticPointsTo (r : Result) (f : FieldId) :
    Enumerates (r.staticPointsTo f) fun i => r.state.Shows (.static f) i := by
  have h : Enumerates (r.staticPointsTo f) _ :=
    r.enumerates_collapse (Q := fun x => x = .static f) fun p => by
      rw [Option.mem_toList, Registry.pointer?, Table.find?_eq_some_iff, exists_eq_right]
  exact ⟨h.increasing, fun i => (h.mem_iff i).trans exists_eq_left⟩

end Result

/-- **The answers of a session are exact for a state**: each is the union of the points-to sets of
all pointers in question. -/
structure Session.Exact (s : Session) (final : State) : Prop where
  pointsTo : ∀ v, Enumerates (s.pointsTo v).1 fun i => ∃ c, final.Shows (.var c v) i
  fieldPointsTo : ∀ v f, Enumerates (s.fieldPointsTo v f).1 fun i =>
    ∃ b, (∃ c, final.Contains (.var c v) b) ∧ final.Shows (.field b f) i
  objFieldPointsTo : ∀ o f, Enumerates (s.objFieldPointsTo o f).1 fun i =>
    ∃ b, (∃ c, final.registry.objects.get? b = some ⟨c, o⟩) ∧ final.Shows (.field b f) i
  elemsPointsTo : ∀ o, Enumerates (s.elemsPointsTo o) fun i =>
    ∃ b, (∃ c, final.registry.objects.get? b = some ⟨c, o⟩) ∧ final.Shows (.elems b) i
  staticPointsTo : ∀ f, Enumerates (s.staticPointsTo f) fun i => final.Shows (.static f) i
  mayAlias_iff : ∀ v w, (s.mayAlias v w).1 = true ↔ ∃ i, i ∈ (s.pointsTo v).1 ∧ i ∈ (s.pointsTo w).1
  mayAlias_comm : ∀ v w, (s.mayAlias v w).1 = (s.mayAlias w v).1

/-- **A session that is right for a result is exact for the result's state.** -/
theorem Session.Right.exact {s : Session} {r : Result} (h : s.Right r) : s.Exact r.state where
  pointsTo v := (h.pointsTo v).1 ▸ r.enumerates_pointsTo v
  fieldPointsTo v f := (h.fieldPointsTo v f).1 ▸ r.enumerates_fieldPointsTo v f
  objFieldPointsTo o f := (h.objFieldPointsTo o f).1 ▸
    Result.enumerates_slots (fun _ => Registry.mem_instancesOf) (.field · f)
  elemsPointsTo o := by
    rw [Session.elemsPointsTo, h.result]
    exact Result.enumerates_slots (fun _ => Registry.mem_instancesOf) .elems
  staticPointsTo f := by
    rw [Session.staticPointsTo, h.result]
    exact r.enumerates_staticPointsTo f
  mayAlias_iff v w := by
    rw [(h.mayAlias v w).1, (h.pointsTo v).1, (h.pointsTo w).1]
    exact Result.mayAlias_iff
  mayAlias_comm v w := by
    rw [(h.mayAlias v w).1, (h.mayAlias w v).1, Bool.eq_iff_iff, Result.mayAlias_iff,
      Result.mayAlias_iff]
    simp only [and_comm]

/-- **The answers of a result are exact unions.** Whatever a finished analysis has been asked
before, the next answer about a variable, a field, an array or a static field is the union of the
points-to sets of all pointers in question, without contexts and by increasing numbers; and two
variables may hold the same object if and only if their answers have one in common. -/
theorem answers_exact {p : Program} {o : Options} {policy : Policy} {more : List Observer}
    {r : Result} (h : analyze p o policy more = .ok r) {s : Session} (hs : r.Asked s) :
    s.Exact ((o.setup p policy more).solve []).state :=
  (Machine.of_result_eq_ok h).2.2.2 ▸ hs.right.exact

def twoBoxesParam : Var :=
  .declared ⟨"Box", "put(Object)"⟩ 1

/-- A session with the example in which two questions have been asked. -/
def twoBoxesSession (r : Result) : Session :=
  let s : Session := { result := r }
  ((s.pointsTo twoBoxesParam).2.fieldPointsTo (.declared ⟨"Main", "main()"⟩ 2) ⟨"Box", "item"⟩).2

/-- With contexts of one object the parameter holds one thing in each of two contexts, its answer is
remembered by now and has both, and one of the two is what is got from the other box. -/
theorem answers_exact_twoBoxes : ∃ p r, Program.load twoBoxesSource = .ok p ∧
    analyze p {} (.obj 1) [] = .ok r ∧ r.Asked (twoBoxesSession r) ∧
    (twoBoxesSession r).Exact ((Options.setup {} p (.obj 1) []).solve []).state ∧
    (twoBoxesSession r).vars = [(twoBoxesParam, [0, 1])] ∧
    ((twoBoxesSession r).pointsTo twoBoxesParam).1 = [0, 1] ∧
    ((twoBoxesSession r).mayAlias twoBoxesParam twoBoxesVar).1 = true := by
  obtain ⟨p, hload, r, hr, hvars, hparam, hvar⟩ :
      ∃ p, Program.load twoBoxesSource = .ok p ∧ ∃ r ∈ resultWithin 200 p {} (.obj 1),
          (twoBoxesSession r).vars = [(twoBoxesParam, [0, 1])] ∧
          ((twoBoxesSession r).pointsTo twoBoxesParam).1 = [0, 1] ∧
          ((twoBoxesSession r).pointsTo twoBoxesVar).1 = [1] :=
    exists_of_any_toOption (by decide +kernel)
  have hr := analyze_of_resultWithin hr
  have hasked : r.Asked (twoBoxesSession r) := .fieldPointsTo (.pointsTo .start _) _ _
  have hexact := answers_exact hr hasked
  refine ⟨p, r, hload, hr, hasked, hexact, hvars, hparam, ?_⟩
  exact (hexact.mayAlias_iff _ _).mpr ⟨1, by simp [hparam], by simp [hvar]⟩

end HeapFlow
