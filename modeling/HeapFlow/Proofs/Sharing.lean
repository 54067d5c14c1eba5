import HeapFlow.Proofs.StringMerging

/-!
# Which requests share an object

Which requests get the same object from a heap (`HeapUse.Alike`) is said here in terms of the
requests and the merging of strings alone. A heap has one key for an origin. So there are two steps:
what origin and type a request stands for (`Heap.Wants`), from which it follows which requests have
the same origin; and that an object has the type that its origin stands for (`Heap.Stocked`).
-/

namespace HeapFlow

/-- The type of what the statement at a position of a method allocates. -/
def Program.allocates? (p : Program) (m : MethodId) (i : Nat) : Option Ty :=
  match p.stmt? m i with
  | some (.new _ t _) => some t
  | _ => none

/-- A use of a heap: a request for the object of an allocation statement, a constant or a mock
object. -/
inductive HeapUse where
  | alloc (method : MethodId) (index : Nat)
  | constant (value : Literal)
  | mock (desc : String) (identity : Identity) (type : Ty) (container : Option MethodId)

namespace HeapUse

/-- The type of the object that is asked for, if there is such an object. -/
def type? (p : Program) : HeapUse → Option Ty
  | alloc m i => p.allocates? m i
  | constant (.str _) => some (.cls stringClass)
  | constant (.cls _) => some (.cls classClass)
  | constant _ => none
  | mock _ _ t _ => some t

/-- The object that the mock object asked for belongs to. -/
def outer? : HeapUse → Option ObjId
  | mock _ (.object o) _ _ => some o
  | _ => none

/-- What is asked of the heap, if it stands in the program. -/
def ask? (p : Program) : HeapUse → Option Ask
  | alloc m i => (p.method? m).bind fun d => (p.allocates? m i).map (.alloc d i)
  | constant l => some (.constant l)
  | mock desc identity t c => some (.mock desc identity t c)

/-- **Two uses ask for the same object.** Where a mock object is allocated makes no difference. -/
inductive Alike (g : Merging) (p : Program) : HeapUse → HeapUse → Prop where
  | site (m : MethodId) (i : Nat) : Alike g p (.alloc m i) (.alloc m i)
  | strings {m n : MethodId} {i j : Nat} (hg : g.allocations = true)
      (hm : p.allocates? m i = some (.cls stringClass))
      (hn : p.allocates? n j = some (.cls stringClass)) : Alike g p (.alloc m i) (.alloc n j)
  | constant (l : Literal) : Alike g p (.constant l) (.constant l)
  | constants (bs cs : List UInt8) (hg : g.constants = true) :
      Alike g p (.constant (.str bs)) (.constant (.str cs))
  | mock (desc : String) (identity : Identity) (t : Ty) (c c' : Option MethodId) :
      Alike g p (.mock desc identity t c) (.mock desc identity t c')

end HeapUse

namespace Heap

variable (g : Merging) (p : Program)

/-- What a use asks of the heap, if there is an object for it. -/
def asked? (h : Heap) (u : HeapUse) : Option Ask :=
  (u.ask? p).filter fun a => (h.wanted? g a).isSome

/-- The number that a use gets, if any, and the heap after it. -/
def serve (h : Heap) (u : HeapUse) : Option ObjId × Heap :=
  ((h.asked? g p u).map fun a => (h.request g a).1,
    (h.asked? g p u).elim h fun a => (h.request g a).2)

/-- The heap after a history of uses, youngest first. -/
def after : List HeapUse → Heap
  | [] => {}
  | u :: past => ((after past).serve g p u).2

/-- The number that a use gets after a history. -/
def answer (past : List HeapUse) (u : HeapUse) : Option ObjId :=
  ((after g p past).serve g p u).1

variable {g p} {h h' : Heap} {u v : HeapUse} {x y : Origin} {t t' : Ty} {o : Obj} {i j : ObjId}
  {a : Ask}

theorem le_serve : h ≤ (h.serve g p u).2 := by
  rw [serve]
  cases h.asked? g p u with
  | none => exact le_refl h
  | some a => exact le_request g h a

theorem le_after (later past : List HeapUse) : after g p past ≤ after g p (later ++ past) := by
  induction later with
  | nil => exact le_refl _
  | cons u later ih => exact le_trans ih le_serve

theorem exists_of_answer {past : List HeapUse} (hu : answer g p past u = some i) :
    ∃ a, (after g p past).asked? g p u = some a ∧ ((after g p past).request g a).1 = i ∧
      after g p (u :: past) = ((after g p past).request g a).2 := by
  obtain ⟨a, ha, rfl⟩ := Option.map_eq_some_iff.mp hu
  exact ⟨a, ha, rfl, by simp only [after, serve, ha, Option.elim_some]⟩

/-- **The origin and the type of what a use asks for.** -/
inductive Wants (g : Merging) (p : Program) (h : Heap) : HeapUse → Origin → Ty → Prop where
  | site {m : MethodId} {i : Nat} {t : Ty} (ht : p.allocates? m i = some t)
      (hg : g.allocations = true → t ≠ .cls stringClass) : Wants g p h (.alloc m i) (.alloc m i) t
  | strings {m : MethodId} {i : Nat} (ht : p.allocates? m i = some (.cls stringClass))
      (hg : g.allocations = true) : Wants g p h (.alloc m i) .mergedStrings (.cls stringClass)
  | str {bs : List UInt8} (hg : g.constants = false) :
      Wants g p h (.constant (.str bs)) (.constant (.str bs)) (.cls stringClass)
  | constants {bs : List UInt8} (hg : g.constants = true) :
      Wants g p h (.constant (.str bs)) .mergedConstants (.cls stringClass)
  | cls {t : Ty} : Wants g p h (.constant (.cls t)) (.constant (.cls t)) (.cls classClass)
  | mock {desc : String} {t : Ty} {c : Option MethodId} :
      Wants g p h (.mock desc .none t c) (.mock desc t) t
  | named {desc : String} {name : Token} {t : Ty} {c : Option MethodId} :
      Wants g p h (.mock desc (.token name) t c) (.namedMock desc name t) t
  | inner {desc : String} {o : ObjId} {t : Ty} {c : Option MethodId} {x : Origin}
      (hx : (h.get? o).map Obj.origin = some x) :
      Wants g p h (.mock desc (.object o) t c) (.innerMock desc x t) t

theorem Wants.mono (hw : Wants g p h u x t) (hle : h ≤ h') : Wants g p h' u x t := by
  cases hw with
  | inner hx =>
    obtain ⟨y, hy, rfl⟩ := Option.map_eq_some_iff.mp hx
    exact .inner (by rw [hle _ _ hy, Option.map_some])
  | _ => constructor <;> assumption

theorem exists_of_asked? (ha : h.asked? g p u = some a) :
    u.ask? p = some a ∧ ∃ o, h.wanted? g a = some o := by
  obtain ⟨hu, hsome⟩ := Option.filter_eq_some_iff.mp ha
  exact ⟨hu, Option.isSome_iff_exists.mp hsome⟩

theorem exists_of_ask?_alloc {d : Method} (hp : ∀ {m d}, p.method? m = some d → d.id = m)
    (hu : u.ask? p = some (.alloc d i t)) : u = .alloc d.id i ∧ p.allocates? d.id i = some t := by
  cases u with
  | alloc m k =>
    obtain ⟨e, he, hask⟩ := Option.bind_eq_some_iff.mp hu
    obtain ⟨t', ht', heq⟩ := Option.map_eq_some_iff.mp hask
    cases heq
    cases hp he
    exact ⟨rfl, ht'⟩
  | constant | mock => cases hu

theorem wants_allocated {d : Method} (ht : p.allocates? d.id i = some t) :
    Wants g p h (.alloc d.id i) (g.allocated d i t).origin (g.allocated d i t).type := by
  unfold Merging.allocated
  split
  · next hmerged =>
    obtain ⟨hg, rfl⟩ : g.allocations = true ∧ t = .cls stringClass := by simpa using hmerged
    exact .strings ht hg
  · next hmerged => exact .site ht fun hg ht => hmerged (by simp [hg, show t = _ from ht])

/-- What is asked for stands for an origin and a type. -/
theorem wants_of_wanted? (hp : ∀ {m d}, p.method? m = some d → d.id = m)
    (hu : u.ask? p = some a) (ho : h.wanted? g a = some o) :
    Wants g p h u o.origin o.type := by
  cases u with
  | alloc m i =>
    obtain ⟨d, hd, hask⟩ := Option.bind_eq_some_iff.mp hu
    obtain ⟨t, ht, rfl⟩ := Option.map_eq_some_iff.mp hask
    cases ho
    cases hp hd
    exact wants_allocated ht
  | constant l =>
    cases hu
    cases l with
    | str bs =>
      cases ho
      cases hg : g.constants with
      | true => exact .constants hg
      | false => exact .str hg
    | cls t =>
      cases ho
      exact .cls
    | null | int => cases ho
  | mock desc identity t c =>
    cases hu
    cases identity with
    | none =>
      cases ho
      exact .mock
    | token name =>
      cases ho
      exact .named
    | object i =>
      obtain ⟨y, hy, rfl⟩ := Option.map_eq_some_iff.mp ho
      exact .inner (by rw [hy, Option.map_some])

/-- There is something to ask for if the type is known, and the object it belongs to. -/
theorem isSome_asked?_iff :
    (h.asked? g p u).isSome = true ↔ (u.type? p).isSome = true ∧ ∀ i ∈ u.outer?, i < h.size := by
  cases u with
  | alloc m i =>
    simp only [asked?, HeapUse.ask?, HeapUse.type?, HeapUse.outer?, Program.allocates?,
      Program.stmt?]
    cases p.method? m with
    | none => simp
    | some d =>
      simp only [Option.bind_some]
      split <;> simp [Option.filter, wanted?]
  | constant l =>
    cases l <;> simp [asked?, HeapUse.ask?, Option.filter, wanted?, Merging.constant?,
      HeapUse.type?, HeapUse.outer?]
  | mock desc identity t c =>
    cases identity <;> simp [asked?, HeapUse.ask?, Option.filter, wanted?, HeapUse.type?,
      HeapUse.outer?, get?, size]

/-- **An origin stands for one type.** -/
theorem Wants.type_eq (hu : Wants g p h u x t) (hv : Wants g p h v x t') : t = t' := by
  cases hu with
  | site ht =>
    cases hv with
    | site ht' => exact Option.some.inj (ht.symm.trans ht')
  | _ =>
    cases hv
    rfl

theorem Wants.type?_eq (hu : Wants g p h u x t) : u.type? p = some t := by
  cases hu with
  | site ht | strings ht => exact ht
  | _ => rfl

theorem Wants.origin_of_site {m : MethodId} {i : Nat} (hu : Wants g p h (.alloc m i) x t)
    (hg : g.allocations = true) (hm : p.allocates? m i = some (.cls stringClass)) :
    x = .mergedStrings := by
  cases hu with
  | site ht hne => exact absurd (Option.some.inj (ht.symm.trans hm)) (hne hg)
  | strings => rfl

theorem Wants.origin_of_constant {bs : List UInt8}
    (hu : Wants g p h (.constant (.str bs)) x t) (hg : g.constants = true) :
    x = .mergedConstants := by
  cases hu with
  | str hg' => cases hg.symm.trans hg'
  | constants => rfl

/-- **A use stands for one origin.** -/
theorem Wants.origin_unique (hu : Wants g p h u x t) (hv : Wants g p h u y t') : x = y := by
  cases hu with
  | site ht hne =>
    cases hv with
    | site => rfl
    | strings ht' hg => exact absurd (Option.some.inj (ht.symm.trans ht')) (hne hg)
  | strings ht hg => exact (hv.origin_of_site hg ht).symm
  | str hg =>
    cases hv with
    | str => rfl
    | constants hg' => cases hg.symm.trans hg'
  | constants hg => exact (hv.origin_of_constant hg).symm
  | cls | mock | named =>
    cases hv
    rfl
  | inner hx =>
    cases hv with
    | inner hx' => rw [Option.some.inj (hx.symm.trans hx')]

theorem Wants.origin_eq (hu : Wants g p h u x t) (hv : Wants g p h v y t')
    (halike : HeapUse.Alike g p u v) : x = y := by
  cases halike with
  | site | constant => exact hu.origin_unique hv
  | strings hg hm hn => exact (hu.origin_of_site hg hm).trans (hv.origin_of_site hg hn).symm
  | constants bs cs hg => exact (hu.origin_of_constant hg).trans (hv.origin_of_constant hg).symm
  | mock =>
    cases hu with
    | inner hx =>
      cases hv with
      | inner hx' => rw [Option.some.inj (hx.symm.trans hx')]
    | mock | named =>
      cases hv
      rfl

/-- Each object of the heap is one that is asked for, and the object entered for an allocation is
what it asks for. -/
structure Stocked (g : Merging) (p : Program) (h : Heap) : Prop where
  asked : ∀ {i o}, h.get? i = some o → ∃ u, Wants g p h u o.origin o.type
  allocs : ∀ {m i j}, h.find? (.alloc m i) = some j →
    ∃ o, h.get? j = some o ∧ Wants g p h (.alloc m i) o.origin o.type

/-- Uses with the same origin are alike. -/
theorem Wants.alike (hu : Wants g p h u x t) (hv : Wants g p h v x t') : HeapUse.Alike g p u v := by
  cases hu with
  | site =>
    cases hv
    exact .site _ _
  | strings ht hg => cases hv with | strings ht' => exact .strings hg ht ht'
  | str | cls =>
    cases hv
    exact .constant _
  | constants hg =>
    cases hv
    exact .constants _ _ hg
  | mock | named =>
    cases hv
    exact .mock _ _ _ _ _
  | inner hx =>
    cases hv with
    | inner hx' =>
      -- the objects they belong to have one origin, so they are one object
      obtain ⟨y, hy, hx⟩ := Option.map_eq_some_iff.mp hx
      obtain ⟨y', hy', rfl⟩ := Option.map_eq_some_iff.mp hx'
      cases h.origin_inj hy hy' hx
      exact .mock _ _ _ _ _

/-- **Uses are alike just if they stand for the same origin.** -/
theorem Wants.origin_eq_iff (hu : Wants g p h u x t) (hv : Wants g p h v y t') :
    x = y ↔ HeapUse.Alike g p u v := by
  constructor
  · rintro rfl
    exact hu.alike hv
  · exact hu.origin_eq hv

/-- **A use finds an object of the origin and the type that it asks for**, and leaves the heap
stocked. -/
theorem Stocked.request (hh : Stocked g p h) (hp : ∀ {m d}, p.method? m = some d → d.id = m)
    (hu : u.ask? p = some a) (ho : h.wanted? g a = some o) :
    Stocked g p (h.request g a).2 ∧ ∃ x, (h.request g a).2.get? (h.request g a).1 = some x ∧
      Wants g p (h.request g a).2 u x.origin x.type := by
  have hs := serves_request ho
  have hw : Wants g p h u o.origin o.type := wants_of_wanted? hp hu ho
  have hasked : ∀ {i x}, (h.request g a).2.get? i = some x →
      ∃ v, Wants g p (h.request g a).2 v x.origin x.type := by
    intro i x hi
    rcases hs.old hi with hi | rfl
    · obtain ⟨v, hv⟩ := hh.asked hi
      exact ⟨v, hv.mono hs.le⟩
    · exact ⟨u, hw.mono hs.le⟩
  have hfound : ∃ x, (h.request g a).2.get? (h.request g a).1 = some x ∧
      Wants g p (h.request g a).2 u x.origin x.type := by
    obtain ⟨x, hx, horigin | ⟨d, i, t, rfl, hfind⟩⟩ := hs.get
    · obtain ⟨v, hv⟩ := hasked hx
      have htype : x.type = o.type := (horigin ▸ hv).type_eq (hw.mono hs.le)
      exact ⟨x, hx, horigin ▸ htype ▸ hw.mono hs.le⟩
    · obtain ⟨rfl, -⟩ := exists_of_ask?_alloc hp hu
      obtain ⟨y, hy, hv⟩ := hh.allocs hfind
      exact ⟨y, hs.le _ _ hy, hv.mono hs.le⟩
  refine ⟨⟨hasked, fun {m i j} hj => ?_⟩, hfound⟩
  rcases hs.alloc hj with hj | ⟨rfl, d, t, rfl, rfl⟩
  · obtain ⟨y, hy, hv⟩ := hh.allocs hj
    exact ⟨y, hs.le _ _ hy, hv.mono hs.le⟩
  · obtain ⟨rfl, -⟩ := exists_of_ask?_alloc hp hu
    exact hfound

section After

variable (hp : ∀ {m d}, p.method? m = some d → d.id = m)

include hp

theorem stocked_after (past : List HeapUse) : Stocked g p (after g p past) := by
  induction past with
  | nil =>
    constructor
    · intro i o hi
      cases hi
    · intro m i j hi
      cases hi
  | cons u past ih =>
    rw [after, serve]
    cases ha : (after g p past).asked? g p u with
    | none => exact ih
    | some a =>
      obtain ⟨hu, o, ho⟩ := exists_of_asked? ha
      exact (ih.request hp hu ho).1

theorem exists_get?_of_answer {past : List HeapUse} (hu : answer g p past u = some i) :
    ∃ o, (after g p (u :: past)).get? i = some o ∧
      Wants g p (after g p (u :: past)) u o.origin o.type := by
  obtain ⟨a, ha, rfl, hafter⟩ := exists_of_answer hu
  obtain ⟨hask, o, ho⟩ := exists_of_asked? ha
  rw [hafter]
  exact ((stocked_after hp past).request hp hask ho).2

/-- **Uses get the same number just if they are alike.** -/
theorem answer_eq_iff (past later : List HeapUse) (hu : answer g p past u = some i)
    (hv : answer g p (later ++ u :: past) v = some j) : i = j ↔ HeapUse.Alike g p u v := by
  obtain ⟨a, ha, hwants⟩ := exists_get?_of_answer hp hu
  obtain ⟨b, hb, hwants'⟩ := exists_get?_of_answer hp hv
  -- compare the two in the heap after the second use
  have hle : after g p (u :: past) ≤ after g p (v :: (later ++ u :: past)) :=
    le_after (v :: later) (u :: past)
  rw [← (hwants.mono hle).origin_eq_iff hwants']
  constructor
  · rintro rfl
    rw [Option.some.inj ((hle _ _ ha).symm.trans hb)]
  · exact origin_inj _ (hle _ _ ha) hb

end After

/-- **The objects of a heap are canonical** after a history of uses. -/
structure Canonical (g : Merging) (p : Program) (past : List HeapUse) : Prop where
  /-- The number that an object has is its position, and it keeps it, whatever is asked for
  later. -/
  kept : ∀ (later : List HeapUse) (i : ObjId) (x : Numbered), (after g p past).objs[i]? = some x →
    x.id = i ∧ (after g p (later ++ past)).objs[i]? = some x
  /-- A use gets an object just if there is one to ask for. -/
  served : ∀ u, (∃ i, answer g p past u = some i) ↔
    (u.type? p).isSome = true ∧ ∀ o ∈ u.outer?, o < (after g p past).size
  typed : ∀ u i, answer g p past u = some i →
    ∃ o, (after g p (u :: past)).get? i = some o ∧ u.type? p = some o.type
  /-- Two uses get the same object just if they ask for the same. -/
  shared : ∀ u i later v j, answer g p past u = some i →
    answer g p (later ++ u :: past) v = some j → (i = j ↔ HeapUse.Alike g p u v)

end Heap

open Heap in
/-- **Objects are canonical** after every history of uses of a heap, for a program whose methods are
found under their own names: they keep their numbers and have the types that were asked for, and two
uses get the same object just if they are for the same allocation, the same constant or the same
mock object, or for strings that are merged. -/
theorem objects_canonical (g : Merging) (p : Program)
    (hp : ∀ {m d}, p.method? m = some d → d.id = m) (past : List HeapUse) :
    Canonical g p past where
  kept later i x hx := ⟨Heap.ids _ i x hx, objs_of_le (le_after later past) hx⟩
  served u := by
    rw [← isSome_asked?_iff (g := g)]
    simp [answer, serve, ← Option.isSome_iff_exists]
  typed u i hu := by
    obtain ⟨o, ho, hwants⟩ := exists_get?_of_answer hp hu
    exact ⟨o, ho, hwants.type?_eq⟩
  shared u i later v j := answer_eq_iff hp past later

/-- The theorem at the example, where the allocated strings are merged and the constants are not:
the empty string, the class of strings and an allocated string are three objects. -/
theorem objects_canonical_words : ∃ p, Program.load wordsSource = .ok p ∧
    let g : Merging := { allocations := true }
    let past : List HeapUse := [.constant (.cls (.cls stringClass)), .alloc ⟨"Main", "main()"⟩ 4]
    Heap.Canonical g p past ∧ (Heap.after g p past).size = 2 ∧
      Heap.answer g p past (.constant (.str [])) = some 2 := by
  obtain ⟨p, hp, hsize⟩ : ∃ p, Program.load wordsSource = .ok p ∧
      let g : Merging := { allocations := true }
      let past : List HeapUse := [.constant (.cls (.cls stringClass)), .alloc ⟨"Main", "main()"⟩ 4]
      (Heap.after g p past).size = 2 ∧ Heap.answer g p past (.constant (.str [])) = some 2 :=
    exists_of_any_toOption (by decide +kernel)
  have haccepted : p.Accepted := ⟨_, hp⟩
  exact ⟨p, hp, objects_canonical _ p haccepted.wellFormed.id_eq _, hsize⟩

end HeapFlow
