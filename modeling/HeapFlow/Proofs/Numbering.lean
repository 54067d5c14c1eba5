import Mathlib.Data.List.DropRight
import HeapFlow.Registry.Basic

/-!
# Numbers are kept

Everything an analysis speaks of is named by a number, and the tables that give out the numbers only
grow. One request to a table returns a number that has the key asked for, and nothing else is new.
The same is stated for heaps, where the origin of an object tells it apart, and for contexts, where
a request may have to number several beginnings of a sequence. The order `≤` is *continuation*: the
right side still has every number of the left, with the same meaning.
-/

namespace HeapFlow

open List Table

namespace Table

variable {κ : Type}

/-- A table continues another one if it has all its numbers with the same keys. -/
instance : LE (Table κ) := ⟨fun t u => ∀ i k, t.get? i = some k → u.get? i = some k⟩

theorem le_refl (t : Table κ) : t ≤ t := fun _ _ h => h

variable {t : Table κ} {i : Nat} {k : κ}

theorem le_trans {u v : Table κ} (h₁ : t ≤ u) (h₂ : u ≤ v) : t ≤ v :=
  fun i k h => h₂ i k (h₁ i k h)

theorem get?_inj {j : Nat} (hi : t.get? i = some k) (hj : t.get? j = some k) : i = j := by
  simp only [get?, ← Array.getElem?_toList] at hi hj
  have hlt : i < t.keys.toList.length := (List.getElem?_eq_some_iff.mp hi).1
  exact (getElem?_inj hlt t.nodup).mp (hi.trans hj.symm)

theorem lt_size_of_get? (h : t.get? i = some k) : i < t.size :=
  (Array.getElem?_eq_some_iff.mp h).1

theorem exists_get? (h : i < t.size) : ∃ k, t.get? i = some k :=
  ⟨_, Array.getElem?_eq_getElem h⟩

variable [DecidableEq κ]

/-- **The index and the list of keys agree**: a key is found at the position where it stands. -/
theorem find?_eq_some_iff : t.find? k = some i ↔ t.get? i = some k := by
  have hget : ∀ {j}, t.find? k = some j → t.get? j = some k := by
    intro j h
    obtain ⟨l, l', hl, -⟩ := lookup_eq_some_iff.mp h
    exact (t.index_iff k j).mp (hl ▸ mem_append_right l (.head l'))
  refine ⟨hget, fun h => ?_⟩
  cases hf : t.find? k with
  | none => exact absurd (Array.mem_of_getElem? h) (find?_eq_none_iff.mp hf)
  | some j => exact congrArg some (get?_inj (hget hf) h)

theorem le_push (t : Table κ) (k : κ) (h : t.find? k = none) : t ≤ t.push k h := by
  intro i k' hi
  rw [get?_push, if_neg (Nat.ne_of_lt (lt_size_of_get? hi))]
  exact hi

theorem get?_intern (t : Table κ) (k : κ) : (t.intern k).2.get? (t.intern k).1 = some k := by
  cases h : t.find? k with
  | some i =>
    rw [intern_of_find? h]
    exact find?_eq_some_iff.mp h
  | none => rw [intern_of_new h, get?_push, if_pos rfl]

/-- A request keeps the numbers given out before. -/
theorem le_intern (t : Table κ) (k : κ) : t ≤ (t.intern k).2 := by
  cases h : t.find? k with
  | some i =>
    rw [intern_of_find? h]
    exact le_refl t
  | none =>
    rw [intern_of_new h]
    exact le_push t k h

/-- It adds no more than the key asked for. -/
theorem of_get?_intern {k' : κ} (h : (t.intern k).2.get? i = some k') :
    t.get? i = some k' ∨ k' = k := by
  cases hf : t.find? k with
  | some j =>
    rw [intern_of_find? hf] at h
    exact .inl h
  | none =>
    rw [intern_of_new hf, get?_push] at h
    split at h
    · exact .inr (Option.some.inj h).symm
    · exact .inl h

end Table

namespace Catalog

variable {κ γ : Type} [DecidableEq γ] {group : κ → Option γ}

/-- Catalogs continue others as tables do. -/
instance : LE (Catalog group) := ⟨fun c d => c.toTable ≤ d.toTable⟩

theorem pairwise_members (c : Catalog group) (g : γ) : (c.members g).Pairwise (· < ·) := by
  rw [members, c.members_eq]
  exact List.Pairwise.filter _ pairwise_lt_range

/-- The members of a group. -/
theorem mem_members {c : Catalog group} {g : γ} {i : Nat} :
    i ∈ c.members g ↔ ∃ k, c.get? i = some k ∧ group k = some g := by
  rw [members, c.members_eq, Table.numbersWith, mem_filter, mem_range, Option.any_eq_true]
  constructor
  · rintro ⟨-, k, hk, hg⟩
    exact ⟨k, hk, of_decide_eq_true hg⟩
  · rintro ⟨k, hk, hg⟩
    exact ⟨lt_size_of_get? hk, k, hk, decide_eq_true hg⟩

end Catalog

/-! ### Heaps -/

/-- If an allocation is asked for, it stands in the program. -/
def Ask.Occurs (p : Program) : Ask → Prop
  | .alloc d i t => p.method? d.id = some d ∧ ∃ dst n, d.body[i]? = some (.new dst t n)
  | _ => True

namespace Heap

/-- A heap continues another one if it has all its objects under the same numbers. -/
instance : LE Heap := ⟨fun h k => ∀ i o, h.get? i = some o → k.get? i = some o⟩

theorem le_refl (h : Heap) : h ≤ h := fun _ _ e => e

variable {h : Heap}

theorem le_trans {k l : Heap} (h₁ : h ≤ k) (h₂ : k ≤ l) : h ≤ l :=
  fun i o e => h₂ i o (h₁ i o e)

theorem objs_of_le {k : Heap} (hle : h ≤ k) {i : ObjId} {x : Numbered} (hx : h.objs[i]? = some x) :
    k.objs[i]? = some x := by
  obtain ⟨y, hy, hobj⟩ :=
    Option.map_eq_some_iff.mp (hle i x.obj (by rw [get?, hx, Option.map_some]))
  have hid : y.id = x.id := (k.ids i y hy).trans (h.ids i x hx).symm
  cases x
  cases y
  cases hid
  cases hobj
  exact hy

/-- An origin has one key: by induction, as the key of an inner object has the number of the object
that it belongs to. -/
theorem key_unique (h : Heap) {x : Origin} {k k' : HeapKey} (hk : KeyOf h.objs k x)
    (hk' : KeyOf h.objs k' x) : k = k' := by
  induction x generalizing k k' with
  | innerMock desc outer t ih =>
    cases hk with
    | inner _ _ hx =>
      cases hk' with
      | inner _ _ hx' =>
        obtain ⟨a, ha, hao⟩ := Option.map_eq_some_iff.mp hx
        obtain ⟨b, hb, hbo⟩ := Option.map_eq_some_iff.mp hx'
        obtain ⟨l, hl, hla⟩ := h.kept _ a ha
        obtain ⟨l', hl', hlb⟩ := h.kept _ b hb
        cases ih (hao ▸ hl) (hbo ▸ hl')
        rw [Option.some.inj (hla.symm.trans hlb)]
  | _ =>
    cases hk <;>
      · cases hk'
        rfl

/-- **An origin has one object**: each object is found by the key of its origin. -/
theorem origin_inj (h : Heap) {i j : ObjId} {a b : Obj} (hi : h.get? i = some a)
    (hj : h.get? j = some b) (hab : a.origin = b.origin) : i = j := by
  obtain ⟨x, hx, rfl⟩ := Option.map_eq_some_iff.mp hi
  obtain ⟨y, hy, rfl⟩ := Option.map_eq_some_iff.mp hj
  obtain ⟨k, hk, hki⟩ := h.kept i x hx
  obtain ⟨k', hk', hkj⟩ := h.kept j y hy
  cases h.key_unique hk (hab ▸ hk')
  exact Option.some.inj (hki.symm.trans hkj)

/-- The object that is asked for, if there is one. -/
def wanted? (g : Merging) (h : Heap) : Ask → Option Obj
  | .alloc d i t => some (g.allocated d i t)
  | .constant l => g.constant? l
  | .mock desc .none t c => some (Obj.mock desc t c)
  | .mock desc (.token n) t c => some (Obj.namedMock desc n t c)
  | .mock desc (.object o) t c => (h.get? o).map fun x => Obj.innerMock desc x t c

/-- **What a request does**, where `o` is asked for: it gives the number of an object with the
origin of `o`, unless there was an entry for the allocation, and adds no more than `o`. -/
structure Serves (h : Heap) (a : Ask) (o : Obj) (r : ObjId × Heap) : Prop where
  le : h ≤ r.2
  old : ∀ {i x}, r.2.get? i = some x → h.get? i = some x ∨ x = o
  get : ∃ x, r.2.get? r.1 = some x ∧
    (x.origin = o.origin ∨ ∃ d i t, a = .alloc d i t ∧ h.find? (.alloc d.id i) = some r.1)
  alloc : ∀ {m i j}, r.2.find? (.alloc m i) = some j →
    h.find? (.alloc m i) = some j ∨ j = r.1 ∧ ∃ d t, a = .alloc d i t ∧ d.id = m

variable {k : HeapKey} {o : Obj}

theorem get?_add (hk : KeyOf h.objs k o.origin) (hnew : h.find? k = none) (i : ObjId) :
    (h.add k o hk hnew).get? i = if i = h.size then some o else h.get? i := by
  rw [get?, add, Array.getElem?_push, size]
  split <;> rfl

theorem serves_add (hk : KeyOf h.objs k o.origin) (hnew : h.find? k = none) (a : Ask)
    (ha : ∀ m i, k = .alloc m i → ∃ d t, a = .alloc d i t ∧ d.id = m) :
    h.Serves a o (h.size, h.add k o hk hnew) where
  le i x hx := by
    have hlt : i < h.objs.size := by
      obtain ⟨y, hy, -⟩ := Option.map_eq_some_iff.mp hx
      exact (Array.getElem?_eq_some_iff.mp hy).1
    rw [get?_add, size, if_neg (Nat.ne_of_lt hlt)]
    exact hx
  old hx := by
    rw [get?_add] at hx
    split at hx
    · exact .inr (Option.some.inj hx).symm
    · exact .inl hx
  get := ⟨o, by rw [get?_add, if_pos rfl], .inl rfl⟩
  alloc {m i j} hj := by
    have hj' : (if HeapKey.alloc m i = k then some h.size else h.find? (.alloc m i)) = some j :=
      (HeapTables.find?_enter ..).symm.trans hj
    split at hj'
    · next hk' => exact .inr ⟨(Option.some.inj hj').symm, ha m i hk'.symm⟩
    · exact .inl hj'

theorem serves_supply (hk : KeyOf h.objs k o.origin) (a : Ask) (hne : ∀ m i, k ≠ .alloc m i) :
    h.Serves a o (h.supply k o hk) := by
  rcases supply_cases h k o hk with ⟨i, hi, heq⟩ | ⟨hnew, heq⟩
  · obtain ⟨x, hx, horigin | ⟨⟨m, j, hm⟩, -⟩⟩ := h.found k i hi
    · rw [heq]
      refine ⟨le_refl h, .inl, ⟨x.obj, ?_, .inl (horigin.unique hk)⟩, .inl⟩
      rw [get?, hx, Option.map_some]
    · exact absurd hm (hne m j)
  · rw [heq]
    exact serves_add hk hnew a fun m i hm => absurd hm (hne m i)

/-- An allocation is asked for. -/
theorem serves_alloc (g : Merging) (h : Heap) (d : Method) (i : Nat) (t : Ty) :
    h.Serves (.alloc d i t) (g.allocated d i t) (h.alloc g d i t) := by
  unfold alloc
  split
  · next o ho =>
    obtain ⟨x, hx, -⟩ := h.found _ _ ho
    refine ⟨le_refl h, .inl, ⟨x.obj, ?_, .inr ⟨d, i, t, rfl, ho⟩⟩, .inl⟩
    rw [get?, hx, Option.map_some]
  · next hnew =>
    unfold Merging.allocated
    split
    · have hs : h.Serves (.alloc d i t) Obj.mergedStrings
          (h.supply .mergedStrings _ .mergedStrings) :=
        serves_supply _ _ fun _ _ => HeapKey.noConfusion
      refine ⟨hs.le, hs.old, hs.get, fun {m n j} hj => ?_⟩
      simp only [find?, merge, HeapTables.find?_enter] at hj
      split at hj
      · next hk =>
        cases hk
        exact .inr ⟨(Option.some.inj hj).symm, d, t, rfl, rfl⟩
      · exact hs.alloc hj
    · refine serves_add (.alloc _ _) hnew _ fun m n hm => ?_
      cases hm
      exact ⟨d, t, rfl, rfl⟩

/-- A request gets an object just if there is one to ask for, and else leaves the heap as it is. -/
theorem request_cases (g : Merging) (h : Heap) (a : Ask) :
    (∃ o, h.wanted? g a = some o ∧ h.Serves a o (h.request g a)) ∨
      h.wanted? g a = none ∧ (h.request g a).2 = h := by
  cases a with
  | alloc d i t => exact .inl ⟨_, rfl, serves_alloc g h d i t⟩
  | constant l =>
    cases l with
    | str bs =>
      refine .inl ⟨_, rfl, ?_⟩
      unfold request
      split <;> exact serves_supply _ _ fun _ _ => HeapKey.noConfusion
    | cls t => exact .inl ⟨_, rfl, serves_supply _ _ fun _ _ => HeapKey.noConfusion⟩
    | null | int => exact .inr ⟨rfl, rfl⟩
  | mock desc identity t c =>
    cases identity with
    | none | token => exact .inl ⟨_, rfl, serves_supply _ _ fun _ _ => HeapKey.noConfusion⟩
    | object o =>
      rw [request, inner]
      split
      · next x hx =>
        have hw : h.wanted? g (.mock desc (.object o) t c) = some (.innerMock desc x.obj t c) := by
          simp [wanted?, get?, hx]
        exact .inl ⟨_, hw, serves_supply _ _ fun _ _ => HeapKey.noConfusion⟩
      · next hx => exact .inr ⟨by simp [wanted?, get?, hx], rfl⟩

/-- **What every request does.** -/
theorem serves_request {g : Merging} {a : Ask} (ho : h.wanted? g a = some o) :
    h.Serves a o (h.request g a) := by
  rcases request_cases g h a with ⟨o', ho', hs⟩ | ⟨hnone, -⟩
  · cases ho.symm.trans ho'
    exact hs
  · cases ho.symm.trans hnone

theorem le_request (g : Merging) (h : Heap) (a : Ask) : h ≤ (h.request g a).2 := by
  rcases request_cases g h a with ⟨o, -, hs⟩ | ⟨-, heq⟩
  · exact hs.le
  · rw [heq]
    exact le_refl h

end Heap

/-! ### Contexts -/

namespace Contexts

/-- The elements of a context, if it has been seen. -/
def get? (t : Contexts) (c : CtxId) : Option (List Elem) :=
  if c < t.size then some (t.elems c) else none

/-- Contexts continue others if they have all their numbers with the same elements. -/
instance : LE Contexts := ⟨fun t u => ∀ c es, t.get? c = some es → u.get? c = some es⟩

theorem le_refl (t : Contexts) : t ≤ t := fun _ _ h => h

theorem le_trans {t u v : Contexts} (h₁ : t ≤ u) (h₂ : u ≤ v) : t ≤ v :=
  fun c es h => h₂ c es (h₁ c es h)

variable {t u : Contexts} {c : CtxId} {es : List Elem}

theorem get?_eq_some_iff : t.get? c = some es ↔ c < t.size ∧ t.elems c = es := by
  rw [get?, Option.ite_none_right_eq_some, Option.some.injEq]

/-- **Contexts are built up from the empty one.** What holds of the empty context and is handed on
from a context to those that extend it by one element holds of all that have been seen. -/
theorem induction {P : CtxId → Prop} (empty : P emptyCtx)
    (step : ∀ i s, t.steps.get? i = some s → s.before < t.size → P s.before → P (i + 1)) :
    ∀ c, c < t.size → P c := by
  intro c
  induction c using Nat.strong_induction_on with
  | _ c ih =>
    intro hc
    rcases c with _ | i
    · exact empty
    · obtain ⟨s, hs⟩ := exists_get? (Nat.lt_of_succ_lt_succ hc)
      have hbefore : s.before < i + 1 := Nat.lt_succ_of_le (t.linked hs).1
      exact step i s hs (Nat.lt_trans hbefore hc) (ih _ hbefore (Nat.lt_trans hbefore hc))

theorem gather_eq (n : Nat) (c : CtxId) (es : List Elem) :
    t.gather n c es = t.gather n c [] ++ es := by
  induction n generalizing c es with
  | zero => rfl
  | succ n ih =>
    unfold gather
    split
    · rename_i s _
      rw [ih s.before (s.elem :: es), ih s.before [s.elem], append_assoc]
      rfl
    · rfl

/-- **A context has the elements of the one that it extends, and one more.** -/
theorem elems_of_step {i : Nat} {s : CtxStep} (h : t.steps.get? i = some s) :
    t.elems (i + 1) = t.elems s.before ++ [s.elem] := by
  have hlength : t.length (i + 1) = t.length s.before + 1 := (t.linked h).2
  have hstep : t.step? (i + 1) = some s := h
  rw [elems, hlength, gather, hstep]
  exact gather_eq _ _ _

theorem length_elems : ∀ c, c < t.size → (t.elems c).length = t.length c := by
  refine induction rfl fun i s hs _ ih => ?_
  rw [elems_of_step hs, length_append, ih]
  exact (t.linked hs).2.symm

/-- Contexts with the same elements are the same. -/
theorem elems_inj : ∀ c, c < t.size → ∀ c', c' < t.size → t.elems c = t.elems c' → c = c' := by
  refine induction (fun c' hc' h => ?_) fun i s hs hbefore ih c' hc' h => ?_
  · rcases c' with _ | i
    · rfl
    · obtain ⟨s, hs⟩ := exists_get? (Nat.lt_of_succ_lt_succ hc')
      simp [elems_of_step hs, show t.elems emptyCtx = [] from rfl] at h
  · rcases c' with _ | i'
    · simp [elems_of_step hs, show t.elems 0 = [] from rfl] at h
    · obtain ⟨s', hs'⟩ := exists_get? (Nat.lt_of_succ_lt_succ hc')
      rw [elems_of_step hs, elems_of_step hs'] at h
      obtain ⟨hes, he⟩ := append_inj' h rfl
      have hle : s'.before < t.size :=
        Nat.lt_of_le_of_lt (t.linked hs').1 (Nat.lt_of_succ_lt hc')
      have hsame : s.before = s'.before := ih _ hle hes
      -- both are made in one step from the same context, and a step is taken down once
      have hstep : s = s' := by
        cases s
        cases s'
        simp_all
      exact congrArg (· + 1) (Table.get?_inj (hstep ▸ hs) hs')

theorem get?_inj {c' : CtxId} (h : t.get? c = some es) (h' : t.get? c' = some es) : c = c' := by
  obtain ⟨hc, hes⟩ := get?_eq_some_iff.mp h
  obtain ⟨hc', hes'⟩ := get?_eq_some_iff.mp h'
  exact elems_inj c hc c' hc' (hes.trans hes'.symm)

theorem le_of_steps (h : t.steps ≤ u.steps) : t ≤ u := by
  have hall : ∀ c, c < t.size → c < u.size ∧ u.elems c = t.elems c := by
    refine induction ⟨Nat.succ_pos _, rfl⟩ fun i s hs _ ih => ?_
    have hs' := h i s hs
    exact ⟨Nat.succ_lt_succ (lt_size_of_get? hs'),
      by rw [elems_of_step hs, elems_of_step hs', ih.2]⟩
  intro c es hc
  obtain ⟨hlt, rfl⟩ := get?_eq_some_iff.mp hc
  exact get?_eq_some_iff.mpr (hall c hlt)

/-- What a request for the context with elements `l` does: the number it returns has these elements,
the numbers given out before keep theirs, and whatever is new is a beginning of `l`. -/
structure Gives (t : Contexts) (l : List Elem) (r : CtxId × Contexts) : Prop where
  get : r.2.get? r.1 = some l
  le : t ≤ r.2
  only : ∀ i es, r.2.get? i = some es → t.get? i = some es ∨ es <+: l

theorem Gives.here (h : t.get? c = some es) : Gives t es (c, t) :=
  ⟨h, le_refl _, fun _ _ => .inl⟩

/-- A context is extended by one element. -/
theorem gives_child (h : t.get? c = some es) (e : Elem) : Gives t (es ++ [e]) (t.child c e) := by
  obtain ⟨hc, rfl⟩ := get?_eq_some_iff.mp h
  unfold child
  rw [dif_pos hc]
  split
  · rename_i i hi
    have hstep := find?_eq_some_iff.mp hi
    exact .here (get?_eq_some_iff.mpr
      ⟨Nat.succ_lt_succ (lt_size_of_get? hstep), elems_of_step hstep⟩)
  · rename_i hnew
    have hle : t ≤ t.push ⟨c, e⟩ hnew hc := le_of_steps (le_push _ _ hnew)
    have hstep : (t.push ⟨c, e⟩ hnew hc).steps.get? t.steps.size = some ⟨c, e⟩ := by
      rw [push, get?_push, if_pos rfl]
    have hlast : (t.push ⟨c, e⟩ hnew hc).elems t.size = t.elems c ++ [e] := by
      rw [size, elems_of_step hstep, (get?_eq_some_iff.mp (hle _ _ h)).2]
    have hsize : (t.push ⟨c, e⟩ hnew hc).size = t.size + 1 := by
      rw [size, push, size_push, size]
    refine ⟨get?_eq_some_iff.mpr ⟨hsize ▸ Nat.lt_succ_self _, hlast⟩, hle, fun i es' hi => ?_⟩
    obtain ⟨hlt, rfl⟩ := get?_eq_some_iff.mp hi
    rcases Nat.lt_or_eq_of_le (Nat.le_of_lt_succ (hsize ▸ hlt)) with hold | rfl
    · have hi' : t.get? i = some (t.elems i) := get?_eq_some_iff.mpr ⟨hold, rfl⟩
      exact .inl (hi'.trans ((hle _ _ hi').symm.trans hi))
    · exact .inr (hlast ▸ prefix_refl _)

theorem gives_extend (l : List Elem) (h : t.get? c = some es) :
    Gives t (es ++ l) (t.extend c l) := by
  induction l generalizing t c es with
  | nil =>
    rw [append_nil]
    exact Gives.here h
  | cons e l ih =>
    have h₁ := gives_child h e
    have h₂ := ih h₁.get
    rw [append_assoc] at h₂
    refine ⟨h₂.get, le_trans h₁.le h₂.le, fun i es' hi => ?_⟩
    rcases h₂.only i es' hi with hi | hp
    · rcases h₁.only i es' hi with hi | hp
      · exact .inl hi
      · exact .inr (hp.trans ⟨l, by simp⟩)
    · exact .inr hp

theorem get?_empty (t : Contexts) : t.get? emptyCtx = some [] :=
  get?_eq_some_iff.mpr ⟨Nat.succ_pos _, rfl⟩

theorem gives_make (t : Contexts) (l : List Elem) : Gives t l (t.make l) :=
  gives_extend l t.get?_empty

/-- The empty context is a beginning of every context, so asking for it adds nothing. -/
theorem gives_empty (t : Contexts) : Gives t [] (emptyCtx, t) :=
  Gives.here t.get?_empty

/-- **A context is extended and cut.** -/
theorem gives_append (h : t.get? c = some es) (e : Elem) (k : Int) :
    Gives t ((es ++ [e]).rtake k.toNat) (t.append c e k) := by
  obtain ⟨hc, rfl⟩ := get?_eq_some_iff.mp h
  have hlength := length_elems c hc
  unfold append
  split
  · rw [Int.toNat_of_nonpos ‹k ≤ 0›]
    simpa using gives_empty t
  · split
    · have hall : (t.elems c ++ [e]).length - k.toNat = 0 := by
        rw [length_append, length_singleton]
        omega
      rw [List.rtake, hall, drop_zero]
      exact gives_child h e
    · have hcut : (t.elems c ++ [e]).length - k.toNat = (t.elems c).length - k.toNat + 1 := by
        rw [length_append, length_singleton]
        omega
      rw [List.rtake, hcut, drop_append_of_le_length (by omega)]
      exact gives_make t _

theorem gives_last (h : t.get? c = some es) (k : Int) :
    Gives t (es.rtake k.toNat) (t.last c k) := by
  obtain ⟨hc, rfl⟩ := get?_eq_some_iff.mp h
  have hlength := length_elems c hc
  unfold last
  split
  · rw [Int.toNat_of_nonpos ‹k ≤ 0›]
    simpa using gives_empty t
  · split
    · have hall : (t.elems c).length - k.toNat = 0 := by omega
      rw [List.rtake, hall, drop_zero]
      exact Gives.here h
    · exact gives_make t _

end Contexts

end HeapFlow
