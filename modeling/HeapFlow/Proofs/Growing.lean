import HeapFlow.Proofs.Bodies

/-!
# What new objects and new call edges bring

When a variable has new objects, the statements that go through it concern them; when there is a new
call edge, arguments and results flow. The facts added are exactly those that the rules list
(`UseFact`, `BindFact`, `WireFact`), for all new objects at once.
-/

namespace HeapFlow

open List

namespace Method

variable {d : Method} {v x : Slot} {f : FieldId} {i : Nat}

theorem mem_indexedBody {st : Stmt} : (i, st) ∈ d.indexedBody ↔ d.body[i]? = some st := by
  simp [indexedBody, mem_zipIdx_iff_getElem?]

/-- Statements are picked with their positions. -/
theorem mem_pick {α : Type} {pick : Nat × Stmt → Option α} {a : α} {st : Stmt}
    (h : ∀ j st', pick (j, st') = some a ↔ j = i ∧ st' = st) :
    a ∈ d.indexedBody.filterMap pick ↔ d.body[i]? = some st := by
  rw [mem_filterMap, ← mem_indexedBody]
  constructor
  · rintro ⟨⟨j, st'⟩, hmem, ha⟩
    obtain ⟨rfl, rfl⟩ := (h j st').mp ha
    exact hmem
  · intro hmem
    exact ⟨(i, st), hmem, (h i st).mpr ⟨rfl, rfl⟩⟩

theorem mem_storesThrough : (i, f, x) ∈ d.storesThrough v ↔ d.body[i]? = some (.store v f x) :=
  mem_pick fun j st => by cases st <;> grind

theorem mem_loadsThrough : (i, f, x) ∈ d.loadsThrough v ↔ d.body[i]? = some (.load x v f) :=
  mem_pick fun j st => by cases st <;> grind

theorem mem_elemStoresThrough :
    (i, x) ∈ d.elemStoresThrough v ↔ d.body[i]? = some (.storeElem v x) :=
  mem_pick fun j st => by cases st <;> grind

theorem mem_elemLoadsThrough : (i, x) ∈ d.elemLoadsThrough v ↔ d.body[i]? = some (.loadElem x v) :=
  mem_pick fun j st => by cases st <;> grind

theorem mem_callsOn {c : Call} :
    (i, c) ∈ d.callsOn v ↔ d.body[i]? = some (.invoke c) ∧ c.receiver = some v := by
  rw [callsOn, mem_filterMap, ← mem_indexedBody]
  constructor
  · rintro ⟨⟨j, st⟩, hmem, h⟩
    split at h
    · split at h <;> simp_all
    · cases h
  · rintro ⟨h, hv⟩
    exact ⟨_, h, by simp [hv]⟩

end Method

theorem Ty.exists_of_isArray {t : Ty} (h : t.isArray = true) : ∃ u, t = .array u := by
  cases t with
  | array u => exact ⟨u, rfl⟩
  | _ => cases h

namespace Act

/-! ### Loops over objects -/

section Loops

variable {g : Setup} {s : State} (hs : s.Wf g)

include hs

variable {body : CObjId → PUnit → Act (ForInStep PUnit)} {T : Set (At Obj)} {A : At Obj → Set Fact}
  {delta : Objects}

/-- **A loop over objects**, which come in numbers, is a union over what the numbers mean. -/
theorem adds_forObjects {l : List CObjId} {n : Nat}
    (hmeans : ∀ o ∈ l, ∃ O ∈ T, s.registry.ObjIs o O)
    (hcovers : ∀ O ∈ T, ∃ o ∈ l, s.registry.ObjIs o O)
    (h : ∀ o O, O ∈ T → s.registry.ObjIs o O → ∀ s', s'.Wf g → s.registry ≤ s'.registry →
      Adds g (body o ⟨⟩) s' (A O) n fun r _ => r = .yield ⟨⟩) :
    Adds g (forIn l PUnit.unit body) s {f | ∃ O ∈ T, f ∈ A O} (l.length * n) fun _ _ => True := by
  refine (Adds.forIn (F := fun o => {f | ∃ O ∈ T, s.registry.ObjIs o O ∧ f ∈ A O}) hs ?_).congr
    (Set.ext fun f => ⟨?_, ?_⟩)
  · intro o ho s' hs' hle _
    obtain ⟨O, hO, hoO⟩ := hmeans o ho
    refine (h o O hO hoO s' hs' hle).congr (Set.ext fun f => ⟨fun hf => ⟨O, hO, hoO, hf⟩, ?_⟩)
    rintro ⟨O', -, hoO', hf⟩
    rwa [hoO.unique hoO']
  · rintro ⟨o, -, O, hO, -, hf⟩
    exact ⟨O, hO, hf⟩
  · rintro ⟨O, hO, hf⟩
    obtain ⟨o, ho, hoO⟩ := hcovers O hO
    exact ⟨o, ho, O, hO, hoO, hf⟩

theorem adds_forNew {n : Nat} (hT : s.registry.SetIs delta T)
    (h : ∀ o O, O ∈ T → s.registry.ObjIs o O → ∀ s', s'.Wf g → s.registry ≤ s'.registry →
      Adds g (body o ⟨⟩) s' (A O) n fun r _ => r = .yield ⟨⟩) :
    Adds g (forIn delta.toList PUnit.unit body) s {f | ∃ O ∈ T, f ∈ A O} (delta.toList.length * n)
      fun _ _ => True :=
  adds_forObjects hs (fun o ho => hT.means o (OrderedSet.mem_def.mpr ho))
    (fun O hO => by
      obtain ⟨o, ho, hoO⟩ := hT.covers O hO
      exact ⟨o, OrderedSet.mem_def.mp ho, hoO⟩) h

/-- A loop over the arrays among new objects. -/
theorem adds_forArrays {F : At Obj → Ty → Flow} {body : CObjId → Act PUnit}
    (hT : s.registry.SetIs delta T)
    (h : ∀ o O t s', s'.Wf g → s.registry ≤ s'.registry → s'.registry.ObjIs o O →
      O.item.type = .array t → Adds g (body o) s' {.flow (F O t)} 0 fun _ _ => True) :
    Adds g (do
        for o in (← get).arraysIn delta do body o
        Pure.pure (ForInStep.yield PUnit.unit)) s
      {f | ∃ O ∈ T, ∃ t, O.item.type = .array t ∧ f = .flow (F O t)} 0
      fun r _ => r = .yield ⟨⟩ := by
  refine Adds.get_bind (Adds.then_pure ((adds_forObjects (n := 0)
    (T := {O ∈ T | O.item.type.isArray = true})
    (A := fun O => {f | ∃ t, O.item.type = .array t ∧ f = .flow (F O t)}) hs ?_ ?_ ?_).congr_le
    (Set.ext fun f => ⟨?_, ?_⟩) (by simp)) fun _ _ _ _ => rfl)
  · intro o ho
    obtain ⟨ho, ht⟩ := mem_filter.mp ho
    obtain ⟨O, hO, hoO⟩ := hT.means o (OrderedSet.mem_def.mpr ho)
    exact ⟨O, ⟨hO, hoO.objType ▸ ht⟩, hoO⟩
  · rintro O ⟨hO, ht⟩
    obtain ⟨o, ho, hoO⟩ := hT.covers O hO
    exact ⟨o, mem_filter.mpr ⟨OrderedSet.mem_def.mp ho, hoO.objType ▸ ht⟩, hoO⟩
  · rintro o O ⟨-, ht⟩ hoO s' hs' hle
    obtain ⟨t, ht⟩ := Ty.exists_of_isArray ht
    exact ((h o O t s' hs' hle (hoO.mono hle) ht).congr (by ext; simp [ht])).then_pure
      fun _ _ _ _ => rfl
  · rintro ⟨O, ⟨hO, -⟩, hf⟩
    exact ⟨O, hO, hf⟩
  · rintro ⟨O, hO, t, ht, hf⟩
    exact ⟨O, ⟨hO, by rw [ht]; rfl⟩, t, ht, hf⟩

end Loops

/-! ### Fields and elements -/

section Access

variable {g : Setup} {s : State} (hs : s.Wf g) (hp : g.program.WellFormed)

include hs

variable {O : At Obj} {o : CObjId}

/-- Only objects of the element type pass into an array. -/
theorem adds_storeElems {src : PtrId} {P : Place} {t : Ty} (hP : s.registry.PtrIs src P)
    (hO : s.registry.ObjIs o O) (ht : O.item.type = .array t) :
    Adds g (storeElems g src o) s {.flow ⟨P, .elems O, .storeElem, some t⟩} 0 fun _ _ => True := by
  refine (adds_elems hs hO (by rw [ht]; rfl)).bind_nothing fun q s₁ hg₁ hq => ?_
  have htype : s₁.registry.pointerType g.program (.elems o) = t := by
    simp [Registry.pointerType, (hO.mono hg₁.le).objType, ht, Ty.elem?]
  refine Adds.get_bind ?_
  rw [htype]
  exact adds_addFlow hg₁.wf (F := ⟨P, .elems O, .storeElem, some t⟩) (hP.mono hg₁.le) hq

theorem adds_loadElems {dst : PtrId} {P : Place} {t : Ty} (hP : s.registry.PtrIs dst P)
    (hO : s.registry.ObjIs o O) (ht : O.item.type = .array t) :
    Adds g (loadElems g o dst) s {.flow ⟨.elems O, P, .loadElem, none⟩} 0 fun _ _ => True := by
  refine (adds_elems hs hO (by rw [ht]; rfl)).bind_nothing fun q s₁ hg₁ hq => ?_
  exact adds_addFlow hg₁.wf (F := ⟨.elems O, P, .loadElem, none⟩) hq (hP.mono hg₁.le)

variable {c : CtxId} {C : Ctx} {m : MethodId} {d : Method} {v : Slot} {delta : Objects}
  {T : Set (At Obj)} (hC : s.registry.CtxIs c C) (hd : g.program.method? m = some d)
  (hT : s.registry.SetIs delta T)

include hC in
/-- A loop over the statements of one kind that use a variable: where the other variable of such a
statement holds objects, something is done with its pointer. -/
theorem adds_forUses {α : Type} {l : List (Nat × α)} {S : α → Stmt} {x : α → Slot}
    {B : α → PtrId → Act (ForInStep PUnit)} {F : α → Set Fact}
    (hl : ∀ {i a}, (i, a) ∈ l ↔ d.body[i]? = some (S a))
    (h : ∀ a p s', S a ∈ d.body → s'.Wf g → s.registry ≤ s'.registry →
      s'.registry.PtrIs p (.var C (.declared d.id (x a))) →
      Adds g (B a p) s' (F a) 0 fun r _ => r = .yield ⟨⟩) :
    Adds g (forIn l PUnit.unit fun y _ =>
        if (d.varType (x y.2)).holdsObjects then
          variablePtr c (.declared d.id (x y.2)) >>= B y.2
        else Pure.pure (.yield ⟨⟩)) s
      {f | ∃ a, S a ∈ d.body ∧ (d.varType (x a)).holdsObjects = true ∧ f ∈ F a} 0
      fun _ _ => True := by
  refine (Adds.forIn (n := 0) (F := fun y => {f | (d.varType (x y.2)).holdsObjects = true ∧
    f ∈ F y.2}) hs fun y hy s' hs' hle _ => ?_).congr_le (Set.ext fun f => ⟨?_, ?_⟩) (by simp)
  · refine Adds.guard hs' (fun _ => ?_) rfl
    refine (adds_declared hs' (hC.mono hle) d.id (x y.2)).bind_nothing fun p s₁ hg₁ hp => ?_
    exact h y.2 p s₁ (mem_of_getElem? (hl.mp hy)) hg₁.wf (Registry.le_trans hle hg₁.le) hp
  · rintro ⟨⟨i, a⟩, hmem, hf⟩
    exact ⟨a, mem_of_getElem? (hl.mp hmem), hf⟩
  · rintro ⟨a, ha, hf⟩
    obtain ⟨i, hi⟩ := mem_iff_getElem?.mp ha
    exact ⟨(i, a), hl.mpr hi, hf⟩

include hT

include hp hC hd in
/-- Stores through a variable: what is stored flows to the field of each new object. -/
theorem adds_growStores :
    Adds g (growStores g c d v delta) s {f | ∃ y : FieldId × Slot, .store v y.1 y.2 ∈ d.body ∧
      (d.varType y.2).holdsObjects = true ∧ ∃ O ∈ T,
      f = .flow ⟨.var C (.declared d.id y.2), .field O y.1, .store, none⟩} 0 fun _ _ => True := by
  refine Adds.then_pure (adds_forUses (x := Prod.snd) (S := fun y => .store v y.1 y.2) (B :=
    fun y src => do
      for o in delta.toList do addFlow g src (← pointer g (.field o y.1)) .store .all
      Pure.pure (.yield ⟨⟩)) hs hC Method.mem_storesThrough fun y src s₁ hst hs₁ hle hsrc => ?_)
    fun _ _ _ _ => trivial
  refine Adds.then_pure (adds_forNew (n := 0) hs₁ (hT.mono hle) fun o O _ hoO s₂ hs₂ hle₂ => ?_)
    fun _ _ _ _ => rfl
  refine (adds_field hs₂ (hoO.mono hle₂) (hp.stmtOk hd hst)).bind_nothing fun q s₃ hg₃ hq => ?_
  exact (adds_addFlow hg₃.wf (F := ⟨.var C (.declared d.id y.2), .field O y.1, .store, none⟩)
    ((hsrc.mono hle₂).mono hg₃.le) hq).then_pure fun _ _ _ _ => rfl

include hp hC hd in
theorem adds_growLoads :
    Adds g (growLoads g c d v delta) s {f | ∃ y : FieldId × Slot, .load y.2 v y.1 ∈ d.body ∧
      (d.varType y.2).holdsObjects = true ∧ ∃ O ∈ T,
      f = .flow ⟨.field O y.1, .var C (.declared d.id y.2), .load, none⟩} 0 fun _ _ => True := by
  refine Adds.then_pure (adds_forUses (x := Prod.snd) (S := fun y => .load y.2 v y.1) (B :=
    fun y dst => do
      for o in delta.toList do addFlow g (← pointer g (.field o y.1)) dst .load .all
      Pure.pure (.yield ⟨⟩)) hs hC Method.mem_loadsThrough fun y dst s₁ hst hs₁ hle hdst => ?_)
    fun _ _ _ _ => trivial
  refine Adds.then_pure (adds_forNew (n := 0) hs₁ (hT.mono hle) fun o O _ hoO s₂ hs₂ hle₂ => ?_)
    fun _ _ _ _ => rfl
  refine (adds_field hs₂ (hoO.mono hle₂) (hp.stmtOk hd hst)).bind_nothing fun q s₃ hg₃ hq => ?_
  exact (adds_addFlow hg₃.wf (F := ⟨.field O y.1, .var C (.declared d.id y.2), .load, none⟩) hq
    ((hdst.mono hle₂).mono hg₃.le)).then_pure fun _ _ _ _ => rfl

include hC in
theorem adds_growElemStores :
    Adds g (growElemStores g c d v delta) s {f | ∃ x, .storeElem v x ∈ d.body ∧
      (d.varType x).holdsObjects = true ∧ ∃ O ∈ T, ∃ t, O.item.type = .array t ∧
      f = .flow ⟨.var C (.declared d.id x), .elems O, .storeElem, some t⟩} 0 fun _ _ => True :=
  Adds.then_pure (adds_forUses (x := id) hs hC Method.mem_elemStoresThrough
    fun _ _ _ _ hs₁ hle hsrc => adds_forArrays hs₁ (hT.mono hle) fun _ _ _ _ hs₂ hle₂ hO ht =>
      adds_storeElems hs₂ (hsrc.mono hle₂) hO ht) fun _ _ _ _ => trivial

include hC in
theorem adds_growElemLoads :
    Adds g (growElemLoads g c d v delta) s {f | ∃ y, .loadElem y v ∈ d.body ∧
      (d.varType y).holdsObjects = true ∧ ∃ O ∈ T, ∃ t, O.item.type = .array t ∧
      f = .flow ⟨.elems O, .var C (.declared d.id y), .loadElem, none⟩} 0 fun _ _ => True :=
  Adds.then_pure (adds_forUses (x := id) hs hC Method.mem_elemLoadsThrough
    fun _ _ _ _ hs₁ hle hdst => adds_forArrays hs₁ (hT.mono hle) fun _ _ _ _ hs₂ hle₂ hO ht =>
      adds_loadElems hs₂ (hdst.mono hle₂) hO ht) fun _ _ _ _ => trivial

omit hT hs in
theorem slot?_of_useFact {v : Var} {F : Flow} (hf : UseFact g C O v (.flow F)) :
    ∃ x d, v.slot? = some x ∧ g.program.method? v.method = some d := by
  cases hf with
  | store hd | load hd | storeElem hd | loadElem hd | call hd => exact ⟨_, _, rfl, hd⟩
  | run _ _ _ hf => cases hf

omit hT hs in
/-- The flows that follow from an object of a variable, by kinds of statements. -/
theorem useFact_flow_iff {F : Flow} (hd : g.program.method? m = some d) :
    UseFact g C O (.declared m v) (.flow F) ↔
      (∃ h x, .store v h x ∈ d.body ∧ (d.varType x).holdsObjects = true ∧
        F = ⟨.var C (.declared m x), .field O h, .store, none⟩) ∨
      (∃ h y, .load y v h ∈ d.body ∧ (d.varType y).holdsObjects = true ∧
        F = ⟨.field O h, .var C (.declared m y), .load, none⟩) ∨
      (∃ x, .storeElem v x ∈ d.body ∧ (d.varType x).holdsObjects = true ∧
        ∃ t, O.item.type = .array t ∧ F = ⟨.var C (.declared m x), .elems O, .storeElem, some t⟩) ∨
      (∃ y, .loadElem y v ∈ d.body ∧ (d.varType y).holdsObjects = true ∧
        ∃ t, O.item.type = .array t ∧ F = ⟨.elems O, .var C (.declared m y), .loadElem, none⟩) := by
  constructor
  · intro hf
    cases hf with
    | store hd' hst hx =>
      cases hd.symm.trans hd'
      exact .inl ⟨_, _, hst, hx, rfl⟩
    | load hd' hst hy =>
      cases hd.symm.trans hd'
      exact .inr (.inl ⟨_, _, hst, hy, rfl⟩)
    | storeElem hd' hst hx ht =>
      cases hd.symm.trans hd'
      exact .inr (.inr (.inl ⟨_, hst, hx, _, ht, rfl⟩))
    | loadElem hd' hst hy ht =>
      cases hd.symm.trans hd'
      exact .inr (.inr (.inr ⟨_, hst, hy, _, ht, rfl⟩))
    | call _ _ _ _ hf | run _ _ _ hf => cases hf
  · rintro (⟨h, x, hst, hx, rfl⟩ | ⟨h, y, hst, hy, rfl⟩ | ⟨x, hst, hx, t, ht, rfl⟩ |
      ⟨y, hst, hy, t, ht, rfl⟩)
    · exact .store hd hst hx
    · exact .load hd hst hy
    · exact .storeElem hd hst hx ht
    · exact .loadElem hd hst hy ht

include hp hC in
/-- **A variable grows**: flows are added at once, calls are left to do. -/
theorem adds_grow {p : PtrId} {v : Var} :
    Adds g (grow g p c v delta) s {f | ∃ F, f = .flow F ∧ ∃ O ∈ T, UseFact g C O v f} 0
      fun ts _ => ∃ calls, ts = calls ++ [.notify (.grown p delta) g.observers] ∧
        ∀ t, t ∈ calls ↔ ∃ m d x i k, v = .declared m x ∧ g.program.method? m = some d ∧
          d.body[i]? = some (.invoke k) ∧ k.receiver = some x ∧
          t = .receive c (.body m i) delta.toList := by
  unfold grow
  split
  · rename_i x d hx hd
    obtain ⟨m, rfl⟩ : ∃ m, v = .declared m x := by
      cases v with
      | declared m y => exact ⟨m, by rw [Option.some.inj hx]⟩
      | copyTemp m n => cases hx
    have hid : d.id = m := hp.id_eq hd
    obtain ⟨_, s₁, h₁, hg₁, -⟩ := adds_growStores (v := x) hs hp hC hd hT
    have hC₁ := hC.mono hg₁.le
    have hT₁ := hT.mono hg₁.le
    obtain ⟨_, s₂, h₂, hg₂, -⟩ := adds_growLoads (v := x) hg₁.wf hp hC₁ hd hT₁
    have hC₂ := hC₁.mono hg₂.le
    have hT₂ := hT₁.mono hg₂.le
    obtain ⟨_, s₃, h₃, hg₃, -⟩ := adds_growElemStores (d := d) (v := x) hg₂.wf hC₂ hT₂
    have hC₃ := hC₂.mono hg₃.le
    have hT₃ := hT₂.mono hg₃.le
    obtain ⟨_, s₄, h₄, hg₄, -⟩ := adds_growElemLoads (d := d) (v := x) hg₃.wf hC₃ hT₃
    refine ⟨_, s₄, (bind_of_ok h₁).trans ((bind_of_ok h₂).trans ((bind_of_ok h₃).trans
      ((bind_of_ok h₄).trans rfl))), (hg₁.trans (hg₂.trans (hg₃.trans hg₄))).congr
      (Set.ext fun f => ?_) le_rfl, _, rfl, fun t => ?_⟩
    · simp only [hid]
      constructor
      · rintro (⟨x, hst, hx, O, hO, rfl⟩ | ⟨y, hst, hy, O, hO, rfl⟩ |
          ⟨x, hst, hx, O, hO, t, ht, rfl⟩ | ⟨y, hst, hy, O, hO, t, ht, rfl⟩)
        · exact ⟨_, rfl, O, hO, .store hd hst hx⟩
        · exact ⟨_, rfl, O, hO, .load hd hst hy⟩
        · exact ⟨_, rfl, O, hO, .storeElem hd hst hx ht⟩
        · exact ⟨_, rfl, O, hO, .loadElem hd hst hy ht⟩
      · rintro ⟨F, rfl, O, hO, hf⟩
        rcases (useFact_flow_iff hd).mp hf with ⟨h, x, hst, hx, rfl⟩ | ⟨h, y, hst, hy, rfl⟩ |
          ⟨x, hst, hx, t, ht, rfl⟩ | ⟨y, hst, hy, t, ht, rfl⟩
        · exact .inl ⟨(h, x), hst, hx, O, hO, rfl⟩
        · exact .inr (.inl ⟨(h, y), hst, hy, O, hO, rfl⟩)
        · exact .inr (.inr (.inl ⟨x, hst, hx, O, hO, t, ht, rfl⟩))
        · exact .inr (.inr (.inr ⟨y, hst, hy, O, hO, t, ht, rfl⟩))
    · rw [hid, mem_map]
      constructor
      · rintro ⟨⟨i, k⟩, hmem, rfl⟩
        obtain ⟨hi, hk⟩ := Method.mem_callsOn.mp hmem
        exact ⟨m, d, x, i, k, rfl, hd, hi, hk, rfl⟩
      · rintro ⟨m', d', x', i, k, hv, hd', hi, hk, rfl⟩
        cases hv
        cases hd.symm.trans hd'
        exact ⟨(i, k), Method.mem_callsOn.mpr ⟨hi, hk⟩, rfl⟩
  · rename_i hnone
    refine .nothing hs ⟨[], rfl, fun t => ⟨fun h => (not_mem_nil h).elim, ?_⟩⟩ ?_
    · rintro ⟨m, d, x, i, k, rfl, hd, -⟩
      exact (hnone x d rfl hd).elim
    · rintro f ⟨F, rfl, O, hO, hf⟩
      obtain ⟨x, d, hx, hd⟩ := slot?_of_useFact hf
      exact hnone x d hx hd

end Access

/-! ### Calls -/

section Calls

variable {g : Setup} {s : State} (hs : s.Wf g)

include hs

variable {S : At CallSite} {o : CObjId} {O : At Obj} {i : CSiteId} {c c' : CtxId} {C : Ctx}
  {E : CallEdge (At CallSite) (At MethodId)}

/-- A call on a receiver binds it to `this`. -/
theorem adds_callOn (kind : CallKind) (hS : s.registry.SiteIs i S) (hO : s.registry.ObjIs o O)
    (m : MethodId) :
    Adds g (callOn g kind i o m) s {f | BindFact g kind S O m f} 1 fun _ _ => True := by
  refine (adds_calleeContext hs hS hO).bind_nothing fun c s₁ hg₁ hc => ?_
  refine (adds_method hg₁.wf hc m).bind_nothing fun n s₂ hg₂ hn => ?_
  have hle₂ := Registry.le_trans hg₁.le hg₂.le
  obtain ⟨_, s₃, h₃, hg₃, -⟩ := adds_addCall hg₂.wf (E := g.recvEdge kind S O m)
    (e := ⟨kind, i, n⟩) ⟨rfl, hS.mono hle₂, hn⟩
  obtain ⟨_, s₄, h₄, hg₄, -⟩ := adds_addToVar hg₃.wf ((hc.mono hg₂.le).mono hg₃.le)
    ((hO.mono hle₂).mono hg₃.le) m 0
  refine ⟨_, s₄, (bind_of_ok h₃).trans h₄, (hg₃.trans hg₄).congr (Set.ext fun f => ⟨?_, ?_⟩)
    le_rfl, trivial⟩
  · rintro (rfl | rfl)
    · exact .call
    · exact .this
  · rintro (_ | _)
    · exact .inl rfl
    · exact .inr rfl

/-- The target of a call depends on the type of the receiver only. -/
theorem adds_callee {site : CallSite} {k : Call} (hO : s.registry.ObjIs o O)
    (hk : k.kind = .virtual ∨ k.kind = .interface ∨ k.kind = .special) :
    Adds g (callee g site k o) s ∅ 0 fun m s' => s' = s ∧ m = g.program.callee? k O.item.type := by
  refine ⟨_, s, ?_, .refl hs, rfl, rfl⟩
  rcases hk with hk | hk | hk
  · simp only [callee, Program.callee?, hk, ← hO.objType]
    rfl
  · simp only [callee, Program.callee?, hk, ← hO.objType]
    rfl
  · simp only [callee, Program.callee?, hk]
    rfl

/-- **A receiver is dispatched.** -/
theorem adds_dispatch (hS : s.registry.SiteIs i S) (hO : s.registry.ObjIs o O)
    (hk : ∀ k, g.program.call? S.item = some k →
      k.kind = .virtual ∨ k.kind = .interface ∨ k.kind = .special) :
    Adds g (dispatch g i o) s {f | ∃ k m, g.program.call? S.item = some k ∧
      g.program.callee? k O.item.type = some m ∧ BindFact g k.kind S O m.id f} 1
      fun ts _ => g.OnlyUnresolved ts := by
  unfold dispatch
  refine Adds.get_bind ?_
  simp only [hS.callSite]
  split
  · rename_i hnone
    exact .nothing hs (.inl rfl) (by simp [hnone])
  · rename_i k hcall
    refine (adds_callee hs hO (hk k hcall)).bind_nothing ?_
    rintro m _ - ⟨rfl, rfl⟩
    split
    · rename_i m hm
      refine ((adds_callOn hs k.kind hS hO m.id).congr
        (Set.ext fun f => ⟨?_, ?_⟩)).then_pure fun _ _ _ _ => Or.inl rfl
      · intro hf
        exact ⟨k, m, hcall, hm, hf⟩
      · rintro ⟨k', m', hk', hm', hf⟩
        cases hcall.symm.trans hk'
        cases hm.symm.trans hm'
        exact hf
    · rename_i hnone
      refine .nothing hs (.inr ⟨some o, _, S.item, rfl⟩) ?_
      rintro f ⟨k', m', hk', hm', -⟩
      cases hcall.symm.trans hk'
      cases hnone.symm.trans hm'

theorem adds_receive (hC : s.registry.CtxIs c C) (site : CallSite) (l : List CObjId) :
    Adds g (receive c site l) s ∅ 0 fun ts s' =>
      ∃ i, s'.registry.SiteIs i ⟨C, site⟩ ∧ ts = l.map (Task.dispatch i) :=
  (adds_site hs hC site).bind_nothing fun i _ hg hi => .pure hg.wf ⟨i, hi, rfl⟩

/-- Arguments flow to parameters. -/
theorem adds_passArguments {C' : Ctx} (hC : s.registry.CtxIs c C) (hC' : s.registry.CtxIs c' C')
    (m : MethodId) (d : Method) (l : List (Slot × Slot)) :
    Adds g (passArguments g c c' m d l) s {f | ∃ a x, (a, x) ∈ l ∧
      g.program.holdsObjects (.declared m a) = true ∧
      f = .flow ⟨.var C (.declared m a), .var C' (.declared d.id x), .param, none⟩} 0
      fun _ _ => True := by
  induction l generalizing s with
  | nil => exact .nothing hs trivial (by simp)
  | cons y l ih =>
    obtain ⟨a, x⟩ := y
    unfold passArguments
    split
    · rename_i ha
      refine (adds_declared hs hC m a).bind_nothing fun src s₁ hg₁ hsrc => ?_
      refine (adds_declared hg₁.wf (hC'.mono hg₁.le) d.id x).bind_nothing fun dst s₂ hg₂ hdst => ?_
      obtain ⟨_, s₃, h₃, hg₃, -⟩ := adds_addFlow hg₂.wf
        (F := ⟨.var C (.declared m a), .var C' (.declared d.id x), .param, none⟩)
        (hsrc.mono hg₂.le) hdst
      have hle₃ := Registry.le_trans hg₁.le (Registry.le_trans hg₂.le hg₃.le)
      obtain ⟨_, s₄, h₄, hg₄, -⟩ := ih hg₃.wf (hC.mono hle₃) (hC'.mono hle₃)
      refine ⟨_, s₄, (bind_of_ok h₃).trans h₄, (hg₃.trans hg₄).congr (Set.ext fun f => ⟨?_, ?_⟩)
        le_rfl, trivial⟩
      · rintro (rfl | ⟨b, y, hy, hb, rfl⟩)
        · exact ⟨a, x, .head _, ha, rfl⟩
        · exact ⟨b, y, .tail _ hy, hb, rfl⟩
      · rintro ⟨b, y, hy, hb, rfl⟩
        rcases mem_cons.mp hy with heq | hy
        · cases heq
          exact .inl rfl
        · exact .inr ⟨b, y, hy, hb, rfl⟩
    · rename_i ha
      refine (ih hs hC hC').congr (Set.ext fun f => ⟨?_, ?_⟩)
      · rintro ⟨b, y, hy, hb, rfl⟩
        exact ⟨b, y, .tail _ hy, hb, rfl⟩
      · rintro ⟨b, y, hy, hb, rfl⟩
        rcases mem_cons.mp hy with heq | hy
        · cases heq
          exact absurd hb ha
        · exact ⟨b, y, hy, hb, rfl⟩

theorem adds_passResult {C' : Ctx} (hC : s.registry.CtxIs c C) (hC' : s.registry.CtxIs c' C')
    (m : MethodId) (d : Method) (x : Slot) :
    Adds g (passResult g c c' m d x) s {f | g.program.holdsObjects (.declared m x) = true ∧
      ∃ v ∈ d.returned, (d.varType v).holdsObjects = true ∧
        f = .flow ⟨.var C' (.declared d.id v), .var C (.declared m x), .ret, none⟩} 0
      fun _ _ => True := by
  refine Adds.guard hs (fun _ => ?_) trivial
  refine (adds_declared hs hC m x).bind_nothing fun dst s₁ hg₁ hdst => ?_
  refine Adds.then_pure ((Adds.forIn (n := 0)
    (F := fun v => {f | (d.varType v).holdsObjects = true ∧
    f ∈ ({.flow ⟨.var C' (.declared d.id v), .var C (.declared m x), .ret, none⟩} : Set Fact)})
    hg₁.wf fun v _ s' hs' hle _ => ?_).congr_le rfl (by simp)) fun _ _ _ _ => trivial
  refine Adds.guard hs' (fun _ => ?_) rfl
  have hC₂ := (hC'.mono hg₁.le).mono hle
  refine (adds_declared hs' hC₂ d.id v).bind_nothing fun src s₂ hg₂ hsrc => ?_
  exact (adds_addFlow hg₂.wf
    (F := ⟨.var C' (.declared d.id v), .var C (.declared m x), .ret, none⟩) hsrc
    ((hdst.mono hle).mono hg₂.le)).then_pure fun _ _ _ _ => rfl

omit hs in
/-- The facts that follow from a call edge, in the order in which they are added. -/
theorem wireFact_iff {k : Call} {d : Method} {f : Fact} (hk : E.kind ≠ .other)
    (hcall : g.program.call? E.site.item = some k) (hd : g.program.method? E.callee.item = some d) :
    WireFact g E f ↔
      (∃ a x, (a, x) ∈ k.args.zip d.params ∧
        g.program.holdsObjects (.declared E.site.item.method a) = true ∧
        f = .flow ⟨.var E.site.ctx (.declared E.site.item.method a),
          .var E.callee.ctx (.declared E.callee.item x), .param, none⟩) ∨
      (∃ x, k.result = some x ∧ g.program.holdsObjects (.declared E.site.item.method x) = true ∧
        ∃ v ∈ d.returned, (d.varType v).holdsObjects = true ∧
          f = .flow ⟨.var E.callee.ctx (.declared E.callee.item v),
            .var E.site.ctx (.declared E.site.item.method x), .ret, none⟩) := by
  constructor
  · intro hf
    cases hf with
    | arg _ hc hd' hax ha =>
      cases hcall.symm.trans hc
      cases hd.symm.trans hd'
      exact .inl ⟨_, _, hax, ha, rfl⟩
    | ret _ hc hd' hr hx hv hh =>
      cases hcall.symm.trans hc
      cases hd.symm.trans hd'
      exact .inr ⟨_, hr, hx, _, hv, hh, rfl⟩
  · rintro (⟨a, x, hax, ha, rfl⟩ | ⟨x, hr, hx, v, hv, hh, rfl⟩)
    · exact .arg hk hcall hd hax ha
    · exact .ret hk hcall hd hr hx hv hh

/-- **A call edge is wired.** -/
theorem adds_wire (hp : g.program.WellFormed) {e : CCallEdge} (hE : s.registry.EdgeIs e E)
    (hfits : E.Fits g.program) :
    Adds g (wire g e) s {f | WireFact g E f} 0
      fun ts _ => ts = [.notify (.call e) g.observers] := by
  unfold wire
  refine Adds.get_bind ?_
  simp only [hE.site.callSite, hE.callee.methodId, hE.kind]
  split
  · rename_i hk
    split
    · rename_i k d hcall hd
      have hid : d.id = E.callee.item := hp.id_eq hd
      have hlen := hfits hk k d hcall hd
      rw [if_neg (not_not.mpr hlen)]
      obtain ⟨_, s₁, h₁, hg₁, -⟩ := adds_passArguments hs hE.site.ctx hE.callee.ctx
        E.site.item.method d (k.args.zip d.params)
      have hiff := fun f => wireFact_iff (f := f) hk hcall hd
      rw [← hid] at hiff
      split
      · rename_i x hx
        obtain ⟨_, s₂, h₂, hg₂, -⟩ := adds_passResult hg₁.wf (hE.site.ctx.mono hg₁.le)
          (hE.callee.ctx.mono hg₁.le) E.site.item.method d x
        refine ⟨_, s₂, (bind_of_ok h₁).trans ((bind_of_ok h₂).trans rfl),
          (hg₁.trans hg₂).congr (Set.ext fun f => (Iff.symm ?_)) le_rfl, rfl⟩
        refine (hiff f).trans (or_congr Iff.rfl ?_)
        simp [hx]
      · rename_i hx
        refine ⟨_, s₁, (bind_of_ok h₁).trans rfl, hg₁.congr (Set.ext fun f => (Iff.symm ?_))
          le_rfl, rfl⟩
        refine (hiff f).trans (or_iff_left ?_)
        rintro ⟨x, hx', -⟩
        exact hx x hx'
    · rename_i hnot
      refine .nothing hs rfl fun f hf => ?_
      cases hf with
      | arg _ hc hd | ret _ hc hd => exact hnot _ _ hc hd
  · rename_i hk
    refine .nothing hs rfl fun f hf => ?_
    cases hf with
    | arg h | ret h => exact hk h

end Calls

end Act

end HeapFlow
