import HeapFlow.Proofs.Solving

/-!
# What a result says

The result of an analysis answers questions without contexts. A positive answer is a `Finding`. It
names objects by what they are and not by their numbers, so the findings of two analyses can be
compared (`Result.Finds`). A finding is a fact of which the contexts have been forgotten, or two
such facts (`Finding.In`), and with array elements not copied, a result finds exactly what follows
from derivable facts.
-/

namespace HeapFlow

open List CallGraph

/-- What a result may say of a program, without contexts. -/
inductive Finding where
  | var (v : Var) (o : Obj)
  | varField (v : Var) (f : FieldId) (o : Obj)
  | field (base : Obj) (f : FieldId) (o : Obj)
  | elems (array : Obj) (o : Obj)
  | static (f : FieldId) (o : Obj)
  | reached (m : MethodId)
  | call (e : CallEdge CallSite MethodId)

/-- A finding follows from a set of facts. -/
def Finding.In (D : Fact → Prop) : Finding → Prop
  | .var v o => ∃ C C', D (.holds (.var C v) ⟨C', o⟩)
  | .varField v f o => ∃ C B C', D (.holds (.var C v) B) ∧ D (.holds (.field B f) ⟨C', o⟩)
  | .field base f o => ∃ C C', D (.holds (.field ⟨C, base⟩ f) ⟨C', o⟩)
  | .elems array o => ∃ C C', D (.holds (.elems ⟨C, array⟩) ⟨C', o⟩)
  | .static f o => ∃ C, D (.holds (.static f) ⟨C, o⟩)
  | .reached m => ∃ C, D (.reached ⟨C, m⟩)
  | .call e => ∃ C C', D (.call ⟨e.kind, ⟨C, e.site⟩, ⟨C', e.callee⟩⟩)

namespace Result

/-- An object is one of those with the given numbers. -/
def Lists (r : Result) (ids : List ObjId) (o : Obj) : Prop :=
  ∃ i ∈ ids, r.registry.heap.get? i = some o

instance (r : Result) (ids : List ObjId) (o : Obj) : Decidable (r.Lists ids o) :=
  inferInstanceAs (Decidable (∃ i ∈ ids, r.registry.heap.get? i = some o))

/-- **What a result says.** -/
def Finds (r : Result) : Finding → Prop
  | .var v o => r.Lists (r.pointsTo v) o
  | .varField v f o => r.Lists (r.fieldPointsTo v f) o
  | .field base f o =>
    ∃ i, r.registry.heap.get? i = some base ∧ r.Lists (r.objFieldPointsTo i f) o
  | .elems array o => ∃ i, r.registry.heap.get? i = some array ∧ r.Lists (r.elemsPointsTo i) o
  | .static f o => r.Lists (r.staticPointsTo f) o
  | .reached m => m ∈ r.reachable
  | .call e => e ∈ r.callGraph.edges

end Result

namespace Registry

variable {r : Registry}

theorem mem_pointersOf {v : Var} {p : PtrId} :
    p ∈ r.pointersOf v ↔ ∃ c, r.pointers.get? p = some (.var c v) := by
  rw [pointersOf, Catalog.mem_members]
  constructor
  · rintro ⟨x, hx, hv⟩
    cases x with
    | var c w => exact ⟨c, Option.some.inj hv ▸ hx⟩
    | _ => cases hv
  · rintro ⟨c, hc⟩
    exact ⟨_, hc, rfl⟩

theorem mem_instancesOf {i : ObjId} {o : CObjId} :
    o ∈ r.instancesOf i ↔ ∃ c, r.objects.get? o = some ⟨c, i⟩ := by
  rw [instancesOf, Catalog.mem_members]
  constructor
  · rintro ⟨k, hk, hi⟩
    exact ⟨k.ctx, Option.some.inj hi ▸ hk⟩
  · rintro ⟨c, hc⟩
    exact ⟨_, hc, rfl⟩

theorem mem_filterMap_pointer? {α : Type} {l : List α} {f : α → Pointer} {p : PtrId} :
    p ∈ l.filterMap (fun a => r.pointer? (f a)) ↔ ∃ a ∈ l, r.pointers.get? p = some (f a) := by
  simp only [mem_filterMap, pointer?, Table.find?_eq_some_iff]

end Registry

/-! ### The call graph without contexts -/

variable {α : Type} {more : List Observer} {p : Program} {o : Options}

theorem foldl_keeps {γ δ : Type} {step : γ → α → γ} {P : γ → δ} (h : ∀ c a, P (step c a) = P c)
    (l : List α) (c : γ) : P (l.foldl step c) = P c := by
  induction l generalizing c with
  | nil => rfl
  | cons a l ih => rw [foldl_cons, ih, h]

theorem eraseDups_concat [DecidableEq α] (l : List α) (a : α) :
    (l ++ [a]).eraseDups = if a ∈ l then l.eraseDups else l.eraseDups ++ [a] := by
  rw [eraseDups_append, List.removeAll, filter_cons, filter_nil]
  by_cases ha : a ∈ l
  · simp [ha]
  · simp [ha, eraseDups_cons]

/-- **A list to which is appended what it does not have yet** has all that came, without
repetitions. -/
theorem foldl_eq_eraseDups {β γ : Type} [DecidableEq α] {step : γ → β → γ} {P : γ → List α}
    {f : β → α} (hstep : ∀ c b, P (step c b) = if f b ∈ P c then P c else P c ++ [f b]) {c : γ}
    (hc : P c = []) (l : List β) : P (l.foldl step c) = (l.map f).eraseDups := by
  induction l using List.reverseRecOn with
  | nil => exact hc
  | append_singleton l b ih =>
    rw [foldl_concat, hstep, ih, map_append, map_singleton, eraseDups_concat]
    simp only [mem_eraseDups]

namespace Result

/-- A method is reachable, and contains the call sites that it contains in a context. -/
def placeSites (r : Result) (c : MethodCallGraph) (m : CMethodId) : MethodCallGraph :=
  (r.state.calls.sitesIn m).foldl
    (fun c i => (c.setContainer (r.registry.callSite i) (r.registry.methodId m)).2)
    (c.addReachable (r.registry.methodId m)).2

variable {r : Result}

/-- The call graph is made of the reachable methods and the edges. -/
theorem callGraph_eq : r.callGraph =
    r.state.calls.edges.foldl (fun c e => (c.addEdge (r.plainEdge e)).2)
      (r.state.calls.reachable.foldl r.placeSites
        (r.state.calls.entries.foldl (fun c m => c.addEntry (r.registry.methodId m)) {})) :=
  rfl

theorem edges_placeSites (c : MethodCallGraph) (m : CMethodId) :
    (r.placeSites c m).edges = c.edges := by
  rw [placeSites, foldl_keeps (P := CallGraph.edges), edges_addReachable]
  exact fun c i => c.edges_setContainer _ _

theorem reachable_placeSites (c : MethodCallGraph) (m : CMethodId) :
    (r.placeSites c m).reachable = if r.registry.methodId m ∈ c.reachable then c.reachable
      else c.reachable ++ [r.registry.methodId m] := by
  rw [placeSites, foldl_keeps (P := CallGraph.reachable), reachable_addReachable]
  exact fun c i => c.reachable_setContainer _ _

theorem entries_placeSites (c : MethodCallGraph) (m : CMethodId) :
    (r.placeSites c m).entries = c.entries := by
  rw [placeSites, foldl_keeps (P := CallGraph.entries), entries_addReachable]
  exact fun c i => c.entries_setContainer _ _

/-- **Its edges** are those with contexts, these being forgotten. -/
theorem edges_callGraph (r : Result) :
    r.callGraph.edges = (r.state.calls.edges.map r.plainEdge).eraseDups := by
  rw [callGraph_eq]
  refine foldl_eq_eraseDups (P := CallGraph.edges) (fun c e => edges_addEdge c (r.plainEdge e)) ?_ _
  rw [foldl_keeps (P := CallGraph.edges) edges_placeSites,
    foldl_keeps (P := CallGraph.edges) fun c m => c.edges_addEntry _, edges_empty]

theorem reachable_callGraph (r : Result) :
    r.callGraph.reachable = (r.state.calls.reachable.map r.registry.methodId).eraseDups := by
  rw [callGraph_eq, foldl_keeps (P := CallGraph.reachable)
    (fun c e => reachable_addEdge c (r.plainEdge e))]
  refine foldl_eq_eraseDups (P := CallGraph.reachable) reachable_placeSites ?_ _
  rw [foldl_keeps (P := CallGraph.reachable) fun c m => c.reachable_addEntry _, reachable_empty]

theorem entries_callGraph (r : Result) :
    r.callGraph.entries = (r.state.calls.entries.map r.registry.methodId).eraseDups := by
  rw [callGraph_eq, foldl_keeps (P := CallGraph.entries)
    (fun c e => entries_addEdge c (r.plainEdge e)),
    foldl_keeps (P := CallGraph.entries) entries_placeSites]
  exact foldl_eq_eraseDups (P := CallGraph.entries)
    (fun c m => entries_addEntry c (r.registry.methodId m)) rfl _

/-- In terms of single edges. -/
theorem mem_edges_callGraph {e : CallEdge CallSite MethodId} :
    e ∈ r.callGraph.edges ↔ ∃ x ∈ r.state.calls.edges, r.plainEdge x = e := by
  rw [edges_callGraph, mem_eraseDups, mem_map]

end Result

namespace Result

variable {r : Result} {g : Setup}

/-- What is listed for some pointers. -/
theorem mem_collapse {ps : List PtrId} {i : ObjId} :
    i ∈ r.collapse ps ↔ ∃ p ∈ ps, ∃ o ∈ r.state.pointsTo p, r.registry.objId o = i := by
  rw [collapse, ← OrderedSet.mem_def, OrderedSet.mem_ofList]
  simp only [mem_flatMap, mem_map, OrderedSet.mem_def]

section Questions

variable (hs : r.state.Wf g)

include hs

variable {o : Obj} {B : At Obj → Prop} {l : List CObjId} {x : CObjId} {O : At Obj}

/-- What is listed for pointers is settled for their places. -/
theorem lists_collapse_iff {ps : List PtrId} {Q : Place → Prop}
    (hps : ∀ {p P}, r.registry.PtrIs p P → (p ∈ ps ↔ Q P)) :
    r.Lists (r.collapse ps) o ↔ ∃ P C, Q P ∧ r.state.Settled (.holds P ⟨C, o⟩) := by
  constructor
  · rintro ⟨i, hi, ho⟩
    obtain ⟨p, hp, x, hx, rfl⟩ := mem_collapse.mp hi
    obtain ⟨⟨P, hP⟩, ⟨C, o'⟩, hO⟩ := hs.ptrIs hx
    cases ho.symm.trans hO.objId
    exact ⟨P, C, (hps hP).mp hp, State.settled_holds hP hO hx⟩
  · rintro ⟨P, C, hQ, n, hn, hf⟩
    cases hf with
    | @holds p x _ _ hP hO =>
      exact ⟨_, mem_collapse.mpr ⟨p, (hps hP).mpr hQ, x, hn, rfl⟩, hO.objId⟩

/-- The objects of a field or of the elements, for the objects of a list: these have the slots `mk`
in numbers, and `Mk` is what these mean. -/
theorem lists_slots_iff (hl : ∀ {x O}, r.registry.ObjIs x O → (x ∈ l ↔ B O)) (mk : CObjId → Pointer)
    (Mk : At Obj → Place)
    (hmk : ∀ {x P}, r.registry.PlaceIs (mk x) P → ∃ O, r.registry.ObjIs x O ∧ P = Mk O)
    (hMk : ∀ {y O}, r.registry.PlaceIs y (Mk O) → ∃ x, r.registry.ObjIs x O ∧ y = mk x) :
    r.Lists (r.collapse (l.filterMap fun x => r.registry.pointer? (mk x))) o ↔
      ∃ O C, B O ∧ r.state.Settled (.holds (Mk O) ⟨C, o⟩) := by
  refine (lists_collapse_iff hs (Q := fun P => ∃ O, B O ∧ P = Mk O) fun {p P} hP => ?_).trans ?_
  · rw [Registry.mem_filterMap_pointer?]
    obtain ⟨y, hy, hyP⟩ := hP
    constructor
    · rintro ⟨x, hx, hp⟩
      cases hy.symm.trans hp
      obtain ⟨O, hO, rfl⟩ := hmk hyP
      exact ⟨O, (hl hO).mp hx, rfl⟩
    · rintro ⟨O, hB, rfl⟩
      obtain ⟨x, hO, rfl⟩ := hMk hyP
      exact ⟨x, (hl hO).mpr hB, hy⟩
  · constructor
    · rintro ⟨_, C, ⟨O, hB, rfl⟩, h⟩
      exact ⟨O, C, hB, h⟩
    · rintro ⟨O, C, hB, h⟩
      exact ⟨_, C, ⟨O, hB, rfl⟩, h⟩

theorem lists_fields_iff (hl : ∀ {x O}, r.registry.ObjIs x O → (x ∈ l ↔ B O)) {f : FieldId} :
    r.Lists (r.collapse (l.filterMap fun x => r.registry.pointer? (.field x f))) o ↔
      ∃ O C, B O ∧ r.state.Settled (.holds (.field O f) ⟨C, o⟩) := by
  refine lists_slots_iff hs hl (.field · f) (.field · f) (fun h => ?_) fun h => ?_
  all_goals
    cases h with
    | field _ hO => exact ⟨_, hO, rfl⟩

theorem lists_elems_iff (hl : ∀ {x O}, r.registry.ObjIs x O → (x ∈ l ↔ B O)) :
    r.Lists (r.collapse (l.filterMap fun x => r.registry.pointer? (.elems x))) o ↔
      ∃ O C, B O ∧ r.state.Settled (.holds (.elems O) ⟨C, o⟩) := by
  refine lists_slots_iff hs hl .elems .elems (fun h => ?_) fun h => ?_
  all_goals
    cases h with
    | elems hO => exact ⟨_, hO, rfl⟩

omit hs in
theorem mem_pointersOf_iff {v : Var} {p : PtrId} {P : Place} (hP : r.registry.PtrIs p P) :
    p ∈ r.registry.pointersOf v ↔ ∃ C, P = .var C v := by
  rw [Registry.mem_pointersOf]
  obtain ⟨x, hx, hxP⟩ := hP
  constructor
  · rintro ⟨c, hp⟩
    cases hx.symm.trans hp
    cases hxP with
    | var _ hC => exact ⟨_, rfl⟩
  · rintro ⟨C, rfl⟩
    cases hxP with
    | var _ hC => exact ⟨_, hx⟩

omit hs in
theorem mem_instancesOf_iff {i : ObjId} {b : Obj} (hi : r.registry.heap.get? i = some b)
    (hO : r.registry.ObjIs x O) : x ∈ r.registry.instancesOf i ↔ O.item = b := by
  rw [Registry.mem_instancesOf]
  obtain ⟨k, hk, -, hitem⟩ := hO
  constructor
  · rintro ⟨c, hx⟩
    cases hk.symm.trans hx
    exact Option.some.inj (hitem.symm.trans hi)
  · rintro rfl
    have hki : k.item = i := Registry.heap_inj hitem hi
    exact ⟨k.ctx, hki ▸ hk⟩

theorem mem_bases_iff {v : Var} (hO : r.registry.ObjIs x O) :
    (x ∈ (r.registry.pointersOf v).flatMap fun p => (r.state.pointsTo p).toList) ↔
      ∃ C, r.state.Settled (.holds (.var C v) O) := by
  rw [mem_flatMap]
  constructor
  · rintro ⟨p, hp, hx⟩
    obtain ⟨⟨P, hP⟩, -⟩ := hs.ptrIs (OrderedSet.mem_def.mpr hx)
    obtain ⟨C, rfl⟩ := (mem_pointersOf_iff hP).mp hp
    exact ⟨C, State.settled_holds hP hO (OrderedSet.mem_def.mpr hx)⟩
  · rintro ⟨C, n, hn, hf⟩
    cases hf with
    | @holds p y _ _ hP hO' =>
      cases hO.inj hO'
      exact ⟨p, (mem_pointersOf_iff hP).mpr ⟨C, rfl⟩, OrderedSet.mem_def.mp hn⟩

omit hs in
/-- A question about an abstract object is answered under its number, if it has one. -/
theorem exists_named_iff {b : Obj} {R : ObjId → Prop} {S : At Obj → Prop}
    (hR : ∀ {i}, r.registry.heap.get? i = some b → (R i ↔ ∃ O, O.item = b ∧ S O))
    (hS : ∀ {O}, S O → ∃ x, r.registry.ObjIs x O) :
    (∃ i, r.registry.heap.get? i = some b ∧ R i) ↔ ∃ C, S ⟨C, b⟩ := by
  constructor
  · rintro ⟨i, hi, h⟩
    obtain ⟨⟨C, _⟩, rfl, h⟩ := (hR hi).mp h
    exact ⟨C, h⟩
  · rintro ⟨C, h⟩
    obtain ⟨x, hx⟩ := hS h
    exact ⟨_, hx.objId, (hR hx.objId).mpr ⟨_, rfl, h⟩⟩

/-- **The answers about objects** are what is settled, without contexts. -/
theorem finds_iff_of_objects {x : Finding} (hm : ∀ m, x ≠ .reached m) (he : ∀ e, x ≠ .call e) :
    r.Finds x ↔ x.In r.state.Settled := by
  cases x with
  | var v o =>
    refine (lists_collapse_iff hs (Q := fun P => ∃ C, P = .var C v) mem_pointersOf_iff).trans ?_
    exact ⟨fun ⟨_, C', ⟨C, hP⟩, h⟩ => ⟨C, C', hP ▸ h⟩, fun ⟨C, C', h⟩ => ⟨_, C', ⟨C, rfl⟩, h⟩⟩
  | varField v f o =>
    refine (lists_fields_iff hs (mem_bases_iff hs)).trans ?_
    exact ⟨fun ⟨B, C', ⟨C, hB⟩, h⟩ => ⟨C, B, C', hB, h⟩,
      fun ⟨C, B, C', hB, h⟩ => ⟨B, C', ⟨C, hB⟩, h⟩⟩
  | field base f o =>
    refine exists_named_iff (S := fun O => ∃ C', r.state.Settled (.holds (.field O f) ⟨C', o⟩))
      (fun hi => ?_) ?_
    · refine (lists_fields_iff hs (mem_instancesOf_iff hi)).trans ?_
      exact ⟨fun ⟨O, C', hO, h⟩ => ⟨O, hO, C', h⟩, fun ⟨O, hO, C', h⟩ => ⟨O, C', hO, h⟩⟩
    · rintro O ⟨C', -, -, ⟨⟨y, -, hy⟩, -⟩⟩
      cases hy with
      | field _ hO => exact ⟨_, hO⟩
  | elems array o =>
    refine exists_named_iff (S := fun O => ∃ C', r.state.Settled (.holds (.elems O) ⟨C', o⟩))
      (fun hi => ?_) ?_
    · refine (lists_elems_iff hs (mem_instancesOf_iff hi)).trans ?_
      exact ⟨fun ⟨O, C', hO, h⟩ => ⟨O, hO, C', h⟩, fun ⟨O, hO, C', h⟩ => ⟨O, C', hO, h⟩⟩
    · rintro O ⟨C', -, -, ⟨⟨y, -, hy⟩, -⟩⟩
      cases hy with
      | elems hO => exact ⟨_, hO⟩
  | static f o =>
    refine (lists_collapse_iff hs (Q := fun P => P = .static f) fun {p P} hP => ?_).trans ?_
    · rw [Option.mem_toList, Registry.pointer?, Table.find?_eq_some_iff]
      obtain ⟨y, hy, hyP⟩ := hP
      constructor
      · intro hp
        cases hy.symm.trans hp
        cases hyP
        rfl
      · rintro rfl
        cases hyP
        exact hy
    · exact ⟨fun ⟨_, C, hP, h⟩ => ⟨C, hP ▸ h⟩, fun ⟨C, h⟩ => ⟨_, C, rfl, h⟩⟩
  | reached m => exact absurd rfl (hm m)
  | call e => exact absurd rfl (he e)

/-- A method is listed as reachable if it is reached in some context. -/
theorem mem_reachable_iff (hlist : r.reachable = (Snapshot.of r.registry r.state.calls).reachable)
    {m : MethodId} : m ∈ r.reachable ↔ ∃ C, r.state.Settled (.reached ⟨C, m⟩) := by
  rw [hlist, Snapshot.of, mem_eraseDups, mem_map]
  constructor
  · rintro ⟨x, hx, rfl⟩
    obtain ⟨M, hM⟩ := hs.methodIs hx
    exact ⟨M.ctx, .reached x, hx, .reached (hM.methodId ▸ hM)⟩
  · rintro ⟨C, n, hn, hf⟩
    cases hf with
    | reached hM => exact ⟨_, hn, hM.methodId⟩

omit hs in
theorem plainEdge_eq {x : CCallEdge} {E : CallEdge (At CallSite) (At MethodId)}
    (h : r.registry.EdgeIs x E) : r.plainEdge x = ⟨E.kind, E.site.item, E.callee.item⟩ := by
  rw [plainEdge, h.kind, h.site.callSite, h.callee.methodId]

theorem mem_edges_callGraph_iff {e : CallEdge CallSite MethodId} :
    e ∈ r.callGraph.edges ↔
      ∃ C C', r.state.Settled (.call ⟨e.kind, ⟨C, e.site⟩, ⟨C', e.callee⟩⟩) := by
  rw [mem_edges_callGraph]
  constructor
  · rintro ⟨x, hx, rfl⟩
    obtain ⟨E, hE⟩ := hs.edgeIs (.inl hx)
    rw [plainEdge_eq hE]
    exact ⟨E.site.ctx, E.callee.ctx, .call x, hx, .call hE⟩
  · rintro ⟨C, C', n, hn, hf⟩
    cases hf with
    | call hE => exact ⟨_, hn, plainEdge_eq hE⟩

/-- **A result says what is settled, without contexts.** -/
theorem finds_iff (hlist : r.reachable = (Snapshot.of r.registry r.state.calls).reachable)
    (x : Finding) : r.Finds x ↔ x.In r.state.Settled := by
  cases x with
  | reached m => exact mem_reachable_iff hs hlist
  | call e => exact mem_edges_callGraph_iff hs
  | _ => exact finds_iff_of_objects hs nofun nofun

end Questions

end Result

/-! ### The findings of an analysis -/

/-- **At the end the settled facts are the derivable ones**, if array elements are not copied. -/
theorem Setup.settled_solve_iff {g : Setup} (hp : g.program.WellFormed) (hscript : g.Unscripted)
    (hcopy : .arrayCopy ∉ g.observers) (f : Fact) :
    (g.solve []).state.Settled f ↔ Derivable g f := by
  obtain ⟨n, hn, hA⟩ := Setup.exists_solve_eq_run hp hscript []
  have hsound := Setup.sound_run hp hscript [] n
  have hdutiful :=
    (Machine.dutiful_initial g []).run hp hscript hcopy (Machine.sound_initial g []) n
  rw [hn]
  exact ⟨fun hf => hsound.derivable f hf.has,
    fun hf => hf.least (hdutiful.stable hcopy hsound hA).closedUnder⟩

theorem Machine.of_result_eq_ok {g : Setup} {m : Machine} {r : Result} (h : m.result g = .ok r) :
    m.failure = none ∧ m.state.snapshot = some ⟨r.vars, r.objects, r.reachable⟩ ∧
      r.program = g.program ∧ r.state = m.state := by
  unfold Machine.result at h
  split at h
  · cases h
  · cases h
  · next snapshot hfailure hsnapshot =>
    cases h
    exact ⟨hfailure, hsnapshot, rfl, rfl⟩

/-- **An analysis has a result**, with the state of its run at the end. -/
theorem exists_analyze_eq_ok (h : p.Accepted) (o : Options) (policy : Policy)
    (hmore : ∀ w ∈ more, w.Watches) : let g := o.setup p policy more
    ∃ r, analyze p o policy more = .ok r ∧ r.state = (g.solve []).state ∧ r.state.Wf g ∧
      r.reachable = (Snapshot.of r.registry r.state.calls).reachable := by
  intro g
  have hscript : g.Unscripted := Options.unscripted_setup hmore
  obtain ⟨hsound, -⟩ := Setup.sound_solve (g := g) h.wellFormed hscript []
  obtain ⟨-, hlisted⟩ := Setup.listed_solve (g := g) h.wellFormed hscript []
  rw [analyze, Machine.result, hsound.fine, hlisted]
  exact ⟨_, rfl, rfl, hsound.wf, rfl⟩

/-- The lists of a result are those of its state. -/
theorem snapshot_of_analyze (h : p.Accepted) {policy : Policy} (hmore : ∀ w ∈ more, w.Watches)
    {r : Result} (hr : analyze p o policy more = .ok r) : r.state.Wf (o.setup p policy more) ∧
      Snapshot.of r.registry r.state.calls = ⟨r.vars, r.objects, r.reachable⟩ := by
  have hscript : (o.setup p policy more).Unscripted := Options.unscripted_setup hmore
  obtain ⟨hsound, -⟩ := Setup.sound_solve (g := o.setup p policy more) h.wellFormed hscript []
  obtain ⟨-, hlisted⟩ := Setup.listed_solve (g := o.setup p policy more) h.wellFormed hscript []
  obtain ⟨-, hsnapshot, -, hstate⟩ := Machine.of_result_eq_ok hr
  rw [Result.registry, hstate]
  exact ⟨hsound.wf, Option.some.inj (hlisted.symm.trans hsnapshot)⟩

/-- **A result says what is derivable, without contexts**, if array elements are not copied. -/
theorem exists_analyze_finds_iff (h : p.Accepted) (ho : o.arrayCopy = false) (policy : Policy)
    (hmore : ∀ w ∈ more, w.Watches) :
    ∃ r, analyze p o policy more = .ok r ∧
      ∀ x, r.Finds x ↔ x.In (Derivable (o.setup p policy more)) := by
  have hp : (o.setup p policy more).program.WellFormed := h.wellFormed
  have hscript : (o.setup p policy more).Unscripted := Options.unscripted_setup hmore
  have hcopy : .arrayCopy ∉ (o.setup p policy more).observers :=
    Options.arrayCopy_notMem_setup ho hmore
  obtain ⟨r, hr, hstate, hs, hlist⟩ := exists_analyze_eq_ok h o policy hmore
  refine ⟨r, hr, fun x => ?_⟩
  rw [Result.finds_iff hs hlist, hstate,
    funext fun f => propext (Setup.settled_solve_iff hp hscript hcopy f)]

end HeapFlow
