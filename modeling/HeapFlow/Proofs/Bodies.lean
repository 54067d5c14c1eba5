import HeapFlow.Proofs.Adding

/-!
# Turning statements into facts

When a method is reached, its statements are turned into facts one by one, and an entry method may
be given arguments. The facts added are exactly those that the rules list for the statement
(`StmtFact`) or the arguments (`ArgFact`). That every array in a chain of inner arrays has elements
is what well-formedness of the program is needed for.
-/

namespace HeapFlow

theorem infix_pair_cons {α : Type} {x y a b : α} {l : List α} :
    [x, y] <:+: a :: b :: l ↔ (x = a ∧ y = b) ∨ [x, y] <:+: b :: l := by
  rw [List.infix_cons_iff, List.cons_prefix_cons, List.cons_prefix_cons]
  simp

theorem not_infix_pair_singleton {α : Type} {x y a : α} : ¬ [x, y] <:+: [a] := by
  intro h
  have hlen := h.length_le
  simp at hlen

variable {t : Ty} {m : MethodId}

theorem Ty.elem?_of_dims {n : Nat} (h : n + 1 < t.dims) :
    ∃ u, t.elem? = some (.array u) ∧ n < (Ty.array u).dims := by
  cases t with
  | array t =>
    cases t with
    | array u =>
      refine ⟨u, rfl, ?_⟩
      simp only [dims] at h ⊢
      omega
    | _ => simp [dims] at h
  | _ => simp [dims] at h

theorem Ty.isArray_of_dims (h : 0 < t.dims) : t.isArray = true := by
  cases t with
  | array t => rfl
  | _ => simp [dims] at h

/-- What is left to do when a call has been looked at: nothing, or to tell that it has no target. -/
def Setup.OnlyUnresolved (g : Setup) (ts : List Task) : Prop :=
  ts = [] ∨ ∃ o c i, ts = [.notify (.unresolved o c i) g.observers]

theorem ArgFact.argumentsType? {g : Setup} {f : Fact} (h : ArgFact g m f) :
    ∃ t, g.program.argumentsType? m = some t := by
  obtain @⟨d, x, t, n, hd, hx, ht, -⟩ | @⟨d, x, t, n, hd, hx, ht, -, -⟩ := h <;>
    exact ⟨t, by simp [Program.argumentsType?, hd, hx, ht, Ty.elem?]⟩

/-- The facts of an entry method are about its first parameter. -/
theorem argFact_iff {g : Setup} {n : MethodId} {d : Method} {x : Slot} {f : Fact}
    (hd : g.program.method? m = some d) (hx : d.params.head? = some x) (ht : d.varType x = .array t)
    (hn : g.program.argumentsOwner? t = some n) :
    ArgFact g m f ↔ f = .holds (.var [] (.declared m x)) ⟨[], .arguments t n⟩ ∨
      t.isReference = true ∧ f = .holds (.elems ⟨[], .arguments t n⟩) ⟨[], .argument t n⟩ := by
  constructor
  · rintro (⟨hd', hx', ht', hn'⟩ | ⟨hd', hx', ht', hn', hr⟩) <;>
    · cases hd.symm.trans hd'
      cases hx.symm.trans hx'
      cases Ty.array.inj (ht.symm.trans ht')
      cases hn.symm.trans hn'
      simp_all
  · rintro (rfl | ⟨hr, rfl⟩)
    · exact .array hd hx ht hn
    · exact .elem hd hx ht hn hr

namespace Act

section

variable {g : Setup} {s : State} (hs : s.Wf g) (hp : g.program.WellFormed)

include hs hp

/-- The abstract objects of the inner arrays, from the outermost inwards. -/
theorem adds_innerArrays (m : MethodId) {i : ObjId} {outer : Obj}
    (hi : s.registry.heap.get? i = some outer) (n : Nat) (t : Ty) (hn : n < t.dims)
    (hc : ∀ o ∈ Obj.inners m outer n t, g.Creates o) :
    Adds g (innerArrays g.merging m i n t) s ∅ 0 fun is s' =>
      List.Forall₂ (fun i o => s'.registry.heap.get? i = some o) is (Obj.inners m outer n t) := by
  induction n generalizing t s with
  | zero => exact .pure hs .nil
  | succ n ih =>
    obtain ⟨u, hu, hlt⟩ := Ty.elem?_of_dims hn
    unfold innerArrays Obj.inners
    unfold Obj.inners at hc
    simp only [hu] at hc ⊢
    have hw : s.registry.heap.wanted? g.merging
        (.mock innerArrayDesc (.object i) (.array u) (some m)) =
        some (.innerMock innerArrayDesc outer (.array u) (some m)) := by
      rw [Heap.wanted?, hi, Option.map_some]
    refine (adds_request hs hp hw trivial (hc _ (.head _))).bind_nothing fun j s₁ hg₁ hj => ?_
    have hrest := ih hg₁.wf (hg₁.le.heap _ _ hi) (.array u) hlt fun o ho => hc o (.tail _ ho)
    refine hrest.bind_nothing fun is s₂ hg₂ his => .pure hg₂.wf ?_
    exact .cons (hg₂.le.heap _ _ hj) his

variable {M : At MethodId} {m : CMethodId} {array : CObjId} {c : CtxId} {d : Method} {dst : Slot}
  {i : Nat}

omit hp in
/-- Each array of a chain holds the next one. -/
theorem adds_chainArrays {a : Obj} {is : List ObjId} {os : List Obj} (hM : s.registry.MethodIs m M)
    (ha : s.registry.ObjIs array (g.made M a))
    (his : List.Forall₂ (fun i o => s.registry.heap.get? i = some o) is os)
    (harr : ∀ o ∈ a :: os, o.type.isArray = true) :
    Adds g (chainArrays g m array is) s
      {f | ∃ x y, [x, y] <:+: a :: os ∧ f = .holds (.elems (g.made M x)) (g.made M y)} 0
      fun _ _ => True := by
  induction is generalizing s array a os with
  | nil =>
    cases his
    refine .nothing hs trivial ?_
    rintro f ⟨x, y, hxy, -⟩
    exact not_infix_pair_singleton hxy
  | cons i is ih =>
    obtain - | ⟨hio, hrest⟩ := his
    rename_i o os
    unfold chainArrays
    refine (adds_allocate hs hM hio).bind_nothing fun inner s₁ hg₁ hinner => ?_
    have helems := adds_elems hg₁.wf (ha.mono hg₁.le) (harr a (.head _))
    refine helems.bind_nothing fun p s₂ hg₂ hpe => ?_
    have hinner₂ := hinner.mono hg₂.le
    obtain ⟨u, s₃, h₃, hg₃, -⟩ := adds_addObject hg₂.wf hpe hinner₂
    have hle₃ := Registry.le_trans hg₁.le (Registry.le_trans hg₂.le hg₃.le)
    have hrest' := hrest.imp fun i o h => hle₃.heap i o h
    obtain ⟨v, s₄, h₄, hg₄, -⟩ := ih hg₃.wf (hM.mono hle₃) (hinner₂.mono hg₃.le) hrest'
      fun x hx => harr x (.tail _ hx)
    refine ⟨v, s₄, (bind_of_ok h₃).trans h₄, (hg₃.trans hg₄).congr (Set.ext fun f => ?_)
      le_rfl, trivial⟩
    constructor
    · rintro (rfl | ⟨x, y, hxy, rfl⟩)
      · exact ⟨a, o, infix_pair_cons.mpr (.inl ⟨rfl, rfl⟩), rfl⟩
      · exact ⟨x, y, infix_pair_cons.mpr (.inr hxy), rfl⟩
    · rintro ⟨x, y, hxy, rfl⟩
      rcases infix_pair_cons.mp hxy with ⟨rfl, rfl⟩ | hxy
      · exact .inl rfl
      · exact .inr ⟨x, y, hxy, rfl⟩

omit hp in
/-- A static call adds the edge to its target, if it has one. -/
theorem adds_staticCall {C : Ctx} (hC : s.registry.CtxIs c C) (site : CallSite)
    (target : MethodId) :
    Adds g (staticCall g c site target) s
      {f | ∃ m, g.program.staticCallee? target = some m ∧ f = .call (g.staticEdge ⟨C, site⟩ m.id)} 1
      fun ts _ => g.OnlyUnresolved ts := by
  have hnone : g.program.staticCallee? target = none →
      Adds g (Pure.pure [Task.notify (.unresolved none c site) g.observers]) s
        {f | ∃ m, g.program.staticCallee? target = some m ∧
          f = .call (g.staticEdge ⟨C, site⟩ m.id)} 1 fun ts _ => g.OnlyUnresolved ts :=
    fun h => .nothing hs (.inr ⟨none, c, site, rfl⟩) (by simp [h])
  unfold staticCall
  split
  · rename_i hres
    exact hnone (by simp [Program.staticCallee?, hres])
  · rename_i m hres
    split
    · rename_i hbad
      refine hnone ?_
      simp only [Bool.or_eq_true, Bool.not_eq_true'] at hbad
      rcases hbad with h | h <;> simp [Program.staticCallee?, hres, Option.filter_some, h]
    · rename_i hgood
      have hm : g.program.staticCallee? target = some m := by
        simp only [Bool.or_eq_true, Bool.not_eq_true', not_or, Bool.not_eq_true,
          Bool.not_eq_false] at hgood
        simp [Program.staticCallee?, hres, Option.filter_some, hgood]
      refine Adds.congr ?_ (E := {.call (g.staticEdge ⟨C, site⟩ m.id)}) (by ext; simp [hm])
      refine (adds_site hs hC site).bind_nothing fun i s₁ hg₁ hi => ?_
      refine (adds_staticContext hg₁.wf hi).bind_nothing fun c' s₂ hg₂ hc' => ?_
      refine (adds_method hg₂.wf hc' m.id).bind_nothing fun n s₃ hg₃ hn => ?_
      have hi₃ := (hi.mono hg₂.le).mono hg₃.le
      exact (adds_addCall hg₃.wf ⟨rfl, hi₃, hn⟩).then_pure fun _ _ _ _ => .inl rfl

theorem adds_inners {t : Ty} {n : Nat} (hM : s.registry.MethodIs m M)
    (hd : g.program.method? M.item = some d) (hst : d.body[i]? = some (.new dst t n))
    (ha : s.registry.ObjIs array (g.made M (g.merging.allocated d i t))) {o : ObjId}
    (ho : s.registry.heap.get? o = some (g.merging.allocated d i t)) {β : Type}
    (next : Unit → Act β) {E : Set Fact} {q : Nat} {Q : β → State → Prop}
    (hnext : ∀ s', s'.Wf g → s.registry ≤ s'.registry → Adds g (next ()) s' E q Q) :
    Adds g (if 1 < n then do
        let is ← innerArrays g.merging d.id o (n - 1) t
        let r ← chainArrays g m array is
        next r
      else next ()) s
      ({f | ∃ x y, [x, y] <:+: g.arraysOf d i t n ∧
        f = .holds (.elems (g.made M x)) (g.made M y)} ∪ E) q Q := by
  split
  · rename_i hn
    have hdims : n ≤ t.dims := hp.stmtOk hd (List.mem_of_getElem? hst) hn
    have hcreate : ∀ o ∈ Obj.inners d.id (g.merging.allocated d i t) (n - 1) t, g.Creates o :=
      fun o ho => .alloc hd hst (.tail _ ho)
    have harr : ∀ o ∈ g.arraysOf d i t n, o.type.isArray = true := by
      intro o ho
      rcases List.mem_cons.mp ho with rfl | ho
      · have ht : t.isArray = true := Ty.isArray_of_dims (by omega)
        rw [Merging.allocated_of_isArray _ _ _ ht]
        exact ht
      · obtain ⟨-, u, rfl⟩ := Obj.exists_of_mem_inners ho
        rfl
    refine (adds_innerArrays hs hp d.id ho (n - 1) t (by omega) hcreate).bind_nothing
      fun is s₁ hg₁ his => ?_
    obtain ⟨r, s₂, h₂, hg₂, -⟩ := adds_chainArrays hg₁.wf (hM.mono hg₁.le) (ha.mono hg₁.le) his harr
    obtain ⟨y, s₃, h₃, hg₃, hy⟩ := hnext s₂ hg₂.wf (Registry.le_trans hg₁.le hg₂.le)
    exact ⟨y, s₃, (bind_of_ok h₂).trans h₃, (hg₂.trans hg₃).congr rfl (by omega), hy⟩
  · rename_i hn
    have hzero : n - 1 = 0 := by omega
    refine (hnext s hs (Registry.le_refl _)).congr (Set.ext fun f => ⟨.inr, ?_⟩)
    rintro (⟨x, y, hxy, -⟩ | hf)
    · rw [Setup.arraysOf, hzero] at hxy
      exact (not_infix_pair_singleton hxy).elim
    · exact hf

omit hp in
theorem adds_finalizer {C : Ctx} (hC : s.registry.CtxIs c C) (site : CallSite) (t : Ty) :
    Adds g (if g.program.needsFinalizer t then do
        setContainer (← register (·.site c site)) m
        staticCall g c site finalizerRegister
      else Pure.pure []) s
      {f | g.program.needsFinalizer t = true ∧
        ∃ m, g.program.staticCallee? finalizerRegister = some m ∧
          f = .call (g.staticEdge ⟨C, site⟩ m.id)} 1
      fun ts _ => g.OnlyUnresolved ts := by
  refine Adds.guard hs (fun _ => ?_) (.inl rfl)
  refine (adds_site hs hC site).bind_nothing fun i s₁ hg₁ hi => ?_
  refine (adds_setContainer hg₁.wf i m).bind_nothing fun _ s₂ hg₂ _ => ?_
  exact adds_staticCall hg₂.wf ((hC.mono hg₁.le).mono hg₂.le) site finalizerRegister

/-- An allocation makes its object, the inner arrays and what a finalizer needs. -/
theorem adds_allocation {t : Ty} {n : Nat} (hM : s.registry.MethodIs m M)
    (hC : s.registry.CtxIs c M.ctx) (hd : g.program.method? M.item = some d)
    (hst : d.body[i]? = some (.new dst t n)) :
    Adds g (allocation g m c d i dst t n) s {f | StmtFact g M d i (.new dst t n) f} 1
      fun ts _ => g.OnlyUnresolved ts := by
  have hcreate : g.Creates (g.merging.allocated d i t) := .alloc hd hst (.head _)
  have hid : d.id = M.item := hp.id_eq hd
  unfold allocation
  have hoccurs : (Ask.alloc d i t).Occurs g.program := ⟨hid ▸ hd, dst, n, hst⟩
  refine (adds_request hs hp rfl hoccurs hcreate).bind_nothing fun o s₁ hg₁ ho => ?_
  refine (adds_allocate hg₁.wf (hM.mono hg₁.le) ho).bind_nothing fun array s₂ hg₂ harray => ?_
  have hle₂ := Registry.le_trans hg₁.le hg₂.le
  obtain ⟨u, s₃, h₃, hg₃, -⟩ := adds_addToVar hg₂.wf (hC.mono hle₂) harray d.id dst
  have hle₃ := Registry.le_trans hle₂ hg₃.le
  obtain ⟨ts, s₄, h₄, hg₄, hts⟩ := adds_inners hg₃.wf hp (hM.mono hle₃) hd hst
    (harray.mono hg₃.le) ((Registry.le_trans hg₂.le hg₃.le).heap _ _ ho) (fun _ => _)
    fun s' hs' hle => adds_finalizer (m := m) hs' ((hC.mono hle₃).mono hle) (.register d.id i) t
  refine ⟨ts, s₄, (bind_of_ok h₃).trans h₄, (hg₃.trans hg₄).congr (Set.ext fun f => ?_) (by omega),
    hts⟩
  rw [hid]
  constructor
  · rintro (rfl | ⟨x, y, hxy, rfl⟩ | ⟨ht, n, hn, rfl⟩)
    · exact .new dst t _
    · exact .inner dst hxy
    · exact .register dst _ ht hn
  · intro hf
    cases hf with
    | new => exact .inl rfl
    | inner _ h => exact .inr (.inl ⟨_, _, h, rfl⟩)
    | register _ _ ht hm => exact .inr (.inr ⟨ht, _, hm, rfl⟩)

theorem adds_constant {l : Literal} (hM : s.registry.MethodIs m M) (hC : s.registry.CtxIs c M.ctx)
    (hd : g.program.method? M.item = some d) (hst : d.body[i]? = some (.const dst l)) :
    Adds g (constant g m c (.declared M.item dst) l) s {f | StmtFact g M d i (.const dst l) f} 0
      fun _ _ => True := by
  unfold constant
  split
  · rename_i hnone
    refine .nothing hs trivial fun f hf => ?_
    cases hf with
    | const _ h => simp [hnone] at h
  · rename_i o ho
    refine (adds_request hs hp (a := .constant l) ho trivial (.const hd hst ho)).bind_nothing
      fun n s₁ hg₁ hn => ?_
    refine (adds_allocate hg₁.wf (hM.mono hg₁.le) hn).bind_nothing fun a s₂ hg₂ ha => ?_
    have hC₂ := (hC.mono hg₁.le).mono hg₂.le
    refine (adds_addToVar hg₂.wf hC₂ ha M.item dst).congr (Set.ext fun f => ?_)
    constructor
    · rintro rfl
      exact .const dst ho
    · intro hf
      cases hf with
      | const _ h =>
        cases ho.symm.trans h
        rfl

omit hp in
theorem adds_flowWhen {b : Bool} {F : Flow} {src dst : Act PtrId}
    (hsrc : ∀ s', s'.Wf g → s.registry ≤ s'.registry →
      Adds g src s' ∅ 0 fun p s' => s'.registry.PtrIs p F.src)
    (hdst : ∀ s', s'.Wf g → s.registry ≤ s'.registry →
      Adds g dst s' ∅ 0 fun p s' => s'.registry.PtrIs p F.dst) :
    Adds g (if b then do
        let p ← src
        let q ← dst
        addFlow g p q F.kind F.transfer
        Pure.pure []
      else Pure.pure []) s {f | b = true ∧ f = .flow F} 1 fun ts _ => g.OnlyUnresolved ts := by
  refine Adds.guard (c := b = true) (E := {.flow F}) (Q := fun ts _ => g.OnlyUnresolved ts) hs
    (fun _ => ?_) (Or.inl rfl)
  refine (hsrc s hs (Registry.le_refl _)).bind_nothing fun p s₁ hg₁ hp => ?_
  refine (hdst s₁ hg₁.wf hg₁.le).bind_nothing fun q s₂ hg₂ hq => ?_
  refine Adds.congr_le
    ((adds_addFlow hg₂.wf (hp.mono hg₂.le) hq).then_pure (y := []) fun _ _ _ _ => ?_)
    rfl (Nat.zero_le _)
  exact .inl rfl

/-- **A statement is turned into the facts that the rules list for it.** -/
theorem adds_enact {st : Stmt} (hM : s.registry.MethodIs m M)
    (hd : g.program.method? M.item = some d) (hst : d.body[i]? = some st) :
    Adds g (enact g m d i st) s {f | StmtFact g M d i st f} 1 fun ts _ => g.OnlyUnresolved ts := by
  have hC := hM.ctx
  have hid : d.id = M.item := hp.id_eq hd
  have hok := hp.stmtOk hd (List.mem_of_getElem? hst)
  have hvar : ∀ (x : Slot) s', s'.Wf g → s.registry ≤ s'.registry →
      Adds g (variablePtr (s.registry.methodContext m) (.declared M.item x)) s' ∅ 0
        fun p s' => s'.registry.PtrIs p (M.var x) :=
    fun x s' hs' hle => adds_declared hs' (hC.mono hle) M.item x
  -- each kind of statement has the facts that its rule names, and no others
  unfold enact
  refine Adds.get_bind ?_
  rw [hid]
  cases st with
  | new dst t n => exact adds_allocation hs hp hM hC hd hst
  | const dst l =>
    refine Adds.congr_le ((adds_constant hs hp hM hC hd hst).then_pure (y := []) fun _ _ _ _ => ?_)
      rfl (Nat.zero_le _)
    exact .inl rfl
  | copy dst x =>
    refine (adds_flowWhen hs (F := ⟨M.var x, M.var dst, .assign, none⟩) (hvar x) (hvar dst)).congr
      (Set.ext fun f => ⟨?_, ?_⟩)
    · rintro ⟨hx, rfl⟩
      exact .copy dst hx
    · rintro ⟨⟩
      exact ⟨‹_›, rfl⟩
  | cast dst t x =>
    refine (adds_flowWhen hs (F := ⟨M.var x, M.var dst, .cast, some t⟩) (hvar x) (hvar dst)).congr
      (Set.ext fun f => ⟨?_, ?_⟩)
    · rintro ⟨hx, rfl⟩
      exact .cast dst t hx
    · rintro ⟨⟩
      exact ⟨‹_›, rfl⟩
  | loadStatic dst f =>
    refine (adds_flowWhen hs (F := ⟨.static f, M.var dst, .loadStatic, none⟩)
      (fun s' hs' _ => adds_static hs' hok) (hvar dst)).congr
      (Set.ext fun f => ⟨?_, ?_⟩)
    · rintro ⟨hx, rfl⟩
      exact .loadStatic _ hx
    · rintro ⟨⟩
      exact ⟨‹_›, rfl⟩
  | storeStatic f x =>
    refine (adds_flowWhen hs (F := ⟨M.var x, .static f, .storeStatic, none⟩) (hvar x)
      fun s' hs' _ => adds_static hs' hok).congr
      (Set.ext fun f => ⟨?_, ?_⟩)
    · rintro ⟨hx, rfl⟩
      exact .storeStatic _ hx
    · rintro ⟨⟩
      exact ⟨‹_›, rfl⟩
  | invoke c =>
    refine (adds_site hs hC _).bind_nothing fun n s₁ hg₁ hn => ?_
    refine (adds_setContainer hg₁.wf n m).bind_nothing fun _ s₂ hg₂ _ => ?_
    refine (Adds.guard hg₂.wf (fun _ => adds_staticCall hg₂.wf ((hC.mono hg₁.le).mono hg₂.le)
      (.body M.item i) c.target) (.inl rfl)).congr (Set.ext fun f => ⟨?_, ?_⟩)
    · rintro ⟨hk, n, hn, rfl⟩
      exact .call hk hn
    · rintro ⟨⟩
      exact ⟨‹_›, _, ‹_›, rfl⟩
  | load | store | loadElem | storeElem | ret => exact .nothing hs (.inl rfl) (by rintro f ⟨⟩)

omit hp in
theorem adds_giveNothing {m : MethodId} (hm : ∀ t, g.program.argumentsType? m ≠ some t) :
    Adds g (Pure.pure ()) s {f | ArgFact g m f} 0 fun _ s' => s'.registry.Supplies g.program m := by
  refine .nothing hs (fun t _ h => absurd h (hm t)) fun f h => ?_
  obtain ⟨t, h⟩ := h.argumentsType?
  exact absurd h (hm t)

omit hp in
/-- The array of arguments is handed to an entry method, when its element is there. -/
theorem adds_handOver {m n : MethodId} {t : Ty} {o : ObjId} {a : CObjId} (x : Slot)
    (ht : g.program.argumentsType? m = some t) (hn : g.program.argumentsOwner? t = some n)
    (ho : s.registry.heap.get? o = some (.arguments t n))
    (ha : s.registry.ObjIs a ⟨[], .arguments t n⟩)
    (he : t.isReference = true → ∃ i, s.registry.heap.get? i = some (.argument t n)) :
    Adds g (addToVar Contexts.emptyCtx (.declared m x) a) s
      {.holds (.var [] (.declared m x)) ⟨[], .arguments t n⟩} 0
      fun _ s' => s'.registry.Supplies g.program m := by
  obtain ⟨u, s', hrun, hg, -⟩ := adds_addToVar hs (Registry.ctxIs_empty _) ha m x
  refine ⟨u, s', hrun, hg, fun t' n' ht' hn' => ?_⟩
  cases ht.symm.trans ht'
  cases hn.symm.trans hn'
  exact Registry.Provides.mono ⟨⟨o, ho⟩, he⟩ hg.le

/-- **An entry method is given its arguments.** All entry methods that take arguments of a type
share them, so either this one is the first, or the arguments are there. -/
theorem adds_giveArguments {m : MethodId}
    (hm : ∀ t, g.program.argumentsType? m = some t →
      ∃ n, g.program.argumentsOwner? t = some n ∧ (m = n ∨ s.registry.Provides t n)) :
    Adds g (giveArguments g m) s {f | ArgFact g m f} 0
      fun _ s' => s'.registry.Supplies g.program m := by
  unfold giveArguments
  split
  · rename_i hd
    exact adds_giveNothing hs (by simp [Program.argumentsType?, hd])
  rename_i d hd
  split
  · rename_i hx
    exact adds_giveNothing hs (by simp [Program.argumentsType?, hd, hx])
  rename_i x xs hx
  split
  · rename_i t hxt
    have ht : g.program.argumentsType? m = some t := by
      simp [Program.argumentsType?, hd, hx, hxt, Ty.elem?]
    obtain ⟨n, hn, hnm⟩ := hm t ht
    have hhead : d.params.head? = some x := by simp [hx]
    refine (adds_request_as hs hp (a := .mock argumentsDesc .none (.array t) (some m)) rfl trivial
      (.arguments hn) rfl ?_).bind_nothing fun o s₁ hg₁ ho => ?_
    · rcases hnm with rfl | h
      · exact .inl rfl
      · exact .inr h.1
    refine (adds_object hg₁.wf (Registry.ctxIs_empty _) (Nat.zero_le _) ho).bind_nothing
      fun a s₂ hg₂ ha => ?_
    have hle₂ := Registry.le_trans hg₁.le hg₂.le
    have ho₂ := hg₂.le.heap _ _ ho
    split
    · rename_i hr
      -- the array has an element, which is shared like the array
      refine (adds_request_as hg₂.wf hp (a := .mock argumentDesc .none t (some m)) rfl trivial
        (.argument hn hr) rfl ?_).bind_nothing fun e s₃ hg₃ he => ?_
      · rcases hnm with rfl | h
        · exact .inl rfl
        · obtain ⟨i, hi⟩ := h.2 hr
          exact .inr ⟨i, hle₂.heap _ _ hi⟩
      refine (adds_object hg₃.wf (Registry.ctxIs_empty _) (Nat.zero_le _) he).bind_nothing
        fun b s₄ hg₄ hb => ?_
      have hle₄ := Registry.le_trans hg₃.le hg₄.le
      refine (adds_elems hg₄.wf (ha.mono hle₄) rfl).bind_nothing fun p s₅ hg₅ hpe => ?_
      obtain ⟨u, s₆, h₆, hg₆, -⟩ := adds_addObject hg₅.wf hpe (hb.mono hg₅.le)
      have hle₆ := Registry.le_trans hg₅.le hg₆.le
      have hle := Registry.le_trans hle₄ hle₆
      obtain ⟨v, s₇, h₇, hg₇, hQ⟩ := adds_handOver hg₆.wf x ht hn (hle.heap _ _ ho₂) (ha.mono hle)
        fun _ => ⟨e, hle₆.heap _ _ (hg₄.le.heap _ _ he)⟩
      refine ⟨v, s₇, (bind_of_ok h₆).trans h₇, (hg₆.trans hg₇).congr (Set.ext fun f => ⟨?_, ?_⟩)
        le_rfl, hQ⟩
      · rintro (rfl | rfl)
        · exact .elem hd hhead hxt hn hr
        · exact .array hd hhead hxt hn
      · intro hf
        rcases (argFact_iff hd hhead hxt hn).mp hf with rfl | ⟨-, rfl⟩
        · exact .inr rfl
        · exact .inl rfl
    · rename_i hr
      refine (adds_handOver hg₂.wf x ht hn ho₂ ha fun h => absurd h hr).congr
        (Set.ext fun f => ⟨?_, ?_⟩)
      · rintro rfl
        exact .array hd hhead hxt hn
      · intro hf
        exact ((argFact_iff hd hhead hxt hn).mp hf).resolve_right fun h => hr h.1
  · rename_i hxt
    refine adds_giveNothing hs fun t ht => ?_
    simp only [Program.argumentsType?, hd, hx, Option.bind_some, List.head?_cons] at ht
    cases hty : d.varType x with
    | array u => exact hxt u hty
    | _ => simp [hty, Ty.elem?] at ht

end

end Act

end HeapFlow
