import Mathlib.Data.Set.Card
import Mathlib.Data.Set.Finite.List
import HeapFlow.Proofs.Registered

/-!
# Only finitely many facts are derivable

Everything that a derivable fact is made of stands in the program: methods, call sites, the
variables and fields that statements assign to, and the objects that they make. Contexts are lists
of marks, which stand in the program too, and the policy keeps them short. Only the temporaries of
copies of array elements are numbered, and the rules leave the numbers open. `Fact.InScope g n` says
that a fact is made of such things, with temporaries below `n`. Derivable facts are in scope for
some `n` (`Derivable.inScope`), and those in scope for one `n` that count for the progress of a run
are finitely many (`finite_scope`).
-/

namespace HeapFlow

open List Program

/-- The variable that a statement assigns to. -/
def Stmt.target? : Stmt → Option Slot
  | .new dst _ _ => some dst
  | .const dst _ => some dst
  | .copy dst _ => some dst
  | .cast dst _ _ => some dst
  | .load dst _ _ => some dst
  | .loadStatic dst _ => some dst
  | .loadElem dst _ => some dst
  | .invoke c => c.result
  | _ => none

/-- The field that a statement stores to. -/
def Stmt.stored? : Stmt → Option FieldId
  | .store _ f _ => some f
  | .storeStatic f _ => some f
  | _ => none

/-- The variables of a method that get objects: the receiver, the parameters, those that are
assigned to, and those that are returned. -/
def Method.targets (d : Method) : List Slot :=
  0 :: d.params ++ d.returned ++ d.body.filterMap Stmt.target?

def Program.declared (p : Program) : List Method :=
  p.classes.flatMap Class.methods

variable {p : Program}

theorem Program.mem_declared {m : MethodId} {d : Method} (h : p.method? m = some d) :
    d ∈ p.declared := by
  obtain ⟨k, hk, hd⟩ := method?_eq_some h
  exact mem_flatMap.mpr ⟨k, mem_of_class? hk, mem_of_find?_eq_some hd⟩

theorem Program.exists_of_result {site : CallSite} {c : Call} {x : Slot}
    (hc : p.call? site = some c) (hx : c.result = some x) :
    ∃ d, p.method? site.method = some d ∧ .invoke c ∈ d.body := by
  cases site with
  | body m i =>
    obtain ⟨st, hst, hcall⟩ := Option.bind_eq_some_iff.mp hc
    obtain ⟨d, hd, hi⟩ := Option.bind_eq_some_iff.mp hst
    refine ⟨d, hd, ?_⟩
    cases st <;> cases hcall
    exact mem_of_getElem? hi
  | register m i =>
    simp only [call?] at hc
    split at hc
    · cases hc
      cases hx
    · cases hc
  | threadRun =>
    cases hc
    cases hx

namespace Setup

variable (g : Setup)

def methods : List MethodId :=
  g.program.declared.map Method.id ++ (g.program.entries ++ g.program.implicitEntries)

def sites : List CallSite :=
  .threadRun :: g.program.declared.flatMap fun d =>
    (List.range d.body.length).flatMap fun i => [.body d.id i, .register d.id i]

/-- The variables that get objects, with temporaries below `n`. -/
def vars (n : Nat) : List Var :=
  (g.program.declared.flatMap fun d => d.targets.map (.declared d.id)) ++
    g.methods.flatMap fun m => (List.range n).map (.copyTemp m)

def fields : List FieldId :=
  g.program.declared.flatMap fun d => d.body.filterMap Stmt.stored?

/-- The objects of a statement. -/
def made? (d : Method) (i : Nat) : List Obj :=
  match d.body[i]? with
  | some (.new _ t n) => g.arraysOf d i t n
  | some (.const _ l) => (g.merging.constant? l).toList
  | _ => []

/-- The objects of the arguments of an entry method. -/
def given? (m : MethodId) : List Obj :=
  match g.program.argumentsType? m with
  | some t => [.arguments t m, .argument t m]
  | none => []

def objects : List Obj :=
  (g.program.declared.flatMap fun d => (List.range d.body.length).flatMap fun i => g.made? d i) ++
    g.program.entries.flatMap g.given?

/-- The marks that contexts consist of. -/
def marks : List Mark :=
  g.sites.map Mark.site ++ g.objects.flatMap fun o => [.obj o, .type o.containerType]

def contexts : Set Ctx :=
  {C | C.length ≤ g.policy.limit ∧ ∀ a ∈ C, a ∈ g.marks}

/-- The kinds of calls that there are edges of. -/
def kinds : List CallKind :=
  [.virtual, .interface, .special, .static, .other]

end Setup

/-- Something from a list, in a context. -/
def At.From {α : Type} (g : Setup) (l : List α) (X : At α) : Prop :=
  X.ctx ∈ g.contexts ∧ X.item ∈ l

/-- A place that gets objects. -/
def Place.InScope (g : Setup) (n : Nat) : Place → Prop
  | .var C v => C ∈ g.contexts ∧ v ∈ g.vars n
  | .field O f => O.From g g.objects ∧ f ∈ g.fields
  | .elems O => O.From g g.objects
  | .static f => f ∈ g.fields

/-- **What derivable facts are made of.** -/
def Fact.InScope (g : Setup) (n : Nat) : Fact → Prop
  | .holds P O => P.InScope g n ∧ O.From g g.objects
  | .flow F => F.dst.InScope g n
  | .call e => e.kind ∈ Setup.kinds ∧ e.site.From g g.sites ∧ e.callee.From g g.methods
  | .reached M => M.From g g.methods
  | .announced m => m ∈ g.methods
  | .initialized c => c ∈ g.program.classes.map Class.name
  | .started O => O.From g g.objects
  | .asks C => C ∈ g.contexts

section Scope

variable {g : Setup}

theorem nil_mem_contexts : [] ∈ g.contexts :=
  ⟨Nat.zero_le _, by simp⟩

variable {C : Ctx} {S : At CallSite}

/-- Contexts that are cut are short enough. -/
theorem rtake_mem_contexts {k : Nat} (hC : ∀ a ∈ C, a ∈ g.marks) (hk : k ≤ g.policy.limit) :
    C.rtake k ∈ g.contexts := by
  refine ⟨?_, fun a ha => hC a (mem_of_mem_drop ha)⟩
  rw [List.rtake, length_drop]
  omega

theorem heapCtx_mem (hC : C ∈ g.contexts) : g.policy.heapCtx C ∈ g.contexts :=
  rtake_mem_contexts hC.2 (Nat.sub_le ..)

theorem mark_site_mem {s : CallSite} (hs : s ∈ g.sites) : Mark.site s ∈ g.marks :=
  mem_append_left _ (mem_map.mpr ⟨s, hs, rfl⟩)

theorem forall_mem_concat {a : Mark} (hC : C ∈ g.contexts) (ha : a ∈ g.marks) :
    ∀ b ∈ C ++ [a], b ∈ g.marks := by
  intro b hb
  rcases mem_append.mp hb with hb | hb
  · exact hC.2 b hb
  · exact mem_singleton.mp hb ▸ ha

theorem siteCtx_mem (hS : S.From g g.sites) : g.policy.siteCtx S ∈ g.contexts := by
  have hmarks := forall_mem_concat hS.1 (mark_site_mem hS.2)
  cases hp : g.policy with
  | insensitive => exact nil_mem_contexts
  | call k => exact rtake_mem_contexts hmarks (by rw [hp]; exact Nat.le_refl k)
  | obj | type => exact hS.1

/-- The context that a receiver makes is in scope. -/
theorem recvCtx_mem {O : At Obj} (hS : S.From g g.sites) (hO : O.From g g.objects) :
    g.policy.recvCtx S O ∈ g.contexts := by
  have hobj : ∀ a, a ∈ [Mark.obj O.item, .type O.item.containerType] → a ∈ g.marks := fun a ha =>
    mem_append_right _ (mem_flatMap.mpr ⟨O.item, hO.2, ha⟩)
  cases hp : g.policy with
  | insensitive => exact nil_mem_contexts
  | call k =>
    exact rtake_mem_contexts (forall_mem_concat hS.1 (mark_site_mem hS.2))
      (by rw [hp]; exact Nat.le_refl k)
  | obj k | type k =>
    exact rtake_mem_contexts (forall_mem_concat hO.1 (hobj _ (by simp)))
      (by rw [hp]; exact Nat.le_refl k)

section Lookups

variable (hp : g.program.WellFormed) {m : MethodId} {d : Method} (hd : g.program.method? m = some d)

include hp hd

theorem method_mem : m ∈ g.methods := by
  refine mem_append_left _ (mem_map.mpr ⟨d, mem_declared hd, ?_⟩)
  exact hp.id_eq hd

theorem var_mem {x : Slot} (hx : x ∈ d.targets) (n : Nat) : .declared m x ∈ g.vars n := by
  refine mem_append_left _ (mem_flatMap.mpr ⟨d, mem_declared hd, ?_⟩)
  rw [hp.id_eq hd]
  exact mem_map.mpr ⟨x, hx, rfl⟩

omit hp in
theorem field_mem {st : Stmt} {f : FieldId} (hst : st ∈ d.body) (hf : st.stored? = some f) :
    f ∈ g.fields :=
  mem_flatMap.mpr ⟨d, mem_declared hd, mem_filterMap.mpr ⟨st, hst, hf⟩⟩

theorem site_mem {i : Nat} {st : Stmt} (hst : d.body[i]? = some st) :
    .body m i ∈ g.sites ∧ .register m i ∈ g.sites := by
  have hi : i ∈ List.range d.body.length :=
    mem_range.mpr (List.getElem?_eq_some_iff.mp hst).1
  have hmem : ∀ s ∈ [CallSite.body d.id i, .register d.id i], s ∈ g.sites := fun s hs =>
    .tail _ (mem_flatMap.mpr ⟨d, mem_declared hd, mem_flatMap.mpr ⟨i, hi, hs⟩⟩)
  rw [hp.id_eq hd] at hmem
  exact ⟨hmem _ (by simp), hmem _ (by simp)⟩

omit hp in
theorem made_mem {i : Nat} {o : Obj} (ho : o ∈ g.made? d i) : o ∈ g.objects := by
  have hi : i ∈ List.range d.body.length := by
    rw [mem_range]
    by_contra hi
    rw [Setup.made?, getElem?_eq_none (Nat.le_of_not_lt hi)] at ho
    exact absurd ho not_mem_nil
  exact mem_append_left _ (mem_flatMap.mpr ⟨d, mem_declared hd, mem_flatMap.mpr ⟨i, hi, ho⟩⟩)

end Lookups

theorem Method.mem_targets {d : Method} {st : Stmt} {x : Slot} (hst : st ∈ d.body)
    (hx : st.target? = some x) : x ∈ d.targets :=
  mem_append_right _ (mem_filterMap.mpr ⟨st, hst, hx⟩)

theorem Method.params_mem_targets {d : Method} {x : Slot} (hx : x ∈ d.params) : x ∈ d.targets :=
  mem_append_left _ (mem_append_left _ (.tail _ hx))

theorem given_mem {t : Ty} {m : MethodId} (h : g.program.argumentsOwner? t = some m) :
    .arguments t m ∈ g.objects ∧ .argument t m ∈ g.objects := by
  have htype : g.program.argumentsType? m = some t := by simpa using find?_some h
  have hm : m ∈ g.program.entries :=
    (mem_filter.mp (mem_of_find?_eq_some h)).1
  have hmem : ∀ o ∈ [Obj.arguments t m, .argument t m], o ∈ g.objects := fun o ho =>
    mem_append_right _ (mem_flatMap.mpr ⟨m, hm, by rwa [Setup.given?, htype]⟩)
  exact ⟨hmem _ (by simp), hmem _ (by simp)⟩

/-! ### Derivable facts are in scope -/

section InScope

variable (hp : g.program.WellFormed)

include hp

variable {f : Fact} {O : At Obj}

/-- What a statement gives is in scope. -/
theorem StmtFact.inScope {M : At MethodId} {d : Method} {i : Nat} {st : Stmt}
    (hM : M.From g g.methods) (hd : g.program.method? M.item = some d) (hst : d.body[i]? = some st)
    (h : StmtFact g M d i st f) (n : Nat) : f.InScope g n := by
  have hmem := mem_of_getElem? hst
  have hvar : ∀ {x}, st.target? = some x → (M.var x).InScope g n := fun hx =>
    ⟨hM.1, var_mem hp hd (Method.mem_targets hmem hx) n⟩
  have hmade : ∀ {o}, o ∈ g.made? d i → (g.made M o).From g g.objects := fun ho =>
    ⟨heapCtx_mem hM.1, made_mem hd ho⟩
  have hcall : ∀ {s : CallSite} {m : Method}, s ∈ g.sites → g.program.method? m.id = some m →
      (Fact.call (g.staticEdge ⟨M.ctx, s⟩ m.id)).InScope g n := fun hs hm =>
    ⟨(by decide : CallKind.static ∈ Setup.kinds), ⟨hM.1, hs⟩, siteCtx_mem ⟨hM.1, hs⟩,
      method_mem hp hm⟩
  cases h with
  | new dst t k => exact ⟨hvar rfl, hmade (by simp [Setup.made?, hst, Setup.arraysOf])⟩
  | inner dst h =>
    have hpair : ∀ o, o ∈ [_, _] → o ∈ g.made? d i := fun o ho => by
      simpa only [Setup.made?, hst] using h.subset ho
    exact ⟨hmade (hpair _ (by simp)), hmade (hpair _ (by simp))⟩
  | register dst k ht hm =>
    exact hcall (site_mem hp hd hst).2 (hp.staticCallee?_spec hm).2
  | const dst h => exact ⟨hvar rfl, hmade (by simp [Setup.made?, hst, h])⟩
  | copy | cast | loadStatic => exact hvar rfl
  | storeStatic f h => exact field_mem hd hmem rfl
  | call hk hm => exact hcall (site_mem hp hd hst).1 (hp.staticCallee?_spec hm).2

theorem BindFact.inScope {kind : CallKind} {S : At CallSite} {m : Method}
    (hkind : kind ∈ Setup.kinds) (hS : S.From g g.sites) (hO : O.From g g.objects)
    (hm : g.program.method? m.id = some m) (h : BindFact g kind S O m.id f) (n : Nat) :
    f.InScope g n := by
  cases h with
  | call => exact ⟨hkind, hS, recvCtx_mem hS hO, method_mem hp hm⟩
  | this => exact ⟨⟨recvCtx_mem hS hO, var_mem hp hm (by simp [Method.targets]) n⟩, hO⟩

theorem UseFact.inScope {C : Ctx} {v : Var} (hC : C ∈ g.contexts) (hO : O.From g g.objects)
    (h : UseFact g C O v f) (n : Nat) : f.InScope g n := by
  cases h with
  | store hd hs hx => exact ⟨hO, field_mem hd hs rfl⟩
  | load hd hs | loadElem hd hs => exact ⟨hC, var_mem hp hd (Method.mem_targets hs rfl) n⟩
  | storeElem | start => exact hO
  | call hd hs hv hn hf =>
    refine hf.inScope hp ?_ ⟨hC, (site_mem hp hd hs).1⟩ hO (hp.callee?_spec hn).2 n
    have hfound := (Option.filter_eq_some_iff.mp hn).1
    split at hfound
    · rename_i hk
      exact hk ▸ by decide
    · rename_i hk
      exact hk ▸ by decide
    · rename_i hk
      exact hk ▸ by decide
    · cases hfound
  | run ht _ hn hf =>
    exact hf.inScope hp (by decide) ⟨hC, .head _⟩ hO (hp.runMethod?_spec hn) n

theorem WireFact.inScope {e : CallEdge (At CallSite) (At MethodId)} (he : (Fact.call e).InScope g 0)
    (h : WireFact g e f) (n : Nat) : f.InScope g n := by
  obtain ⟨-, hsite, hcallee⟩ := he
  cases h with
  | arg hk hc hd hax ha =>
    exact ⟨hcallee.1, var_mem hp hd (Method.params_mem_targets (of_mem_zip hax).2) n⟩
  | ret hk hc hd hr hx hv hh =>
    obtain ⟨d', hd', hmem⟩ := exists_of_result hc hr
    exact ⟨hsite.1, var_mem hp hd' (Method.mem_targets hmem hr) n⟩

theorem ArgFact.inScope {m : MethodId} (h : ArgFact g m f) (n : Nat) : f.InScope g n := by
  cases h with
  | array hd hx ht hn =>
    exact ⟨⟨nil_mem_contexts, var_mem hp hd (Method.params_mem_targets (mem_of_head? hx)) n⟩,
      nil_mem_contexts, (given_mem hn).1⟩
  | elem hd hx ht hn hr =>
    exact ⟨⟨nil_mem_contexts, (given_mem hn).1⟩, nil_mem_contexts, (given_mem hn).2⟩

theorem CopyFact.inScope {C : Ctx} {v : Var} (hC : C ∈ g.contexts) (hO : O.From g g.objects)
    (h : CopyFact g C O v f) : ∃ n, f.InScope g n := by
  cases h with
  | load k _ hd hs hc hx ht =>
    refine ⟨k + 1, hC, mem_append_right _ (mem_flatMap.mpr ⟨_, method_mem hp hd, ?_⟩)⟩
    exact mem_map.mpr ⟨k, mem_range.mpr (Nat.lt_succ_self k), rfl⟩
  | store k _ hd hs hc hx ht => exact ⟨0, hO⟩

/-- **What follows is in scope.** -/
theorem Follows.inScope {h : Fact} {n : Nat} (hh : h.InScope g n) (hf : Follows g h f) :
    f.InScope g 0 := by
  cases hf with
  | announce ht => exact hh.2
  | stmt ht hd hs hf => exact hf.inScope hp hh hd hs 0
  | ask ho ht hm => exact hh.1
  | init _ _ _ hk | super _ _ hk =>
    obtain ⟨k, hk⟩ := Option.isSome_iff_exists.mp hk
    exact mem_map.mpr ⟨k, mem_of_class? hk, name_of_class? hk⟩
  | clinit hc hd => exact ⟨nil_mem_contexts, method_mem hp (hp.clinit?_spec hc hd)⟩
  | reach e => exact hh.2.2
  | wire hf => exact hf.inScope hp hh 0
  | use ht hf => exact hf.inScope hp hh.1.1 hh.2 0

/-- What is derivable is in scope, with some number of temporaries. -/
theorem Derivable.inScope (h : Derivable g f) : ∃ n, f.InScope g n := by
  induction h with
  | infer hF h ih =>
    cases h with
    | given h =>
      obtain ⟨b, hb, he⟩ := h
      refine ⟨0, ?_⟩
      cases he with
      | entry hm =>
        refine ⟨nil_mem_contexts, mem_append_right _ ?_⟩
        rcases mem_append.mp hm with hm | hm
        · exact mem_append_left _ hm
        · split at hm
          · exact mem_append_right _ hm
          · exact absurd hm not_mem_nil
      | args hm hf => exact hf.inScope hp 0
    | follow hh hm hf =>
      obtain ⟨n, hn⟩ := ih _ hh
      exact ⟨0, hf.inScope hp hn⟩
    | flow he hO hP =>
      obtain ⟨n, hn⟩ := ih _ he
      obtain ⟨k, hk⟩ := ih _ hO
      exact ⟨n, hn, hk.2⟩
    | current hO hC hd hv =>
      obtain ⟨n, hn⟩ := ih _ hO
      obtain ⟨k, hk⟩ := ih _ hC
      refine ⟨0, ⟨hk, var_mem hp hd ?_ 0⟩, hn⟩
      exact mem_append_left _ (mem_append_right _ hv)
    | copy ho hh hm ht hf =>
      obtain ⟨n, hn⟩ := ih _ hh
      exact hf.inScope hp hn.1.1 hn.2

end InScope

/-! ### There are finitely many -/

theorem Fact.InScope.of_temps {f : Fact} {n k : Nat} (h : f.InScope g n) (hflow : ∀ F, f ≠ .flow F)
    (htemps : ∀ C m j O, f = .holds (.var C (.copyTemp m j)) O → j < k) : f.InScope g k := by
  cases f with
  | holds P O =>
    refine ⟨?_, h.2⟩
    cases P with
    | var C v =>
      refine ⟨h.1.1, ?_⟩
      rcases mem_append.mp h.1.2 with hv | hv
      · exact mem_append_left _ hv
      · obtain ⟨m, hm, hv⟩ := mem_flatMap.mp hv
        obtain ⟨j, -, rfl⟩ := mem_map.mp hv
        refine mem_append_right _ (mem_flatMap.mpr ⟨m, hm, mem_map.mpr ⟨j, ?_, rfl⟩⟩)
        exact mem_range.mpr (htemps C m j O rfl)
    | field | elems | static => exact h.1
  | flow F => exact absurd rfl (hflow F)
  | _ => exact h

variable (g)

/-- There are finitely many contexts. -/
theorem finite_contexts : g.contexts.Finite := by
  have : Finite {a // a ∈ g.marks} := g.marks.finite_toSet.to_subtype
  refine ((finite_length_le {a // a ∈ g.marks} g.policy.limit).image
    (List.map Subtype.val)).subset ?_
  rintro C ⟨hlen, hmarks⟩
  refine ⟨C.attachWith (· ∈ g.marks) hmarks, ?_, attachWith_map_subtype_val ..⟩
  simpa using hlen

theorem finite_from {α : Type} (l : List α) : {X : At α | X.From g l}.Finite := by
  refine ((finite_contexts g).image2 At.mk l.finite_toSet).subset ?_
  rintro X ⟨hC, hl⟩
  exact ⟨X.ctx, hC, X.item, hl, rfl⟩

theorem finite_places (n : Nat) : {P : Place | P.InScope g n}.Finite := by
  have hvar := (finite_contexts g).image2 Place.var (g.vars n).finite_toSet
  have hfield := (finite_from g g.objects).image2 Place.field g.fields.finite_toSet
  have helems := (finite_from g g.objects).image Place.elems
  have hstatic := g.fields.finite_toSet.image Place.static
  refine ((hvar.union hfield).union (helems.union hstatic)).subset fun P hP => ?_
  cases P with
  | var C v => exact .inl (.inl ⟨C, hP.1, v, hP.2, rfl⟩)
  | field O f => exact .inl (.inr ⟨O, hP.1, f, hP.2, rfl⟩)
  | elems O => exact .inr (.inl ⟨O, hP, rfl⟩)
  | static f => exact .inr (.inr ⟨f, hP, rfl⟩)

theorem finite_edges (n : Nat) : {e | (Fact.call e).InScope g n}.Finite := by
  refine (Setup.kinds.finite_toSet.image2 (fun k (x : At CallSite × At MethodId) => ⟨k, x.1, x.2⟩)
    ((finite_from g g.sites).prod (finite_from g g.methods))).subset ?_
  rintro e ⟨hk, hs, hm⟩
  exact ⟨e.kind, hk, (e.site, e.callee), ⟨hs, hm⟩, rfl⟩

/-- **Finitely many facts are in scope**, flow edges apart. -/
theorem finite_scope (n : Nat) : {f : Fact | f.InScope g n ∧ ∀ F, f ≠ .flow F}.Finite := by
  have hholds := (finite_places g n).image2 Fact.holds (finite_from g g.objects)
  have hcall := (finite_edges g n).image Fact.call
  have hreached := (finite_from g g.methods).image Fact.reached
  have hannounced := g.methods.finite_toSet.image Fact.announced
  have hinit := (g.program.classes.map Class.name).finite_toSet.image Fact.initialized
  have hstarted := (finite_from g g.objects).image Fact.started
  have hasks := (finite_contexts g).image Fact.asks
  refine ((hholds.union hcall).union ((hreached.union hannounced).union
    (hinit.union (hstarted.union hasks)))).subset ?_
  rintro f ⟨hf, hflow⟩
  cases f with
  | holds P O => exact .inl (.inl ⟨P, hf.1, O, hf.2, rfl⟩)
  | flow F => exact absurd rfl (hflow F)
  | call e => exact .inl (.inr ⟨e, hf, rfl⟩)
  | reached M => exact .inr (.inl (.inl ⟨M, hf, rfl⟩))
  | announced m => exact .inr (.inl (.inr ⟨m, hf, rfl⟩))
  | initialized c => exact .inr (.inr (.inl ⟨c, hf, rfl⟩))
  | started O => exact .inr (.inr (.inr (.inl ⟨O, hf, rfl⟩)))
  | asks C => exact .inr (.inr (.inr (.inr ⟨C, hf, rfl⟩)))

end Scope

end HeapFlow
