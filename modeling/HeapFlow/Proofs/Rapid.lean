import Mathlib.Data.Finset.Card
import HeapFlow.Proofs.Growing
import HeapFlow.Proofs.Headers
import HeapFlow.RapidTypes

/-!
# The analysis by instantiated types is complete

The analysis by instantiated types visits the reachable methods one by one, and every visit may make
further methods reachable. In the end nothing is left out: the call graph and the sets that come
with it are closed under all that a visit does. Whenever a visit has ended, every virtual call has
been considered for every instantiated type, and every initialized class has its superclasses
initialized and its initializer reachable (`RapidTypes.Closed`). And the visits do not stop too
early: no method is reachable twice and all are methods of the program.
-/

namespace HeapFlow

open List CallGraph

namespace Program

variable {p : Program}

/-- A class is one of the given ones, or above one of them. -/
def InChains (p : Program) (us : List String) (c : String) : Prop :=
  ∃ u ∈ us, ∃ k ∈ p.chain u, k.name = c

/-- Whether a statement calls a static method that has no body for want of one. -/
def callsAbstract (p : Program) : Stmt → Bool
  | .invoke c => decide (c.kind = .static) && (p.resolve c.target).any (·.isAbstract)
  | _ => false

/-- **The classes that a method uses when it is visited**: a static method that has no body for want
of one is not a use of its class. -/
def VisitUse (p : Program) (d : Method) (u : String) : Prop :=
  d.isStatic = true ∧ u = d.id.cls ∨
    ∃ stmt ∈ d.body, p.callsAbstract stmt = false ∧ u ∈ p.stmtUses stmt

variable {d : Method} {u : String}

theorem mem_activeUses : u ∈ p.activeUses d ↔
    d.isStatic = true ∧ u = d.id.cls ∨ ∃ stmt ∈ d.body, u ∈ p.stmtUses stmt := by
  rw [activeUses, mem_append, mem_flatMap]
  refine or_congr_left ?_
  by_cases hstatic : d.isStatic = true <;> simp [hstatic]

theorem VisitUse.mem_activeUses (h : p.VisitUse d u) : u ∈ p.activeUses d :=
  Program.mem_activeUses.mpr (h.imp_right fun ⟨stmt, hstmt, _, hu⟩ => ⟨stmt, hstmt, hu⟩)

/-- Without calls of abstract methods a visit sees all uses. -/
theorem visitUse_of_mem_activeUses (h : u ∈ p.activeUses d)
    (hd : ∀ stmt ∈ d.body, p.callsAbstract stmt = false) : p.VisitUse d u :=
  (mem_activeUses.mp h).imp_right fun ⟨stmt, hstmt, hu⟩ => ⟨stmt, hstmt, hd stmt hstmt, hu⟩

end Program

/-- What one round of a loop establishes and all rounds keep holds after the loop. -/
theorem foldl_of_mem {α β : Type} {f : β → α → β} {P : β → Prop} {l : List α} {a : α} (ha : a ∈ l)
    (hf : ∀ b, P (f b a)) (hkeep : ∀ x ∈ l, ∀ b, P b → P (f b x)) (b : β) : P (l.foldl f b) := by
  induction l generalizing b with
  | nil => cases ha
  | cons x l ih =>
    have hrest : ∀ y ∈ l, ∀ b, P b → P (f b y) := fun y hy => hkeep y (.tail _ hy)
    rcases mem_cons.mp ha with rfl | ha
    · exact List.foldlRecOn l f (hf b) fun b hb y hy => hrest y hy b hb
    · exact ih ha hrest _

namespace RapidTypes

variable {p : Program} {o : RapidOptions} {s s' s'' : RapidTypes}

/-- Everything that one result has found, another one has found too. -/
structure Within (s s' : RapidTypes) : Prop where
  reachable : s.graph.reachable <+: s'.graph.reachable
  edges : s.graph.edges ⊆ s'.graph.edges
  types : s.types ⊆ s'.types
  virtualCalls : s.virtualCalls ⊆ s'.virtualCalls
  initialized : s.initialized ⊆ s'.initialized

theorem Within.refl (s : RapidTypes) : s.Within s :=
  ⟨prefix_rfl, fun _ h => h, fun _ h => h, fun _ h => h, fun _ h => h⟩

theorem Within.trans (h : s.Within s') (h' : s'.Within s'') : s.Within s'' :=
  ⟨h.reachable.trans h'.reachable, List.Subset.trans h.edges h'.edges,
    List.Subset.trans h.types h'.types,
    List.Subset.trans h.virtualCalls h'.virtualCalls,
    List.Subset.trans h.initialized h'.initialized⟩

/-! ### What holds between visits -/

/-- The call graph is in order: callees are reachable, and no method is reachable twice or not
declared at all. -/
structure GraphOk (p : Program) (s : RapidTypes) : Prop where
  callee : ∀ e ∈ s.graph.edges, e.callee ∈ s.graph.reachable
  declared : ∀ m ∈ s.graph.reachable, (p.method? m).isSome = true
  nodup : s.graph.reachable.Nodup

/-- With a class its superclasses are initialized, and its static initializer is reachable. -/
structure Rooted (p : Program) (s : RapidTypes) : Prop where
  above : ∀ {k k'}, k.name ∈ s.initialized → p.class? k.name = some k → p.above k = some k' →
    k'.name ∈ s.initialized
  clinit : ∀ {k d}, k.name ∈ s.initialized → p.class? k.name = some k → k.clinit? = some d →
    d.id ∈ s.graph.reachable

/-- A virtual call has its call edge for an instantiated type. -/
def Paired (p : Program) (s : RapidTypes) (call : CallSite × CallKind × MethodId) (t : Ty) : Prop :=
  ∀ d, p.isSubtype t (.cls call.2.2.cls) = true → p.dispatch t call.2.2.subsig = some d →
    ⟨call.2.1, call.1, d.id⟩ ∈ s.graph.edges

/-- What has been considered stays so. -/
theorem Paired.mono {call : CallSite × CallKind × MethodId} {t : Ty} (h : s.Paired p call t)
    (hw : s.graph.edges ⊆ s'.graph.edges) : s'.Paired p call t :=
  fun d hsub hd => hw (h d hsub hd)

/-- **What holds between visits.** -/
structure Closed (p : Program) (s : RapidTypes) : Prop where
  graph : s.GraphOk p
  rooted : s.Rooted p
  paired : ∀ call ∈ s.virtualCalls, ∀ t ∈ s.types, s.Paired p call t

theorem closed_empty (p : Program) : ({} : RapidTypes).Closed p :=
  ⟨⟨nofun, nofun, nodup_nil⟩, ⟨nofun, nofun⟩, nofun⟩

/-- One result leads to another: nothing is lost, and what holds between visits is kept. -/
structure Leads (p : Program) (s s' : RapidTypes) : Prop where
  within : s.Within s'
  closed : s.Closed p → s'.Closed p

theorem Leads.refl (s : RapidTypes) : s.Leads p s :=
  ⟨.refl s, id⟩

theorem Leads.trans (h : s.Leads p s') (h' : s'.Leads p s'') : s.Leads p s'' :=
  ⟨h.within.trans h'.within, h'.closed ∘ h.closed⟩

/-- A loop leads on if its rounds do. -/
theorem leads_foldl {α : Type} {f : RapidTypes → α → RapidTypes} {l : List α}
    (hf : ∀ a ∈ l, ∀ s : RapidTypes, s.Leads p (f s a)) (s : RapidTypes) :
    s.Leads p (l.foldl f s) :=
  List.foldlRecOn l f (.refl s) fun s' h a ha => h.trans (hf a ha s')

/-! ### Changes of the call graph -/

/-- Only the call graph changes, and it grows. -/
structure Joins (p : Program) (s s' : RapidTypes) : Prop where
  reachable : s.graph.reachable <+: s'.graph.reachable
  edges : s.graph.edges ⊆ s'.graph.edges
  graph : s.GraphOk p → s'.GraphOk p
  types : s'.types = s.types
  virtualCalls : s'.virtualCalls = s.virtualCalls
  initialized : s'.initialized = s.initialized

namespace Joins

theorem refl (s : RapidTypes) : s.Joins p s :=
  ⟨prefix_rfl, fun _ h => h, id, rfl, rfl, rfl⟩

theorem trans (h : s.Joins p s') (h' : s'.Joins p s'') : s.Joins p s'' :=
  ⟨h.reachable.trans h'.reachable, List.Subset.trans h.edges h'.edges,
    h'.graph ∘ h.graph,
    h'.types.trans h.types, h'.virtualCalls.trans h.virtualCalls,
    h'.initialized.trans h.initialized⟩

theorem foldl {α : Type} {f : RapidTypes → α → RapidTypes} {l : List α}
    (hf : ∀ a ∈ l, ∀ s : RapidTypes, s.Joins p (f s a)) (s : RapidTypes) :
    s.Joins p (l.foldl f s) :=
  List.foldlRecOn l f (refl s) fun s' h a ha => h.trans (hf a ha s')

theorem within (h : s.Joins p s') : s.Within s' :=
  ⟨h.reachable, h.edges, fun _ ht => h.types ▸ ht, fun _ hc => h.virtualCalls ▸ hc,
    fun _ hc => h.initialized ▸ hc⟩

theorem rooted (h : s.Joins p s') (hs : s.Rooted p) : s'.Rooted p where
  above hk := by
    rw [h.initialized] at hk ⊢
    exact hs.above hk
  clinit hk hclass hd := h.reachable.subset (hs.clinit (h.initialized ▸ hk) hclass hd)

theorem leads (h : s.Joins p s') : s.Leads p s' where
  within := h.within
  closed hs := {
    graph := h.graph hs.graph
    rooted := h.rooted hs.rooted
    paired := fun call hcall t ht => by
      rw [h.virtualCalls] at hcall
      rw [h.types] at ht
      exact (hs.paired call hcall t ht).mono h.edges }

end Joins

theorem joins_of_eq {c : MethodCallGraph} (hreach : c.reachable = s.graph.reachable)
    (hedges : c.edges = s.graph.edges) : s.Joins p { s with graph := c } where
  reachable := hreach ▸ prefix_rfl
  edges := fun _ h => hedges.symm ▸ h
  graph hs := ⟨by simpa only [hreach, hedges] using hs.callee,
    by simpa only [hreach] using hs.declared, by simpa only [hreach] using hs.nodup⟩
  types := rfl
  virtualCalls := rfl
  initialized := rfl

theorem reachable_reach (s : RapidTypes) (m : MethodId) :
    s.graph.reachable <+: (s.reach m).graph.reachable := by
  unfold reach CallGraph.addReachable
  split
  · exact prefix_rfl
  · exact prefix_append _ _

variable {m : MethodId}

theorem nodup_reach (h : s.graph.reachable.Nodup) : (s.reach m).graph.reachable.Nodup := by
  rw [reach, reachable_addReachable]
  exact nodup_added h

/-- A method is made reachable. -/
theorem joins_reach (hm : (p.method? m).isSome = true) (s : RapidTypes) :
    s.Joins p (s.reach m) where
  reachable := reachable_reach s m
  edges := fun _ h => (edges_addReachable s.graph m).symm ▸ h
  graph hs := by
    refine ⟨fun e he => ?_, fun x hx => ?_, ?_⟩
    · rw [reach, edges_addReachable] at he
      exact (mem_reachable_addReachable _).mpr (.inl (hs.callee e he))
    · rcases (mem_reachable_addReachable _).mp hx with hx | rfl
      · exact hs.declared x hx
      · exact hm
    · exact nodup_reach hs.nodup
  types := rfl
  virtualCalls := rfl
  initialized := rfl

theorem mem_reachable_reach (s : RapidTypes) (m : MethodId) : m ∈ (s.reach m).graph.reachable :=
  (mem_reachable_addReachable _).mpr (.inr rfl)

theorem mem_edges_connect (s : RapidTypes) (kind : CallKind) (site : CallSite) (m : MethodId) :
    ⟨kind, site, m⟩ ∈ (s.connect kind site m).graph.edges := by
  rw [connect, reach, edges_addReachable]
  exact (mem_edges_addEdge _).mpr (.inr rfl)

/-- A call edge is added, and its callee is reachable. -/
theorem joins_connect (hm : (p.method? m).isSome = true) (s : RapidTypes) (kind : CallKind)
    (site : CallSite) : s.Joins p (s.connect kind site m) where
  reachable := by
    have h := reachable_reach { s with graph := (s.graph.addEdge ⟨kind, site, m⟩).2 } m
    rwa [show _ = s.graph.reachable from reachable_addEdge s.graph _] at h
  edges x hx := by
    rw [connect, reach, edges_addReachable]
    exact (mem_edges_addEdge _).mpr (.inl hx)
  graph hs := by
    -- the edge comes before its callee is reachable, so the two changes are seen as one
    set s₁ : RapidTypes := { s with graph := (s.graph.addEdge ⟨kind, site, m⟩).2 } with hs₁
    have hreach : s₁.graph.reachable = s.graph.reachable := reachable_addEdge s.graph _
    refine ⟨fun e he => ?_, fun x hx => ?_, ?_⟩
    · rw [connect, reach, edges_addReachable] at he
      rcases (mem_edges_addEdge _).mp he with he | rfl
      · exact (mem_reachable_addReachable _).mpr (.inl (hreach.symm ▸ hs.callee e he))
      · exact mem_reachable_reach s₁ m
    · rcases (mem_reachable_addReachable _).mp hx with hx | rfl
      · exact hs.declared x (hreach ▸ hx)
      · exact hm
    · exact nodup_reach (s := s₁) (hreach.symm ▸ hs.nodup)
  types := rfl
  virtualCalls := rfl
  initialized := rfl

section Pairs

variable (hp : p.WellFormed)

include hp

theorem joins_pair (s : RapidTypes) (call : CallSite × CallKind × MethodId) (t : Ty) :
    s.Joins p (s.pair p call t) := by
  unfold pair
  dsimp only
  split
  · split
    · rename_i d hd
      exact joins_connect (by rw [(hp.dispatch_spec hd).2]; rfl) s _ _
    · exact .refl s
  · exact .refl s

omit hp in
/-- A virtual call is considered for a type. -/
theorem paired_pair (s : RapidTypes) (call : CallSite × CallKind × MethodId) (t : Ty) :
    (s.pair p call t).Paired p call t := by
  intro d hsub hd
  unfold pair
  dsimp only
  rw [if_pos hsub, hd]
  exact mem_edges_connect s _ _ _

theorem paired_foldl {α : Type} (call : α → CallSite × CallKind × MethodId) (t : α → Ty)
    {l : List α} {a : α} (ha : a ∈ l) (s : RapidTypes) :
    (l.foldl (fun s a => s.pair p (call a) (t a)) s).Paired p (call a) (t a) :=
  foldl_of_mem (P := (Paired p · (call a) (t a))) ha (fun s => paired_pair s _ _)
    (fun b _ s hs => hs.mono (joins_pair hp s (call b) (t b)).edges) s

omit hp in
/-- Types or virtual calls are added, and then the call graph grows until every pair has been
considered. -/
theorem leads_of_joins {s₁ : RapidTypes} (hwithin : s.Within s₁) (hgraph : s₁.graph = s.graph)
    (hinit : s₁.initialized = s.initialized) (hjoins : s₁.Joins p s')
    (hpaired : s.Closed p → ∀ call ∈ s₁.virtualCalls, ∀ t ∈ s₁.types, s'.Paired p call t) :
    s.Leads p s' where
  within := hwithin.trans hjoins.within
  closed hs := by
    refine ⟨hjoins.graph ?_, hjoins.rooted ?_, fun call hcall t ht => ?_⟩
    · exact ⟨hgraph ▸ hs.graph.callee, hgraph ▸ hs.graph.declared, hgraph ▸ hs.graph.nodup⟩
    · exact ⟨hinit ▸ hs.rooted.above, hinit ▸ hgraph ▸ hs.rooted.clinit⟩
    · exact hpaired hs call (hjoins.virtualCalls ▸ hcall) t (hjoins.types ▸ ht)

/-- A new type is considered for all virtual calls. -/
theorem leads_instantiate (s : RapidTypes) (t : Ty) : s.Leads p (s.instantiate p t) := by
  unfold instantiate
  split
  · exact .refl s
  · dsimp only
    set s₁ : RapidTypes := { s with types := s.types ++ [t] } with hs₁
    have hjoins : s₁.Joins p (s.virtualCalls.foldl (fun s call => s.pair p call t) s₁) :=
      .foldl (fun call _ s => joins_pair hp s call t) s₁
    have hwithin : s.Within s₁ := { Within.refl s with types := subset_append_left _ _ }
    refine leads_of_joins hwithin rfl rfl hjoins fun hs call hcall u hu => ?_
    rcases mem_append.mp hu with hu | hu
    · exact (hs.paired call hcall u hu).mono hjoins.edges
    · rw [mem_singleton.mp hu]
      exact paired_foldl hp id (fun _ => t) hcall s₁

/-- A new virtual call is considered for all types. -/
theorem leads_meet (s : RapidTypes) (call : CallSite × CallKind × MethodId) :
    s.Leads p (s.meet p call) := by
  unfold meet
  dsimp only
  set s₁ : RapidTypes := { s with virtualCalls := s.virtualCalls ++ [call] } with hs₁
  have hjoins : s₁.Joins p (s.types.foldl (fun s t => s.pair p call t) s₁) :=
    .foldl (fun t _ s => joins_pair hp s call t) s₁
  have hwithin : s.Within s₁ := { Within.refl s with virtualCalls := subset_append_left _ _ }
  refine leads_of_joins hwithin rfl rfl hjoins fun hs call' hcall t ht => ?_
  rcases mem_append.mp hcall with hcall | hcall
  · exact (hs.paired call' hcall t ht).mono hjoins.edges
  · rw [mem_singleton.mp hcall]
    exact paired_foldl hp (fun _ => call) id ht s₁

theorem mem_types_instantiate {t : Ty} (ht : t.holdsObjects = true) (s : RapidTypes) :
    t ∈ (s.instantiate p t).types := by
  unfold instantiate
  split
  · rename_i h
    simpa [ht] using h
  · dsimp only
    rw [(Joins.foldl (p := p) (fun call _ s => joins_pair hp s call t) _).types]
    exact mem_append_right _ (mem_singleton_self t)

theorem mem_virtualCalls_meet (s : RapidTypes) (call : CallSite × CallKind × MethodId) :
    call ∈ (s.meet p call).virtualCalls := by
  unfold meet
  dsimp only
  rw [(Joins.foldl (p := p) (fun t _ s => joins_pair hp s call t) _).virtualCalls]
  exact mem_append_right _ (mem_singleton_self call)

end Pairs

/-! ### Initialization -/

section Initialization

variable {c : String} {l : List Method}

theorem Rooted.chainFrom (hs : s.Rooted p) {n : Nat} (hc : c ∈ s.initialized) :
    ∀ k ∈ p.chainFrom n c, k.name ∈ s.initialized :=
  Program.chainFrom_induction (fun _ hk => (Program.name_of_class? hk).symm ▸ hc)
    fun _ _ hk hclass hup => hs.above hk hclass hup

/-- Going up stops at the first class that is initialized, but nothing is missed by that. -/
theorem Rooted.mem_takeWhile (hs : s.Rooted p) {n : Nat} {k : Class} (hk : k ∈ p.chainFrom n c) :
    k ∈ (p.chainFrom n c).takeWhile (fun k => !s.initialized.contains k.name) ∨
      k.name ∈ s.initialized := by
  induction n generalizing c with
  | zero => cases hk
  | succ n ih =>
    by_cases hc : c ∈ s.initialized
    · exact .inr (hs.chainFrom hc k hk)
    unfold Program.chainFrom at hk ⊢
    cases hclass : p.class? c with
    | none => simp [hclass] at hk
    | some a =>
      have ha : (!s.initialized.contains a.name) = true := by
        rw [Program.name_of_class? hclass]
        simpa using hc
      simp only [hclass] at hk ⊢
      rw [takeWhile_cons, if_pos ha]
      rcases mem_cons.mp hk with rfl | hk
      · exact .inl (.head _)
      · cases hsuper : a.super with
        | none => simp [hsuper] at hk
        | some u =>
          rw [hsuper] at hk
          exact (ih hk).imp_left (mem_cons_of_mem _)

theorem joins_foldl_reach (hl : ∀ d ∈ l, (p.method? d.id).isSome = true) (s : RapidTypes) :
    s.Joins p (l.foldl (fun s d => s.reach d.id) s) :=
  .foldl (fun d hd s => joins_reach (hl d hd) s) s

theorem mem_reachable_foldl_reach {d : Method} (hd : d ∈ l) (s : RapidTypes) :
    d.id ∈ (l.foldl (fun s d => s.reach d.id) s).graph.reachable :=
  foldl_of_mem (P := fun s => d.id ∈ s.graph.reachable) hd (fun s => mem_reachable_reach s _)
    (fun x _ s hs => (reachable_reach s x.id).subset hs) s

section

variable (hp : p.WellFormed) (o : RapidOptions)

include hp

variable {c : String}

theorem clinits_declared (f : Class → Bool) :
    ∀ d ∈ ((p.chain c).takeWhile f).reverse.filterMap Class.clinit?,
      (p.method? d.id).isSome = true := by
  intro d hd
  obtain ⟨k, hk, hkd⟩ := mem_filterMap.mp hd
  have hmem : k ∈ p.chain c := (takeWhile_sublist _).subset (mem_reverse.mp hk)
  rw [hp.clinit?_spec (Program.class?_of_mem_chainFrom hmem) hkd]
  rfl

variable {o}

/-- **Initializing a class initializes its chain**, and nothing else. -/
theorem mem_initialized_initClass (ho : o.classInit = true) (hs : s.Rooted p) {u : String} :
    c ∈ (s.initClass p o u).initialized ↔ c ∈ s.initialized ∨ ∃ k ∈ p.chain u, k.name = c := by
  simp only [initClass, ho, Bool.not_true, Bool.false_eq_true, if_false]
  rw [(joins_foldl_reach (clinits_declared hp _) _).initialized, mem_append, mem_map]
  constructor
  · rintro (hc | ⟨k, hk, rfl⟩)
    · exact .inl hc
    · exact .inr ⟨k, (takeWhile_sublist _).subset hk, rfl⟩
  · rintro (hc | ⟨k, hk, rfl⟩)
    · exact .inl hc
    · exact (hs.mem_takeWhile hk).elim (fun h => .inr ⟨k, h, rfl⟩) .inl

/-- Initializing a class keeps what holds between visits. -/
theorem leads_initClass (s : RapidTypes) (u : String) : s.Leads p (s.initClass p o u) := by
  cases ho : o.classInit with
  | false =>
    simp only [initClass, ho, Bool.not_false, if_true]
    exact .refl s
  | true =>
    have hmem := fun (hs : s.Rooted p) c => mem_initialized_initClass hp ho hs (u := u) (c := c)
    simp only [initClass, ho, Bool.not_true, Bool.false_eq_true, if_false] at hmem ⊢
    set fresh := (p.chain u).takeWhile (fun k => !s.initialized.contains k.name) with hfresh
    set s₁ : RapidTypes := { s with initialized := s.initialized ++ fresh.map (·.name) } with hs₁
    have hjoins := joins_foldl_reach (s := s₁) (clinits_declared hp (c := u)
      (fun k => !s.initialized.contains k.name))
    have hwithin : s.Within s₁ := { Within.refl s with initialized := subset_append_left _ _ }
    refine ⟨hwithin.trans hjoins.within, fun hs => ⟨hjoins.graph ?_, ⟨?_, ?_⟩, ?_⟩⟩
    · exact ⟨hs.graph.callee, hs.graph.declared, hs.graph.nodup⟩
    · intro k k' hk hclass hup
      rw [hmem hs.rooted] at hk ⊢
      rcases hk with hk | ⟨a, ha, hname⟩
      · exact .inl (hs.rooted.above hk hclass hup)
      · have hak := Program.class?_of_mem_chainFrom ha
        rw [hname, hclass] at hak
        cases hak
        exact .inr ⟨k', Program.above_mem_chain ha hup, rfl⟩
    · intro k d hk hclass hd
      rw [hmem hs.rooted] at hk
      have hold : k.name ∈ s.initialized → d.id ∈ _ := fun hk =>
        hjoins.reachable.subset (hs.rooted.clinit hk hclass hd)
      rcases hk with hk | ⟨a, ha, hname⟩
      · exact hold hk
      · have hak := Program.class?_of_mem_chainFrom ha
        rw [hname, hclass] at hak
        cases hak
        refine (hs.rooted.mem_takeWhile ha).elim (fun hnew => ?_) hold
        exact mem_reachable_foldl_reach (mem_filterMap.mpr ⟨k, mem_reverse.mpr hnew, hd⟩) s₁
    · intro call hcall t ht
      rw [hjoins.virtualCalls] at hcall
      rw [hjoins.types] at ht
      exact (hs.paired call hcall t ht).mono hjoins.edges

end

end Initialization

section Visits

variable (hp : p.WellFormed)

include hp

theorem leads_initType (s : RapidTypes) (t : Ty) : s.Leads p (s.initType p o t) := by
  unfold initType
  split
  · exact leads_initClass hp s _
  · exact .refl s

theorem leads_visitDirect (s : RapidTypes) (site : CallSite) (c : Call) :
    s.Leads p (s.visitDirect p o site c) := by
  unfold visitDirect
  split
  · exact .refl s
  · rename_i d hd
    split
    · exact .refl s
    · have hconnect : ∀ s : RapidTypes, s.Leads p (s.connect c.kind site d.id) := fun s =>
        (joins_connect (by rw [(hp.resolve_spec hd).2]; rfl) s _ _).leads
      dsimp only
      split
      · exact (leads_initClass hp s _).trans (hconnect _)
      · exact hconnect s

omit hp in
theorem joins_setContainer (s : RapidTypes) (site : CallSite) (m : MethodId) :
    s.Joins p { s with graph := (s.graph.setContainer site m).2 } :=
  joins_of_eq (reachable_setContainer ..) (edges_setContainer ..)

theorem leads_visitStmt (m : MethodId) (s : RapidTypes) (i : Nat) (stmt : Stmt) :
    s.Leads p (s.visitStmt p o m i stmt) := by
  cases stmt with
  | new dst t n => exact (leads_instantiate hp s t).trans (leads_initType hp _ t)
  | const dst l =>
    have h := (leads_instantiate hp s l.type).trans (leads_initType (o := o) hp _ l.type)
    cases l with
    | cls t => exact h.trans (leads_initType hp _ t)
    | _ => exact h
  | loadStatic | storeStatic => exact leads_initClass hp s _
  | invoke c =>
    have h := (joins_setContainer (p := p) s (.body m i) m).leads
    unfold visitStmt
    dsimp only
    split
    · exact h.trans (leads_meet hp _ _)
    · exact h.trans (leads_meet hp _ _)
    · exact h.trans (leads_visitDirect hp _ _ c)
    · exact h.trans (leads_visitDirect hp _ _ c)
    · exact h
  | _ => exact .refl s

/-- **A visit keeps what holds between visits.** -/
theorem leads_visitMethod (s : RapidTypes) (m : MethodId) : s.Leads p (s.visitMethod p o m) := by
  unfold visitMethod
  split
  · exact .refl s
  · dsimp only
    refine Leads.trans ?_ (leads_foldl (fun x _ s => leads_visitStmt hp m s x.1 x.2) _)
    split
    · exact leads_initClass hp s _
    · exact .refl s

end Visits

/-! ### The classes that a visit initializes -/

section Uses

variable (hp : p.WellFormed) (ho : o.classInit = true)

include hp

theorem initialized_instantiate (s : RapidTypes) (t : Ty) :
    (s.instantiate p t).initialized = s.initialized := by
  unfold instantiate
  split
  · rfl
  · exact (Joins.foldl (p := p) (fun call _ s => joins_pair hp s call t) _).initialized

theorem initialized_meet (s : RapidTypes) (call : CallSite × CallKind × MethodId) :
    (s.meet p call).initialized = s.initialized :=
  (Joins.foldl (p := p) (fun t _ s => joins_pair hp s call t) _).initialized

include ho

variable {c : String} {m : MethodId}

theorem mem_initialized_initType (hs : s.Rooted p) {t : Ty} :
    c ∈ (s.initType p o t).initialized ↔
      c ∈ s.initialized ∨ p.InChains (Program.classOfType t) c := by
  unfold initType Program.classOfType
  cases t.base with
  | cls u =>
    dsimp only
    rw [mem_initialized_initClass hp ho hs]
    simp [Program.InChains]
  | _ => simp [Program.InChains]

theorem mem_initialized_visitDirect (hs : s.Rooted p) (site : CallSite) (call : Call) :
    c ∈ (s.visitDirect p o site call).initialized ↔ c ∈ s.initialized ∨
      call.kind = .static ∧ ∃ d, p.resolve call.target = some d ∧ d.isAbstract = false ∧
        p.InChains [d.id.cls] c := by
  unfold visitDirect
  cases hd : p.resolve call.target with
  | none => simp
  | some d =>
    have hjoins : ∀ s : RapidTypes, (s.connect call.kind site d.id).initialized = s.initialized :=
      fun s => (joins_connect (by rw [(hp.resolve_spec hd).2]; rfl) s _ _).initialized
    dsimp only
    by_cases habs : d.isAbstract = true
    · simp [habs]
    · rw [if_neg habs, hjoins]
      by_cases hkind : call.kind = .static
      · rw [if_pos hkind, mem_initialized_initClass hp ho hs]
        simp [hkind, habs, Program.InChains]
      · simp [hkind]

/-- **Visiting a statement initializes the classes that it uses**, unless it calls a static method
that is abstract. -/
theorem mem_initialized_visitStmt (hs : s.Closed p) {i : Nat} {stmt : Stmt} :
    c ∈ (s.visitStmt p o m i stmt).initialized ↔ c ∈ s.initialized ∨
      p.callsAbstract stmt = false ∧ p.InChains (p.stmtUses stmt) c := by
  have htype : ∀ {s : RapidTypes} {t}, s.Closed p →
      (c ∈ ((s.instantiate p t).initType p o t).initialized ↔
        c ∈ s.initialized ∨ p.InChains (Program.classOfType t) c) := by
    intro s t hs
    have hclosed := (leads_instantiate hp s t).closed hs
    rw [mem_initialized_initType hp ho hclosed.rooted, initialized_instantiate hp]
  cases stmt with
  | new dst t n => simpa [visitStmt, Program.callsAbstract, Program.stmtUses] using htype hs
  | const dst l =>
    cases l with
    | cls t =>
      have hclosed := (((leads_instantiate hp s (Literal.cls t).type).trans
        (leads_initType (o := o) hp _ (Literal.cls t).type)).closed hs)
      have h := mem_initialized_initType (t := t) (c := c) hp ho hclosed.rooted
      rw [htype hs, or_assoc] at h
      simpa [visitStmt, Program.callsAbstract, Program.stmtUses, Program.InChains, or_and_right,
        exists_or] using h
    | _ => simpa [visitStmt, Program.callsAbstract, Program.stmtUses] using htype hs
  | loadStatic | storeStatic =>
    simpa [visitStmt, Program.callsAbstract, Program.stmtUses, Program.InChains] using
      mem_initialized_initClass hp ho hs.rooted
  | invoke call =>
    have hjoins := joins_setContainer (p := p) s (.body m i) m
    have hmeet := fun x => initialized_meet hp { s with graph := (s.graph.setContainer
      (.body m i) m).2 } x
    have hdirect := mem_initialized_visitDirect (c := c) hp ho (hjoins.rooted hs.rooted)
      (.body m i) call
    have hstatic : (p.callsAbstract (.invoke call) = false ∧
        p.InChains (p.stmtUses (.invoke call)) c) ↔ call.kind = .static ∧
        ∃ d, p.resolve call.target = some d ∧ d.isAbstract = false ∧ p.InChains [d.id.cls] c := by
      by_cases hkind : call.kind = .static
      · cases hd : p.resolve call.target with
        | none => simp [Program.stmtUses, hkind, hd, Program.InChains]
        | some d => simp [Program.callsAbstract, Program.stmtUses, hkind, hd]
      · simp [Program.stmtUses, hkind, Program.InChains]
    rw [hstatic]
    unfold visitStmt
    cases hkind : call.kind with
    | static | special => simpa [hkind] using hdirect
    | virtual | interface => simp [hkind, hmeet]
    | _ => simp [hkind]
  | _ => simp [visitStmt, Program.callsAbstract, Program.stmtUses, Program.InChains]

/-- **Visiting a method initializes the classes that it uses.** -/
theorem mem_initialized_visitMethod (hs : s.Closed p) {d : Method} (hd : p.method? m = some d) :
    c ∈ (s.visitMethod p o m).initialized ↔ c ∈ s.initialized ∨
      d.isStatic = true ∧ p.InChains [m.cls] c ∨
      ∃ stmt ∈ d.body, p.callsAbstract stmt = false ∧ p.InChains (p.stmtUses stmt) c := by
  have hfold : ∀ (l : List (Nat × Stmt)) {s : RapidTypes}, s.Closed p →
      (c ∈ (l.foldl (fun s x => s.visitStmt p o m x.1 x.2) s).initialized ↔ c ∈ s.initialized ∨
        ∃ x ∈ l, p.callsAbstract x.2 = false ∧ p.InChains (p.stmtUses x.2) c) := by
    intro l
    induction l with
    | nil => simp
    | cons x l ih =>
      intro s hs
      rw [foldl_cons, ih ((leads_visitStmt hp m s x.1 x.2).closed hs),
        mem_initialized_visitStmt hp ho hs, or_assoc]
      simp
  have hbody : (∃ x ∈ d.indexedBody, p.callsAbstract x.2 = false ∧ p.InChains (p.stmtUses x.2) c) ↔
      ∃ stmt ∈ d.body, p.callsAbstract stmt = false ∧ p.InChains (p.stmtUses stmt) c := by
    constructor
    · rintro ⟨⟨i, stmt⟩, hmem, hstmt⟩
      exact ⟨stmt, mem_of_getElem? (Method.mem_indexedBody.mp hmem), hstmt⟩
    · rintro ⟨stmt, hmem, hstmt⟩
      obtain ⟨i, hi⟩ := mem_iff_getElem?.mp hmem
      exact ⟨⟨i, stmt⟩, Method.mem_indexedBody.mpr hi, hstmt⟩
  simp only [visitMethod, hd]
  by_cases hstatic : d.isStatic = true
  · rw [if_pos hstatic, hfold _ ((leads_initClass hp s m.cls).closed hs), hbody,
      mem_initialized_initClass hp ho hs.rooted, or_assoc]
    simp [hstatic, Program.InChains]
  · rw [if_neg hstatic, hfold _ hs, hbody]
    simp [hstatic]

end Uses

/-! ### What has been visited -/

/-- What a visit finds in a statement of a method. -/
def Handled (p : Program) (s : RapidTypes) (m : MethodId) (i : Nat) : Stmt → Prop
  | .new _ t _ => t.holdsObjects = true → t ∈ s.types
  | .const _ l => l.type.holdsObjects = true → l.type ∈ s.types
  | .invoke c =>
    (c.kind = .virtual ∨ c.kind = .interface → (.body m i, c.kind, c.target) ∈ s.virtualCalls) ∧
    (c.kind = .static ∨ c.kind = .special → ∀ d, p.resolve c.target = some d →
      d.isAbstract = false → ⟨c.kind, .body m i, d.id⟩ ∈ s.graph.edges)
  | _ => True

theorem Handled.mono {i : Nat} {stmt : Stmt} (h : s.Handled p m i stmt) (hw : s.Within s') :
    s'.Handled p m i stmt := by
  cases stmt with
  | new | const => exact fun ht => hw.types (h ht)
  | invoke c =>
    exact ⟨fun hkind => hw.virtualCalls (h.1 hkind), fun hkind d hd habs =>
      hw.edges (h.2 hkind d hd habs)⟩
  | _ => trivial

/-- **A method has been visited**: what its statements call for has been found, and the classes that
it uses are initialized. -/
structure Visited (p : Program) (o : RapidOptions) (s : RapidTypes) (m : MethodId) : Prop where
  stmt : ∀ {d i stmt}, p.method? m = some d → d.body[i]? = some stmt → s.Handled p m i stmt
  inits : o.classInit = true → ∀ {d u k}, p.method? m = some d → p.VisitUse d u → k ∈ p.chain u →
    k.name ∈ s.initialized

theorem Visited.mono (h : s.Visited p o m) (hw : s.Within s') : s'.Visited p o m where
  stmt hd hi := (h.stmt hd hi).mono hw
  inits ho _ _ _ hd hu hk := hw.initialized (h.inits ho hd hu hk)

/-- The classes that a method uses are initialized, unless it calls a static method that is
abstract. -/
theorem Visited.uses (h : s.Visited p o m) (ho : o.classInit = true) {d : Method} {c : String}
    (hd : p.method? m = some d) (habs : ∀ stmt ∈ d.body, p.callsAbstract stmt = false)
    (hc : p.InChains (p.activeUses d) c) : c ∈ s.initialized := by
  obtain ⟨u, hu, k, hk, rfl⟩ := hc
  exact h.inits ho hd (Program.visitUse_of_mem_activeUses hu habs) hk

section Completeness

variable (hp : p.WellFormed)

include hp

omit hp in
theorem mem_edges_visitDirect {site : CallSite} {c : Call} {d : Method}
    (hd : p.resolve c.target = some d) (habs : d.isAbstract = false) :
    ⟨c.kind, site, d.id⟩ ∈ (s.visitDirect p o site c).graph.edges := by
  simp only [visitDirect, hd, habs]
  exact mem_edges_connect _ _ _ _

/-- What a statement calls for has been found after its visit. -/
theorem handled_visitStmt (m : MethodId) (s : RapidTypes) (i : Nat) (stmt : Stmt) :
    (s.visitStmt p o m i stmt).Handled p m i stmt := by
  cases stmt with
  | new dst t n =>
    exact fun ht => (leads_initType hp _ t).within.types (mem_types_instantiate hp ht s)
  | const dst l =>
    intro ht
    have h := (leads_initType (o := o) hp _ l.type).within.types (mem_types_instantiate hp ht s)
    cases l with
    | cls t => exact (leads_initType hp _ t).within.types h
    | _ => exact h
  | invoke c =>
    unfold visitStmt
    refine ⟨?_, ?_⟩
    · rintro (hkind | hkind) <;> simp only [hkind] <;> exact mem_virtualCalls_meet hp _ _
    · rintro (hkind | hkind) d hd habs <;> simp only [hkind] <;>
        exact hkind ▸ mem_edges_visitDirect hd habs
  | _ => trivial

/-- A method has been visited after its visit. -/
theorem visited_visitMethod (hs : s.Closed p) (m : MethodId) :
    (s.visitMethod p o m).Visited p o m where
  stmt {d i stmt} hd hi := by
    simp only [visitMethod, hd]
    exact foldl_of_mem (P := (Handled p · m i stmt)) (Method.mem_indexedBody.mpr hi)
      (fun s => handled_visitStmt hp m s i stmt)
      (fun x _ s hs => hs.mono (leads_visitStmt hp m s x.1 x.2).within) _
  inits ho {d u k} hd hu hk := by
    rw [mem_initialized_visitMethod hp ho hs hd]
    rcases hu with ⟨hstatic, rfl⟩ | ⟨stmt, hstmt, habs, hu⟩
    · exact .inr (.inl ⟨hstatic, m.cls, mem_singleton_self _, k, hp.id_eq hd ▸ hk, rfl⟩)
    · exact .inr (.inr ⟨stmt, hstmt, habs, u, hu, k, hk, rfl⟩)

theorem GraphOk.length_le (hs : s.GraphOk p) :
    s.graph.reachable.length ≤ total (p.classes.map fun c => c.methods.length) := by
  set ids := (p.classes.flatMap Class.methods).map Method.id with hids
  have hsub : s.graph.reachable ⊆ ids := by
    intro m hm
    obtain ⟨d, hd⟩ := Option.isSome_iff_exists.mp (hs.declared m hm)
    obtain ⟨k, hk, hkd⟩ := Program.method?_eq_some hd
    refine mem_map.mpr ⟨d, mem_flatMap.mpr ⟨k, Program.mem_of_class? hk, ?_⟩, hp.id_eq hd⟩
    exact mem_of_find?_eq_some hkd
  calc s.graph.reachable.length ≤ ids.length := (hs.nodup.subperm hsub).length_le
    _ = total (p.classes.map fun c => c.methods.length) := by
      rw [hids, length_map, length_flatMap]
      rfl

/-- **Visiting the reachable methods one after the other visits all of them**, if at least as many
visits may be made as there are methods left. -/
theorem visited_visitFrom {n i : Nat} (hs : s.Closed p)
    (hn : total (p.classes.map fun c => c.methods.length) ≤ n + i)
    (hbefore : ∀ j < i, ∀ m, s.graph.reachable[j]? = some m → s.Visited p o m) :
    s.Within (visitFrom p o n i s) ∧ (visitFrom p o n i s).Closed p ∧
      ∀ m ∈ (visitFrom p o n i s).graph.reachable, (visitFrom p o n i s).Visited p o m := by
  have hstop : ∀ {i} {s : RapidTypes}, s.graph.reachable.length ≤ i →
      (∀ j < i, ∀ m, s.graph.reachable[j]? = some m → s.Visited p o m) →
      ∀ m ∈ s.graph.reachable, s.Visited p o m := by
    intro i s hlen hbefore m hm
    obtain ⟨j, hj⟩ := mem_iff_getElem?.mp hm
    exact hbefore j (lt_of_lt_of_le (List.getElem?_eq_some_iff.mp hj).1 hlen) m hj
  induction n generalizing i s with
  | zero => exact ⟨.refl s, hs, hstop ((hs.graph.length_le hp).trans (by omega)) hbefore⟩
  | succ n ih =>
    unfold visitFrom
    split
    · rename_i hnone
      exact ⟨.refl s, hs, hstop (List.getElem?_eq_none_iff.mp hnone) hbefore⟩
    · rename_i m hm
      have hleads := leads_visitMethod (o := o) hp s m
      have hclosed := hleads.closed hs
      -- the methods before are the same, and the one at this place has now been visited
      have hbefore' : ∀ j < i + 1, ∀ x, (s.visitMethod p o m).graph.reachable[j]? = some x →
          (s.visitMethod p o m).Visited p o x := by
        intro j hj x hx
        obtain ⟨hi, -⟩ := List.getElem?_eq_some_iff.mp hm
        have hsame : s.graph.reachable[j]? = some x := by
          rw [← hx]
          obtain ⟨l, hl⟩ := hleads.within.reachable
          rw [← hl, getElem?_append_left (by omega)]
        rcases Nat.lt_succ_iff_lt_or_eq.mp hj with hlt | rfl
        · exact (hbefore j hlt x hsame).mono hleads.within
        · rw [hm] at hsame
          cases hsame
          exact visited_visitMethod hp hs _
      obtain ⟨hwithin, hend, hvisited⟩ := ih hclosed (by omega) hbefore'
      exact ⟨hleads.within.trans hwithin, hend, hvisited⟩

/-! ### Entry methods -/

/-- An entry method is reachable, and what a static `main` is given is instantiated. -/
structure Entered (p : Program) (s : RapidTypes) (m : MethodId) : Prop where
  reachable : m ∈ s.graph.reachable
  types : ∀ {d t}, p.method? m = some d → d.name = "main" → d.isStatic = true →
    d.params.head?.map d.varType = some (.array t) →
    .array t ∈ s.types ∧ (t.holdsObjects = true → t ∈ s.types)

variable {m : MethodId}

omit hp in
theorem Entered.mono (h : s.Entered p m) (hw : s.Within s') : s'.Entered p m where
  reachable := hw.reachable.subset h.reachable
  types hd hname hstatic harg :=
    (h.types hd hname hstatic harg).imp (fun ht => hw.types ht) fun ht hobj => hw.types (ht hobj)

theorem leads_enter (hm : (p.method? m).isSome = true) (s : RapidTypes) :
    s.Leads p (s.enter p m) := by
  have hentry : s.Joins p { s with graph := s.graph.addEntry m } :=
    joins_of_eq (reachable_addEntry ..) (edges_addEntry ..)
  have hreach := (hentry.trans (joins_reach hm _)).leads
  unfold enter
  dsimp only
  split
  · exact hreach
  · split
    · split
      · exact hreach.trans ((leads_instantiate hp _ _).trans (leads_instantiate hp _ _))
      · exact hreach
    · exact hreach

theorem entered_enter (s : RapidTypes) (m : MethodId) : (s.enter p m).Entered p m where
  reachable := by
    have hreach : m ∈ ({ s with graph := s.graph.addEntry m }.reach m).graph.reachable :=
      mem_reachable_reach _ m
    have hleads := fun s t => (leads_instantiate hp s (.array t)).trans (leads_instantiate hp _ t)
    unfold enter
    dsimp only
    split
    · exact hreach
    · split
      · split
        · exact (hleads _ _).within.reachable.subset hreach
        · exact hreach
      · exact hreach
  types {d t} hd hname hstatic harg := by
    simp only [enter, hd, hname, hstatic, harg, BEq.rfl, Bool.and_self, if_true]
    exact ⟨(leads_instantiate hp _ t).within.types (mem_types_instantiate hp rfl _),
      fun ht => mem_types_instantiate hp ht _⟩

end Completeness

def entries (p : Program) (o : RapidOptions) : List MethodId :=
  p.entries ++ (if o.implicitEntries then p.implicitEntries else [])

/-- What has been found before the first visit. -/
def start (p : Program) (o : RapidOptions) : RapidTypes :=
  (entries p o).foldl (enter p) {}

theorem entries_declared (h : p.Accepted) : ∀ m ∈ entries p o, (p.method? m).isSome = true := by
  intro m hm
  refine h.entries_declared m ?_
  rcases mem_append.mp hm with hm | hm
  · exact mem_append_left _ hm
  · split at hm
    · exact mem_append_right _ hm
    · cases hm

/-- Before the first visit nothing is missing. -/
theorem closed_start (h : p.Accepted) : (start p o).Closed p :=
  (leads_foldl (fun m hm s => leads_enter h.wellFormed (entries_declared h m hm) s) {}).closed
    (closed_empty p)

/-- **The analysis by instantiated types is complete**: all reachable methods have been visited, and
all entry methods have been entered. -/
theorem visited_analyze (h : p.Accepted) (o : RapidOptions) :
    (analyze p o).Closed p ∧ (∀ m ∈ (analyze p o).graph.reachable, (analyze p o).Visited p o m) ∧
      ∀ m ∈ p.entries ++ (if o.implicitEntries then p.implicitEntries else []),
        (analyze p o).Entered p m := by
  have hp := h.wellFormed
  obtain ⟨hwithin, hclosed, hvisited⟩ :=
    visited_visitFrom (o := o) (i := 0) hp (closed_start h) le_rfl nofun
  have hentered : ∀ m ∈ entries p o, (start p o).Entered p m := fun m hm =>
    foldl_of_mem (P := (Entered p · m)) hm (fun s => entered_enter hp s m)
      (fun x hx s hs => hs.mono (leads_enter hp (entries_declared h x hx) s).within) {}
  exact ⟨hclosed, hvisited, fun m hm => (hentered m hm).mono hwithin⟩

end RapidTypes

end HeapFlow
