import HeapFlow.Proofs.Findings
import HeapFlow.Proofs.Rapid
import HeapFlow.Proofs.Timing

/-!
# Instantiated types cover the flow of objects

One analysis of a program follows objects along the statements, another only asks which types are
instantiated anywhere. What the first one reaches and calls, the second one reaches and calls. A
fact is *covered* (`RapidTypes.Covers`) if the second analysis reaches its method and has found what
the fact calls for. Covered facts are closed under the rules, because the second analysis is
complete (`RapidTypes.visited_analyze`).

One rule is an exception: the first analysis looks up a virtual method in the class of the receiver,
whether or not that is a subtype of the class that the call names. So a run is asked to be *fitting*
(`State.Fitting`) at every moment; the end would not do, since the receiver of a subtype might be
made by a method that is reached through the edge.
-/

namespace HeapFlow

open List Program

namespace RapidTypes

variable {p : Program} {g : Setup} {o : RapidOptions} {s : RapidTypes}

/-- A type is instantiated, as far as calls can tell: to them all arrays are alike, and types
without objects do not count. -/
def Instantiates (s : RapidTypes) (t : Ty) : Prop :=
  t.holdsObjects = true → ∃ u ∈ s.types, u = t ∨ u.isArray = true ∧ t.isArray = true

theorem instantiates_of_mem {t : Ty} (h : t.holdsObjects = true → t ∈ s.types) : s.Instantiates t :=
  fun ht => ⟨t, h ht, .inl rfl⟩

/-- **A virtual call has its call edge** for a receiver whose type is instantiated and fits. -/
theorem Instantiates.mem_edges {t : Ty} (h : s.Instantiates t) (hs : s.Closed p)
    {call : CallSite × CallKind × MethodId} (hcall : call ∈ s.virtualCalls)
    (hsub : p.isSubtype t (.cls call.2.2.cls) = true) {d : Method}
    (hd : p.dispatch t call.2.2.subsig = some d) : ⟨call.2.1, call.1, d.id⟩ ∈ s.graph.edges := by
  have hholds : t.holdsObjects = true := by
    cases t with
    | cls | array => rfl
    | prim | null => cases hd
  obtain ⟨u, hu, rfl | ⟨hua, hta⟩⟩ := h hholds
  · exact hs.paired call hcall u hu d hsub hd
  · cases u with
    | array u =>
      cases t with
      | array t => exact hs.paired call hcall _ hu d hsub hd
      | _ => cases hta
    | _ => cases hua

/-- What has to have been found for a fact. -/
def Backs (s : RapidTypes) : Fact → Prop
  | .holds _ O => s.Instantiates O.item.type
  | .flow _ => True
  | .call E => ⟨E.kind, E.site.item, E.callee.item⟩ ∈ s.graph.edges
  | .reached M => M.item ∈ s.graph.reachable
  | .announced m => m ∈ s.graph.reachable
  | .initialized c => c ∈ s.initialized
  | .started _ => False
  | .asks _ => False

/-- **A fact is covered** by what has been found. -/
structure Covers (s : RapidTypes) (f : Fact) : Prop where
  home : ∀ {M}, f.home? = some M → M.item ∈ s.graph.reachable
  backed : s.Backs f

theorem Covers.of_home?_none {s : RapidTypes} {f : Fact} (hf : f.home? = none) (h : s.Backs f) :
    s.Covers f :=
  ⟨fun hM => absurd (hf.symm.trans hM) (by simp), h⟩

/-- The result of a complete analysis with the entry methods of a setup; of what such an analysis
does not look at, the setup has nothing. -/
structure Mirrors (g : Setup) (o : RapidOptions) (s : RapidTypes) : Prop where
  closed : s.Closed g.program
  visited : ∀ {m}, m ∈ s.graph.reachable → s.Visited g.program o m
  entered : ∀ {b m}, .entryPoints b ∈ g.observers →
    m ∈ g.program.entries ++ (if b then g.program.implicitEntries else []) →
    s.Entered g.program m
  classes : .classInit ∈ g.observers → o.classInit = true
  threads : .threads ∉ g.observers
  finalizers : g.program.hasFinalizers = false
  concrete : ∀ {m d}, g.program.method? m = some d → ∀ stmt ∈ d.body,
    g.program.callsAbstract stmt = false

/-- The two analyses of a program have the same entry methods. -/
theorem mirrors_analyze (h : p.Accepted) (hfin : p.hasFinalizers = false)
    (hconcrete : ∀ m d, p.method? m = some d → ∀ stmt ∈ d.body, p.callsAbstract stmt = false)
    {o : Options} (ho : o.threadStart = false) (policy : Policy) {more : List Observer}
    (hmore : ∀ w ∈ more, w.Watches) :
    (analyze p ⟨o.implicitEntries, o.classInit⟩).Mirrors (o.setup p policy more)
      ⟨o.implicitEntries, o.classInit⟩ := by
  obtain ⟨hclosed, hvisited, hentered⟩ := visited_analyze h ⟨o.implicitEntries, o.classInit⟩
  refine ⟨hclosed, hvisited _, fun {b m} hb hm => ?_, fun hinit => ?_, fun hthreads => ?_, hfin,
    hconcrete _ _⟩
  · have hasked := Options.mem_observers_setup hmore id hb
    simp only [Observer.entryPoints.injEq, reduceCtorEq, false_and, or_false] at hasked
    subst hasked
    exact hentered m hm
  · have hasked := Options.mem_observers_setup hmore id hinit
    simpa using hasked
  · have hasked := Options.mem_observers_setup hmore id hthreads
    simp [ho] at hasked

namespace Mirrors

variable (h : s.Mirrors g o)

include h

/-! ### The rules -/

theorem given {f : Fact} (hf : Given g f) : s.Covers f := by
  obtain ⟨b, hb, hf⟩ := hf
  cases hf with
  | entry hm => exact .of_home?_none rfl (h.entered hb hm).reachable
  | @args m f hm hf =>
    obtain ⟨hmem, htakes⟩ := mem_filter.mp hm
    have hentered := h.entered hb (mem_append_left _ hmem)
    have htypes : ∀ {d x t}, g.program.method? m = some d → d.params.head? = some x →
        d.varType x = .array t →
        .array t ∈ s.types ∧ (t.holdsObjects = true → t ∈ s.types) := by
      intro d x t hd hx ht
      rw [Program.takesArguments, hd] at htakes
      simp only [Bool.and_eq_true, beq_iff_eq] at htakes
      exact hentered.types hd htakes.1 htakes.2 (by rw [hx, Option.map_some, ht])
    refine ⟨fun hM => hf.home hM ▸ hentered.reachable, ?_⟩
    cases hf with
    | array hd hx ht => exact instantiates_of_mem fun _ => (htypes hd hx ht).1
    | elem hd hx ht => exact instantiates_of_mem (htypes hd hx ht).2

/-- What a statement of a reachable method gives is covered. -/
theorem stmt {M : At MethodId} {d : Method} {i : Nat} {st : Stmt} {f : Fact}
    (hM : M.item ∈ s.graph.reachable) (hd : g.program.method? M.item = some d)
    (hst : d.body[i]? = some st) (hf : StmtFact g M d i st f) : s.Covers f := by
  have hhandled := (h.visited hM).stmt hd hst
  refine ⟨fun hN => hf.home hN ▸ hM, ?_⟩
  cases hf with
  | new dst t n =>
    have htype := g.merging.type_allocated d i t
    exact instantiates_of_mem (htype.symm ▸ hhandled)
  | @inner dst t n a b hab =>
    -- an inner array is as good as the array that is allocated
    have hmem : b ∈ Obj.inners d.id (g.merging.allocated d i t) (n - 1) t := by
      obtain ⟨l, l', hl⟩ := hab
      have htail := congrArg List.tail hl
      rw [Setup.arraysOf, tail_cons] at htail
      rw [← htail]
      cases l <;> simp
    obtain ⟨harray, u, rfl⟩ := Obj.exists_of_mem_inners hmem
    have hholds : t.holdsObjects = true := by
      cases t with
      | array => rfl
      | _ => cases harray
    exact fun _ => ⟨t, hhandled hholds, .inr ⟨harray, rfl⟩⟩
  | @register dst t n m ht =>
    cases t with
    | cls c => simp [Program.needsFinalizer, h.finalizers] at ht
    | _ => cases ht
  | const dst hc => exact instantiates_of_mem (Merging.type_constant? hc ▸ hhandled)
  | copy | cast | loadStatic | storeStatic => trivial
  | @call c m hk hm =>
    obtain ⟨hresolve, hbody⟩ := Option.filter_eq_some_iff.mp hm
    simp only [Bool.and_eq_true, Bool.not_eq_true'] at hbody
    have hedge := hhandled.2 (.inl hk) m hresolve hbody.1
    rwa [hk] at hedge

theorem bind {kind : CallKind} {S : At CallSite} {O : At Obj} {m : MethodId} {f : Fact}
    (hedge : ⟨kind, S.item, m⟩ ∈ s.graph.edges) (hS : S.item.method ∈ s.graph.reachable)
    (hO : s.Instantiates O.item.type) (hf : BindFact g kind S O m f) : s.Covers f := by
  refine ⟨fun hN => ?_, ?_⟩
  · rcases hf.home hN with rfl | rfl
    · exact hS
    · exact h.closed.graph.callee _ hedge
  · cases hf with
    | call => exact hedge
    | this => exact hO

/-- So is what is passed along a covered call edge. -/
theorem wire {E : CallEdge (At CallSite) (At MethodId)} {f : Fact} (hE : s.Covers (.call E))
    (hf : WireFact g E f) : s.Covers f := by
  refine ⟨fun hN => ?_, ?_⟩
  · rcases hf.home hN with rfl | rfl
    · exact hE.home rfl
    · exact h.closed.graph.callee _ hE.backed
  · cases hf <;> trivial

end Mirrors

end RapidTypes

/-- **A call edge is found through an object**: a virtual or interface call of a method whose body
counts has the object as a receiver, and the edge is what it makes of it. -/
inductive State.Resolves (g : Setup) (s : State) (c : Call) (O : At Obj)
    (E : CallEdge (At CallSite) (At MethodId)) : Prop where
  | intro {C : Ctx} {m : MethodId} {d n : Method} {v : Slot} {i : Nat} (ht : g.Translates m)
      (hd : g.program.method? m = some d) (hs : d.body[i]? = some (.invoke c))
      (hk : c.kind = .virtual ∨ c.kind = .interface) (hv : c.receiver = some v)
      (hO : s.Settled (.holds (.var C (.declared m v)) O))
      (hn : g.program.callee? c O.item.type = some n)
      (hE : E = g.recvEdge c.kind ⟨C, .body m i⟩ O n.id)

/-- **Receivers fit**: a call edge that is found through an object is found through one whose type
is a subtype of the class that the call names. -/
def State.Fitting (g : Setup) (s : State) : Prop :=
  ∀ c O E, s.Resolves g c O E →
    ∃ O', s.Resolves g c O' E ∧ g.program.isSubtype O'.item.type (.cls c.target.cls) = true

theorem Program.dispatch_of_callee? {p : Program} {c : Call} {t : Ty} {n : Method}
    (h : p.callee? c t = some n) (hk : c.kind = .virtual ∨ c.kind = .interface) :
    p.dispatch t c.target.subsig = some n := by
  have hfound := (Option.filter_eq_some_iff.mp h).1
  rcases hk with hk | hk <;> simpa only [hk] using hfound

namespace RapidTypes

variable {g : Setup} {o : RapidOptions} {s : RapidTypes} {st : State}

namespace Mirrors

variable (h : s.Mirrors g o) (hfit : st.Fitting g)
  (hcovered : ∀ {P O}, st.Settled (.holds P O) → s.Covers (.holds P O))

include h hfit hcovered

/-- **A call edge that is found through an object has been found**, if receivers fit. -/
theorem mem_edges_of_resolves {c : Call} {O : At Obj} {E : CallEdge (At CallSite) (At MethodId)}
    (hE : st.Resolves g c O E) : ⟨E.kind, E.site.item, E.callee.item⟩ ∈ s.graph.edges := by
  obtain ⟨O', hE, hsub⟩ := hfit c O E hE
  cases hE with
  | intro ht hd hst hk hv hO hn hE =>
    subst hE
    have hholds := hcovered hO
    have hcall := ((h.visited (hholds.home rfl)).stmt hd hst).1 hk
    exact hholds.backed.mem_edges h.closed hcall hsub (dispatch_of_callee? hn hk)

/-- What follows from an object of a variable is covered, if receivers fit. -/
theorem use {C : Ctx} {v : Var} {O : At Obj} {f : Fact}
    (hO : st.Settled (.holds (.var C v) O)) (htr : g.Translates v.method)
    (hf : UseFact g C O v f) : s.Covers f := by
  have hholds := hcovered hO
  have hv : v.method ∈ s.graph.reachable := hholds.home rfl
  cases hf with
  | store | storeElem => exact .of_home?_none rfl trivial
  | load | loadElem =>
    refine ⟨?_, trivial⟩
    rintro M ⟨⟩
    exact hv
  | start ht | run ht => exact absurd ht h.threads
  | @call m d n x i c f hd hst hx hn hf =>
    refine h.bind (S := ⟨C, .body m i⟩) ?_ hv hholds.backed hf
    by_cases hk : c.kind = .virtual ∨ c.kind = .interface
    · exact h.mem_edges_of_resolves hfit hcovered (.intro htr hd hst hk hx hO hn rfl)
    · -- the callee of any other call does not depend on the receiver
      obtain ⟨hfound, hbody⟩ := Option.filter_eq_some_iff.mp hn
      simp only [Bool.and_eq_true, Bool.not_eq_true'] at hbody
      split at hfound
      · rename_i hspecial
        exact ((h.visited hv).stmt hd hst).2 (.inr hspecial) n hfound hbody.1
      · exact absurd (.inl ‹_›) hk
      · exact absurd (.inr ‹_›) hk
      · cases hfound

/-- **Covered facts are closed under the rules**, as far as premises are settled. -/
theorem stableOn (hp : g.program.WellFormed) :
    StableOn g st.Settled fun f => s.Covers f ∧ Derivable g f := by
  have hstable := Derivable.stableOn hp st.Settled
  refine ⟨fun {f f'} hset hD hf => ⟨?_, hstable.follow hset hD.2 hf⟩,
    fun he hO hP => ⟨⟨he.1.home, hO.1.backed⟩, hstable.flow he.2 hO.2 hP⟩,
    fun hO _ _ _ => hO.1.backed.elim,
    fun {C v O f} ho hset hD htr hf => ⟨?_, hstable.copy ho hset hD.2 htr hf⟩,
    fun he => hstable.fits he.2⟩
  · have hbacked := hD.1.backed
    cases hf with
    | announce => exact .of_home?_none rfl hbacked
    | stmt htr hd hst hf => exact h.stmt hbacked hd hst hf
    | ask ho => exact absurd ho h.threads
    | @init m d c ho hd hc hk =>
      obtain ⟨k, hk⟩ := Option.isSome_iff_exists.mp hk
      exact .of_home?_none rfl ((h.visited hbacked).uses (h.classes ho) hd (h.concrete hd)
        ⟨c, hc, k, mem_chain_self hk, name_of_class? hk⟩)
    | @super c u k hc hu hk =>
      obtain ⟨k', hk'⟩ := Option.isSome_iff_exists.mp hk
      obtain rfl := name_of_class? hc
      have habove : g.program.above k = some k' := by
        rw [Program.above, hu, Option.bind_some, hk']
      exact .of_home?_none rfl (name_of_class? hk' ▸ h.closed.rooted.above hbacked hc habove)
    | clinit hc hd =>
      obtain rfl := name_of_class? hc
      exact .of_home?_none rfl (h.closed.rooted.clinit hbacked hc hd)
    | reach E => exact .of_home?_none rfl (h.closed.graph.callee _ hbacked)
    | wire hf => exact h.wire hD.1 hf
    | use htr hf => exact h.use hfit hcovered hset htr hf
  · obtain ⟨F, rfl⟩ := hf.eq_flow
    exact ⟨fun hM => hf.home hM ▸ hD.1.home rfl, trivial⟩

end Mirrors

end RapidTypes

namespace Machine

variable {g : Setup} {m : Machine}

def Covered (g : Setup) (s : RapidTypes) (m : Machine) : Prop :=
  ∀ f, m.Due g f → s.Covers f

variable {o : RapidOptions} {s : RapidTypes} (h : s.Mirrors g o) (hg : g.Tame)

include h hg

theorem Covered.step {t : Task} {rest ts : List Task} {s' : State} (hm : m.Steady g)
    (hp : m.Performs g t rest ts s') (hfit : s'.Fitting g) (hcov : m.Covered g s) :
    Covered g s { state := s', agenda := ts ++ rest } := by
  have hsettled : ∀ {P O}, s'.Settled (.holds P O) → s.Covers (.holds P O) :=
    fun hO => hcov _ (.inl (hp.has_of_holds hm hO))
  exact fun f hf => (hp.mem_of_due hm (h.stableOn hfit hsettled hg.wellFormed)
    (fun f hf => ⟨hcov f hf, hm.sound.derivable_of_due hf⟩) hf).1

/-- **A run does not leave the covered facts.** -/
theorem covered_run {script : Script}
    (hfit : ∀ n, ((g.initial script).run g n).state.Fitting g) (n : Nat) :
    ((g.initial script).run g n).Covered g s := by
  -- that receivers fit is a fact about the rest of the run, and a step leaves less of the run
  have hstep : ∀ {m : Machine} {t rest ts s'}, m.Performs g t rest ts s' →
      (∀ n, (m.run g n).state.Fitting g) →
      ∀ n, (run g n { state := s', agenda := ts ++ rest }).state.Fitting g := by
    intro m t rest ts s' hp hfit n
    have hnext := hfit (n + 1)
    rwa [Machine.run, hp.agenda, isEmpty_cons, if_neg Bool.false_ne_true, hp.next] at hnext
  refine (Steady.induction (I := fun m => (∀ n, (m.run g n).state.Fitting g) ∧ m.Covered g s) hg
    ⟨hfit, fun f hf => h.given (given_of_due_initial hf)⟩ ?_ n).2.2
  rintro m t rest ts s' hm hp - ⟨hfit, hcov⟩
  have hrest := hstep hp hfit
  exact ⟨hrest, hcov.step h hg hm hp (hrest 0)⟩

end Machine

/-- **Instantiated types cover the flow of objects.** For an accepted program without finalizers in
which no static call resolves to an abstract method, an analysis that does not run threads and in
which receivers fit has a result; whatever is reachable in it is reachable in the analysis by
instantiated types with the same entry methods and classes, and so is every call edge. -/
theorem analyze_covered {p : Program} (h : p.Accepted) (hfin : p.hasFinalizers = false)
    (hconcrete : ∀ m d, p.method? m = some d → ∀ stmt ∈ d.body, p.callsAbstract stmt = false)
    {o : Options} (ho : o.threadStart = false) (policy : Policy) {more : List Observer}
    (hmore : ∀ w ∈ more, w.Watches)
    (hfit : let g := o.setup p policy more; ∀ n, ((g.initial []).run g n).state.Fitting g) :
    let s := RapidTypes.analyze p ⟨o.implicitEntries, o.classInit⟩
    ∃ r, analyze p o policy more = .ok r ∧ r.reachable ⊆ s.graph.reachable ∧
      r.callGraph.edges ⊆ s.graph.edges := by
  intro s
  have hg := Options.tame_setup h o policy hmore
  obtain ⟨r, hr, hstate, hwf, hlist⟩ := exists_analyze_eq_ok h o policy hmore
  obtain ⟨n, hn, -⟩ := Setup.exists_solve_eq_run hg.wellFormed hg.unscripted []
  have hmirrors := RapidTypes.mirrors_analyze h hfin hconcrete ho policy hmore
  have hcovers : ∀ {f}, r.state.Settled f → s.Covers f := by
    intro f hf
    rw [hstate, hn] at hf
    exact Machine.covered_run hmirrors hg hfit n f (.inl hf.has)
  refine ⟨r, hr, fun m hm => ?_, fun e he => ?_⟩
  · obtain ⟨C, hM⟩ := (Result.mem_reachable_iff hwf hlist).mp hm
    exact (hcovers hM).backed
  · obtain ⟨C, C', hE⟩ := (Result.mem_edges_callGraph_iff hwf).mp he
    exact (hcovers hE).backed

/-! ### When receivers fit -/

namespace Program

variable {p : Program}

/-- Whether only receivers of the class that is named answer to a virtual or interface call. All
arrays answer alike, so one stands for them all. -/
def answersFit (p : Program) : Stmt → Bool
  | .invoke c => decide (c.kind ≠ .virtual ∧ c.kind ≠ .interface) ||
      (.array .null :: p.classes.map fun k => .cls k.name).all fun t =>
        (p.dispatch t c.target.subsig).isNone || p.isSubtype t (.cls c.target.cls)
  | _ => true

theorem class?_of_dispatch {c subsig : String} {n : Method}
    (h : p.dispatch (.cls c) subsig = some n) : ∃ k, p.class? c = some k := by
  cases hc : p.class? c with
  | some k => exact ⟨k, rfl⟩
  | none =>
    have hchain : p.chain c = [] := by
      unfold chain
      cases p.classes.length with
      | zero => rfl
      | succ n => simp only [chainFrom, hc]
    simp [dispatch, receiverClass?, search, depthBound, searchFrom, hchain] at h

/-- Whatever answers to such a call is a subtype of the class that it names. -/
theorem isSubtype_of_answersFit {c : Call} (h : p.answersFit (.invoke c) = true)
    (hk : c.kind = .virtual ∨ c.kind = .interface) {t : Ty} {n : Method}
    (hn : p.dispatch t c.target.subsig = some n) :
    p.isSubtype t (.cls c.target.cls) = true := by
  have hall : ∀ u ∈ .array .null :: p.classes.map fun k => Ty.cls k.name,
      p.dispatch u c.target.subsig = some n → p.isSubtype u (.cls c.target.cls) = true := by
    intro u hu hn
    have hkind : ¬ (c.kind ≠ .virtual ∧ c.kind ≠ .interface) := fun hne => hk.elim hne.1 hne.2
    rw [answersFit, decide_eq_false hkind, Bool.false_or, all_eq_true] at h
    simpa [hn] using h u hu
  cases t with
  | cls a =>
    obtain ⟨k, hc⟩ := class?_of_dispatch hn
    have hmem : .cls a ∈ p.classes.map fun k => Ty.cls k.name :=
      mem_map.mpr ⟨k, mem_of_class? hc, congrArg Ty.cls (name_of_class? hc)⟩
    exact hall (.cls a) (.tail _ hmem) hn
  | array t => exact hall (.array .null) (.head _) hn
  | prim | null => cases hn

theorem stmt_of_classes {P : Stmt → Prop}
    (h : ∀ k ∈ p.classes, ∀ d ∈ k.methods, ∀ stmt ∈ d.body, P stmt) (m : MethodId) (d : Method)
    (hd : p.method? m = some d) : ∀ stmt ∈ d.body, P stmt := by
  obtain ⟨k, hk, hkd⟩ := method?_eq_some hd
  exact h k (mem_of_class? hk) d (mem_of_find?_eq_some hkd)

end Program

/-- **If only receivers of the named class answer to a call, receivers fit** at every moment. -/
theorem State.fitting_of_answersFit {g : Setup}
    (h : ∀ m d, g.program.method? m = some d → ∀ stmt ∈ d.body, g.program.answersFit stmt = true)
    (s : State) : s.Fitting g := by
  intro c O E hE
  refine ⟨O, hE, ?_⟩
  cases hE with
  | intro ht hd hst hk hv hO hn hE =>
    exact isSubtype_of_answersFit (h _ _ hd _ (mem_of_getElem? hst)) hk (dispatch_of_callee? hn hk)

/-- A program with an interface, two classes that implement it and an array of arrays; the method
of one class is called on an element, an object of the other class is made only. -/
def figureSource : ProgramSource where
  classes := [
    { name := "Shape", isInterface := true, methods := [{ sig := "abstract void draw()" }] },
    { name := "Circle", implements := ["Shape"], methods := [{ sig := "void draw()" }] },
    { name := "Square", implements := ["Shape"], methods := [{ sig := "void draw()" }] },
    { name := "Main"
      methods := [{
        sig := "static void main()"
        locals := ["Shape[][] grid", "Shape[] row", "Circle c", "Square q", "Shape s"]
        body := ["grid = new Shape[2][3]", "row = grid[0]", "c = new Circle", "q = new Square",
          "row[0] = c", "s = row[0]", "s.draw()"] }] }]
  entries := ["Main.main"]

set_option maxRecDepth 100000 in
/-- With contexts of one object; the call graph by instantiated types is larger. -/
theorem analyze_covered_figures : ∃ p r, Program.load figureSource = .ok p ∧
    analyze p { threadStart := false } (.obj 1) [.checker] = .ok r ∧
    let s := RapidTypes.analyze p {}
    r.reachable ⊆ s.graph.reachable ∧ r.callGraph.edges ⊆ s.graph.edges ∧
    r.reachable = [⟨"Main", "main()"⟩, ⟨"Circle", "draw()"⟩] ∧
    ⟨"Square", "draw()"⟩ ∈ s.graph.reachable := by
  obtain ⟨p, hload, hfin, hstmt, hsquare, hend, hrun⟩ : ∃ p, Program.load figureSource = .ok p ∧
      p.hasFinalizers = false ∧
      (∀ k ∈ p.classes, ∀ d ∈ k.methods, ∀ stmt ∈ d.body,
        p.callsAbstract stmt = false ∧ p.answersFit stmt = true) ∧
      ⟨"Square", "draw()"⟩ ∈ (RapidTypes.analyze p {}).graph.reachable ∧
      let g := Options.setup { threadStart := false } p (.obj 1) [.checker]
      ((g.initial []).run g 200).agenda.isEmpty = true ∧
      ((((g.initial []).run g 200).result g).toOption.any fun r =>
        decide (r.reachable = [⟨"Main", "main()"⟩, ⟨"Circle", "draw()"⟩])) = true :=
    exists_of_any_toOption (by decide +kernel)
  have hbody := stmt_of_classes hstmt
  have hmore : ∀ w ∈ [Observer.checker], w.Watches := by simp [Observer.Watches]
  obtain ⟨r, hr, hreach, hedges⟩ := analyze_covered ⟨_, hload⟩ hfin
    (fun m d hd stmt hst => (hbody m d hd stmt hst).1) (o := { threadStart := false }) rfl (.obj 1)
    hmore fun n =>
      State.fitting_of_answersFit (fun m d hd stmt hst => (hbody m d hd stmt hst).2) _
  refine ⟨p, r, hload, hr, hreach, hedges, ?_, hsquare⟩
  rw [← Machine.settle_eq_run (List.isEmpty_iff.mp hend)] at hrun
  obtain ⟨r', hr', hreachable⟩ := exists_of_any_toOption hrun
  cases hr.symm.trans hr'
  exact hreachable

end HeapFlow
