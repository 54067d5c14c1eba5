import HeapFlow.Proofs.Dispatching
import HeapFlow.Proofs.Projecting
import HeapFlow.Proofs.Shapes

/-!
# Objects with a finalizer

An object whose class has a finalizer is registered where it is made: the allocation counts as a
static call of the method that registers finalizers, with the variable that gets the object as
argument. The program has to declare both the finalizer of the root class and that method. Which
classes have a finalizer is a matter of dispatch (`Program.HasFinalizer`). If the finalizer of the
root class is abstract, dispatch may find nothing (`Program.LacksFinalizer`), and then objects are
registered as well (`Program.Accepted.needsFinalizer_iff`).
-/

namespace HeapFlow

open List

namespace Program

variable {p : Program} {c : String} {root reg : Method}

/-- Objects of a class have a finalizer other than that of the root class. -/
def HasFinalizer (p : Program) (c : String) : Prop :=
  ∃ d, p.dispatch (.cls c) rootFinalize.subsig = some d ∧ d.isAbstract = false ∧ d.id ≠ rootFinalize

/-- Objects of a class have no finalizer, not even that of the root class. -/
def LacksFinalizer (p : Program) (c : String) : Prop :=
  p.dispatch (.cls c) rootFinalize.subsig = none

/-- **The types whose objects are registered**, where `root` is the finalizer of the root class. -/
def Registers (p : Program) (root : Method) (t : Ty) : Prop :=
  ∃ c, t = .cls c ∧ (p.HasFinalizer c ∨ root.isAbstract = true ∧ p.LacksFinalizer c)

theorem isAbstract_of_dispatch {t : Ty} {subsig : String} {d : Method}
    (h : p.dispatch t subsig = some d) : d.isAbstract = false := by
  rw [dispatch_eq] at h
  obtain ⟨c, -, hc⟩ := Option.bind_eq_some_iff.mp h
  obtain ⟨k, -, hk⟩ := exists_of_search hc
  simpa using (Option.filter_eq_some_iff.mp hk).2

/-- The root class is on the chain of every class, so its finalizer is found if it has a body. -/
theorem Accepted.isAbstract_of_lacksFinalizer (h : p.Accepted)
    (hroot : p.method? rootFinalize = some root) (hc : (p.class? c).isSome = true)
    (hlacks : p.LacksFinalizer c) : root.isAbstract = true := by
  obtain ⟨k, hk, hkroot⟩ := method?_eq_some hroot
  obtain ⟨k', hk', hname⟩ := exists_mem_chain_iff.mpr
    ⟨Option.isSome_iff_exists.mpr ⟨k, hk⟩, h.linked.reaches_root h.acyclic hc⟩
  -- a class is found under its name only
  cases Option.some.inj (hk.symm.trans (hname ▸ class?_of_mem_chainFrom hk'))
  rw [LacksFinalizer, dispatch_eq, receiverClass?, Option.bind_some, search, depthBound,
    searchFrom_succ, Option.or_eq_none_iff, findSome?_eq_none_iff] at hlacks
  simpa [hkroot] using hlacks.1 k hk'

/-- **An object is registered if its class has a finalizer**, or if it has none at all. -/
theorem Accepted.needsFinalizer_iff (h : p.Accepted) (hroot : p.method? rootFinalize = some root)
    (hreg : p.method? finalizerRegister = some reg) {t : Ty} (ht : p.DeclaresType t) :
    p.needsFinalizer t = true ↔ p.Registers root t := by
  cases t with
  | cls c =>
    have hc : (p.class? c).isSome = true := ht c rfl
    cases hfinds : p.dispatch (.cls c) rootFinalize.subsig with
    | none =>
      have habstract := h.isAbstract_of_lacksFinalizer hroot hc hfinds
      simp [needsFinalizer, hasFinalizers, hroot, hreg, hfinds, Registers, HasFinalizer,
        LacksFinalizer, habstract]
    | some d =>
      simp [needsFinalizer, hasFinalizers, hroot, hreg, hfinds, Registers, HasFinalizer,
        LacksFinalizer, isAbstract_of_dispatch hfinds]
  | _ => simp [needsFinalizer, Registers]

theorem staticCallee?_finalizerRegister (hreg : p.method? finalizerRegister = some reg)
    (habstract : reg.isAbstract = false) (hstatic : reg.isStatic = true) :
    p.staticCallee? finalizerRegister = some reg := by
  obtain ⟨k, hk, hd⟩ := method?_eq_some hreg
  have hresolve : p.resolve finalizerRegister = some reg := search_of_class? _ hk hd
  simp [staticCallee?, hresolve, Option.filter, habstract, hstatic]

/-- Objects are registered only where they are made. -/
theorem exists_of_siteAt?_register {n m : MethodId} {i j : Nat}
    (h : p.siteAt? n j = some (.register m i)) :
    ∃ d dst t k, p.method? m = some d ∧ d.body[i]? = some (.new dst t k) ∧
      p.needsFinalizer t = true := by
  obtain ⟨st, hst, hsite⟩ := Option.bind_eq_some_iff.mp h
  obtain ⟨d, hd, hbody⟩ := Option.bind_eq_some_iff.mp hst
  cases st with
  | new dst t k =>
    rw [stmtSite?, Option.ite_none_right_eq_some] at hsite
    obtain ⟨ht, hsite⟩ := hsite
    cases hsite
    exact ⟨d, dst, t, k, hd, hbody, ht⟩
  | _ => cases hsite

end Program

/-- A statement of a reached method whose body counts makes an object of a type for a variable. -/
structure State.Allocates (s : State) (g : Setup) (M : At MethodId) (d : Method) (i : Nat)
    (dst : Slot) (t : Ty) : Prop where
  reached : s.Settled (.reached M)
  translates : g.Translates M.item
  method : g.program.method? M.item = some d
  stmt : ∃ n, d.body[i]? = some (.new dst t n)

/-- The call site where a statement registers the object that it makes, in a context. -/
def At.registerSite (M : At MethodId) (i : Nat) : At CallSite :=
  ⟨M.ctx, .register M.item i⟩

/-- A call from where an object is registered comes from its allocation. -/
theorem Derivable.of_register {g : Setup} {E : CallEdge (At CallSite) (At MethodId)} {m : MethodId}
    {i : Nat} (h : Derivable g (.call E)) (hE : E.site.item = .register m i) :
    ∃ d dst t n k, g.Translates m ∧ g.program.method? m = some d ∧
      d.body[i]? = some (.new dst t n) ∧ g.program.needsFinalizer t = true ∧
      g.program.staticCallee? finalizerRegister = some k ∧ E = g.staticEdge E.site k.id := by
  obtain ⟨f, hf⟩ := h.exists_follows_call
  cases hf with
  | stmt htr hd hs hf =>
    cases hf with
    | register dst n ht hm =>
      cases hE
      exact ⟨_, _, _, _, _, htr, hd, hs, ht, hm, rfl⟩
    | call => cases hE
  | wire hf => cases hf
  | use _ hf =>
    -- the calls with a receiver are at other call sites
    cases hf with
    | call _ _ _ _ hf | run _ _ _ hf =>
      cases hf
      cases hE

/-- **Objects with a finalizer are registered, and no others**, where `root` is the finalizer of the
root class and `reg` the method that registers. -/
structure Result.Finalizes (r : Result) (g : Setup) (root reg : Method) : Prop where
  called : ∀ {M d i dst t}, r.state.Allocates g M d i dst t →
    ((∃ C, r.state.Settled (.call ⟨.static, M.registerSite i, ⟨C, finalizerRegister⟩⟩)) ↔
      g.program.Registers root t)
  sole : ∀ {E m i}, r.state.Settled (.call E) → E.site.item = .register m i →
    E = g.staticEdge E.site finalizerRegister ∧ ∃ d dst t,
      r.state.Allocates g ⟨E.site.ctx, m⟩ d i dst t ∧ g.program.Registers root t
  /-- Without contexts, an allocation that asks for it has one such call site, with one edge,
  whatever the contexts are in which its method is reached. -/
  shared : ∀ {M d i dst t}, r.state.Allocates g M d i dst t → g.program.Registers root t →
    (r.callGraph.sitesIn M.item).count (.register M.item i) = 1 ∧
      r.callGraph.outOf (.register M.item i) = [⟨.static, .register M.item i, finalizerRegister⟩]
  sites : ∀ {n m i}, .register m i ∈ r.callGraph.sitesIn n → n = m ∧ ∃ C d dst t,
    r.state.Allocates g ⟨C, m⟩ d i dst t ∧ g.program.Registers root t
  /-- What a variable of a reference type holds that gets the object, the parameter holds. -/
  param : ∀ {M d i dst t N}, r.state.Allocates g M d i dst t →
    (d.varType dst).isReference = true →
    r.state.Settled (.call ⟨.static, M.registerSite i, N⟩) →
    ∃ x, reg.params = [x] ∧ ∀ O, r.state.Settled (.holds (M.var dst) O) →
      r.state.Settled (.holds (N.var x) O)

section End

variable {g : Setup} (hg : g.Tame)

include hg

theorem Setup.Tame.wf_state {r : Result} (hstate : r.state = (g.solve []).state) : r.state.Wf g :=
  hstate ▸ (hg.steady_solve []).sound.wf

variable {E : CallEdge (At CallSite) (At MethodId)}

/-- Call sites are in reached methods. -/
theorem Setup.Tame.reached_home (h : (g.solve []).state.Settled (.call E)) :
    (g.solve []).state.Settled (.reached E.home) := by
  obtain ⟨n, hn, hA⟩ := Setup.exists_solve_eq_run hg.wellFormed hg.unscripted []
  have ht := Machine.timely_run hg [] n
  rw [hn] at h ⊢
  exact (ht.called h).settled_of_nil hA

variable {M : At MethodId} {d reg : Method} {i : Nat} {dst : Slot} {t : Ty}

theorem Setup.Tame.settled_register (ha : (g.solve []).state.Allocates g M d i dst t)
    (ht : g.program.needsFinalizer t = true)
    (hreg : g.program.staticCallee? finalizerRegister = some reg) :
    (g.solve []).state.Settled (.call (g.staticEdge (M.registerSite i) reg.id)) := by
  obtain ⟨n, hs⟩ := ha.stmt
  exact hg.settled_of_follows Machine.kept_call ha.reached
    (.stmt ha.translates ha.method hs (.register dst n ht hreg))

theorem Setup.Tame.allocates_of_register {m : MethodId} (h : (g.solve []).state.Settled (.call E))
    (hE : E.site.item = .register m i) :
    ∃ d dst t k, (g.solve []).state.Allocates g ⟨E.site.ctx, m⟩ d i dst t ∧
      g.program.needsFinalizer t = true ∧
      g.program.staticCallee? finalizerRegister = some k ∧ E = g.staticEdge E.site k.id := by
  obtain ⟨hsound, -⟩ := Setup.sound_solve hg.wellFormed hg.unscripted []
  obtain ⟨d, dst, t, n, k, htr, hd, hs, ht, hk, hEk⟩ :=
    (hsound.derivable _ h.has).of_register hE
  have hreached := hg.reached_home h
  rw [CallEdge.home, hE] at hreached
  exact ⟨d, dst, t, k, ⟨hreached, htr, hd, n, hs⟩, ht, hk, hEk⟩

/-- Arguments have become parameters. -/
theorem Setup.Tame.settled_param (h : (g.solve []).state.Settled (.call E)) (hk : E.kind ≠ .other)
    {c : Call} {k : Method} (hc : g.program.call? E.site.item = some c)
    (hcallee : g.program.method? E.callee.item = some k) {a x : Slot}
    (hax : (a, x) ∈ c.args.zip k.params)
    (ha : g.program.holdsObjects (.declared E.site.item.method a) = true) {O : At Obj}
    (hO : (g.solve []).state.Settled
      (.holds (.var E.site.ctx (.declared E.site.item.method a)) O)) :
    (g.solve []).state.Settled (.holds (E.callee.var x) O) := by
  have hwire : WireFact g E _ := .arg hk hc hcallee hax ha
  have hflow := hg.settled_of_follows hwire.kept h (.wire hwire)
  obtain ⟨hidle, -⟩ := Setup.listed_solve hg.wellFormed hg.unscripted []
  exact hidle.settled_of_has ((hg.steady_solve []).sound.wf.flowed hflow hO fun _ h => by cases h)

end End

section Result

variable {g : Setup} {root reg : Method} {M : At MethodId} {d : Method} {dst : Slot} {i : Nat}
  {s : State} {t : Ty} {m : MethodId}

theorem State.Allocates.declaresType (h : s.Allocates g M d i dst t) (hp : g.program.Accepted) :
    g.program.DeclaresType t := by
  obtain ⟨n, hs⟩ := h.stmt
  exact (hp.shape h.method (mem_of_getElem? hs)).2.1

theorem State.Allocates.type_eq {d' : Method} {dst' : Slot} {t' : Ty}
    (h : s.Allocates g M d i dst t) (h' : s.Allocates g M d' i dst' t') : t = t' := by
  obtain ⟨n, hs⟩ := h.stmt
  obtain ⟨n', hs'⟩ := h'.stmt
  cases h.method.symm.trans h'.method
  cases hs.symm.trans hs'
  rfl

theorem State.Allocates.holdsObjects (h : s.Allocates g M d i dst t) (hp : g.program.Accepted)
    (hdst : (d.varType dst).isReference = true) :
    g.program.holdsObjects (.declared M.item dst) = true := by
  obtain ⟨n, hs⟩ := h.stmt
  have hlt : dst < d.vars.length :=
    (hp.shape h.method (mem_of_getElem? hs)).1 dst (mem_singleton_self _)
  rw [Program.holdsObjects, Program.varType, h.method]
  exact (hp.typed h.method).holdsObjects_of_isReference hlt hdst

/-- **What makes finalizers work**: an accepted program declares the finalizer of the root class and
a static method with a body that registers objects. -/
structure Setup.Finalizing (g : Setup) (root reg : Method) : Prop where
  accepted : g.program.Accepted
  tame : g.Tame
  finalize : g.program.method? rootFinalize = some root
  register : g.program.method? finalizerRegister = some reg
  concrete : reg.isAbstract = false
  static : reg.isStatic = true

variable (hf : g.Finalizing root reg)

include hf

theorem Setup.Finalizing.callee : g.program.staticCallee? finalizerRegister = some reg :=
  Program.staticCallee?_finalizerRegister hf.register hf.concrete hf.static

theorem Setup.Finalizing.id_eq : reg.id = finalizerRegister :=
  hf.tame.wellFormed.id_eq hf.register

/-- Declared types ask for it if their class has a finalizer. -/
theorem State.Allocates.needsFinalizer_iff (h : s.Allocates g M d i dst t) :
    g.program.needsFinalizer t = true ↔ g.program.Registers root t :=
  hf.accepted.needsFinalizer_iff hf.finalize hf.register (h.declaresType hf.accepted)

/-- An allocation whose type asks for it is a call of the method that registers objects. -/
theorem State.Allocates.settled_register (h : (g.solve []).state.Allocates g M d i dst t)
    (ht : g.program.Registers root t) :
    (g.solve []).state.Settled (.call (g.staticEdge (M.registerSite i) finalizerRegister)) := by
  have hsettled := hf.tame.settled_register h ((h.needsFinalizer_iff hf).mpr ht) hf.callee
  rwa [hf.id_eq] at hsettled

/-- A call from where an object is registered is that of an allocation whose type asks for it. -/
theorem Setup.Finalizing.exists_allocates {E : CallEdge (At CallSite) (At MethodId)}
    (h : (g.solve []).state.Settled (.call E)) (hE : E.site.item = .register m i) :
    E = g.staticEdge E.site finalizerRegister ∧ ∃ d dst t,
      (g.solve []).state.Allocates g ⟨E.site.ctx, m⟩ d i dst t ∧ g.program.Registers root t := by
  obtain ⟨d, dst, t, k, ha, ht, hk, hEk⟩ := hf.tame.allocates_of_register h hE
  cases hk.symm.trans hf.callee
  rw [hf.id_eq] at hEk
  exact ⟨hEk, d, dst, t, ha, (ha.needsFinalizer_iff hf).mp ht⟩

theorem State.Allocates.param {N : At MethodId} (h : (g.solve []).state.Allocates g M d i dst t)
    (hdst : (d.varType dst).isReference = true)
    (hN : (g.solve []).state.Settled (.call ⟨.static, M.registerSite i, N⟩)) :
    ∃ x, reg.params = [x] ∧ ∀ O, (g.solve []).state.Settled (.holds (M.var dst) O) →
      (g.solve []).state.Settled (.holds (N.var x) O) := by
  have harity : arity finalizerRegister.subsig = 1 := by decide +kernel
  obtain ⟨x, hx⟩ :=
    length_eq_one_iff.mp ((hf.tame.wellFormed.params_length hf.register).trans harity)
  obtain ⟨n, hs⟩ := h.stmt
  have hcall : g.program.call? (.register M.item i) =
      some { kind := .static, target := finalizerRegister, args := [dst] } := by
    rw [Program.call?, Program.stmt?, h.method, Option.bind_some, hs]
  obtain ⟨hedge, -⟩ := hf.exists_allocates hN rfl
  obtain rfl : N = ⟨g.policy.siteCtx (M.registerSite i), finalizerRegister⟩ :=
    congrArg CallEdge.callee hedge
  refine ⟨x, hx, fun O hO => hf.tame.settled_param hN (by simp) hcall hf.register ?_
    (h.holdsObjects hf.accepted hdst) hO⟩
  simp [hx]

variable {r : Result} (hstate : r.state = (g.solve []).state)

include hstate

/-- The edges of such a site lead to the method that registers. -/
theorem Setup.Finalizing.mem_edges_register {e : CallEdge CallSite MethodId}
    (he : e ∈ r.callGraph.edges) (hsite : e.site = .register m i) :
    e = ⟨.static, .register m i, finalizerRegister⟩ ∧ ∃ C d dst t,
      r.state.Allocates g ⟨C, m⟩ d i dst t ∧ g.program.Registers root t := by
  obtain ⟨C, C', hE⟩ := (Result.mem_edges_callGraph_iff (hf.tame.wf_state hstate)).mp he
  rw [hstate] at hE ⊢
  obtain ⟨hedge, d, dst, t, ha, ht⟩ := hf.exists_allocates hE hsite
  have hkind : e.kind = .static := congrArg CallEdge.kind hedge
  have hcallee : e.callee = finalizerRegister := congrArg (·.callee.item) hedge
  refine ⟨?_, C, d, dst, t, ha, ht⟩
  rw [← hkind, ← hsite, ← hcallee]

theorem State.Allocates.shared (hprojects : r.Projects g)
    (h : (g.solve []).state.Allocates g M d i dst t) (ht : g.program.Registers root t) :
    (r.callGraph.sitesIn M.item).count (.register M.item i) = 1 ∧
      r.callGraph.outOf (.register M.item i) =
        [⟨.static, .register M.item i, finalizerRegister⟩] := by
  have hedge : ⟨.static, .register M.item i, finalizerRegister⟩ ∈ r.callGraph.edges :=
    (Result.mem_edges_callGraph_iff (hf.tame.wf_state hstate)).mpr
      ⟨_, _, hstate ▸ h.settled_register hf ht⟩
  refine ⟨?_, ?_⟩
  · obtain ⟨hnodup, hsites⟩ := hprojects.coherent.sitesIn M.item
    exact count_eq_one_of_mem hnodup ((hsites _).mpr (hprojects.called _ hedge))
  · obtain ⟨hnodup, hout⟩ := hprojects.coherent.outOf (.register M.item i)
    refine perm_singleton.mp ((perm_ext_iff_of_nodup hnodup (nodup_singleton _)).mpr fun e => ?_)
    rw [hout, mem_singleton]
    constructor
    · rintro ⟨he, hsite⟩
      exact (hf.mem_edges_register hstate he hsite).1
    · rintro rfl
      exact ⟨hedge, rfl⟩

/-- Without contexts a call site where an object is registered is that of an allocation: it has an
edge, or a reachable method enters it. -/
theorem Setup.Finalizing.exists_of_mem_sitesIn
    (hlist : r.reachable = (Snapshot.of r.registry r.state.calls).reachable) {n : MethodId}
    (h : .register m i ∈ r.callGraph.sitesIn n) : n = m ∧ ∃ C d dst t,
      r.state.Allocates g ⟨C, m⟩ d i dst t ∧ g.program.Registers root t := by
  have hprojects := hf.tame.projects hstate hlist
  have hcontainer := ((hprojects.coherent.sitesIn n).2 _).mp h
  obtain ⟨rfl, ⟨e, he, hsite⟩ | ⟨hreach, htr, j, hj⟩⟩ := (hprojects.container _ _).mp hcontainer
  · exact ⟨rfl, (hf.mem_edges_register hstate he hsite).2⟩
  · rw [hprojects.order] at hreach
    obtain ⟨C, hC⟩ := (Result.mem_reachable_iff (hf.tame.wf_state hstate) hlist).mp hreach
    obtain ⟨d, dst, t, k, hd, hs, ht⟩ := Program.exists_of_siteAt?_register hj
    have ha : r.state.Allocates g ⟨C, m⟩ d i dst t := ⟨hC, htr, hd, k, hs⟩
    exact ⟨rfl, C, d, dst, t, ha, (ha.needsFinalizer_iff hf).mp ht⟩

/-- **Put together.** -/
theorem Setup.Finalizing.finalizes
    (hlist : r.reachable = (Snapshot.of r.registry r.state.calls).reachable) :
    r.Finalizes g root reg where
  called ha := by
    rw [hstate] at ha ⊢
    constructor
    · rintro ⟨C, hC⟩
      obtain ⟨-, d, dst, t, ha', ht⟩ := hf.exists_allocates hC rfl
      rwa [ha.type_eq ha']
    · exact fun ht => ⟨_, ha.settled_register hf ht⟩
  sole h hE := by
    rw [hstate] at h ⊢
    exact hf.exists_allocates h hE
  shared ha := (hstate ▸ ha).shared hf hstate (hf.tame.projects hstate hlist)
  sites := hf.exists_of_mem_sitesIn hstate hlist
  param ha hdst hN := by
    rw [hstate] at ha hN ⊢
    exact ha.param hf hdst hN

end Result

/-- **Objects with a finalizer are registered where they are made, and no others**, unless the
finalizer of the root class is abstract. If a program declares that finalizer and a static method
with a body for registering, an analysis has a result, and it is as `Result.Finalizes` says: each
allocation of a reached method whose body counts has one call site, the same in all contexts, with
an edge to that method just if its type asks for it; there are no other call sites of the kind; and
all objects of the variable that gets the object are objects of the parameter. A type asks for it if
it is a class with a finalizer other than that of the root class, or, the latter being abstract, one
without any. -/
theorem finalizers_registered {p : Program} (h : p.Accepted) {root reg : Method}
    (hroot : p.method? rootFinalize = some root) (hreg : p.method? finalizerRegister = some reg)
    (habstract : reg.isAbstract = false) (hstatic : reg.isStatic = true) (o : Options)
    (policy : Policy) {more : List Observer} (hmore : ∀ w ∈ more, w.Watches) :
    ∃ r, analyze p o policy more = .ok r ∧ r.Finalizes (o.setup p policy more) root reg := by
  obtain ⟨r, hr, hstate, -, hlist⟩ := exists_analyze_eq_ok h o policy hmore
  have hf : (o.setup p policy more).Finalizing root reg :=
    ⟨h, Options.tame_setup h o policy hmore, hroot, hreg, habstract, hstatic⟩
  exact ⟨r, hr, hf.finalizes hstate hlist⟩

/-- A method, called at two places, that makes an object with an inherited finalizer and one with
the finalizer of the root class, which comes before that of an interface. -/
def socketSource : ProgramSource where
  classes := [
    { name := "Object", methods := [{ sig := "void finalize()" }] },
    { name := "Finalizer", methods := [{ sig := "static void register(Object o)" }] },
    { name := "Closing", isInterface := true
      methods := [{ sig := "void finalize()", body := ["return"] }] },
    { name := "Handle", methods := [{ sig := "void finalize()" }] },
    { name := "Socket", superclass := "Handle" },
    { name := "Memo", implements := ["Closing"] },
    { name := "Main"
      methods := [
        { sig := "static void make()", locals := ["Object x", "Object y"],
          body := ["x = new Memo", "y = new Socket"] },
        { sig := "static void main()", body := ["Main.make()", "Main.make()"] }] }]
  entries := ["Main.main"]

def socketMake : MethodId := ⟨"Main", "make()"⟩

/-- With contexts of one call site, one of the two allocations calls the method that registers
objects, once in each context, and has one call site without contexts. -/
theorem finalizers_registered_socket : ∃ p r, Program.load socketSource = .ok p ∧
    analyze p {} (.call 1) [] = .ok r ∧
    (∃ root ∈ p.method? rootFinalize, ∃ reg ∈ p.method? finalizerRegister,
      root.isAbstract = false ∧ r.Finalizes (Options.setup {} p (.call 1) []) root reg) ∧
    (p.dispatch (.cls "Socket") rootFinalize.subsig).map (·.id) = some ⟨"Handle", "finalize()"⟩ ∧
    (p.dispatch (.cls "Memo") rootFinalize.subsig).map (·.id) = some rootFinalize ∧
    (r.state.calls.edges.map (r.registry.callSite ·.site)).count (.register socketMake 1) = 2 ∧
    r.callGraph.sitesIn socketMake = [.register socketMake 1] ∧
    r.pointsTo (.declared finalizerRegister 0) = r.pointsTo (.declared socketMake 1) ∧
    r.pointsTo (.declared socketMake 1) ≠ [] := by
  obtain ⟨p, hload, hsocket, hmemo, r, hr, hedges, hsites, hparam, hsome, root, hroot, reg,
      hreg, hbody, habstract, hstatic⟩ :
      ∃ p, Program.load socketSource = .ok p ∧
        (p.dispatch (.cls "Socket") rootFinalize.subsig).map (·.id) =
          some ⟨"Handle", "finalize()"⟩ ∧
        (p.dispatch (.cls "Memo") rootFinalize.subsig).map (·.id) = some rootFinalize ∧
        ∃ r ∈ resultWithin 200 p {} (.call 1),
          (r.state.calls.edges.map (r.registry.callSite ·.site)).count (.register socketMake 1) =
            2 ∧
          r.callGraph.sitesIn socketMake = [.register socketMake 1] ∧
          r.pointsTo (.declared finalizerRegister 0) = r.pointsTo (.declared socketMake 1) ∧
          r.pointsTo (.declared socketMake 1) ≠ [] ∧
          ∃ root ∈ p.method? rootFinalize, ∃ reg ∈ p.method? finalizerRegister,
            root.isAbstract = false ∧ reg.isAbstract = false ∧ reg.isStatic = true :=
    exists_of_any_toOption (by decide +kernel)
  have hr := analyze_of_resultWithin hr
  have hmore : ∀ w ∈ ([] : List Observer), w.Watches := by simp
  obtain ⟨r', hr', hfinalizes⟩ := finalizers_registered ⟨_, hload⟩ hroot hreg habstract hstatic {}
    (.call 1) hmore
  cases Except.ok.inj (hr.symm.trans hr')
  exact ⟨p, r, hload, hr, ⟨root, hroot, reg, hreg, hbody, hfinalizes⟩, hsocket, hmemo, hedges,
    hsites, hparam, hsome⟩

/-- A program in which the finalizer of the root class is abstract. -/
def bareSource : ProgramSource where
  classes := [
    { name := "Object", isAbstract := true, methods := [{ sig := "abstract void finalize()" }] },
    { name := "Finalizer", methods := [{ sig := "static void register(Object o)" }] },
    { name := "A", methods := [
      { sig := "static void main()", locals := ["A x"], body := ["x = new A"] }] }]
  entries := ["A.main"]

/-- **An object without a finalizer is registered** if that of the root class is abstract. -/
theorem registered_without_finalizer : ∃ p r, Program.load bareSource = .ok p ∧
    analyze p {} .insensitive [] = .ok r ∧ ¬ p.HasFinalizer "A" ∧
    (p.method? finalizerRegister).any (fun m => !m.isAbstract && m.isStatic) = true ∧
    r.callGraph.outOf (.register ⟨"A", "main()"⟩ 0) =
      [⟨.static, .register ⟨"A", "main()"⟩ 0, finalizerRegister⟩] := by
  obtain ⟨p, hload, hlacks, hreg, r, hr, hout⟩ :
      ∃ p, Program.load bareSource = .ok p ∧
        p.dispatch (.cls "A") rootFinalize.subsig = none ∧
        (p.method? finalizerRegister).any (fun m => !m.isAbstract && m.isStatic) = true ∧
        ∃ r ∈ resultWithin 100 p {} .insensitive,
          r.callGraph.outOf (.register ⟨"A", "main()"⟩ 0) =
            [⟨.static, .register ⟨"A", "main()"⟩ 0, finalizerRegister⟩] :=
    exists_of_any_toOption (by decide +kernel)
  refine ⟨p, r, hload, analyze_of_resultWithin hr, ?_, hreg, hout⟩
  rintro ⟨d, hd, -⟩
  rw [hlacks] at hd
  cases hd

end HeapFlow
