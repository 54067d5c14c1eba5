import HeapFlow.Proofs.Solving

/-!
# The result of an analysis is saturated

At the end of an analysis what has been found is closed under the constraints of the program: a copy
`y = x` asks that all objects of `x` are objects of `y`, and so on. `Saturated` lists the
constraints in this form, without the flow edges by which an analysis keeps them. A variable passes
objects on only if its type *carries* objects; which types do is a parameter, for the condition
cannot be dropped (`numbers_pass_nothing_on`).
-/

namespace HeapFlow

section Constraints

variable (g : Setup) (carries : Ty → Prop) (F : Fact → Prop)

/-- The constraints of the statements in the body `d` of a method in a context. Those that go
through a variable are not among them. -/
structure BodyHolds (M : At MethodId) (d : Method) : Prop where
  new : ∀ {i : Nat} {dst t n}, d.body[i]? = some (.new dst t n) →
    F (.holds (M.var dst) (g.made M (g.merging.allocated d i t)))
  depth : ∀ {i : Nat} {dst t n}, d.body[i]? = some (.new dst t n) → 1 < n →
    (g.arraysOf d i t n).length = n
  chain : ∀ {i : Nat} {dst t n a b}, d.body[i]? = some (.new dst t n) →
    [a, b] <:+: g.arraysOf d i t n → F (.holds (.elems (g.made M a)) (g.made M b))
  register : ∀ {i : Nat} {dst t n m}, d.body[i]? = some (.new dst t n) →
    g.program.needsFinalizer t = true → g.program.staticCallee? finalizerRegister = some m →
    F (.call (g.staticEdge ⟨M.ctx, .register M.item i⟩ m.id))
  const : ∀ {i : Nat} {dst l o}, d.body[i]? = some (.const dst l) →
    g.merging.constant? l = some o → F (.holds (M.var dst) (g.made M o))
  copy : ∀ {i : Nat} {dst x}, d.body[i]? = some (.copy dst x) → carries (d.varType x) →
    ∀ O, F (.holds (M.var x) O) → F (.holds (M.var dst) O)
  cast : ∀ {i : Nat} {dst t x}, d.body[i]? = some (.cast dst t x) → carries (d.varType x) →
    ∀ O, F (.holds (M.var x) O) → g.program.isSubtype O.item.type t = true →
      F (.holds (M.var dst) O)
  loadStatic : ∀ {i : Nat} {dst f}, d.body[i]? = some (.loadStatic dst f) →
    carries (d.varType dst) → ∀ O, F (.holds (.static f) O) → F (.holds (M.var dst) O)
  storeStatic : ∀ {i : Nat} {f x}, d.body[i]? = some (.storeStatic f x) →
    carries (d.varType x) → ∀ O, F (.holds (M.var x) O) → F (.holds (.static f) O)
  call : ∀ {i : Nat} {c m}, d.body[i]? = some (.invoke c) → c.kind = .static →
    g.program.staticCallee? c.target = some m →
    F (.call (g.staticEdge ⟨M.ctx, .body M.item i⟩ m.id))

/-- The constraints of the statements in the body `d` of a method in a context that go through the
variable `v`, for an object `B` of the variable. -/
structure UsesHold (M : At MethodId) (d : Method) (v : Slot) (B : At Obj) : Prop where
  /-- A store `v.f = x`. -/
  store : ∀ {f x}, Stmt.store v f x ∈ d.body → carries (d.varType x) →
    ∀ O, F (.holds (M.var x) O) → F (.holds (.field B f) O)
  /-- A load `y = v.f`. -/
  load : ∀ {y f}, Stmt.load y v f ∈ d.body → carries (d.varType y) →
    ∀ O, F (.holds (.field B f) O) → F (.holds (M.var y) O)
  /-- A store `v[*] = x`, which only objects of the element type pass. -/
  storeElem : ∀ {x t}, Stmt.storeElem v x ∈ d.body → carries (d.varType x) →
    B.item.type = .array t → ∀ O, F (.holds (M.var x) O) →
    g.program.isSubtype O.item.type t = true → F (.holds (.elems B) O)
  /-- A load `y = v[*]`. -/
  loadElem : ∀ {y t}, Stmt.loadElem y v ∈ d.body → carries (d.varType y) → B.item.type = .array t →
    ∀ O, F (.holds (.elems B) O) → F (.holds (M.var y) O)
  /-- A call on `v`: the method that the object has for it is called, with the object as `this`. -/
  call : ∀ {i : Nat} {c n}, d.body[i]? = some (.invoke c) → c.receiver = some v →
    g.program.callee? c B.item.type = some n →
    F (.call (g.recvEdge c.kind ⟨M.ctx, .body M.item i⟩ B n.id)) ∧
      F (.holds ((g.recvEdge c.kind ⟨M.ctx, .body M.item i⟩ B n.id).callee.var 0) B)

/-- The constraints of a call edge. Edges made by models pass neither arguments nor results. -/
structure CallHolds (e : CallEdge (At CallSite) (At MethodId)) : Prop where
  reach : F (.reached e.callee)
  arg : ∀ {c b d a x}, e.kind ≠ .other → g.program.call? e.site.item = some c →
    g.program.method? e.site.item.method = some b → g.program.method? e.callee.item = some d →
    (a, x) ∈ c.args.zip d.params → carries (b.varType a) →
    ∀ O, F (.holds (.var e.site.ctx (.declared e.site.item.method a)) O) →
      F (.holds (e.callee.var x) O)
  ret : ∀ {c b d x v}, e.kind ≠ .other → g.program.call? e.site.item = some c →
    g.program.method? e.site.item.method = some b → g.program.method? e.callee.item = some d →
    c.result = some x → v ∈ d.returned → carries (b.varType x) → carries (d.varType v) →
    ∀ O, F (.holds (e.callee.var v) O) →
      F (.holds (.var e.site.ctx (.declared e.site.item.method x)) O)

/-- **A set of facts is closed under all constraints of a program.** -/
structure Saturated : Prop where
  entry : ∀ {b m}, .entryPoints b ∈ g.observers →
    m ∈ g.program.entries ++ (if b then g.program.implicitEntries else []) → F (.reached ⟨[], m⟩)
  arguments : ∀ {b m d x t n}, .entryPoints b ∈ g.observers →
    m ∈ g.program.entries.filter g.program.takesArguments → g.program.method? m = some d →
    d.params.head? = some x → d.varType x = .array t → g.program.argumentsOwner? t = some n →
    F (.holds (.var [] (.declared m x)) ⟨[], .arguments t n⟩) ∧
      (t.isReference = true → F (.holds (.elems ⟨[], .arguments t n⟩) ⟨[], .argument t n⟩))
  body : ∀ {M d}, F (.reached M) → g.Translates M.item → g.program.method? M.item = some d →
    BodyHolds g carries F M d
  uses : ∀ {M : At MethodId} {d v B}, F (.holds (M.var v) B) → g.Translates M.item →
    g.program.method? M.item = some d → UsesHold g carries F M d v B
  call : ∀ {e}, F (.call e) → CallHolds g carries F e
  init : ∀ {M d c}, .classInit ∈ g.observers → F (.reached M) → g.Translates M.item →
    g.program.method? M.item = some d → c ∈ g.program.activeUses d →
    (g.program.class? c).isSome = true → F (.initialized c)
  super : ∀ {c u k}, F (.initialized c) → g.program.class? c = some k → k.super = some u →
    (g.program.class? u).isSome = true → F (.initialized u)
  clinit : ∀ {c k d}, F (.initialized c) → g.program.class? c = some k → k.clinit? = some d →
    F (.reached ⟨[], d.id⟩)
  run : ∀ {C B n}, .threads ∈ g.observers → g.program.hasThreads = true →
    g.Translates threadStart → F (.holds (.var C (.declared threadStart 0)) B) →
    g.program.runMethod? B.item.type = some n →
    F (.call (g.recvEdge .other ⟨C, .threadRun⟩ B n.id)) ∧
      F (.holds ((g.recvEdge .other ⟨C, .threadRun⟩ B n.id).callee.var 0) B)
  current : ∀ {C D B d v}, .threads ∈ g.observers → g.program.hasThreads = true →
    g.Translates threadStart → F (.holds (.var C (.declared threadStart 0)) B) →
    F (.reached ⟨D, threadCurrent⟩) → g.Translates threadCurrent →
    g.program.returnsThread threadCurrent = true → g.program.method? threadCurrent = some d →
    v ∈ d.returned → F (.holds (.var D (.declared threadCurrent v)) B)

end Constraints

/-! ### Closed sets are saturated -/

theorem Obj.length_inners (m : MethodId) (outer : Obj) {n : Nat} {t : Ty} (h : n + 1 ≤ t.dims) :
    (Obj.inners m outer n t).length = n := by
  induction n generalizing t with
  | zero => rfl
  | succ n ih =>
    -- at least two dimensions are left, so the elements are arrays as well
    match t, h with
    | .array (.array u), h =>
      have hu : n + 1 ≤ (Ty.array u).dims := by
        simp only [Ty.dims] at h ⊢
        omega
      simp only [Obj.inners, Ty.elem?, List.length_cons, ih hu]
    | .array (.prim _), h => simp [Ty.dims] at h
    | .array .null, h => simp [Ty.dims] at h
    | .array (.cls _), h => simp [Ty.dims] at h

namespace Stable

variable {g : Setup} {F : Fact → Prop} {k : FlowKind} {M : At MethodId} {d : Method}

/-- What flows is included. -/
theorem included (h : Stable g F) {P Q : Place} (hf : F (.flow ⟨P, Q, k, none⟩)) (O : At Obj)
    (hO : F (.holds P O)) : F (.holds Q O) :=
  h.flow hf hO (by rintro t ⟨⟩)

theorem included_of_isSubtype (h : Stable g F) {P Q : Place} {t : Ty}
    (hf : F (.flow ⟨P, Q, k, some t⟩)) (O : At Obj) (hO : F (.holds P O))
    (ht : g.program.isSubtype O.item.type t = true) : F (.holds Q O) := by
  refine h.flow hf hO fun u hu => ?_
  cases hu
  exact ht

/-- The statements of reached methods hold. -/
theorem bodyHolds (h : Stable g F) (hp : g.program.WellFormed) (hM : F (.reached M))
    (ht : g.Translates M.item) (hd : g.program.method? M.item = some d) :
    BodyHolds g (fun t => t.holdsObjects = true) F M d := by
  have hstmt : ∀ {i s f}, d.body[i]? = some s → StmtFact g M d i s f → F f := fun hs hf =>
    h.follow hM (.stmt ht hd hs hf)
  exact {
    new := fun hs => hstmt hs (.new ..)
    depth := fun {i dst t n} hs hn => by
      have hle : n ≤ t.dims := hp.stmtOk hd (List.mem_of_getElem? hs) hn
      rw [Setup.arraysOf, List.length_cons, Obj.length_inners _ _ (by omega)]
      omega
    chain := fun hs hab => hstmt hs (.inner _ hab)
    register := fun hs hf hm => hstmt hs (.register _ _ hf hm)
    const := fun hs ho => hstmt hs (.const _ ho)
    copy := fun hs hx => h.included (hstmt hs (.copy _ hx))
    cast := fun hs hx => h.included_of_isSubtype (hstmt hs (.cast _ _ hx))
    loadStatic := fun hs hx => h.included (hstmt hs (.loadStatic _ hx))
    storeStatic := fun hs hx => h.included (hstmt hs (.storeStatic _ hx))
    call := fun hs hk hm => hstmt hs (.call hk hm) }

theorem usesHold (h : Stable g F) {v : Slot} {B : At Obj} (hB : F (.holds (M.var v) B))
    (ht : g.Translates M.item) (hd : g.program.method? M.item = some d) :
    UsesHold g (fun t => t.holdsObjects = true) F M d v B := by
  have huse : ∀ {f}, UseFact g M.ctx B (.declared M.item v) f → F f := fun hf =>
    h.follow hB (.use ht hf)
  exact {
    store := fun hs hx => h.included (huse (.store hd hs hx))
    load := fun hs hy => h.included (huse (.load hd hs hy))
    storeElem := fun hs hx hB => h.included_of_isSubtype (huse (.storeElem hd hs hx hB))
    loadElem := fun hs hy hB => h.included (huse (.loadElem hd hs hy hB))
    call := fun hs hv hn => ⟨huse (.call hd hs hv hn .call), huse (.call hd hs hv hn .this)⟩ }

theorem callHolds (h : Stable g F) {e : CallEdge (At CallSite) (At MethodId)} (he : F (.call e)) :
    CallHolds g (fun t => t.holdsObjects = true) F e := by
  have hvar : ∀ {b a}, g.program.method? e.site.item.method = some b →
      (b.varType a).holdsObjects = true →
      g.program.holdsObjects (.declared e.site.item.method a) = true := by
    intro b a hb ha
    simpa only [Program.holdsObjects, Program.varType, hb] using ha
  exact {
    reach := h.follow he (.reach e)
    arg := fun hk hc hb hd hax ha =>
      h.included (h.follow he (.wire (.arg hk hc hd hax (hvar hb ha))))
    ret := fun hk hc hb hd hx hv hcx hcv =>
      h.included (h.follow he (.wire (.ret hk hc hd hx (hvar hb hcx) hv hcv))) }

/-- **A closed set of facts is saturated.** -/
theorem saturated (h : Stable g F) (hp : g.program.WellFormed) :
    Saturated g (fun t => t.holdsObjects = true) F where
  entry hb hm := h.given ⟨_, hb, .entry hm⟩
  arguments hb hm hd hx ht hn := by
    have hargs : ∀ {f}, ArgFact g _ f → F f := fun hf => h.given ⟨_, hb, .args hm hf⟩
    exact ⟨hargs (.array hd hx ht hn), fun hr => hargs (.elem hd hx ht hn hr)⟩
  body hM ht hd := h.bodyHolds hp hM ht hd
  uses hB ht hd := h.usesHold hB ht hd
  call he := h.callHolds he
  init ho hM ht hd hc hk := h.follow (h.follow hM (.announce ht)) (.init ho hd hc hk)
  super hc hk hu hs := h.follow hc (.super hk hu hs)
  clinit hc hk hd := h.follow hc (.clinit hk hd)
  run ho hth ht hB hn :=
    ⟨h.follow hB (.use ht (.run ho hth hn .call)), h.follow hB (.use ht (.run ho hth hn .this))⟩
  current ho hth ht hB hM ht' hret hd hv := by
    have hstarted := h.follow hB (.use ht (.start ho hth))
    have hasks := h.follow hM (.ask ho ht' hret)
    exact h.current hstarted hasks hd hv

end Stable

/-- **Nothing is missing.** Without copies of array elements, what has been found at the end of an
analysis is closed under all constraints of the program; variables pass objects on if their type is
a reference type other than that of null. -/
theorem solve_saturated {p : Program} (h : p.Accepted) {o : Options}
    (ho : o.arrayCopy = false) (policy : Policy) {more : List Observer}
    (hmore : ∀ w ∈ more, w.Watches) :
    let g := o.setup p policy more
    Saturated g (fun t => t.holdsObjects = true) (g.solve []).state.Settled := by
  intro g
  have hp : g.program.WellFormed := h.wellFormed
  have hscript : g.Unscripted := Options.unscripted_setup hmore
  have hcopy : .arrayCopy ∉ g.observers := Options.arrayCopy_notMem_setup ho hmore
  obtain ⟨n, hn, hA⟩ := Setup.exists_solve_eq_run hp hscript []
  have hsound := Machine.sound_initial g []
  have hdutiful := (Machine.dutiful_initial g []).run hp hscript hcopy hsound n
  rw [hn]
  exact (hdutiful.stable hcopy (hsound.run hp hscript n) hA).saturated hp

theorem solve_saturated_box : ∃ p, Program.load boxSource = .ok p ∧
    let g := Options.setup { arrayCopy := false } p (.obj 2) [.checker]
    Saturated g (fun t => t.holdsObjects = true) (g.solve []).state.Settled := by
  obtain ⟨p, hp, -⟩ := exists_load_boxSource
  exact ⟨p, hp, solve_saturated ⟨_, hp⟩ rfl (.obj 2) (by simp [Observer.Watches])⟩

/-- A program in which objects are assigned to the numbers `x` and `y`, and from there to other
places. -/
def numberSource : ProgramSource where
  classes := [{
    name := "A"
    fields := ["A f", "static A s"]
    methods := [{
      sig := "static void main()"
      locals := ["int x", "int y", "A a", "A b", "A c", "A[] r"]
      body := ["x = new A", "y = new A", "a = new A", "b = a", "b = x", "c = a", "c = (A) x",
        "A.s = a", "A.s = x", "y = A.s", "a.f = a", "a.f = x", "y = a.f",
        "r = new A[1]", "r[0] = a", "r[0] = x", "y = r[0]"] }] }]
  entries := ["A.main"]

def numberMain : MethodId :=
  ⟨"A", "main()"⟩

/-- The setup of an analysis without contexts and without copies of array elements. -/
def plainSetup (p : Program) : Setup :=
  Options.setup { arrayCopy := false } p .insensitive []

set_option maxRecDepth 100000 in
/-- A run of the example, in numbers. The variable `x` is pointer 0 and has object 0, and `a` is
pointer 2 and has object 2; what both are copied to are pointers 3 to 5, 7 and 8, and these have
object 2 only. -/
theorem numberSource_run : ∃ p, Program.load numberSource = .ok p ∧
    let m := ((plainSetup p).initial []).run (plainSetup p) 100
    m.agenda.isEmpty = true ∧ 0 ∈ m.state.calls.reachable ∧
    m.state.registry.methods.get? 0 = some ⟨Contexts.emptyCtx, numberMain⟩ ∧
    p.stmt? numberMain 4 = some (.copy 3 0) ∧
    (∀ q < 9, m.state.registry.pointers.get? q = [
      .var 0 (.declared numberMain 0), .var 0 (.declared numberMain 1),
      .var 0 (.declared numberMain 2), .var 0 (.declared numberMain 3),
      .var 0 (.declared numberMain 4), .static ⟨"A", "s"⟩, .var 0 (.declared numberMain 5),
      .field 2 ⟨"A", "f"⟩, .elems 3][q]?) ∧
    ∀ q < 9, (m.state.pointsTo q).toList = [0, 1, 2, 2, 2, 2, 3, 2, 2][q]?.toList :=
  exists_of_any_toOption (by decide +kernel)

/-- **Numbers pass nothing on**, so constraints that ask it of variables of all types do not hold.
In the example `x` and `a` have an object each, `O` and `N`, and both are copied, cast and stored to
the same five places, one after the other; all five hold `N` and none holds `O`. What the places
hold is loaded to `y`, which is a number as well, and does not hold `N`. -/
theorem numbers_pass_nothing_on : ∃ p, Program.load numberSource = .ok p ∧
    let F := ((plainSetup p).solve []).state.Settled
    let M : At MethodId := ⟨[], numberMain⟩
    ¬ Saturated (plainSetup p) (fun _ => True) F ∧
    ∃ O N R, F (.holds (M.var 0) O) ∧ F (.holds (M.var 2) N) ∧ F (.holds (M.var 5) R) ∧
      ¬ F (.holds (M.var 1) N) ∧
      ∀ P ∈ [M.var 3, M.var 4, .static ⟨"A", "s"⟩, .field N ⟨"A", "f"⟩, .elems R],
        F (.holds P N) ∧ ¬ F (.holds P O) := by
  obtain ⟨p, hload, hA, hreach, hmethod, hstmt, hptrs, hpts⟩ := numberSource_run
  have hp : p.Accepted := ⟨_, hload⟩
  have hscript : (plainSetup p).Unscripted := Options.unscripted_setup (by simp)
  have hrun : (plainSetup p).solve [] = _ := Machine.settle_eq_run (List.isEmpty_iff.mp hA)
  obtain ⟨hsound, -⟩ := Setup.sound_solve (g := plainSetup p) hp.wellFormed hscript []
  simp only [← hrun] at hreach hmethod hptrs hpts
  refine ⟨p, hload, ?_⟩
  generalize (plainSetup p).solve [] = m at hsound hreach hmethod hptrs hpts ⊢
  intro F M
  have hs := hsound.wf
  -- what the numbers mean
  have hctx := m.state.registry.ctxIs_empty
  have hx : m.state.registry.PtrIs 0 (M.var 0) := ⟨_, hptrs 0 (by omega), .var _ hctx⟩
  have hy : m.state.registry.PtrIs 1 (M.var 1) := ⟨_, hptrs 1 (by omega), .var _ hctx⟩
  have ha : m.state.registry.PtrIs 2 (M.var 2) := ⟨_, hptrs 2 (by omega), .var _ hctx⟩
  have hb : m.state.registry.PtrIs 3 (M.var 3) := ⟨_, hptrs 3 (by omega), .var _ hctx⟩
  have hr : m.state.registry.PtrIs 6 (M.var 5) := ⟨_, hptrs 6 (by omega), .var _ hctx⟩
  have hmem : ∀ q < 9, ∀ o, o ∈ m.state.pointsTo q ↔
      o ∈ [0, 1, 2, 2, 2, 2, 3, 2, 2][q]?.toList := by
    intro q hq o
    rw [OrderedSet.mem_def, hpts q hq]
  have hiff : ∀ {q o P Q}, m.state.registry.PtrIs q P → m.state.registry.ObjIs o Q →
      (F (.holds P Q) ↔ o ∈ m.state.pointsTo q) := State.settled_holds_iff
  have h₀ : 0 ∈ m.state.pointsTo 0 := by simp [hmem]
  have h₂ : 2 ∈ m.state.pointsTo 2 := by simp [hmem]
  have h₃ : 3 ∈ m.state.pointsTo 6 := by simp [hmem]
  obtain ⟨-, O, hO⟩ := hs.ptrIs h₀
  obtain ⟨-, N, hN⟩ := hs.ptrIs h₂
  obtain ⟨-, R, hR⟩ := hs.ptrIs h₃
  have hplace : ∀ {P}, ∀ q ∈ [3, 4, 5, 7, 8], m.state.registry.PtrIs q P →
      F (.holds P N) ∧ ¬ F (.holds P O) := by
    intro P q hq hP
    rw [hiff hP hN, hiff hP hO]
    simp only [List.mem_cons, List.not_mem_nil, or_false] at hq
    rcases hq with rfl | rfl | rfl | rfl | rfl
    all_goals simp [hmem]
  have hxO : F (.holds (M.var 0) O) := (hiff hx hO).mpr h₀
  refine ⟨fun hsat => ?_, O, N, R, hxO, (hiff ha hN).mpr h₂, (hiff hr hR).mpr h₃, ?_, ?_⟩
  · -- the copy of `x` to `b` is one of the constraints
    obtain ⟨d, hd, hcopy⟩ := Option.bind_eq_some_iff.mp hstmt
    have hreached : F (.reached M) := ⟨.reached 0, hreach, .reached ⟨_, hmethod, hctx, rfl⟩⟩
    have hbO := (hsat.body hreached nofun hd).copy hcopy trivial O hxO
    exact (hplace 3 (by simp) hb).2 hbO
  · rw [hiff hy hN]
    simp [hmem]
  · intro P hP
    simp only [List.mem_cons, List.not_mem_nil, or_false] at hP
    rcases hP with rfl | rfl | rfl | rfl | rfl
    · exact hplace 3 (by simp) hb
    · exact hplace 4 (by simp) ⟨_, hptrs 4 (by omega), .var _ hctx⟩
    · exact hplace 5 (by simp) ⟨_, hptrs 5 (by omega), .static _⟩
    · exact hplace 7 (by simp) ⟨_, hptrs 7 (by omega), .field _ hN⟩
    · exact hplace 8 (by simp) ⟨_, hptrs 8 (by omega), .elems hR⟩

end HeapFlow
