import HeapFlow.Proofs.Alike
import HeapFlow.Result.Dump

/-!
# The same classes, the same run

A run asks its program only questions to which programs with the same classes have the same answers
(`Program.Alike`), apart from the entry methods at its start. So, given the same entry methods, the
runs are the same step by step. The results differ in nothing but the program that they carry, and
their dumps are the same texts.
-/

namespace HeapFlow

/-- An analysis of another program, set up in the same way. -/
def Setup.on (g : Setup) (q : Program) : Setup :=
  { g with program := q }

namespace Program.Alike

variable {p q : Program} (h : p.Alike q)

include h

theorem admits (r : Registry) : r.admits q = r.admits p := by
  funext x
  cases x <;> simp only [Registry.admits, h.field?]

theorem pointerType (r : Registry) : r.pointerType q = r.pointerType p := by
  funext x
  cases x <;> simp only [Registry.pointerType, h.field?, h.varType]

theorem pointerText (r : Registry) : r.pointerText q = r.pointerText p := by
  funext x
  cases x <;> simp only [Registry.pointerText, h.varText]

/-- Events are shown alike. -/
theorem eventText (r : Registry) (e : Event) : e.text q r = e.text p r := by
  cases e <;> simp only [Event.text, h.pointerText]

theorem ask (x : HeapRequest) : x.ask q = x.ask p := by
  cases x with
  | alloc => simp only [HeapRequest.ask, h.method?, h.stmt?]
  | constant l => cases l <;> rfl
  | mock _ name => cases name <;> rfl

theorem fits (s : State) : s.fits q = s.fits p := by
  funext t o
  simp only [State.fits, h.isSubtype]

end Program.Alike

namespace Act

variable {g : Setup} {q : Program} (h : g.program.Alike q)

include h

/-- Objects are passed on alike: what a run asks for does not depend on the program. -/
theorem passOn_on : (g.on q).passOn = g.passOn := by
  funext s x
  simp only [Setup.passOn, Setup.on, h.fits]

theorem handed_on : State.handed (g.on q) = State.handed g := by
  funext s x
  simp only [State.handed, passOn_on h]

theorem pointer_on : pointer (g.on q) = pointer g := by
  funext x
  simp only [pointer, Setup.on, h.admits]

theorem addFlow_on : addFlow (g.on q) = addFlow g := by
  funext src dst kind t
  simp only [addFlow, handed_on h]

theorem propagate_on : propagate (g.on q) = propagate g := by
  funext p t
  simp only [propagate, handed_on h]

omit h in
theorem allocate_on : allocate (g.on q) = allocate g :=
  rfl

theorem chainArrays_on (m : CMethodId) : chainArrays (g.on q) m = chainArrays g m := by
  funext array l
  induction l generalizing array with
  | nil => rfl
  | cons o l ih => simp only [chainArrays, allocate_on, pointer_on h, ih]

theorem staticCall_on : staticCall (g.on q) = staticCall g := by
  funext ctx site target
  simp only [staticCall, Setup.on, h.resolve]

theorem allocation_on : allocation (g.on q) = allocation g := by
  funext m ctx d index dst type dims
  simp only [allocation, allocate_on, chainArrays_on h, staticCall_on h]
  simp only [Setup.on, h.needsFinalizer]

omit h in
theorem constant_on : constant (g.on q) = constant g :=
  rfl

/-- Statements are turned into the same facts. -/
theorem enact_on : enact (g.on q) = enact g := by
  funext m d index stmt
  cases stmt <;>
    simp only [enact, allocation_on h, constant_on, addFlow_on h, pointer_on h, staticCall_on h]

theorem growStores_on : growStores (g.on q) = growStores g := by
  funext ctx d v delta
  simp only [growStores, addFlow_on h, pointer_on h]

theorem growLoads_on : growLoads (g.on q) = growLoads g := by
  funext ctx d v delta
  simp only [growLoads, addFlow_on h, pointer_on h]

theorem storeElems_on : storeElems (g.on q) = storeElems g := by
  funext src array
  simp only [storeElems, addFlow_on h, pointer_on h]
  simp only [Setup.on, h.pointerType]

theorem loadElems_on : loadElems (g.on q) = loadElems g := by
  funext src array
  simp only [loadElems, addFlow_on h, pointer_on h]

theorem growElemStores_on : growElemStores (g.on q) = growElemStores g := by
  funext ctx d v delta
  simp only [growElemStores, storeElems_on h]

theorem growElemLoads_on : growElemLoads (g.on q) = growElemLoads g := by
  funext ctx d v delta
  simp only [growElemLoads, loadElems_on h]

/-- So are objects of a variable. -/
theorem grow_on : grow (g.on q) = grow g := by
  funext p ctx v delta
  simp only [grow, growStores_on h, growLoads_on h, growElemStores_on h, growElemLoads_on h]
  simp only [Setup.on, h.method?]

theorem deliver_on : deliver (g.on q) = deliver g := by
  funext p t
  simp only [deliver, propagate_on h, grow_on h]
  simp only [Setup.on, h.isApplication]

theorem callee_on : callee (g.on q) = callee g := by
  funext site c o
  simp only [callee, Setup.on, h.resolve, h.dispatch]

omit h in
theorem callOn_on : callOn (g.on q) = callOn g :=
  rfl

theorem dispatch_on : dispatch (g.on q) = dispatch g := by
  funext s o
  simp only [dispatch, callee_on h, callOn_on]
  simp only [Setup.on, h.call?]

theorem passArguments_on : passArguments (g.on q) = passArguments g := by
  funext caller callee home d l
  induction l with
  | nil => rfl
  | cons a l ih =>
    simp only [passArguments, addFlow_on h, ih]
    simp only [Setup.on, h.holdsObjects]

theorem passResult_on : passResult (g.on q) = passResult g := by
  funext caller callee home d result
  simp only [passResult, addFlow_on h]
  simp only [Setup.on, h.holdsObjects]

/-- So are call edges. -/
theorem wire_on : wire (g.on q) = wire g := by
  funext e
  simp only [wire, passArguments_on h, passResult_on h]
  simp only [Setup.on, h.call?, h.method?]

theorem reach_on : reach (g.on q) = reach g := by
  funext m
  simp only [reach, Setup.on, h.method?, h.isApplication]

theorem initClass_on : initClass (g.on q) = initClass g := by
  funext c
  simp only [initClass, Setup.on, h.class?]

theorem clinit_on : clinit (g.on q) = clinit g := by
  funext c
  simp only [clinit, Setup.on, h.class?]

theorem giveArguments_on : giveArguments (g.on q) = giveArguments g := by
  funext m
  simp only [giveArguments, pointer_on h]
  simp only [Setup.on, h.method?]

theorem returnThreads_on : returnThreads (g.on q) = returnThreads g := by
  funext ctx ts
  simp only [returnThreads, Setup.on, h.method?]

theorem startThreads_on : startThreads (g.on q) = startThreads g := by
  funext ctx delta
  simp only [startThreads, returnThreads_on h, callOn_on]
  simp only [Setup.on, h.dispatch]

theorem threadsGrown_on : threadsGrown (g.on q) = threadsGrown g := by
  funext p delta
  simp only [threadsGrown, startThreads_on h]
  simp only [Setup.on, h.hasThreads]

theorem threadsReached_on : threadsReached (g.on q) = threadsReached g := by
  funext m
  simp only [threadsReached, returnThreads_on h]
  simp only [Setup.on, h.returnsThread]

theorem copiesReached_on : copiesReached (g.on q) = copiesReached g := by
  funext m
  simp only [copiesReached, Setup.on, h.method?, h.hasArrayCopy, h.isArrayCopy]

/-- Observers react alike. -/
theorem copiesGrown_on : copiesGrown (g.on q) = copiesGrown g := by
  funext p delta
  simp only [copiesGrown, loadElems_on h, storeElems_on h]

theorem checkPointer_on : checkPointer (g.on q) = checkPointer g := by
  funext p
  simp only [checkPointer, checkVariable, Setup.on, h.method?, h.varText, h.pointerText]

theorem check_on : check (g.on q) = check g := by
  funext e
  cases e <;>
    simp only [check, checkPointer, checkVariable, Setup.on, h.method?, h.varText, h.pointerText]

theorem record_on : record (g.on q) = record g := by
  funext lead scripted e
  simp only [record, Setup.on, h.eventText]

theorem enterObject_on : enterObject (g.on q) = enterObject g := by
  funext o
  simp only [enterObject, Setup.on, h.ask]

theorem enterParts_on : enterParts (g.on q) = enterParts g := by
  funext p
  cases p <;> simp only [enterParts, enterObject_on h]

theorem enterPointer_on : enterPointer (g.on q) = enterPointer g := by
  funext p
  simp only [enterPointer, enterParts_on h, pointer_on h]

theorem enterTransfer_on : enterTransfer (g.on q) = enterTransfer g := by
  funext t
  cases t <;> simp only [enterTransfer, enterObject_on h]

/-- Scripts are carried out alike. -/
theorem carryOut_on : carryOut (g.on q) = carryOut g := by
  have hoperate : operate (g.on q) = operate g := by
    funext o
    cases o <;> simp only [operate, enterParts_on h, enterObject_on h, pointer_on h,
      enterTransfer_on h, enterPointer_on h, addFlow_on h, checkPointer_on h]
    rfl
  funext o s
  simp only [carryOut, hoperate]

theorem drain_on : drain (g.on q) = drain g := by
  simp only [drain, deliver_on h]

/-- **All tasks are performed alike.** -/
theorem perform_on (he : q.entries = g.program.entries)
    (hi : q.implicitEntries = g.program.implicitEntries) : perform (g.on q) = perform g := by
  have henter : enter (g.on q) = enter g := by
    funext b
    simp only [enter, Setup.on, he, hi, h.takesArguments]
  have hreact : react (g.on q) = react g := by
    funext e o
    cases o <;> simp only [react, henter, threadsGrown_on h, threadsReached_on h,
      copiesReached_on h, copiesGrown_on h, check_on h, record_on h]
    simp only [Setup.on, h.initializations]
  have hnotify : notify (g.on q) = notify g := by
    funext e l
    cases l <;> simp only [notify, hreact]
  funext t
  cases t <;> simp only [perform, hnotify, giveArguments_on h, reach_on h, enact_on h,
    initClass_on h, clinit_on h, dispatch_on h, wire_on h, carryOut_on h, drain_on h]
  case enact => simp only [Setup.on, h.method?, h.stmt?]
  case finish => rfl

end Act

section Runs

variable {g : Setup} {q : Program} (h : g.program.Alike q)
  (he : q.entries = g.program.entries) (hi : q.implicitEntries = g.program.implicitEntries)

include h he hi

theorem Machine.step_on : Machine.step (g.on q) = Machine.step g := by
  funext m
  simp only [Machine.step, Act.perform_on h he hi]

/-- **The runs are the same.** -/
theorem Setup.solve_on : (g.on q).solve = g.solve := by
  have hsettle : Machine.settle (g.on q) = Machine.settle g := by
    delta Machine.settle
    simp only [Machine.step_on h he hi]
  funext script
  simp only [Setup.solve, hsettle]
  rfl

end Runs

theorem program_of_analyze {p : Program} {o : Options} {policy : Policy} {more : List Observer}
    {r : Result} (h : analyze p o policy more = .ok r) : r.program = p := by
  simp only [analyze, Machine.result] at h
  split at h <;> cases h
  rfl

section Results

variable {p q : Program} (h : p.Alike q)

include h

/-- **Analyses of programs with the same classes and entry methods are the same**, be they
successful or not: their results differ only in the program that they carry. -/
theorem analyze_on (he : q.entries = p.entries) (hi : q.implicitEntries = p.implicitEntries)
    (o : Options) (policy : Policy) (more : List Observer) :
    analyze q o policy more = (analyze p o policy more).map fun r => { r with program := q } := by
  have hsolve : (o.setup q policy more).solve = (o.setup p policy more).solve :=
    Setup.solve_on (g := o.setup p policy more) h he hi
  simp only [analyze, hsolve, Machine.result]
  split <;> rfl

theorem Result.dump_on {r : Result} (hr : r.program = p) :
    Result.dump { r with program := q } = r.dump := by
  subst hr
  have hvars : Result.varLines { r with program := q } = r.varLines := by
    simp only [varLines, h.varText]
    rfl
  have hstatics : Result.staticLines { r with program := q } = r.staticLines := by
    simp only [staticLines, staticFields, h.method?]
    rfl
  simp only [dump, hvars, hstatics]
  rfl

/-- **Analyses of programs with the same classes and entry methods write the same dump**, if they
come to a result, and otherwise fail in the same way. -/
theorem map_dump_on (he : q.entries = p.entries) (hi : q.implicitEntries = p.implicitEntries)
    (o : Options) (policy : Policy) (more : List Observer) :
    (analyze q o policy more).map Result.dump = (analyze p o policy more).map Result.dump := by
  rw [analyze_on h he hi]
  cases hr : analyze p o policy more with
  | error e => rfl
  | ok r => exact congrArg Except.ok (Result.dump_on h (program_of_analyze hr))

end Results

end HeapFlow
