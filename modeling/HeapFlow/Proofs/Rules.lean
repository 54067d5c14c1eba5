import HeapFlow.Proofs.Meaning
import HeapFlow.Solver.Body
import HeapFlow.Solver.Models

/-!
# The rules of the analysis

What an analysis computes is a set of `Fact`s: that a place holds an object, that objects flow from
one place to another, that a call site calls a method, that a method is reached, and a few more.
This file states the rules that the facts obey, without a word about the order in which they are
found. Most rules have one premise, and then `Follows g h f` says that `f` follows from `h`:

| premise | conclusions | |
|---|---|---|
| a method is reached | the facts of its statements | `StmtFact` |
| a variable holds an object | the facts of the statements that go through it | `UseFact` |
| there is a call edge | its callee is reached; arguments and results flow | `WireFact` |
| a method is announced, a class is initialized | classes are initialized | |

Facts that follow from nothing are `Given`: the entry methods and their arguments. Two rules have
two premises and are part of `Infer`, the whole of the rules: objects flow along flow edges, and the
running threads are what the method that returns the current thread returns. A fact about a variable
or a call is put to use only when the method that the variable or call belongs to is reached in the
same context (`Fact.home?`); that is a premise of `Infer`, but not of `Follows`.
-/

namespace HeapFlow

/-! ### Facts -/

/-- Objects of the source flow to the target. -/
structure Flow where
  src : Place
  dst : Place
  kind : FlowKind
  /-- The type that the objects have to be of, if any type is asked for. -/
  filter : Option Ty

/-- Whether an object passes. -/
def Flow.Passes (p : Program) (F : Flow) (O : At Obj) : Prop :=
  ∀ t, F.filter = some t → p.isSubtype O.item.type t = true

/-- What an analysis finds out. -/
inductive Fact where
  | holds (P : Place) (O : At Obj)
  | flow (F : Flow)
  | call (e : CallEdge (At CallSite) (At MethodId))
  | reached (M : At MethodId)
  | announced (m : MethodId)
  | initialized (c : String)
  | started (O : At Obj)
  | asks (C : Ctx)

/-- The method in a context that a place belongs to. -/
def Place.home? : Place → Option (At MethodId)
  | .var C v => some ⟨C, v.method⟩
  | _ => none

/-- The method in a context that a fact belongs to: that of the variable which gets objects, or of
the call. -/
def Fact.home? : Fact → Option (At MethodId)
  | .holds P _ => P.home?
  | .flow F => F.dst.home?
  | .call e => some ⟨e.site.ctx, e.site.item.method⟩
  | .asks C => some ⟨C, threadCurrent⟩
  | _ => none

/-- The place of a variable of a method in a context. -/
def At.var (M : At MethodId) (x : Slot) : Place :=
  .var M.ctx (.declared M.item x)

/-! ### Contexts -/

namespace Policy

/-- The context of an object made in a context. -/
def heapCtx (p : Policy) (C : Ctx) : Ctx :=
  C.rtake (p.limit - 1)

/-- The context of a callee without receiver. -/
def siteCtx (p : Policy) (S : At CallSite) : Ctx :=
  match p with
  | insensitive => []
  | call k => (S.ctx ++ [Mark.site S.item]).rtake k
  | obj _ => S.ctx
  | type _ => S.ctx

/-- The context of a callee with a receiver. -/
def recvCtx (p : Policy) (S : At CallSite) (O : At Obj) : Ctx :=
  match p with
  | insensitive => []
  | call k => (S.ctx ++ [Mark.site S.item]).rtake k
  | obj k => (O.ctx ++ [Mark.obj O.item]).rtake k
  | type k => (O.ctx ++ [Mark.type O.item.containerType]).rtake k

end Policy

namespace Setup

/-- Whether the body of a method counts. -/
def Translates (g : Setup) (m : MethodId) : Prop :=
  g.onlyApp = true → g.program.isApplication m = true

/-- An abstract object as it is made by a method in a context. -/
def made (g : Setup) (M : At MethodId) (o : Obj) : At Obj :=
  ⟨g.policy.heapCtx M.ctx, o⟩

/-- The edge of a call without receiver. -/
def staticEdge (g : Setup) (S : At CallSite) (m : MethodId) :
    CallEdge (At CallSite) (At MethodId) :=
  ⟨.static, S, ⟨g.policy.siteCtx S, m⟩⟩

/-- The edge of a call with a receiver. -/
def recvEdge (g : Setup) (kind : CallKind) (S : At CallSite) (O : At Obj) (m : MethodId) :
    CallEdge (At CallSite) (At MethodId) :=
  ⟨kind, S, ⟨g.policy.recvCtx S O, m⟩⟩

end Setup

/-! ### Targets of calls -/

namespace Program

variable (p : Program)

/-- The method that a static call reaches. -/
def staticCallee? (target : MethodId) : Option Method :=
  (p.resolve target).filter fun m => !m.isAbstract && m.isStatic

/-- The method that a call reaches for a receiver of a type. -/
def callee? (c : Call) (t : Ty) : Option Method :=
  (match c.kind with
    | .special => p.resolve c.target
    | .virtual => p.dispatch t c.target.subsig
    | .interface => p.dispatch t c.target.subsig
    | _ => none).filter fun m => !m.isAbstract && !m.isStatic

/-- The body of a thread object of a type. -/
def runMethod? (t : Ty) : Option Method :=
  (p.dispatch t HeapFlow.threadRun.subsig).filter fun m => !m.isAbstract && !m.isStatic

/-- The type of what an entry method that takes an array finds in it. -/
def argumentsType? (m : MethodId) : Option Ty :=
  (p.method? m).bind fun d => d.params.head?.bind fun x => (d.varType x).elem?

/-- The entry method for which the arguments of a type are made: all entry methods that take such
arguments share them, and the first one counts as the one that made them. -/
def argumentsOwner? (t : Ty) : Option MethodId :=
  (p.entries.filter p.takesArguments).find? fun m => p.argumentsType? m = some t

end Program

/-! ### Objects -/

namespace Obj

/-- The array of the arguments of entry methods. -/
def arguments (t : Ty) (owner : MethodId) : Obj :=
  .mock argumentsDesc (.array t) (some owner)

/-- What the array of arguments holds. -/
def argument (t : Ty) (owner : MethodId) : Obj :=
  .mock argumentDesc t (some owner)

/-- The inner arrays of an allocation of `n + 1` dimensions of a type, outermost first. -/
def inners (m : MethodId) (outer : Obj) : (n : Nat) → Ty → List Obj
  | 0, _ => []
  | n + 1, t => match t.elem? with
    | some (.array u) =>
      .innerMock innerArrayDesc outer (.array u) (some m) :: inners m outer n (.array u)
    | _ => []

end Obj

/-- The arrays that an allocation makes, outermost first; each holds the next. -/
def Setup.arraysOf (g : Setup) (d : Method) (i : Nat) (t : Ty) (n : Nat) : List Obj :=
  g.merging.allocated d i t :: Obj.inners d.id (g.merging.allocated d i t) (n - 1) t

/-- The abstract objects that an analysis makes. -/
inductive Setup.Creates (g : Setup) : Obj → Prop where
  /-- The arrays of an allocation; a single one if it has one dimension, or is no array. -/
  | alloc {m : MethodId} {d : Method} {i : Nat} {dst : Slot} {t : Ty} {n : Nat} {o : Obj}
      (hd : g.program.method? m = some d) (hs : d.body[i]? = some (.new dst t n))
      (ho : o ∈ g.arraysOf d i t n) : Creates g o
  | const {m : MethodId} {d : Method} {i : Nat} {dst : Slot} {l : Literal} {o : Obj}
      (hd : g.program.method? m = some d) (hs : d.body[i]? = some (.const dst l))
      (ho : g.merging.constant? l = some o) : Creates g o
  | arguments {t : Ty} {m : MethodId} (h : g.program.argumentsOwner? t = some m) :
      Creates g (.arguments t m)
  | argument {t : Ty} {m : MethodId} (h : g.program.argumentsOwner? t = some m)
      (ht : t.isReference = true) : Creates g (.argument t m)

/-! ### Conclusions -/

/-- The facts of a statement of a reached method; those that go through a variable are not among
them. -/
inductive StmtFact (g : Setup) (M : At MethodId) (d : Method) (i : Nat) : Stmt → Fact → Prop where
  | new (dst : Slot) (t : Ty) (n : Nat) :
      StmtFact g M d i (.new dst t n) (.holds (M.var dst) (g.made M (g.merging.allocated d i t)))
  | inner (dst : Slot) {t : Ty} {n : Nat} {a b : Obj} (h : [a, b] <:+: g.arraysOf d i t n) :
      StmtFact g M d i (.new dst t n) (.holds (.elems (g.made M a)) (g.made M b))
  | register (dst : Slot) {t : Ty} (n : Nat) {m : Method}
      (ht : g.program.needsFinalizer t = true)
      (hm : g.program.staticCallee? finalizerRegister = some m) :
      StmtFact g M d i (.new dst t n) (.call (g.staticEdge ⟨M.ctx, .register M.item i⟩ m.id))
  | const (dst : Slot) {l : Literal} {o : Obj} (h : g.merging.constant? l = some o) :
      StmtFact g M d i (.const dst l) (.holds (M.var dst) (g.made M o))
  | copy (dst : Slot) {x : Slot} (h : (d.varType x).holdsObjects = true) :
      StmtFact g M d i (.copy dst x) (.flow ⟨M.var x, M.var dst, .assign, none⟩)
  | cast (dst : Slot) (t : Ty) {x : Slot} (h : (d.varType x).holdsObjects = true) :
      StmtFact g M d i (.cast dst t x) (.flow ⟨M.var x, M.var dst, .cast, some t⟩)
  | loadStatic {dst : Slot} (f : FieldId) (h : (d.varType dst).holdsObjects = true) :
      StmtFact g M d i (.loadStatic dst f) (.flow ⟨.static f, M.var dst, .loadStatic, none⟩)
  | storeStatic (f : FieldId) {x : Slot} (h : (d.varType x).holdsObjects = true) :
      StmtFact g M d i (.storeStatic f x) (.flow ⟨M.var x, .static f, .storeStatic, none⟩)
  | call {c : Call} {m : Method} (hk : c.kind = .static)
      (hm : g.program.staticCallee? c.target = some m) :
      StmtFact g M d i (.invoke c) (.call (g.staticEdge ⟨M.ctx, .body M.item i⟩ m.id))

/-- The facts of a call of a method for a receiver. -/
inductive BindFact (g : Setup) (kind : CallKind) (S : At CallSite) (O : At Obj) (m : MethodId) :
    Fact → Prop where
  | call : BindFact g kind S O m (.call (g.recvEdge kind S O m))
  /-- The receiver is the callee's `this`. -/
  | this : BindFact g kind S O m (.holds (.var (g.policy.recvCtx S O) (.declared m 0)) O)

/-- The facts that follow when a variable holds an object in a context. -/
inductive UseFact (g : Setup) (C : Ctx) (O : At Obj) : Var → Fact → Prop where
  /-- A store `v.f = x`. -/
  | store {m : MethodId} {d : Method} {v x : Slot} {f : FieldId}
      (hd : g.program.method? m = some d) (hs : .store v f x ∈ d.body)
      (hx : (d.varType x).holdsObjects = true) :
      UseFact g C O (.declared m v) (.flow ⟨.var C (.declared m x), .field O f, .store, none⟩)
  /-- A load `y = v.f`. -/
  | load {m : MethodId} {d : Method} {v y : Slot} {f : FieldId}
      (hd : g.program.method? m = some d) (hs : .load y v f ∈ d.body)
      (hy : (d.varType y).holdsObjects = true) :
      UseFact g C O (.declared m v) (.flow ⟨.field O f, .var C (.declared m y), .load, none⟩)
  /-- A store `v[*] = x` into an array lets objects of the element type through. -/
  | storeElem {m : MethodId} {d : Method} {v x : Slot} {t : Ty}
      (hd : g.program.method? m = some d) (hs : .storeElem v x ∈ d.body)
      (hx : (d.varType x).holdsObjects = true) (ht : O.item.type = .array t) :
      UseFact g C O (.declared m v) (.flow ⟨.var C (.declared m x), .elems O, .storeElem, some t⟩)
  /-- A load `y = v[*]` from an array. -/
  | loadElem {m : MethodId} {d : Method} {v y : Slot} {t : Ty}
      (hd : g.program.method? m = some d) (hs : .loadElem y v ∈ d.body)
      (hy : (d.varType y).holdsObjects = true) (ht : O.item.type = .array t) :
      UseFact g C O (.declared m v) (.flow ⟨.elems O, .var C (.declared m y), .loadElem, none⟩)
  /-- A call on `v`. -/
  | call {m : MethodId} {d n : Method} {v : Slot} {i : Nat} {c : Call} {f : Fact}
      (hd : g.program.method? m = some d) (hs : d.body[i]? = some (.invoke c))
      (hv : c.receiver = some v) (hn : g.program.callee? c O.item.type = some n)
      (hf : BindFact g c.kind ⟨C, .body m i⟩ O n.id f) : UseFact g C O (.declared m v) f
  | start (ht : .threads ∈ g.observers) (hp : g.program.hasThreads = true) :
      UseFact g C O (.declared threadStart 0) (.started O)
  | run {n : Method} {f : Fact} (ht : .threads ∈ g.observers) (hp : g.program.hasThreads = true)
      (hn : g.program.runMethod? O.item.type = some n)
      (hf : BindFact g .other ⟨C, .threadRun⟩ O n.id f) :
      UseFact g C O (.declared threadStart 0) f

/-- The facts that follow from a call edge: arguments flow to parameters, returned variables to the
result. Edges made by models pass nothing. -/
inductive WireFact (g : Setup) (e : CallEdge (At CallSite) (At MethodId)) : Fact → Prop where
  | arg {c : Call} {d : Method} {a x : Slot} (hk : e.kind ≠ .other)
      (hc : g.program.call? e.site.item = some c)
      (hd : g.program.method? e.callee.item = some d) (hax : (a, x) ∈ c.args.zip d.params)
      (ha : g.program.holdsObjects (.declared e.site.item.method a) = true) :
      WireFact g e (.flow ⟨.var e.site.ctx (.declared e.site.item.method a), e.callee.var x,
        .param, none⟩)
  | ret {c : Call} {d : Method} {x v : Slot} (hk : e.kind ≠ .other)
      (hc : g.program.call? e.site.item = some c)
      (hd : g.program.method? e.callee.item = some d) (hr : c.result = some x)
      (hx : g.program.holdsObjects (.declared e.site.item.method x) = true)
      (hv : v ∈ d.returned) (hh : (d.varType v).holdsObjects = true) :
      WireFact g e (.flow ⟨e.callee.var v, .var e.site.ctx (.declared e.site.item.method x),
        .ret, none⟩)

/-- The facts about the arguments of an entry method. -/
inductive ArgFact (g : Setup) (m : MethodId) : Fact → Prop where
  | array {d : Method} {x : Slot} {t : Ty} {n : MethodId} (hd : g.program.method? m = some d)
      (hx : d.params.head? = some x) (ht : d.varType x = .array t)
      (hn : g.program.argumentsOwner? t = some n) :
      ArgFact g m (.holds (.var [] (.declared m x)) ⟨[], .arguments t n⟩)
  | elem {d : Method} {x : Slot} {t : Ty} {n : MethodId} (hd : g.program.method? m = some d)
      (hx : d.params.head? = some x) (ht : d.varType x = .array t)
      (hn : g.program.argumentsOwner? t = some n) (hr : t.isReference = true) :
      ArgFact g m (.holds (.elems ⟨[], .arguments t n⟩) ⟨[], .argument t n⟩)

/-- The facts about copies of array elements, which go through a temporary variable. The number of
the temporary is left open. -/
inductive CopyFact (g : Setup) (C : Ctx) (O : At Obj) : Var → Fact → Prop where
  | load {m : MethodId} {d : Method} {c : Call} {x : Slot} {t : Ty} (n : Nat)
      (hp : g.program.hasArrayCopy = true) (hd : g.program.method? m = some d)
      (hs : .invoke c ∈ d.body) (hc : g.program.isArrayCopy c = true)
      (hx : c.args[0]? = some x) (ht : O.item.type = .array t) :
      CopyFact g C O (.declared m x) (.flow ⟨.elems O, .var C (.copyTemp m n), .loadElem, none⟩)
  /-- The temporary flows to the elements of a target array, as far as their type allows. -/
  | store {m : MethodId} {d : Method} {c : Call} {x : Slot} {t : Ty} (n : Nat)
      (hp : g.program.hasArrayCopy = true) (hd : g.program.method? m = some d)
      (hs : .invoke c ∈ d.body) (hc : g.program.isArrayCopy c = true)
      (hx : c.args[2]? = some x) (ht : O.item.type = .array t) :
      CopyFact g C O (.declared m x) (.flow ⟨.var C (.copyTemp m n), .elems O, .storeElem, some t⟩)

/-! ### Rules -/

/-- The facts that an observer that makes the entry methods reachable brings. -/
inductive EntryFact (g : Setup) (implicit : Bool) : Fact → Prop where
  | entry {m : MethodId}
      (h : m ∈ g.program.entries ++ (if implicit then g.program.implicitEntries else [])) :
      EntryFact g implicit (.reached ⟨[], m⟩)
  | args {m : MethodId} {f : Fact} (h : m ∈ g.program.entries.filter g.program.takesArguments)
      (hf : ArgFact g m f) : EntryFact g implicit f

/-- The facts that follow from nothing. -/
def Given (g : Setup) (f : Fact) : Prop :=
  ∃ implicit, .entryPoints implicit ∈ g.observers ∧ EntryFact g implicit f

/-- The rules with one premise. -/
inductive Follows (g : Setup) : Fact → Fact → Prop where
  | announce {M : At MethodId} (ht : g.Translates M.item) :
      Follows g (.reached M) (.announced M.item)
  | stmt {M : At MethodId} {d : Method} {i : Nat} {s : Stmt} {f : Fact}
      (ht : g.Translates M.item) (hd : g.program.method? M.item = some d)
      (hs : d.body[i]? = some s) (hf : StmtFact g M d i s f) : Follows g (.reached M) f
  | ask {M : At MethodId} (ho : .threads ∈ g.observers) (ht : g.Translates M.item)
      (hm : g.program.returnsThread M.item = true) : Follows g (.reached M) (.asks M.ctx)
  | init {m : MethodId} {d : Method} {c : String} (ho : .classInit ∈ g.observers)
      (hd : g.program.method? m = some d) (hc : c ∈ g.program.activeUses d)
      (hk : (g.program.class? c).isSome = true) : Follows g (.announced m) (.initialized c)
  | super {c u : String} {k : Class} (hc : g.program.class? c = some k) (hu : k.super = some u)
      (hk : (g.program.class? u).isSome = true) : Follows g (.initialized c) (.initialized u)
  | clinit {c : String} {k : Class} {d : Method} (hc : g.program.class? c = some k)
      (hd : k.clinit? = some d) : Follows g (.initialized c) (.reached ⟨[], d.id⟩)
  | reach (e : CallEdge (At CallSite) (At MethodId)) : Follows g (.call e) (.reached e.callee)
  | wire {e : CallEdge (At CallSite) (At MethodId)} {f : Fact} (hf : WireFact g e f) :
      Follows g (.call e) f
  | use {C : Ctx} {v : Var} {O : At Obj} {f : Fact} (ht : g.Translates v.method)
      (hf : UseFact g C O v f) : Follows g (.holds (.var C v) O) f

/-- **The rules of the analysis**: the facts inferred in one step from a set of facts. -/
inductive Infer (g : Setup) (F : Fact → Prop) : Fact → Prop where
  | given {f : Fact} (h : Given g f) : Infer g F f
  /-- What follows from one fact. The method that it belongs to has to be reached. -/
  | follow {h f : Fact} (hh : F h) (hm : ∀ M, h.home? = some M → F (.reached M))
      (hf : Follows g h f) : Infer g F f
  | flow {e : Flow} {O : At Obj} (he : F (.flow e)) (hO : F (.holds e.src O))
      (hp : e.Passes g.program O) : Infer g F (.holds e.dst O)
  | current {O : At Obj} {C : Ctx} {d : Method} {v : Slot} (hO : F (.started O))
      (hC : F (.asks C)) (hd : g.program.method? threadCurrent = some d) (hv : v ∈ d.returned) :
      Infer g F (.holds (.var C (.declared threadCurrent v)) O)
  | copy {C : Ctx} {v : Var} {O : At Obj} {f : Fact} (ho : .arrayCopy ∈ g.observers)
      (hh : F (.holds (.var C v) O)) (hm : F (.reached ⟨C, v.method⟩))
      (ht : g.Translates v.method) (hf : CopyFact g C O v f) : Infer g F f

/-- More facts give more inferences. -/
theorem Infer.mono {g : Setup} {F G : Fact → Prop} (hFG : ∀ f, F f → G f) {f : Fact}
    (h : Infer g F f) : Infer g G f := by
  cases h with
  | given h => exact .given h
  | follow hh hm hf => exact .follow (hFG _ hh) (fun M hM => hFG _ (hm M hM)) hf
  | flow he hO hp => exact .flow (hFG _ he) (hFG _ hO) hp
  | current hO hC hd hv => exact .current (hFG _ hO) (hFG _ hC) hd hv
  | copy ho hh hm ht hf => exact .copy ho (hFG _ hh) (hFG _ hm) ht hf

/-- A set of facts is closed under the rules. -/
def ClosedUnder (g : Setup) (F : Fact → Prop) : Prop :=
  ∀ f, Infer g F f → F f

/-- A fact is derivable if it is inferred from derivable facts. -/
inductive Derivable (g : Setup) : Fact → Prop where
  | infer {F : Fact → Prop} {f : Fact} (hF : ∀ h, F h → Derivable g h) (h : Infer g F f) :
      Derivable g f

/-- **The derivable facts are closed.** -/
theorem Derivable.closed (g : Setup) : ClosedUnder g (Derivable g) :=
  fun _ h => .infer (fun _ hh => hh) h

/-- **The derivable facts are the least closed set.** -/
theorem Derivable.least {g : Setup} {F : Fact → Prop} (hF : ClosedUnder g F) {f : Fact}
    (h : Derivable g f) : F f := by
  induction h with
  | infer _ h ih => exact hF _ (h.mono ih)

end HeapFlow
