import HeapFlow.Proofs.Alike

/-!
# Turning derivations

Two analyses may have the same rules, but tell contexts apart in different ways, or name objects
differently, or one of them looks at more. A `Turn` says what becomes of the contexts and objects of
one analysis in the other. It leads from the one to the other (`Turn.Between`) if it makes no
difference whether the first one chooses a context or makes an object and the outcome is turned, or
the second one does it with what has been turned. Then derivations are turned as well. The programs
need only have the same classes; the second one may have more entry methods.
-/

namespace HeapFlow

theorem map_rtake {α β : Type} (l : List α) (f : α → β) (n : Nat) :
    (l.rtake n).map f = (l.map f).rtake n := by
  simp only [List.rtake, List.map_drop, List.length_map]

/-- The same thing in another context. -/
def At.turn {α : Type} (φ : Ctx → Ctx) (K : At α) : At α :=
  ⟨φ K.ctx, K.item⟩

/-- **What becomes of contexts and objects.** -/
structure Turn where
  method : Ctx → Ctx
  object : Ctx → Ctx
  item : Obj → Obj

namespace Turn

variable (T : Turn)

def obj (O : At Obj) : At Obj :=
  ⟨T.object O.ctx, T.item O.item⟩

def place : Place → Place
  | .var C v => .var (T.method C) v
  | .field B f => .field (T.obj B) f
  | .elems B => .elems (T.obj B)
  | .static f => .static f

def flow (E : Flow) : Flow :=
  { E with src := T.place E.src, dst := T.place E.dst }

def edge (e : CallEdge (At CallSite) (At MethodId)) : CallEdge (At CallSite) (At MethodId) :=
  ⟨e.kind, e.site.turn T.method, e.callee.turn T.method⟩

def fact : Fact → Fact
  | .holds P O => .holds (T.place P) (T.obj O)
  | .flow E => .flow (T.flow E)
  | .call e => .call (T.edge e)
  | .reached M => .reached (M.turn T.method)
  | .announced m => .announced m
  | .initialized c => .initialized c
  | .started O => .started (T.obj O)
  | .asks C => .asks (T.method C)

theorem home?_fact (f : Fact) : (T.fact f).home? = f.home?.map fun M => M.turn T.method := by
  have hplace : ∀ P, (T.place P).home? = P.home?.map fun M => M.turn T.method := by
    intro P
    cases P <;> rfl
  cases f with
  | holds P O => exact hplace P
  | flow E => exact hplace E.dst
  | _ => rfl

/-- **A turn leads from one analysis to another.** -/
structure Between (g g' : Setup) : Prop where
  program : g.program.Alike g'.program
  bodies : g'.onlyApp = true → g.onlyApp = true
  models : ∀ {o}, o ∈ [Observer.classInit, .threads, .arrayCopy] → o ∈ g.observers →
    o ∈ g'.observers
  /-- The other one starts from the entry methods, and from more if the one does. -/
  starts : ∀ {b}, .entryPoints b ∈ g.observers →
    ∃ b', .entryPoints b' ∈ g'.observers ∧ (b = true → b' = true)
  entries : ∀ m ∈ g.program.entries, m ∈ g'.program.entries
  implicitEntries : ∀ m ∈ g.program.implicitEntries, m ∈ g'.program.implicitEntries
  arguments : ∀ {t n}, g.program.argumentsOwner? t = some n →
    ∃ n', g'.program.argumentsOwner? t = some n' ∧ T.item (.arguments t n) = .arguments t n' ∧
      T.item (.argument t n) = .argument t n'
  method_nil : T.method [] = []
  object_nil : T.object [] = []
  heap : ∀ C, T.object (g.policy.heapCtx C) = g'.policy.heapCtx (T.method C)
  site : ∀ S, T.method (g.policy.siteCtx S) = g'.policy.siteCtx (S.turn T.method)
  recv : ∀ S O, T.method (g.policy.recvCtx S O) = g'.policy.recvCtx (S.turn T.method) (T.obj O)
  type : ∀ o, (T.item o).type = o.type
  arrays : ∀ d i t n, (g.arraysOf d i t n).map T.item = g'.arraysOf d i t n
  constant : ∀ l, (g.merging.constant? l).map T.item = g'.merging.constant? l

namespace Between

variable {T} {g g' : Setup} (h : T.Between g g')

include h

variable {m : MethodId} {f : Fact} {O : At Obj}

theorem translates (hm : g.Translates m) : g'.Translates m := by
  intro hb
  rw [h.program.isApplication]
  exact hm (h.bodies hb)

theorem obj_made (M : At MethodId) (o : Obj) :
    T.obj (g.made M o) = g'.made (M.turn T.method) (T.item o) :=
  congrArg (At.mk · (T.item o)) (h.heap M.ctx)

theorem edge_staticEdge (S : At CallSite) (m : MethodId) :
    T.edge (g.staticEdge S m) = g'.staticEdge (S.turn T.method) m :=
  congrArg (fun C => CallEdge.mk .static (S.turn T.method) (At.mk C m)) (h.site S)

theorem edge_recvEdge (kind : CallKind) (S : At CallSite) (O : At Obj) (m : MethodId) :
    T.edge (g.recvEdge kind S O m) = g'.recvEdge kind (S.turn T.method) (T.obj O) m :=
  congrArg (fun C => CallEdge.mk kind (S.turn T.method) (At.mk C m)) (h.recv S O)

theorem item_allocated (d : Method) (i : Nat) (t : Ty) :
    T.item (g.merging.allocated d i t) = g'.merging.allocated d i t :=
  (List.cons.inj (h.arrays d i t 0)).1

/-- The facts of a statement are turned. -/
theorem stmtFact {M : At MethodId} {d : Method} {i : Nat} {s : Stmt} (hf : StmtFact g M d i s f) :
    StmtFact g' (M.turn T.method) d i s (T.fact f) := by
  cases hf with
  | new dst t n =>
    rw [fact, h.obj_made, h.item_allocated]
    exact .new dst t n
  | @inner dst t n a b hab =>
    rw [fact, place, h.obj_made, h.obj_made]
    refine .inner dst ?_
    rw [← h.arrays]
    exact hab.map T.item
  | register dst n ht hm =>
    rw [fact, h.edge_staticEdge]
    exact .register dst n (h.program.needsFinalizer ▸ ht) (h.program.staticCallee? ▸ hm)
  | const dst hl =>
    rw [fact, h.obj_made]
    refine .const dst ?_
    rw [← h.constant, hl]
    rfl
  | copy dst hx => exact .copy dst hx
  | cast dst t hx => exact .cast dst t hx
  | loadStatic f hx => exact .loadStatic f hx
  | storeStatic f hx => exact .storeStatic f hx
  | call hk hm =>
    rw [fact, h.edge_staticEdge]
    exact .call hk (h.program.staticCallee? ▸ hm)

theorem bindFact {kind : CallKind} {S : At CallSite} (hf : BindFact g kind S O m f) :
    BindFact g' kind (S.turn T.method) (T.obj O) m (T.fact f) := by
  cases hf with
  | call =>
    rw [fact, h.edge_recvEdge]
    exact .call
  | this =>
    rw [fact, place, h.recv]
    exact .this

/-- So are those of an object of a variable. -/
theorem useFact {C : Ctx} {v : Var} (hf : UseFact g C O v f) :
    UseFact g' (T.method C) (T.obj O) v (T.fact f) := by
  have htype : (T.obj O).item.type = O.item.type := h.type O.item
  cases hf with
  | store hd hs hx => exact .store (h.program.method? ▸ hd) hs hx
  | load hd hs hy => exact .load (h.program.method? ▸ hd) hs hy
  | storeElem hd hs hx ht =>
    exact .storeElem (h.program.method? ▸ hd) hs hx (htype.trans ht)
  | loadElem hd hs hy ht => exact .loadElem (h.program.method? ▸ hd) hs hy (htype.trans ht)
  | call hd hs hv hn hf =>
    refine .call (h.program.method? ▸ hd) hs hv ?_ (h.bindFact hf)
    rw [htype, h.program.callee?]
    exact hn
  | start ht hp => exact .start (h.models (by simp) ht) (h.program.hasThreads ▸ hp)
  | run ht hp hn hf =>
    refine .run (h.models (by simp) ht) (h.program.hasThreads ▸ hp) ?_ (h.bindFact hf)
    rw [htype, h.program.runMethod?]
    exact hn

theorem wireFact {e : CallEdge (At CallSite) (At MethodId)} (hf : WireFact g e f) :
    WireFact g' (T.edge e) (T.fact f) := by
  cases hf with
  | arg hk hc hd hax ha =>
    exact .arg hk (h.program.call? ▸ hc) (h.program.method? ▸ hd) hax (h.program.holdsObjects ▸ ha)
  | ret hk hc hd hr hx hv hh =>
    exact .ret hk (h.program.call? ▸ hc) (h.program.method? ▸ hd) hr (h.program.holdsObjects ▸ hx)
      hv hh

theorem copyFact {C : Ctx} {v : Var} (hf : CopyFact g C O v f) :
    CopyFact g' (T.method C) (T.obj O) v (T.fact f) := by
  have htype : (T.obj O).item.type = O.item.type := h.type O.item
  cases hf with
  | load n hp hd hs hc hx ht =>
    exact .load n (h.program.hasArrayCopy ▸ hp) (h.program.method? ▸ hd) hs
      (h.program.isArrayCopy ▸ hc) hx (htype.trans ht)
  | store n hp hd hs hc hx ht =>
    exact .store n (h.program.hasArrayCopy ▸ hp) (h.program.method? ▸ hd) hs
      (h.program.isArrayCopy ▸ hc) hx (htype.trans ht)

theorem argFact (hf : ArgFact g m f) : ArgFact g' m (T.fact f) := by
  cases hf with
  | array hd hx ht hn =>
    obtain ⟨n', hn', harray, -⟩ := h.arguments hn
    rw [fact, place, obj, h.method_nil, h.object_nil, harray]
    exact .array (h.program.method? ▸ hd) hx ht hn'
  | elem hd hx ht hn hr =>
    obtain ⟨n', hn', harray, helem⟩ := h.arguments hn
    rw [fact, place, obj, obj, h.object_nil, harray, helem]
    exact .elem (h.program.method? ▸ hd) hx ht hn' hr

theorem given (hf : Given g f) : Given g' (T.fact f) := by
  obtain ⟨b, hb, hf⟩ := hf
  obtain ⟨b', hb', hle⟩ := h.starts hb
  refine ⟨b', hb', ?_⟩
  cases hf with
  | @entry m hm =>
    rw [fact, At.turn, h.method_nil]
    refine .entry ?_
    rcases List.mem_append.mp hm with hm | hm
    · exact List.mem_append_left _ (h.entries m hm)
    · -- the further entries are there only if the first analysis starts from them
      cases b with
      | false => cases hm
      | true =>
        rw [hle rfl]
        exact List.mem_append_right _ (h.implicitEntries m hm)
  | @args m _ hm hf =>
    obtain ⟨hm, htakes⟩ := List.mem_filter.mp hm
    refine .args (List.mem_filter.mpr ⟨h.entries m hm, ?_⟩) (h.argFact hf)
    rw [h.program.takesArguments]
    exact htakes

/-- **Whatever follows is turned.** -/
theorem follows {x : Fact} (hf : Follows g x f) : Follows g' (T.fact x) (T.fact f) := by
  cases hf with
  | announce ht => exact .announce (h.translates ht)
  | stmt ht hd hs hf =>
    exact .stmt (h.translates ht) (h.program.method? ▸ hd) hs (h.stmtFact hf)
  | ask ho ht hm =>
    exact .ask (h.models (by simp) ho) (h.translates ht) (h.program.returnsThread ▸ hm)
  | init ho hd hc hk =>
    exact .init (h.models (by simp) ho) (h.program.method? ▸ hd) (h.program.activeUses ▸ hc)
      (h.program.class? ▸ hk)
  | super hc hu hk => exact .super (h.program.class? ▸ hc) hu (h.program.class? ▸ hk)
  | clinit hc hd =>
    rw [fact, fact, At.turn, h.method_nil]
    exact .clinit (h.program.class? ▸ hc) hd
  | reach e => exact .reach (T.edge e)
  | wire hf => exact .wire (h.wireFact hf)
  | use ht hf => exact .use (h.translates ht) (h.useFact hf)

/-- **What is derivable in an analysis is derivable, turned, in the other one.** -/
theorem derivable (hf : Derivable g f) : Derivable g' (T.fact f) := by
  -- the facts that turn into derivable ones are closed under the rules
  refine hf.least (F := fun f => Derivable g' (T.fact f)) fun f hf => ?_
  apply Derivable.closed
  cases hf with
  | given hf => exact .given (h.given hf)
  | follow hh hm hf =>
    refine .follow hh (fun N hN => ?_) (h.follows hf)
    rw [home?_fact] at hN
    obtain ⟨M, hM, rfl⟩ := Option.map_eq_some_iff.mp hN
    exact hm M hM
  | @flow e O he hO hp =>
    refine .flow he hO fun t ht => ?_
    rw [h.program.isSubtype]
    exact (h.type O.item).symm ▸ hp t ht
  | current hO hC hd hv => exact .current hO hC (h.program.method? ▸ hd) hv
  | copy ho hh hm ht hf =>
    exact .copy (h.models (by simp) ho) hh hm (h.translates ht) (h.copyFact hf)

end Between

/-- A turn of contexts that leaves objects alone. -/
def ofContexts (method object : Ctx → Ctx) : Turn where
  method := method
  object := object
  item := id

theorem fact_ofContexts_id (f : Fact) : (ofContexts id id).fact f = f := by
  have hplace : ∀ P, (ofContexts id id).place P = P := by
    intro P
    cases P <;> rfl
  cases f with
  | holds P O => exact congrArg (Fact.holds · O) (hplace P)
  | flow E =>
    obtain ⟨src, dst, kind, filter⟩ := E
    simp only [fact, flow, hplace]
  | _ => rfl

/-- What becomes of an element of a context when objects are replaced. -/
def replaced (φ : Obj → Obj) : Mark → Mark
  | .obj o => .obj (φ o)
  | a => a

/-- A turn that replaces objects, also in contexts. -/
def ofObjects (φ : Obj → Obj) : Turn where
  method C := C.map (replaced φ)
  object C := C.map (replaced φ)
  item := φ

section Objects

variable (φ : Obj → Obj) (policy : Policy)

theorem heapCtx_ofObjects (C : Ctx) :
    (ofObjects φ).object (policy.heapCtx C) = policy.heapCtx ((ofObjects φ).method C) :=
  map_rtake C (replaced φ) _

theorem siteCtx_ofObjects (S : At CallSite) :
    (ofObjects φ).method (policy.siteCtx S) = policy.siteCtx (S.turn (ofObjects φ).method) := by
  cases policy with
  | call k => simp [Policy.siteCtx, ofObjects, At.turn, replaced, map_rtake]
  | insensitive | obj | type => rfl

/-- A receiver that is replaced makes the context in which it is replaced. For contexts of types it
must have been allocated in the same class. -/
theorem recvCtx_ofObjects
    (htype : ∀ k, policy = .type k → ∀ o, (φ o).containerType = o.containerType)
    (S : At CallSite) (O : At Obj) :
    (ofObjects φ).method (policy.recvCtx S O) =
      policy.recvCtx (S.turn (ofObjects φ).method) ((ofObjects φ).obj O) := by
  cases policy with
  | insensitive => rfl
  | call k => simp [Policy.recvCtx, ofObjects, At.turn, replaced, map_rtake]
  | obj k => simp [Policy.recvCtx, ofObjects, obj, replaced, map_rtake]
  | type k => simp [Policy.recvCtx, ofObjects, obj, replaced, map_rtake, htype k rfl O.item]

end Objects

end Turn

end HeapFlow
