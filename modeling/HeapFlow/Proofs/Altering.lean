import HeapFlow.Proofs.Requests

/-!
# What actions do

Every action of a run, whether it succeeds or fails, makes only changes, apart from the few that
settle something, and minds what it has no licence to touch (`Act.Does`). What it leaves to do
speaks of known numbers and is mostly *quiet*: no news that must come exactly once, no statement and
no call edge.
-/

namespace HeapFlow

open List Registry

namespace Contexts

variable (t : Contexts) (c : CtxId)

/-- Requests only add: contexts stay as they are. -/
theorem le_child (e : Elem) : t ≤ (t.child c e).2 := by
  unfold child
  split
  · split
    · exact le_refl t
    · rename_i hnew
      exact le_of_steps (Table.le_push _ _ hnew)
  · exact le_refl t

theorem le_extend (es : List Elem) : t ≤ (t.extend c es).2 := by
  induction es generalizing t c with
  | nil => exact le_refl _
  | cons e es ih => exact le_trans (le_child t c e) (ih _ _)

/-- A context made longer, and then cut to its bound. -/
theorem le_append (e : Elem) (k : Int) : t ≤ (t.append c e k).2 := by
  unfold append
  split
  · exact le_refl _
  · split
    · exact le_child t c e
    · exact le_extend t _ _

theorem le_last (k : Int) : t ≤ (t.last c k).2 := by
  unfold last
  split
  · exact le_refl _
  · split
    · exact le_refl _
    · exact le_extend t _ _

end Contexts

namespace Registry

variable (r : Registry)

theorem le_context (es : List Elem) : r ≤ (r.context es).2 :=
  { le_refl r with contexts := Contexts.le_extend r.contexts _ es }

theorem le_append (c : CtxId) (e : Elem) (k : Int) : r ≤ (r.append c e k).2 :=
  { le_refl r with contexts := Contexts.le_append r.contexts c e k }

theorem le_last (c : CtxId) (k : Int) : r ≤ (r.last c k).2 :=
  { le_refl r with contexts := Contexts.le_last r.contexts c k }

/-- Choosing a context leaves all else alone. -/
theorem le_heapContext (p : Policy) (m : CMethodId) : r ≤ (p.heapContext r m).2 := by
  cases p with
  | insensitive => exact le_refl r
  | call | obj | type => exact le_last r _ _

theorem le_staticContext (p : Policy) (i : CSiteId) : r ≤ (p.staticContext r i).2 := by
  cases p with
  | insensitive | obj | type => exact le_refl r
  | call => exact le_append r _ _ _

theorem le_calleeContext (p : Policy) (i : CSiteId) (o : CObjId) :
    r ≤ (p.calleeContext r i o).2 := by
  cases p with
  | insensitive => exact le_refl r
  | call | obj | type => exact le_append r _ _ _

theorem hasPointer_pointer (x : Pointer) : (r.pointer x).2.HasPointer (r.pointer x).1 :=
  ⟨x, Table.get?_intern _ _⟩

def HasAbstract (i : ObjId) : Prop :=
  ∃ x, r.heap.get? i = some x

variable {r}

theorem HasAbstract.mono {r' : Registry} {i : ObjId} (h : r.HasAbstract i) (hle : r ≤ r') :
    r'.HasAbstract i := by
  obtain ⟨x, hx⟩ := h
  exact ⟨x, hle.heap i x hx⟩

/-- An object that is wanted is there after the request. -/
theorem hasAbstract_request {g : Merging} {a : Ask} (h : (r.heap.wanted? g a).isSome = true) :
    (r.request g a).2.HasAbstract (r.request g a).1 := by
  obtain ⟨o, ho⟩ := Option.isSome_iff_exists.mp h
  obtain ⟨x, hx, -⟩ := (Heap.serves_request ho).get
  exact ⟨x, hx⟩

theorem HasAbstract.object {i : ObjId} (h : r.HasAbstract i) (c : CtxId) :
    (r.object c i).2.HasObject (r.object c i).1 := by
  obtain ⟨x, hx⟩ := h
  exact ⟨x, Option.bind_eq_some_iff.mpr ⟨⟨c, i⟩, Table.get?_intern _ _, hx⟩⟩

end Registry

/-! ### Tasks that speak of known numbers -/

/-- The numbers of an event have been given out, as far as observers look at them; and a variable
that has grown has got something. -/
def Event.Known (r : Registry) : Event → Prop
  | .grown p delta =>
      delta.isEmpty = false ∧ r.HasPointer p ∧ ∀ o ∈ delta, r.HasObject o
  | _ => True

/-- Events that are not counted. -/
def Event.Quiet : Event → Prop
  | .method _ => False
  | .methodIn _ => False
  | .call _ => False
  | .grown _ _ => False
  | _ => True

/-- The numbers of a task have been given out, and news is for the observers from one on. -/
def Task.Known (g : Setup) (r : Registry) : Task → Prop
  | .notify e os => os <:+ g.observers ∧ e.Known r
  | .reach m => r.HasMethod m
  | .receive _ _ objs => ∀ o ∈ objs, r.HasObject o
  | .dispatch _ o => r.HasObject o
  | _ => True

/-- A known task that is not counted. -/
def Task.Quiet (g : Setup) (r : Registry) : Task → Prop
  | .notify e os => os <:+ g.observers ∧ e.Quiet
  | .reach m => r.HasMethod m
  | .receive _ _ objs => ∀ o ∈ objs, r.HasObject o
  | .dispatch _ o => r.HasObject o
  | .enact _ _ => False
  | .wire _ => False
  | .drain => False
  | .finish => False
  | _ => True

/-- Nothing but quiet tasks is left to do. -/
def Setup.Calm (g : Setup) (ts : List Task) (s : State) : Prop :=
  ∀ u ∈ ts, u.Quiet g s.registry

/-- Tasks that make changes only and leave quiet tasks only. -/
def Task.Routine : Task → Prop
  | .notify _ _ => False
  | .reach _ => False
  | .wire _ => False
  | .drain => False
  | _ => True

/-- Who may change what they remember in a task: the observer that is told, or in an operation of a
script everybody. -/
def Task.Tells : Task → Observer → Prop
  | .notify _ (o :: _), o' => o' = o
  | .op _, _ => True
  | _, _ => False

theorem Task.Quiet.known {g : Setup} {r : Registry} {t : Task} (h : t.Quiet g r) : t.Known g r := by
  cases t with
  | notify e os =>
    refine ⟨h.1, ?_⟩
    cases e with
    | grown => exact h.2.elim
    | _ => trivial
  | reach | receive | dispatch => exact h
  | _ => trivial

/-- What is known stays known. -/
theorem Task.Known.mono {g : Setup} {r r' : Registry} {t : Task} (h : t.Known g r) (hle : r ≤ r') :
    t.Known g r' := by
  cases t with
  | notify e os =>
    refine ⟨h.1, ?_⟩
    cases e with
    | grown p delta =>
      obtain ⟨-, hnew, hp, hdelta⟩ := h
      exact ⟨hnew, hp.mono hle, fun o ho => (hdelta o ho).mono hle⟩
    | _ => trivial
  | reach m => exact Registry.HasMethod.mono hle h
  | receive c i objs => exact fun o ho => (h o ho).mono hle
  | dispatch i o => exact Registry.HasObject.mono hle h
  | _ => trivial

namespace Act

/-! ### Deeds -/

/-- What an action is free to touch. -/
structure Licence where
  mem : Observer → Prop
  draws : Prop
  /-- The program by which the objects that are asked for are labelled, if that matters. -/
  program? : Option Program

/-- **What an action does** to a state: it makes changes and minds what it may not touch. -/
structure Deeds (g : Setup) (lic : Licence) (s s' : State) : Prop where
  changes : Changes g lic.mem s s'
  minds : s.Minds lic.program? lic.draws s'

namespace Deeds

variable {g : Setup} {lic : Licence} {s s' s'' : State}

theorem refl (s : State) : Deeds g lic s s :=
  ⟨.refl, .refl s⟩

/-- Deeds may follow each other. -/
theorem trans (h : Deeds g lic s s') (h' : Deeds g lic s' s'') : Deeds g lic s s'' :=
  ⟨h.changes.trans h'.changes, h.minds.trans h'.minds⟩

theorem le (h : Deeds g lic s s') : s.registry ≤ s'.registry :=
  h.changes.le

/-- A single change that leaves heap, call graph and classes alone. -/
theorem of_change (h : Change g lic.mem s s') (hheap : s'.registry.heap = s.registry.heap)
    (hrest : (s'.snapshot, s'.calls, s'.initialized) = (s.snapshot, s.calls, s.initialized)) :
    Deeds g lic s s' :=
  ⟨.single h, .of_eq hheap hrest⟩

/-- With a licence to draw, the call graph may grow, too. -/
theorem of_drawn (hd : lic.draws) (h : s.Alike lic.mem s') (hsnapshot : s'.snapshot = s.snapshot) :
    Deeds g lic s s' :=
  ⟨.single (.other h), .of_drawn hd (by rw [h.registry]) hsnapshot⟩

end Deeds

/-- An action does such deeds, whether it succeeds or fails; `Q` says what its answer is. -/
def Does (g : Setup) (lic : Licence) {α : Type} (a : Act α) (s : State) (Q : α → State → Prop) :
    Prop :=
  match a s with
  | .ok x s' => Deeds g lic s s' ∧ Q x s'
  | .error _ s' => Deeds g lic s s'

section Compose

variable {g : Setup} {lic : Licence} {α β : Type} {s : State} {a : Act α} {f : α → Act β}
  {Q : α → State → Prop} {R : β → State → Prop}

theorem Does.pure {x : α} (h : Q x s) : Does g lic (Pure.pure x) s Q :=
  ⟨.refl s, h⟩

theorem Does.throw (e : Failure) : Does g lic (MonadExcept.throw e : Act α) s Q :=
  show Deeds g lic s s from .refl s

theorem Does.get_bind {f : State → Act β} (h : Does g lic (f s) s R) : Does g lic (get >>= f) s R :=
  h

/-- An action that needs the answer of another one. -/
theorem Does.bind (ha : Does g lic a s Q)
    (hf : ∀ x s', Deeds g lic s s' → Q x s' → Does g lic (f x) s' R) :
    Does g lic (a >>= f) s R := by
  unfold Does at ha ⊢
  simp only [Bind.bind, EStateM.bind]
  cases h : a s with
  | error e s' =>
    rw [h] at ha
    exact ha
  | ok x s₁ =>
    rw [h] at ha
    have h₂ := hf x s₁ ha.1 ha.2
    unfold Does at h₂
    dsimp only
    cases hx : f x s₁ with
    | error e s₂ =>
      rw [hx] at h₂
      exact ha.1.trans h₂
    | ok y s₂ =>
      rw [hx] at h₂
      exact ⟨ha.1.trans h₂.1, h₂.2⟩

theorem Does.seq {b : Act β} (ha : Does g lic a s Q)
    (hb : ∀ s', Deeds g lic s s' → Does g lic b s' R) : Does g lic (a >>= fun _ => b) s R :=
  ha.bind fun _ s' h _ => hb s' h

theorem Does.then_pure {y : β} (ha : Does g lic a s Q) (h : ∀ s', Deeds g lic s s' → R y s') :
    Does g lic (a >>= fun _ => Pure.pure y) s R :=
  ha.seq fun s' hs' => .pure (h s' hs')

theorem Does.modify {f : State → State} {Q : PUnit → State → Prop} (h : Deeds g lic s (f s))
    (hQ : Q ⟨⟩ (f s)) : Does g lic (modify f : Act PUnit) s Q :=
  ⟨h, hQ⟩

theorem Does.set {s₁ : State} {Q : PUnit → State → Prop} (h : Deeds g lic s s₁)
    (hQ : Q ⟨⟩ s₁) : Does g lic (MonadStateOf.set s₁ : Act PUnit) s Q :=
  ⟨h, hQ⟩

/-- What is done on a condition only. -/
theorem Does.guard {c : Prop} [Decidable c] {y : α} (h : c → Does g lic a s Q) (hy : Q y s) :
    Does g lic (if c then a else Pure.pure y) s Q := by
  by_cases hc : c
  · rw [if_pos hc]
    exact h hc
  · rw [if_neg hc]
    exact .pure hy

/-- A loop does what its rounds do. -/
theorem Does.forIn {l : List β} {body : β → PUnit → Act (ForInStep PUnit)}
    (h : ∀ x ∈ l, ∀ s', Deeds g lic s s' → Does g lic (body x ⟨⟩) s' fun _ _ => True) :
    Does g lic (ForIn.forIn l PUnit.unit body) s fun _ _ => True := by
  induction l generalizing s with
  | nil => exact .pure trivial
  | cons x l ih =>
    rw [forIn_cons]
    refine (h x (.head _) s (.refl s)).bind fun r s₁ h₁ _ => ?_
    cases r with
    | done => exact .pure trivial
    | yield =>
      exact ih fun y hy s' hs' => h y (mem_cons_of_mem x hy) s' (h₁.trans hs')

/-- A request to the registry that leaves the heap alone. -/
theorem does_register {ask : Registry → α × Registry} (h : s.registry ≤ (ask s.registry).2)
    (hheap : (ask s.registry).2.heap = s.registry.heap)
    (hQ : Q (ask s.registry).1 { s with registry := (ask s.registry).2 }) :
    Does g lic (register ask) s Q :=
  ⟨.of_change (.registry h) hheap rfl, hQ⟩

end Compose

section Facts

variable {g : Setup} {lic : Licence} {s : State}

theorem does_variablePtr (c : CtxId) (v : Var) :
    Does g lic (variablePtr c v) s fun p s' => s'.registry.HasPointer p :=
  does_register (le_pointer _ _) rfl (hasPointer_pointer _ _)

theorem does_pointer (x : Pointer) :
    Does g lic (pointer g x) s fun p s' => s'.registry.HasPointer p := by
  unfold pointer
  refine Does.get_bind ?_
  split
  · exact .throw _
  · exact does_register (le_pointer _ _) rfl (hasPointer_pointer _ _)

theorem does_method (c : CtxId) (m : MethodId) :
    Does g lic (register (·.method c m)) s fun i s' => s'.registry.HasMethod i :=
  does_register (le_method _ _ _) rfl ⟨⟨c, _⟩, Table.get?_intern _ _⟩

theorem does_site (c : CtxId) (i : CallSite) :
    Does g lic (register (·.site c i)) s fun _ _ => True :=
  does_register (le_site _ _ _) rfl trivial

/-- An abstract object is asked for only if it occurs in the program. -/
theorem does_request {a : Ask} (hw : (s.registry.heap.wanted? g.merging a).isSome = true)
    (h : ∀ p ∈ lic.program?, a.Occurs p) :
    Does g lic (register (·.request g.merging a)) s fun i s' => s'.registry.HasAbstract i :=
  ⟨⟨.single (.registry (le_request _ _ _)), fun p hp hs => hs.request (h p hp), rfl,
    .inr ⟨rfl, rfl⟩⟩, hasAbstract_request hw⟩

theorem does_object {i : ObjId} (h : s.registry.HasAbstract i) (c : CtxId) :
    Does g lic (register (·.object c i)) s fun o s' => s'.registry.HasObject o :=
  does_register (le_object _ _ _) rfl (h.object c)

theorem does_allocate {i : ObjId} (h : s.registry.HasAbstract i) (m : CMethodId) :
    Does g lic (allocate g m i) s fun o s' => s'.registry.HasObject o := by
  refine (does_register (Q := fun _ _ => True) (le_heapContext _ _ _)
    (by cases g.policy <;> rfl) trivial).bind ?_
  intro c s₁ h₁ _
  exact does_object (h.mono h₁.le) c

/-- Objects come to a pointer by way of the work list. -/
theorem does_addObjects {p : PtrId} {t : Objects} (hp : s.registry.HasPointer p)
    (ht : ∀ o ∈ t, s.registry.HasObject o) : Does g lic (addObjects p t) s fun _ _ => True := by
  unfold Does
  rw [addObjects_apply]
  exact ⟨.of_change (.objects hp ht) rfl rfl, trivial⟩

theorem does_addObject {p : PtrId} {o : CObjId} (hp : s.registry.HasPointer p)
    (ho : s.registry.HasObject o) :
    Does g lic (addObjects p (OrderedSet.singleton o)) s fun _ _ => True := by
  refine does_addObjects hp fun x hx => ?_
  rw [OrderedSet.mem_singleton.mp hx]
  exact ho

theorem does_addToVar {o : CObjId} (ho : s.registry.HasObject o) (c : CtxId) (v : Var) :
    Does g lic (addToVar c v o) s fun _ _ => True :=
  (does_variablePtr c v).bind fun _ _ h₁ hp => does_addObject hp (ho.mono h₁.le)

/-- A new edge hands over at once what its source holds. -/
theorem does_addFlow {src dst : PtrId} {kind : FlowKind} {t : Transfer}
    (hdst : s.registry.HasPointer dst) (ht : ∀ o, t = .always o → s.registry.HasObject o) :
    Does g lic (addFlow g src dst kind t) s fun _ _ => True := by
  unfold Does
  rw [addFlow_apply]
  refine ⟨.of_change (.flow hdst ht) ?_ ?_, trivial⟩ <;>
    · unfold State.joined
      split <;> rfl

theorem does_addCall {e : CCallEdge} (he : s.registry.HasMethod e.callee) :
    Does g lic (addCall e) s fun _ _ => True :=
  .modify (.of_change (.call he) rfl rfl) trivial

theorem does_setContainer (hd : lic.draws) (i : CSiteId) (m : CMethodId) :
    Does g lic (setContainer i m) s fun _ _ => True := by
  refine .modify (.of_drawn hd ?_ rfl) trivial
  exact ⟨rfl, rfl, rfl, rfl, CallGraph.edges_setContainer _ i m,
    CallGraph.reachable_setContainer _ i m, rfl, rfl, rfl, fun _ => rfl,
    fun _ => rfl⟩

/-- An observer remembers something. -/
theorem does_memory {f : State → State} (h : s.Alike lic.mem (f s))
    (hrest : ((f s).snapshot, (f s).calls, (f s).initialized) =
      (s.snapshot, s.calls, s.initialized)) :
    Does g lic (modify f : Act PUnit) s fun _ _ => True :=
  .modify (.of_change (.other h) (by rw [h.registry]) hrest) trivial

end Facts

/-! ### Bodies of methods -/

section Bodies

variable {g : Setup} {lic : Licence} {s : State}

/-- The arrays inside an array with several dimensions. -/
theorem does_innerArrays {outer : ObjId} (h : s.registry.HasAbstract outer) (m : MethodId)
    (n : Nat) (t : Ty) :
    Does g lic (innerArrays g.merging m outer n t) s
      fun l s' => ∀ i ∈ l, s'.registry.HasAbstract i := by
  induction n generalizing t s with
  | zero => exact .pure fun _ h => by cases h
  | succ n ih =>
    unfold innerArrays
    split
    · next u _ =>
      obtain ⟨x, hx⟩ := h
      have hw : (s.registry.heap.wanted? g.merging
          (.mock innerArrayDesc (.object outer) (.array u) (some m))).isSome = true := by
        rw [Heap.wanted?, hx, Option.map_some, Option.isSome_some]
      refine (does_request hw fun _ _ => trivial).bind fun i s₁ h₁ hi => ?_
      refine (ih ⟨x, h₁.le.heap _ _ hx⟩ _).bind fun l s₂ h₂ hl => .pure fun j hj => ?_
      rcases mem_cons.mp hj with rfl | hj
      · exact hi.mono h₂.le
      · exact hl j hj
    · exact .throw _

theorem does_chainArrays (m : CMethodId) (array : CObjId) (l : List ObjId)
    (hl : ∀ i ∈ l, s.registry.HasAbstract i) :
    Does g lic (chainArrays g m array l) s fun _ _ => True := by
  induction l generalizing array s with
  | nil => exact .pure trivial
  | cons i l ih =>
    unfold chainArrays
    refine (does_allocate (hl i (.head _)) m).bind fun o s₁ h₁ ho => ?_
    refine (does_pointer _).bind fun p s₂ h₂ hp => ?_
    refine (does_addObject hp (ho.mono h₂.le)).seq fun s₃ h₃ => ih o fun j hj => ?_
    exact (hl j (.tail _ hj)).mono ((h₁.trans h₂).trans h₃).le

/-- News that need not come exactly once is calm. -/
theorem calm_notify {e : Event} (h : e.Quiet) : g.Calm [.notify e g.observers] s := by
  intro u hu
  rw [mem_singleton.mp hu]
  exact ⟨suffix_refl _, h⟩

theorem calm_nil : g.Calm [] s :=
  fun _ h => by cases h

/-- A static call adds a call edge, or reports that it has no target. -/
theorem does_staticCall (c : CtxId) (site : CallSite) (target : MethodId) :
    Does g lic (staticCall g c site target) s g.Calm := by
  unfold staticCall
  dsimp only
  split
  · exact .pure (calm_notify trivial)
  · split
    · exact .pure (calm_notify trivial)
    · refine (does_site _ _).bind fun i s₁ _ _ => ?_
      refine (does_register (Q := fun _ _ => True) (le_staticContext _ _ _)
        (by cases g.policy <;> rfl) trivial).bind fun c s₂ _ _ => ?_
      refine (does_method c _).bind fun m s₃ _ hm => ?_
      exact (does_addCall hm).then_pure fun _ _ => calm_nil

theorem does_allocation (hd : lic.draws) {d : Method} {i : Nat} {t : Ty}
    (h : ∀ p ∈ lic.program?, (Ask.alloc d i t).Occurs p) (m : CMethodId) (c : CtxId)
    (dst : Slot) (n : Nat) : Does g lic (allocation g m c d i dst t n) s g.Calm := by
  unfold allocation
  refine (does_request rfl h).bind fun o s₁ _ ho => ?_
  refine (does_allocate ho m).bind fun array s₂ h₂ harray => ?_
  refine (does_addToVar harray _ _).seq fun s₃ h₃ => ?_
  have hregister : ∀ s', Does g lic (if g.program.needsFinalizer t then do
      setContainer (← register (·.site c (.register d.id i))) m
      staticCall g c (.register d.id i) finalizerRegister
    else Pure.pure []) s' g.Calm := by
    intro s'
    refine .guard (fun _ => ?_) calm_nil
    refine (does_site _ _).bind fun j s₁ _ _ => ?_
    exact (does_setContainer hd j m).seq fun s₂ _ => does_staticCall _ _ _
  dsimp only
  split
  · refine (does_innerArrays (ho.mono (h₂.trans h₃).le) _ _ _).bind fun l s₄ _ hl => ?_
    exact (does_chainArrays m array l hl).seq fun s₅ _ => hregister s₅
  · exact hregister s₃

theorem does_constant (m : CMethodId) (c : CtxId) (v : Var) (l : Literal) :
    Does g lic (constant g m c v l) s fun _ _ => True := by
  unfold constant
  split
  · exact .pure trivial
  · rename_i hl
    have hw : (s.registry.heap.wanted? g.merging (.constant l)).isSome = true := by
      rw [Heap.wanted?, hl, Option.isSome_some]
    refine (does_request hw fun _ _ => trivial).bind fun o s₁ _ ho => ?_
    exact (does_allocate ho m).bind fun _ _ _ hx => does_addToVar hx _ _

theorem does_flowWhen {b : Bool} {src dst : Act PtrId} {kind : FlowKind} {t : Transfer}
    (hsrc : ∀ s, Does g lic src s fun p s' => s'.registry.HasPointer p)
    (hdst : ∀ s, Does g lic dst s fun p s' => s'.registry.HasPointer p)
    (ht : ∀ o, t ≠ .always o) :
    Does g lic (if b then do
        let p ← src
        let q ← dst
        addFlow g p q kind t
        Pure.pure []
      else Pure.pure []) s g.Calm := by
  refine .guard (fun _ => ?_) calm_nil
  refine (hsrc s).bind fun p s₁ _ _ => (hdst s₁).bind fun q s₂ _ hq => ?_
  exact (does_addFlow hq fun o ho => (ht o ho).elim).then_pure fun _ _ => calm_nil

/-- **What a statement does.** -/
theorem does_enact (hd : lic.draws) {d : Method} {i : Nat} {st : Stmt}
    (h : ∀ p ∈ lic.program?, p.method? d.id = some d ∧ d.body[i]? = some st) (m : CMethodId) :
    Does g lic (enact g m d i st) s g.Calm := by
  unfold enact
  refine Does.get_bind ?_
  dsimp only
  split
  · exact does_allocation hd (fun p hp => ⟨(h p hp).1, _, _, (h p hp).2⟩) _ _ _ _
  · exact (does_constant ..).then_pure fun _ _ => calm_nil
  · exact does_flowWhen (fun _ => does_variablePtr _ _) (fun _ => does_variablePtr _ _) (by simp)
  · exact does_flowWhen (fun _ => does_variablePtr _ _) (fun _ => does_variablePtr _ _) (by simp)
  · exact does_flowWhen (fun _ => does_pointer _) (fun _ => does_variablePtr _ _) (by simp)
  · exact does_flowWhen (fun _ => does_variablePtr _ _) (fun _ => does_pointer _) (by simp)
  · refine (does_site _ _).bind fun j s₁ _ _ => (does_setContainer hd j m).seq fun s₂ _ => ?_
    exact .guard (fun _ => does_staticCall _ _ _) calm_nil
  all_goals exact .pure calm_nil

end Bodies

/-! ### Growing variables and call edges -/

section Growth

variable {g : Setup} {lic : Licence} {s : State}

section Uses

variable (c : CtxId) (d : Method) (v : Slot) (delta : Objects)

/-- Stores into the new objects of a variable. -/
theorem does_growStores : Does g lic (growStores g c d v delta) s fun _ _ => True := by
  refine Does.then_pure (.forIn fun x _ s₁ _ => ?_) fun _ _ => trivial
  refine .guard (fun _ => ?_) trivial
  refine (does_variablePtr _ _).bind fun src s₂ _ _ => ?_
  refine Does.then_pure (.forIn fun o _ s₃ _ => ?_) fun _ _ => trivial
  refine (does_pointer _).bind fun q s₄ _ hq => ?_
  exact (does_addFlow hq (by simp)).then_pure fun _ _ => trivial

theorem does_growLoads : Does g lic (growLoads g c d v delta) s fun _ _ => True := by
  refine Does.then_pure (.forIn fun x _ s₁ _ => ?_) fun _ _ => trivial
  refine .guard (fun _ => ?_) trivial
  refine (does_variablePtr _ _).bind fun dst s₂ _ hdst => ?_
  refine Does.then_pure (.forIn fun o _ s₃ h₃ => ?_) fun _ _ => trivial
  refine (does_pointer _).bind fun q s₄ h₄ _ => ?_
  exact (does_addFlow (hdst.mono (h₃.trans h₄).le) (by simp)).then_pure fun _ _ => trivial

/-- Elements of an array. -/
theorem does_storeElems (src : PtrId) (array : CObjId) :
    Does g lic (storeElems g src array) s fun _ _ => True := by
  refine (does_pointer _).bind fun q s₁ _ hq => Does.get_bind ?_
  exact does_addFlow hq (by simp)

theorem does_loadElems {dst : PtrId} (hdst : s.registry.HasPointer dst) (array : CObjId) :
    Does g lic (loadElems g array dst) s fun _ _ => True :=
  (does_pointer _).bind fun _ _ h₁ _ => does_addFlow (hdst.mono h₁.le) (by simp)

theorem does_growElemStores : Does g lic (growElemStores g c d v delta) s fun _ _ => True := by
  refine Does.then_pure (.forIn fun x _ s₁ _ => ?_) fun _ _ => trivial
  refine .guard (fun _ => ?_) trivial
  refine (does_variablePtr _ _).bind fun src s₂ _ _ => Does.get_bind ?_
  refine Does.then_pure (.forIn fun o _ s₃ _ => ?_) fun _ _ => trivial
  exact (does_storeElems src o).then_pure fun _ _ => trivial

theorem does_growElemLoads : Does g lic (growElemLoads g c d v delta) s fun _ _ => True := by
  refine Does.then_pure (.forIn fun x _ s₁ _ => ?_) fun _ _ => trivial
  refine .guard (fun _ => ?_) trivial
  refine (does_variablePtr _ _).bind fun dst s₂ _ hdst => Does.get_bind ?_
  refine Does.then_pure (.forIn fun o _ s₃ h₃ => ?_) fun _ _ => trivial
  exact (does_loadElems (hdst.mono h₃.le) o).then_pure fun _ _ => trivial

end Uses

/-- **What a variable that has grown does**: flow edges, receivers and its own news. -/
theorem does_grow {delta : Objects} (hdelta : ∀ o ∈ delta, s.registry.HasObject o) (p : PtrId)
    (c : CtxId) (v : Var) :
    Does g lic (grow g p c v delta) s fun ts s' => ∃ us,
      ts = us ++ [.notify (.grown p delta) g.observers] ∧ g.Calm us s' ∧
        ∀ u ∈ us, ∃ i, u = .receive c i delta.toList := by
  unfold grow
  dsimp only
  split
  · refine (does_growStores ..).seq fun s₁ h₁ => (does_growLoads ..).seq fun s₂ h₂ => ?_
    refine (does_growElemStores ..).seq fun s₃ h₃ => (does_growElemLoads ..).seq fun s₄ h₄ => ?_
    refine .pure ⟨_, rfl, fun u hu => ?_, fun u hu => ?_⟩
    · obtain ⟨x, -, rfl⟩ := mem_map.mp hu
      intro o ho
      exact (hdelta o (OrderedSet.mem_def.mpr ho)).mono (((h₁.trans h₂).trans h₃).trans h₄).le
    · obtain ⟨x, -, rfl⟩ := mem_map.mp hu
      exact ⟨_, rfl⟩
  · exact .pure ⟨[], rfl, calm_nil, fun _ h => by cases h⟩

theorem does_receive {objs : List CObjId} (h : ∀ o ∈ objs, s.registry.HasObject o) (c : CtxId)
    (site : CallSite) :
    Does g lic (receive c site objs) s g.Calm := by
  refine (does_site _ _).bind fun i s₁ h₁ _ => .pure fun u hu => ?_
  obtain ⟨o, ho, rfl⟩ := mem_map.mp hu
  exact (h o ho).mono h₁.le

theorem does_callOn {o : CObjId} (ho : s.registry.HasObject o) (kind : CallKind) (i : CSiteId)
    (m : MethodId) : Does g lic (callOn g kind i o m) s fun _ _ => True := by
  refine (does_register (Q := fun _ _ => True) (le_calleeContext _ _ _ _)
    (by cases g.policy <;> rfl) trivial).bind fun c s₁ h₁ _ => ?_
  refine (does_method c m).bind fun cm s₂ h₂ hcm => (does_addCall hcm).seq fun s₃ h₃ => ?_
  exact does_addToVar (ho.mono ((h₁.trans h₂).trans h₃).le) _ _

theorem does_callee (site : CallSite) (c : Call) (o : CObjId) :
    Does g lic (callee g site c o) s fun _ _ => True := by
  unfold callee
  dsimp only
  split
  · exact .pure trivial
  · exact Does.get_bind (.pure trivial)
  · exact Does.get_bind (.pure trivial)
  · exact .throw _

/-- A call on a receiver. -/
theorem does_dispatch {o : CObjId} (ho : s.registry.HasObject o) (i : CSiteId) :
    Does g lic (dispatch g i o) s g.Calm := by
  refine Does.get_bind ?_
  dsimp only
  split
  · exact .pure calm_nil
  · refine (does_callee ..).bind fun found s₁ h₁ _ => ?_
    split
    · exact (does_callOn (ho.mono h₁.le) _ _ _).then_pure fun _ _ => calm_nil
    · exact .pure (calm_notify trivial)

/-- Arguments flow to parameters. -/
theorem does_passArguments (caller callee : CtxId) (home : MethodId) (d : Method)
    (l : List (Slot × Slot)) :
    Does g lic (passArguments g caller callee home d l) s fun _ _ => True := by
  induction l generalizing s with
  | nil => exact .pure trivial
  | cons x l ih =>
    unfold passArguments
    dsimp only
    split
    · refine (does_variablePtr _ _).bind fun _ s₁ _ _ => ?_
      refine (does_variablePtr _ _).bind fun _ s₂ _ hq => ?_
      exact (does_addFlow hq (by simp)).seq fun s₃ _ => ih
    · exact ih

theorem does_passResult (caller callee : CtxId) (home : MethodId) (d : Method) (x : Slot) :
    Does g lic (passResult g caller callee home d x) s fun _ _ => True := by
  refine .guard (fun _ => ?_) trivial
  refine (does_variablePtr _ _).bind fun dst s₁ _ hdst => ?_
  refine Does.then_pure (.forIn fun v _ s₂ h₂ => ?_) fun _ _ => trivial
  refine .guard (fun _ => ?_) trivial
  refine (does_variablePtr _ _).bind fun q s₃ h₃ _ => ?_
  exact (does_addFlow (hdst.mono (h₂.trans h₃).le) (by simp)).then_pure fun _ _ => trivial

/-- A call edge lets arguments and results flow, and then there is news of it. -/
theorem does_wire (e : CCallEdge) :
    Does g lic (wire g e) s fun ts _ => ts = [.notify (.call e) g.observers] := by
  refine Does.get_bind ?_
  dsimp only
  split
  · split
    · split
      · exact .throw _
      · refine (does_passArguments ..).seq fun s₁ _ => ?_
        split
        · exact (does_passResult ..).then_pure fun _ _ => rfl
        · exact .pure rfl
    · exact .pure rfl
  · exact .pure rfl

theorem does_entry (hd : lic.draws) (m : MethodId) : Does g lic (entry m) s g.Calm := by
  refine (does_method _ _).bind fun cm s₁ _ hcm => ?_
  have hentry : s₁.Alike lic.mem { s₁ with calls := s₁.calls.addEntry cm } :=
    ⟨rfl, rfl, rfl, rfl, CallGraph.edges_addEntry _ cm, CallGraph.reachable_addEntry _ cm, rfl, rfl,
      rfl, fun _ => rfl, fun _ => rfl⟩
  refine Does.then_pure (Q := fun _ _ => True) (.modify (.of_drawn hd hentry rfl) trivial)
    fun s₂ h₂ u hu => ?_
  rw [mem_singleton.mp hu]
  exact hcm.mono h₂.le

theorem does_initClass (hd : lic.draws) (c : String) : Does g lic (initClass g c) s g.Calm := by
  refine Does.get_bind ?_
  split
  · exact .pure calm_nil
  · split
    · exact .pure calm_nil
    · refine Does.seq (Q := fun _ _ => True)
        (.set (.of_drawn hd (by constructor <;> intros <;> rfl) rfl) trivial)
        fun s₁ _ => .pure fun u hu => ?_
      rcases mem_between.mp hu with rfl | hu | rfl
      · exact ⟨suffix_refl _, trivial⟩
      · split at hu
        · rw [mem_singleton.mp hu]
          trivial
        · cases hu
      · trivial

theorem does_clinit (c : String) : Does g lic (clinit g c) s g.Calm := by
  unfold clinit
  split
  · exact .pure calm_nil
  · refine (does_method _ _).bind fun cm s₁ _ hcm => .pure fun u hu => ?_
    rw [mem_singleton.mp hu]
    exact hcm

end Growth

end Act

end HeapFlow
