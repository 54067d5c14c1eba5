import HeapFlow.Proofs.Contents

/-!
# What holds objects

A variable is asked for its type before objects flow from it, and before something is loaded into it
or returned to it (`Ty.holdsObjects`). Nothing asks for the type of a variable to which something
new, a constant or another variable is assigned, or of a parameter, or of a field that is stored to.
So a number may hold an object (`numbers_hold_objects`). These are the only gaps
(`Registry.Unguarded`).
-/

namespace HeapFlow

open List Program

theorem Ty.base_arrays (n : Nat) (t : Ty) : (t.arrays n).base = t.base := by
  induction n with
  | zero => rfl
  | succ n ih => exact ih

variable {t : Ty} {m : MethodId}

/-- No type that is written down is that of null, nor is it made from that. -/
theorem Program.base_of_type? {p : Program} {w : String} (h : p.type? w = some t) :
    t.base ≠ .null := by
  simp only [type?] at h
  split at h
  · cases h
    simp [Ty.base_arrays, Ty.base]
  · obtain ⟨k, -, rfl⟩ := Option.map_eq_some_iff.mp h
    simp [Ty.base_arrays, Ty.base]

/-- **The variables of a method have types.** The first variable of an instance method is its
receiver, of the type of a class. -/
structure Method.Typed (d : Method) : Prop where
  receiver : d.isStatic = false → ∃ name c vs, d.vars = ⟨name, .cls c⟩ :: vs
  vars : ∀ v ∈ d.vars, v.type.base ≠ .null

namespace Method.Typed

variable {d : Method} (h : d.Typed)

include h

/-- Receivers hold objects. -/
theorem holdsObjects_receiver (hd : d.isStatic = false) : (d.varType 0).holdsObjects = true := by
  obtain ⟨name, c, vs, hvars⟩ := h.receiver hd
  rw [varType, hvars]
  rfl

theorem elem_ne_null {x : Slot} {t : Ty} (ht : d.varType x = .array t) : t ≠ .null := by
  rintro rfl
  unfold varType at ht
  split at ht
  · next v hv =>
    refine h.vars v (mem_of_getElem? hv) ?_
    rw [ht]
    rfl
  · cases ht

theorem holdsObjects_of_isReference {x : Slot} (hx : x < d.vars.length)
    (ht : (d.varType x).isReference = true) : (d.varType x).holdsObjects = true := by
  have hbase : (d.varType x).base ≠ .null := by
    rw [varType, getElem?_eq_getElem hx]
    exact h.vars _ (getElem_mem hx)
  cases htype : d.varType x with
  | prim q =>
    rw [htype] at ht
    exact ht
  | null =>
    rw [htype] at hbase
    exact absurd rfl hbase
  | _ => rfl

theorem append {vs : List VarDecl} (hvs : ∀ v ∈ vs, v.type.base ≠ .null) {d' : Method}
    (hstatic : d'.isStatic = d.isStatic) (hvars : d'.vars = d.vars ++ vs) : d'.Typed := by
  refine ⟨fun hd => ?_, fun v hv => ?_⟩
  · obtain ⟨name, c, rest, hrest⟩ := h.receiver (hstatic.symm.trans hd)
    exact ⟨name, c, rest ++ vs, by rw [hvars, hrest, cons_append]⟩
  · rw [hvars] at hv
    exact (mem_append.mp hv).elim (h.vars v) (hvs v)

end Method.Typed

theorem Method.typed_declare (cls name : String) (types : List Ty) (ret : Ty) (b : Bool) :
    (Method.declare cls name types ret b).Typed := by
  cases b with
  | true => exact ⟨fun hd => Bool.noConfusion hd, fun v hv => absurd hv not_mem_nil⟩
  | false =>
    refine ⟨fun _ => ⟨"this", cls, [], rfl⟩, fun v hv => ?_⟩
    cases mem_singleton.mp hv
    simp [Ty.base]

namespace Source

variable {p : Program}

/-- The types of parameters have been written down. -/
theorem typed_of_readSignature {k : Class} {source : MethodSource} {d : Method}
    (h : readSignature p k source = .ok d) : d.Typed := by
  obtain ⟨sig, ret, params, -, -, hparams, _, rfl, rfl⟩ := exists_of_readSignature h
  refine (Method.typed_declare _ _ _ _ _).append (fun v hv => ?_) rfl rfl
  obtain ⟨_, _, -, htype, -⟩ := hparams v hv
  exact base_of_type? htype

theorem typed_of_declareLocal {m m' : Method} {text : String} (hm : m.Typed)
    (h : declareLocal p m text = .ok m') : m'.Typed := by
  obtain ⟨v, ⟨_, _, -, htype, -⟩, -, rfl⟩ := exists_of_declareLocal h
  refine hm.append (fun v hv => ?_) rfl rfl
  cases mem_singleton.mp hv
  exact base_of_type? htype

end Source

/-- **So it is in accepted programs.** -/
theorem Program.Accepted.typed {p : Program} (h : p.Accepted) {d : Method}
    (hd : p.method? m = some d) : d.Typed := by
  obtain ⟨source, linked, headed, bodied, h⟩ := h.exists_stages
  obtain ⟨k, hk, hd⟩ := method?_eq_some hd
  exact Source.forall_methods h Source.typed_of_readSignature Source.typed_of_declareLocal
    (fun hm => ⟨hm.receiver, hm.vars⟩) k (mem_of_class? hk) d (mem_of_find?_eq_some hd)

/-! ### Assignments without a guard -/

/-- **Objects come to a variable without a look at its type.** Something new, a constant, or a
variable that may hold objects is assigned to it; or it is a parameter, and such a variable is the
argument in a call of its method or of one with the same subsignature; or it is returned as the
running thread. -/
inductive Program.UnguardedVar (p : Program) : Var → Prop where
  | new {m : MethodId} {d : Method} {x : Slot} {t : Ty} {n : Nat} (hd : p.method? m = some d)
      (hs : .new x t n ∈ d.body) : UnguardedVar p (.declared m x)
  | const {m : MethodId} {d : Method} {x : Slot} {l : Literal} (hd : p.method? m = some d)
      (hs : .const x l ∈ d.body) (hl : l.type.holdsObjects = true) :
      UnguardedVar p (.declared m x)
  | copy {m : MethodId} {d : Method} {x y : Slot} (hd : p.method? m = some d)
      (hs : .copy x y ∈ d.body) (hy : (d.varType y).holdsObjects = true) :
      UnguardedVar p (.declared m x)
  | cast {m : MethodId} {d : Method} {x y : Slot} {t : Ty} (hd : p.method? m = some d)
      (hs : .cast x t y ∈ d.body) (hy : (d.varType y).holdsObjects = true) :
      UnguardedVar p (.declared m x)
  | param {site : CallSite} {c : Call} {m : MethodId} {d : Method} {a x : Slot}
      (hc : p.call? site = some c) (hd : p.method? m = some d)
      (hm : m.subsig = c.target.subsig) (hax : (a, x) ∈ c.args.zip d.params)
      (ha : p.holdsObjects (.declared site.method a) = true) : UnguardedVar p (.declared m x)
  | current {d : Method} {x : Slot} (hd : p.method? threadCurrent = some d) (hx : x ∈ d.returned) :
      UnguardedVar p (.declared threadCurrent x)

/-- Objects come to a field without a look at its type: a variable that may hold objects is stored
to it. -/
inductive Program.UnguardedField (p : Program) (f : FieldId) : Prop where
  | store {m : MethodId} {d : Method} {v x : Slot} (hd : p.method? m = some d)
      (hs : .store v f x ∈ d.body) (hx : (d.varType x).holdsObjects = true)
  | storeStatic {m : MethodId} {d : Method} {x : Slot} (hd : p.method? m = some d)
      (hs : .storeStatic f x ∈ d.body) (hx : (d.varType x).holdsObjects = true)

/-- Something of a type is allocated. The name of any type may stand in an allocation. -/
def Program.Allocates (p : Program) (t : Ty) : Prop :=
  ∃ m d x n, p.method? m = some d ∧ .new x t n ∈ d.body

/-- **Objects come to a pointer without a look at its type.** Array elements have to be of the
element type of their array, but there may be objects that are of a type without objects. -/
def Registry.Unguarded (r : Registry) (p : Program) : Pointer → Prop
  | .var _ v => p.UnguardedVar v
  | .field _ f => p.UnguardedField f
  | .elems a => ∃ t, r.objType a = .array t ∧ p.Allocates t
  | .static f => p.UnguardedField f

section Derivations

variable {g : Setup}

/-- **What is to be shown of a place with objects**: it is of a type that may hold them, or they
come to it without a look at its type. The elements of arrays are another matter. -/
def Program.Explains (p : Program) : Place → Prop
  | .var _ v => p.holdsObjects v = true ∨ p.UnguardedVar v
  | .field _ f => p.UnguardedField f
  | .elems _ => True
  | .static f => p.UnguardedField f

theorem Program.holdsObjects_declared {p : Program} {m : MethodId} {d : Method} {x : Slot}
    (hd : p.method? m = some d) : p.holdsObjects (.declared m x) = (d.varType x).holdsObjects := by
  rw [holdsObjects, varType, hd]

variable (hp : g.program.Accepted)

include hp

variable {O : At Obj} {P : Place}

/-- What a call on a receiver gives is explained. -/
theorem BindFact.explains {kind : CallKind} {S : At CallSite} {X : At Obj} {n : Method}
    (hn : g.program.method? n.id = some n) (hstatic : n.isStatic = false)
    (hf : BindFact g kind S O n.id (.holds P X)) : g.program.Explains P := by
  cases hf
  refine .inl ?_
  rw [holdsObjects_declared hn]
  exact (hp.typed hn).holdsObjects_receiver hstatic

/-- Objects are introduced at receivers, at the first parameter of entry methods, which is an array,
and where no type is asked for. -/
theorem Introduced.explains (h : Introduced g P O) : g.program.Explains P := by
  cases h with
  | given h =>
    obtain ⟨b, -, he⟩ := h
    cases he with
    | args hm hf =>
      cases hf with
      | array hd hx ht hn =>
        refine .inl ?_
        rw [holdsObjects_declared hd, ht]
        rfl
      | elem => trivial
  | follow hh hf =>
    cases hf with
    | stmt ht hd hs hf =>
      -- neither an allocation nor a constant is held back by the type of its variable
      cases hf with
      | new dst t n => exact .inr (.new hd (mem_of_getElem? hs))
      | inner => trivial
      | @const dst l o hl =>
        refine .inr (.const hd (mem_of_getElem? hs) ?_)
        cases l with
        | str | cls => rfl
        | null | int => cases hl
    | wire hf => cases hf
    | use ht hf =>
      cases hf with
      | call hd hs hv hn hf =>
        exact hf.explains hp (hp.wellFormed.callee?_spec hn).2 (isStatic_of_instance hn)
      | run ht _ hn hf =>
        exact hf.explains hp (hp.wellFormed.runMethod?_spec hn) (isStatic_of_instance hn)
  | current hC hd hv hP =>
    cases hP
    exact .inr (.current hd hv)

/-- A flow to a variable looks at the type of the variable, or is an assignment without a guard. -/
theorem Derivable.explains_dst {F : Flow} (h : Derivable g (.flow F)) :
    g.program.Explains F.dst := by
  -- loads and results look at the variable that gets the objects, all others at where they come
  -- from
  rcases h.flow_cases with ⟨f, hder, hf⟩ | ⟨C, v, O, hf⟩
  · cases hf with
    | stmt ht hd hs hf =>
      have hs := mem_of_getElem? hs
      cases hf with
      | copy dst hx => exact .inr (.copy hd hs hx)
      | cast dst t hx => exact .inr (.cast hd hs hx)
      | loadStatic f hdst => exact .inl ((holdsObjects_declared hd).trans hdst)
      | storeStatic f hx => exact .storeStatic hd hs hx
    | wire hf =>
      cases hf with
      | arg hk hc hd hax ha =>
        obtain ⟨f, hcall⟩ := hder.exists_follows_call
        exact .inr (.param hc hd (hcall.subsig_eq hp.wellFormed hk hc) hax ha)
      | ret hk hc hd hr hx hv hh => exact .inl hx
    | use ht hf =>
      cases hf with
      | store hd hs hx => exact .store hd hs hx
      | load hd _ hy | loadElem hd _ hy => exact .inl ((holdsObjects_declared hd).trans hy)
      | storeElem => trivial
      | call _ _ _ _ hf | run _ _ _ hf => cases hf
  · cases hf with
    -- the temporary of a copy is of the type of the root class
    | load => exact .inl rfl
    | store => trivial

/-- **Every place with objects is explained.** -/
theorem Derivable.explains (h : Derivable g (.holds P O)) : g.program.Explains P :=
  h.holds_induction (Q := fun P _ => g.program.Explains P) (fun hO => hO.explains hp)
    fun hF _ _ => hF.explains_dst hp

end Derivations

theorem Program.eq_of_isSubtype {p : Program} {s : Ty} (h : p.isSubtype s t = true)
    (ht : t.holdsObjects = false) : s = t := by
  cases t with
  | prim a => cases s <;> simp_all [isSubtype, Ty.isReference]
  | null => cases s <;> simp_all [isSubtype]
  | cls | array => cases ht

theorem Program.exists_of_argumentsOwner? {p : Program} (hm : p.argumentsOwner? t = some m) :
    ∃ d x, p.method? m = some d ∧ d.varType x = .array t := by
  have htype := of_decide_eq_true
    (find?_some (p := fun m => decide (p.argumentsType? m = some t)) hm)
  obtain ⟨d, hd, htype⟩ := Option.bind_eq_some_iff.mp htype
  obtain ⟨x, -, htype⟩ := Option.bind_eq_some_iff.mp htype
  refine ⟨d, x, hd, ?_⟩
  cases hx : d.varType x with
  | array u =>
    rw [hx] at htype
    cases htype
    rfl
  | _ =>
    rw [hx] at htype
    cases htype

/-- An object of a type without objects has been allocated as such. -/
theorem Setup.Creates.allocates {g : Setup} (hp : g.program.Accepted) {o : Obj} (h : g.Creates o)
    (ho : o.type.holdsObjects = false) : g.program.Allocates o.type := by
  cases h with
  | @alloc m d i dst t n _ hd hs hmem =>
    rcases mem_cons.mp hmem with rfl | hmem
    · rw [Merging.type_allocated]
      exact ⟨m, d, dst, n, hd, mem_of_getElem? hs⟩
    · obtain ⟨-, u, rfl⟩ := Obj.exists_of_mem_inners hmem
      cases ho
  | @const m d i dst l _ hd hs hl =>
    cases l with
    | str bs =>
      cases hl
      split at ho <;> cases ho
    | cls t =>
      cases hl
      cases ho
    | null | int => cases hl
  | arguments => cases ho
  | @argument t m hm hr =>
    obtain ⟨d, x, hd, hx⟩ := exists_of_argumentsOwner? hm
    have hne := (hp.typed hd).elem_ne_null hx
    have ht : t.holdsObjects = false := ho
    cases t with
    | prim => cases hr
    | null => exact absurd rfl hne
    | cls | array => cases ht

/-- **What holds objects is of a reference type other than that of null**, at every moment of an
analysis, with one exception: objects may come to it by an assignment that takes no notice of its
type. This is so for every accepted program, well typed or not, and every policy. -/
theorem objects_held_by_references {p : Program} (h : p.Accepted) (o : Options) (policy : Policy)
    {more : List Observer} (hmore : ∀ w ∈ more, w.Watches) (n : Nat) :
    let g := o.setup p policy more
    let s := ((g.initial []).run g n).state
    ∀ q y x, s.registry.pointers.get? q = some y → x ∈ s.pointsTo q ∨ s.work.Waits q x →
      (s.registry.pointerType p y).holdsObjects = true ∨ s.registry.Unguarded p y := by
  intro g s q y x hq hx
  have hsound := Setup.sound_run (g := g) h.wellFormed (Options.unscripted_setup hmore) [] n
  obtain ⟨P, X, ⟨y', hy, hP⟩, hX, hder⟩ := hsound.holds_derivable hx
  cases Option.some.inj (hq.symm.trans hy)
  have hexplains := hder.explains (g := g) h
  cases hP with
  | var v hC => exact hexplains
  | field | static => exact .inr hexplains
  | @elems a A hA =>
    obtain ⟨t, ht, hsub⟩ := hder.fits_elems
    have htype : s.registry.objType a = .array t := hA.objType.trans ht
    rw [Registry.pointerType, htype]
    cases hholds : t.holdsObjects with
    | true => exact .inl hholds
    | false =>
      -- the filter lets nothing pass but what is itself of the element type
      have heq := eq_of_isSubtype hsub hholds
      have hcreated : g.Creates X.item := hsound.wf.registry.created hX.objId
      refine .inr ⟨t, htype, heq ▸ hcreated.allocates h ?_⟩
      rw [heq, hholds]

/-- An object is assigned to numbers, passed as a number, and stored to fields that are numbers. An
array of numbers gets what has been allocated as a number. -/
def numbersSource : ProgramSource where
  classes := [
    { name := "A"
      fields := ["int f", "static int g"]
      methods := [
        { sig := "static void take(int k)" },
        { sig := "static void main()"
          locals := ["A a", "Object o", "int x", "int y", "int z", "int[] r"]
          body := ["a = new A", "x = new A", "y = a", "a.f = a", "A.g = a", "A.take(a)",
            "o = new int", "r = new int[1]", "r[0] = o", "z = a.f"] }] }]
  entries := ["A.main"]

/-- The first variable holds an object; the number that the field is loaded into holds none, and
there is no pointer for it. -/
theorem objects_held_by_references_numbers : ∃ p, Program.load numbersSource = .ok p ∧
    let g := Options.setup {} p (.obj 1) [.checker]
    let s n := ((g.initial []).run g n).state
    (∀ n q y x, (s n).registry.pointers.get? q = some y →
      x ∈ (s n).pointsTo q ∨ (s n).work.Waits q x →
      ((s n).registry.pointerType p y).holdsObjects = true ∨ (s n).registry.Unguarded p y) ∧
    (s 100).registry.pointers.get? 0 = some (.var 0 (.declared ⟨"A", "main()"⟩ 0)) ∧
    ((s 100).pointsTo 0).toList = [0] ∧
    (s 100).registry.pointersOf (.declared ⟨"A", "main()"⟩ 4) = [] := by
  obtain ⟨p, hp, hptr, hset, hnone⟩ : ∃ p, Program.load numbersSource = .ok p ∧
      let g := Options.setup {} p (.obj 1) [.checker]
      let s := ((g.initial []).run g 100).state
      s.registry.pointers.get? 0 = some (.var 0 (.declared ⟨"A", "main()"⟩ 0)) ∧
        (s.pointsTo 0).toList = [0] ∧ s.registry.pointersOf (.declared ⟨"A", "main()"⟩ 4) = [] :=
    exists_of_any_toOption (by decide +kernel)
  refine ⟨p, hp, fun n => ?_, hptr, hset, hnone⟩
  exact objects_held_by_references ⟨_, hp⟩ {} (.obj 1) (by simp [Observer.Watches]) n

/-- **Numbers may hold objects.** In the example these are local variables that something new or a
copy is assigned to, a static field, a field, the elements of an array, and a parameter. -/
theorem numbers_hold_objects : ∃ p, Program.load numbersSource = .ok p ∧
    let g := Options.setup {} p (.obj 1) []
    let s := ((g.initial []).run g 100).state
    [1, 2, 3, 6, 7, 8].map s.registry.pointers.get? =
      [some (.var 0 (.declared ⟨"A", "main()"⟩ 2)), some (.var 0 (.declared ⟨"A", "main()"⟩ 3)),
        some (.static ⟨"A", "g"⟩), some (.field 0 ⟨"A", "f"⟩), some (.elems 3),
        some (.var 0 (.declared ⟨"A", "take(int)"⟩ 0))] ∧
    ∀ q ∈ [1, 2, 3, 6, 7, 8], (s.pointsTo q).toList ≠ [] ∧
      ∃ y ∈ s.registry.pointers.get? q, (s.registry.pointerType p y).holdsObjects = false :=
  exists_of_any_toOption (by decide +kernel)

end HeapFlow
