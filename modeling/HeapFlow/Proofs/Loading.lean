import Mathlib.Data.List.Forall2
import HeapFlow.Proofs.Signatures

/-!
# What is checked when a program is loaded

What an analysis relies on (`Program.WellFormed`) is checked where a program is loaded, some of it
in places far apart: the members of a class get the headers that they should have
(`Program.Headed`), and each statement is read against finished headers.
-/

namespace HeapFlow

open List

section Except

variable {ε α β : Type} {f : α → Except ε β} {b : β} {l : List α} {l' : List β}

theorem exists_of_bind_ok {x : Except ε α} (h : (x >>= f) = .ok b) :
    ∃ a, x = .ok a ∧ f a = .ok b := by
  cases x with
  | error e => cases h
  | ok a => exact ⟨a, rfl, h⟩

theorem of_guard_ok {c : Prop} [Decidable c] {e : ε} {f : PUnit → Except ε β}
    (h : (if c then throw e >>= f else f ⟨⟩) = .ok b) : ¬ c ∧ f ⟨⟩ = .ok b := by
  split at h
  · cases h
  · rename_i hc
    exact ⟨hc, h⟩

theorem foldlM_keeps {P : β → Prop} {f : β → α → Except ε β}
    (hf : ∀ {b a b'}, P b → f b a = .ok b' → P b') {b' : β} (hb : P b) (h : l.foldlM f b = .ok b') :
    P b' := by
  induction l generalizing b with
  | nil =>
    cases h
    exact hb
  | cons a l ih =>
    rw [foldlM_cons] at h
    obtain ⟨b₁, h₁, h⟩ := exists_of_bind_ok h
    exact ih (hf hb h₁) h

/-- What is made of a list is made element by element. -/
theorem forall₂_of_mapM (h : l.mapM f = .ok l') : List.Forall₂ (fun a b => f a = .ok b) l l' := by
  induction l generalizing l' with
  | nil =>
    cases h
    exact .nil
  | cons a l ih =>
    rw [mapM_cons] at h
    obtain ⟨b, hb, h⟩ := exists_of_bind_ok h
    obtain ⟨bs, hbs, h⟩ := exists_of_bind_ok h
    cases h
    exact .cons hb (ih hbs)

theorem exists_of_mem_mapM (h : l.mapM f = .ok l') (hb : b ∈ l') : ∃ a ∈ l, f a = .ok b := by
  have hall := forall₂_of_mapM h
  clear h
  induction hall with
  | nil => cases hb
  | cons hab _ ih =>
    rcases mem_cons.mp hb with rfl | hb
    · exact ⟨_, .head _, hab⟩
    · obtain ⟨a, ha, hab⟩ := ih hb
      exact ⟨a, .tail _ ha, hab⟩

end Except

/-! ### Headers -/

/-- The members of a class name it, and methods have the parameters that their subsignatures list.
-/
structure Class.Headed (k : Class) : Prop where
  fields : ∀ {f}, f ∈ k.fields → f.id.cls = k.name
  cls : ∀ {d}, d ∈ k.methods → d.id.cls = k.name
  types : ∀ {d}, d ∈ k.methods → d.paramTypes.length = arity d.id.subsig
  params : ∀ {d}, d ∈ k.methods → d.params.length = arity d.id.subsig
  receiver : ∀ {d}, d ∈ k.methods → d.isStatic = false → 0 ∉ d.params

theorem Method.isStatic_declare {cls name : String} {types : List Ty} {ret : Ty} {b : Bool}
    (h : (Method.declare cls name types ret b).vars.length = 0) :
    (Method.declare cls name types ret b).isStatic = true := by
  cases b with
  | false => cases h
  | true => rfl

/-- The members of all classes are as they should be, bodies apart. -/
def Program.Headed (p : Program) : Prop :=
  ∀ k ∈ p.classes, k.Headed

namespace Source

variable {text : String} {k k' : Class} {source : MethodSource} {v : VarDecl} {d : Method}

theorem exists_of_declareField {p : Program} (h : declareField p k text = .ok k') :
    ∃ name t isStatic, k' = { k with fields := k.fields ++ [⟨⟨k.name, name⟩, t, isStatic⟩] } := by
  unfold declareField at h
  split at h
  · split at h
    · obtain ⟨-, h⟩ := of_guard_ok h
      cases h
      exact ⟨_, _, _, rfl⟩
    · cases h
  · cases h

theorem exists_of_declareMethod {p : Program} (h : declareMethod p k source = .ok k') :
    ∃ d, readSignature p k source = .ok d ∧ k.method? d.id.subsig = none ∧
      k' = { k with methods := k.methods ++ [d] } := by
  obtain ⟨d, hd, h⟩ := exists_of_bind_ok h
  obtain ⟨hnew, h⟩ := of_guard_ok h
  cases h
  exact ⟨d, hd, Option.not_isSome_iff_eq_none.mp hnew, rfl⟩

theorem headed_declareField {p : Program} (hk : k.Headed) (h : declareField p k text = .ok k') :
    k'.Headed := by
  obtain ⟨name, t, isStatic, rfl⟩ := exists_of_declareField h
  refine ⟨fun {f} hf => ?_, hk.cls, hk.types, hk.params, hk.receiver⟩
  rcases mem_append.mp hf with hf | hf
  · exact hk.fields hf
  · cases mem_singleton.mp hf
    rfl

/-- A variable is declared by some text. -/
def Declared (p : Program) (v : VarDecl) : Prop :=
  ∃ text t, Grammar.declaration? text = some t ∧ p.type? t.type = some v.type ∧ v.name = t.name

theorem declared_of_readParam {p : Program} {cls method : String}
    (h : readParam p cls method text = .ok v) : Declared p v := by
  unfold readParam at h
  split at h
  · next t ht =>
    split at h
    · next type htype =>
      cases h
      exact ⟨text, t, ht, htype, rfl⟩
    · cases h
  · cases h

/-- **What a signature declares**: a method with the variables of its header. -/
theorem exists_of_readSignature {p : Program} (h : readSignature p k source = .ok d) :
    ∃ sig ret params, Grammar.signature? source.sig = some sig ∧ p.type? sig.ret = some ret ∧
      (∀ v ∈ params, Declared p v) ∧
      ∃ header, header = Method.declare k.name sig.name (params.map (·.type)) ret
          (sig.modifiers.contains .static) ∧
        d = { header with
          isAbstract := sig.modifiers.contains .abstract || (k.isInterface && source.body.isEmpty)
          isNative := sig.modifiers.contains .native
          vars := header.vars ++ params
          params := (List.range params.length).map (header.vars.length + ·) } := by
  unfold readSignature at h
  split at h
  · next sig hsig =>
    split at h
    · next ret hret =>
      obtain ⟨params, hparams, h⟩ := exists_of_bind_ok h
      cases h
      refine ⟨sig, ret, params, hsig, hret, fun v hv => ?_, _, rfl, rfl⟩
      obtain ⟨text, -, htext⟩ := exists_of_mem_mapM hparams hv
      exact declared_of_readParam htext
    · cases h
  · cases h

theorem listable_of_declared {p : Program} (h : Declared p v) : Listable v.type.name := by
  obtain ⟨text, t, ht, htype, -⟩ := h
  rw [Program.name_of_type? htype]
  exact Grammar.listable_of_declaration? ht

/-- **A signature declares a method of the class, with the parameters that it lists.** They come
after the receiver, if there is one. -/
theorem header_of_readSignature {p : Program} (h : readSignature p k source = .ok d) :
    d.id.cls = k.name ∧ d.paramTypes.length = arity d.id.subsig ∧
      d.params.length = arity d.id.subsig ∧ (d.isStatic = false → 0 ∉ d.params) := by
  obtain ⟨sig, ret, params, hsig, -, hparams, _, rfl, rfl⟩ := exists_of_readSignature h
  have harity : arity (subsignature sig.name (params.map (·.type))) = params.length := by
    rw [arity_subsignature (Grammar.name_of_signature? hsig) fun t ht => ?_, length_map]
    obtain ⟨v, hv, rfl⟩ := mem_map.mp ht
    exact listable_of_declared (hparams v hv)
  refine ⟨rfl, ?_, ?_, fun hstatic hzero => ?_⟩
  · simp [Method.declare, harity]
  · simp [Method.declare, harity]
  · obtain ⟨i, -, hi⟩ := mem_map.mp hzero
    have hvars := Method.isStatic_declare (Nat.eq_zero_of_add_eq_zero_right hi)
    exact Bool.false_ne_true (hstatic.symm.trans hvars)

/-- A method that is declared keeps the headers in order. -/
theorem headed_declareMethod {p : Program} (hk : k.Headed) (h : declareMethod p k source = .ok k') :
    k'.Headed := by
  obtain ⟨d, hd, -, rfl⟩ := exists_of_declareMethod h
  obtain ⟨hcls, htypes, hparams, hreceiver⟩ := header_of_readSignature hd
  refine ⟨hk.fields, fun {d'} hd' => ?_, fun {d'} hd' => ?_, fun {d'} hd' => ?_,
    fun {d'} hd' => ?_⟩ <;> rcases mem_append.mp hd' with hd' | hd'
  · exact hk.cls hd'
  · exact mem_singleton.mp hd' ▸ hcls
  · exact hk.types hd'
  · exact mem_singleton.mp hd' ▸ htypes
  · exact hk.params hd'
  · exact mem_singleton.mp hd' ▸ hparams
  · exact hk.receiver hd'
  · exact mem_singleton.mp hd' ▸ hreceiver

/-! ### Statements -/

section Forms

variable {p : Program} {m : Method}

/-- **What the names of a form are resolved to.** -/
inductive Resolves (p : Program) (m : Method) : Grammar.Form → Stmt → Prop where
  | ret : Resolves p m (.ret none) (.ret none)
  | retVar {v : String} {x : Slot} (hx : m.var? v = some x) :
      Resolves p m (.ret (some v)) (.ret (some x))
  | call {result : Option String} {kind : Option CallKind} {target : String}
      {qualifier : Option String} {name args : String} {c : Call}
      (h : resolveCall p m result kind target qualifier name args = .ok (.invoke c)) :
      Resolves p m (.call result kind target qualifier name args) (.invoke c)
  | new {dst cls : String} {bounds : List Bool} {x : Slot} {t : Ty} (hx : m.var? dst = some x)
      (ht : p.type? (cls ++ repeated bounds.length "[]") = some t)
      (hconcrete : ∀ {c}, t = .cls c →
        ¬ ((p.class? c).any fun k => k.isInterface || k.isAbstract) = true) :
      Resolves p m (.new dst cls bounds) (.new x t (max 1 (bounds.countP id)))
  | str {dst : String} {quoted : List Char} {x : Slot} {bs : List UInt8} (hx : m.var? dst = some x)
      (hbs : Text.unquote quoted = some bs) : Resolves p m (.str dst quoted) (.const x (.str bs))
  | cls {dst type : String} {x : Slot} {t : Ty} (hx : m.var? dst = some x)
      (ht : p.type? type = some t) : Resolves p m (.cls dst type) (.const x (.cls t))
  | null {dst : String} {x : Slot} (hx : m.var? dst = some x) :
      Resolves p m (.null dst) (.const x .null)
  | int {dst digits : String} {x : Slot} {n : Int} (hx : m.var? dst = some x)
      (hn : Text.readInt64 digits.toList = .ok n) :
      Resolves p m (.int dst digits) (.const x (.int n))
  | cast {dst type src : String} {x y : Slot} {t : Ty} (hx : m.var? dst = some x)
      (hy : m.var? src = some y) (ht : p.type? type = some t) :
      Resolves p m (.cast dst type src) (.cast x t y)
  | loadElem {dst base : String} {x y : Slot} (hx : m.var? dst = some x) (hy : m.var? base = some y)
      (hy' : (m.varType y).isArray = true) : Resolves p m (.loadElem dst base) (.loadElem x y)
  | storeElem {base src : String} {x y : Slot} (hx : m.var? base = some x)
      (hy : m.var? src = some y) (hx' : (m.varType x).isArray = true) :
      Resolves p m (.storeElem base src) (.storeElem x y)
  | load {dst base field : String} {x b : Slot} {f : Field} (hx : m.var? dst = some x)
      (hf : fieldAccess p m base field = .ok (some b, f)) :
      Resolves p m (.loadField dst base field) (.load x b f.id)
  | loadStatic {dst base field : String} {x : Slot} {f : Field} (hx : m.var? dst = some x)
      (hf : fieldAccess p m base field = .ok (none, f)) :
      Resolves p m (.loadField dst base field) (.loadStatic x f.id)
  | store {base field src : String} {b y : Slot} {f : Field}
      (hf : fieldAccess p m base field = .ok (some b, f)) (hy : m.var? src = some y) :
      Resolves p m (.storeField base field src) (.store b f.id y)
  | storeStatic {base field src : String} {y : Slot} {f : Field}
      (hf : fieldAccess p m base field = .ok (none, f)) (hy : m.var? src = some y) :
      Resolves p m (.storeField base field src) (.storeStatic f.id y)
  | copy {dst src : String} {x y : Slot} (hx : m.var? dst = some x) (hy : m.var? src = some y) :
      Resolves p m (.copy dst src) (.copy x y)

variable {name : String} {s : Stmt}

theorem var?_of_slotOf {v : Slot} (h : slotOf m name = .ok v) : m.var? name = some v := by
  unfold slotOf at h
  split at h
  · next hv =>
    cases h
    exact hv
  · cases h

theorem type?_of_typeNamed {t : Ty} (h : typeNamed p name = .ok t) : p.type? name = some t := by
  unfold typeNamed at h
  split at h
  · next ht =>
    cases h
    exact ht
  · cases h

/-- **What has been checked of a call**: its variables have been found, and it has a receiver just
if its kind takes one; a method has been selected by the name that is written and the number of
arguments, its subsignature has been noted down, and it is static just if the call is. -/
structure CallChecked (p : Program) (m : Method) (result : Option String) (kind : Option CallKind)
    (target : String) (qualifier : Option String) (name args : String) (c : Call) (d : Method) :
    Prop where
  result : result.mapM (slotOf m) = .ok c.result
  receiver : ∃ cls, callTarget p m target = .ok (c.receiver, cls)
  args : (Grammar.pieces args).mapM (fun a => slotOf m (Text.trimmed a)) = .ok c.args
  kind : c.kind = kind.getD (impliedKind p c.receiver c.target.cls qualifier name)
  isSome : c.receiver.isSome = true ↔ c.kind ≠ .static
  found : p.findMethod c.target.cls name c.args.length = some d
  subsig : c.target.subsig = d.id.subsig
  isStatic : d.isStatic = true ↔ c.kind = .static

/-- A call that is read has been checked. -/
theorem exists_of_resolveCall {result : Option String} {kind : Option CallKind} {target : String}
    {qualifier : Option String} {args : String}
    (h : resolveCall p m result kind target qualifier name args = .ok s) :
    ∃ c d, s = .invoke c ∧ CallChecked p m result kind target qualifier name args c d := by
  obtain ⟨result', hresult, h⟩ := exists_of_bind_ok h
  obtain ⟨⟨receiver, cls⟩, hreceiver, h⟩ := exists_of_bind_ok h
  obtain ⟨cls', -, h⟩ := exists_of_bind_ok h
  obtain ⟨args', hargs, h⟩ := exists_of_bind_ok h
  dsimp only at h
  split at h
  · next d hd =>
    obtain ⟨hsome, h⟩ := of_guard_ok h
    obtain ⟨hnone, h⟩ := of_guard_ok h
    obtain ⟨hkind, h⟩ := of_guard_ok h
    cases h
    refine ⟨_, d, rfl, hresult, ⟨cls, hreceiver⟩, hargs, rfl, ?_, hd, rfl, ?_⟩
    · show receiver.isSome = true ↔ kind.getD _ ≠ .static
      cases receiver with
      | none => simpa using hnone
      | some v => simpa using hsome
    · rw [ne_eq, not_not] at hkind
      rw [← hkind]
  · cases h

/-- **Resolving the names of a form gives a statement of its kind.** -/
theorem resolves_of_resolveForm {form : Grammar.Form} (h : resolveForm p m form = .ok s) :
    Resolves p m form s := by
  cases form with
  | call result kind target qualifier name args =>
    obtain ⟨c, -, rfl, -⟩ := exists_of_resolveCall h
    exact .call h
  | ret v =>
    cases v with
    | none =>
      cases h
      exact .ret
    | some v =>
      obtain ⟨x, hx, h⟩ := exists_of_bind_ok h
      cases h
      exact .retVar (var?_of_slotOf hx)
  | new dst cls bounds =>
    obtain ⟨x, hx, h⟩ := exists_of_bind_ok h
    obtain ⟨t, ht, h⟩ := exists_of_bind_ok h
    dsimp only at h
    split at h
    · obtain ⟨hconcrete, h⟩ := of_guard_ok h
      cases h
      refine .new (var?_of_slotOf hx) (type?_of_typeNamed ht) fun {c} hc => ?_
      cases hc
      exact hconcrete
    · next hne =>
      cases h
      exact .new (var?_of_slotOf hx) (type?_of_typeNamed ht) fun {c} hc => absurd hc (hne c)
  | str dst quoted =>
    obtain ⟨x, hx, h⟩ := exists_of_bind_ok h
    split at h
    · next hbs =>
      cases h
      exact .str (var?_of_slotOf hx) hbs
    · cases h
  | int dst digits =>
    obtain ⟨x, hx, h⟩ := exists_of_bind_ok h
    split at h
    · next hn =>
      cases h
      exact .int (var?_of_slotOf hx) hn
    · cases h
  | null dst =>
    obtain ⟨x, hx, h⟩ := exists_of_bind_ok h
    cases h
    exact .null (var?_of_slotOf hx)
  | cls dst type =>
    obtain ⟨x, hx, h⟩ := exists_of_bind_ok h
    obtain ⟨t, ht, h⟩ := exists_of_bind_ok h
    cases h
    exact .cls (var?_of_slotOf hx) (type?_of_typeNamed ht)
  | copy dst src =>
    obtain ⟨x, hx, h⟩ := exists_of_bind_ok h
    obtain ⟨y, hy, h⟩ := exists_of_bind_ok h
    cases h
    exact .copy (var?_of_slotOf hx) (var?_of_slotOf hy)
  | cast dst type src =>
    obtain ⟨x, hx, h⟩ := exists_of_bind_ok h
    obtain ⟨y, hy, h⟩ := exists_of_bind_ok h
    obtain ⟨t, ht, h⟩ := exists_of_bind_ok h
    cases h
    exact .cast (var?_of_slotOf hx) (var?_of_slotOf hy) (type?_of_typeNamed ht)
  | loadElem dst base =>
    obtain ⟨x, hx, h⟩ := exists_of_bind_ok h
    obtain ⟨y, hy, h⟩ := exists_of_bind_ok h
    obtain ⟨harray, h⟩ := of_guard_ok h
    cases h
    exact .loadElem (var?_of_slotOf hx) (var?_of_slotOf hy) (by simpa using harray)
  | storeElem base src =>
    obtain ⟨x, hx, h⟩ := exists_of_bind_ok h
    obtain ⟨y, hy, h⟩ := exists_of_bind_ok h
    obtain ⟨harray, h⟩ := of_guard_ok h
    cases h
    exact .storeElem (var?_of_slotOf hx) (var?_of_slotOf hy) (by simpa using harray)
  | loadField dst base field =>
    obtain ⟨x, hx, h⟩ := exists_of_bind_ok h
    obtain ⟨⟨b, f⟩, hf, h⟩ := exists_of_bind_ok h
    cases b with
    | none =>
      cases h
      exact .loadStatic (var?_of_slotOf hx) hf
    | some b =>
      cases h
      exact .load (var?_of_slotOf hx) hf
  | storeField base field src =>
    obtain ⟨⟨b, f⟩, hf, h⟩ := exists_of_bind_ok h
    obtain ⟨y, hy, h⟩ := exists_of_bind_ok h
    cases b with
    | none =>
      cases h
      exact .storeStatic hf (var?_of_slotOf hy)
    | some b =>
      cases h
      exact .store hf (var?_of_slotOf hy)

theorem exists_of_readStmt {text : String} (h : readStmt p m text = .ok s) :
    ∃ form, Grammar.Form.read text.toList = some form ∧ resolveForm p m form = .ok s := by
  unfold readStmt at h
  split at h
  · next form hread => exact ⟨form, hread, h⟩
  · cases h

end Forms

section Statements

variable {p : Program} (hp : p.Headed) {m : Method}

include hp

variable {name target : String}

theorem field?_of_lookupField {c : String} {f : Field} (h : p.lookupField c name = some f) :
    p.field? f.id = some f := by
  obtain ⟨k, hk, hf⟩ := exists_of_findSome?_eq_some h
  have hk := Program.class?_of_mem_chainFrom hk
  have hcls : f.id.cls = k.name :=
    (hp k (Program.mem_of_class? hk)).fields (mem_of_find?_eq_some hf)
  have hname : f.id.name = name := by simpa using find?_some hf
  rw [Program.field?, hcls, hk, hname]
  exact hf

/-- A field is accessed through an object just if it is not static. -/
theorem isStatic_of_fieldAccess {b : Option Slot} {f : Field}
    (h : fieldAccess p m target name = .ok (b, f)) :
    p.field? f.id = some f ∧ f.isStatic = b.isNone := by
  unfold fieldAccess at h
  split at h
  · split at h
    · split at h
      · rename_i f' hf'
        cases h
        refine ⟨field?_of_lookupField hp hf', ?_⟩
        cases f.isStatic <;> rfl
      · cases h
    · cases h
  · split at h
    · split at h
      · rename_i f' hf'
        split at h
        · rename_i hstatic
          cases h
          exact ⟨field?_of_lookupField hp hf', hstatic⟩
        · cases h
      · cases h
    · cases h

/-- A call has as many arguments as the method that it names has parameters, and a receiver only if
its kind takes one. -/
theorem stmtOk_of_resolveCall {result : Option String} {kind : Option CallKind} {q : Option String}
    {args : String} {s : Stmt} (hkind : (Grammar.Form.call result kind target q name args).KindOk)
    (h : resolveCall p m result kind target q name args = .ok s) : p.StmtOk s := by
  obtain ⟨c, callee, rfl, hc⟩ := exists_of_resolveCall h
  refine ⟨?_, fun hreceiver => ?_⟩
  · obtain ⟨k, hk, hfound⟩ := Program.exists_of_search hc.found
    have hlen : callee.name = name ∧ callee.paramTypes.length = c.args.length := by
      simpa using find?_some hfound
    rw [hc.subsig, ← hlen.2]
    exact (hp k (Program.mem_of_class? hk)).types (mem_of_find?_eq_some hfound)
  · -- a static call has no receiver, and the other kinds that are written or implied take one
    have hne := hc.isSome.mp hreceiver
    rw [hc.kind] at hne ⊢
    cases kind with
    | some k =>
      rcases hkind with rfl | rfl | rfl | rfl
      · exact .inl rfl
      · exact .inr (.inl rfl)
      · exact .inr (.inr rfl)
      · exact absurd rfl hne
    | none =>
      simp only [Option.getD_none, impliedKind] at hne ⊢
      split at hne
      · exact absurd rfl hne
      · rename_i hsome
        rw [if_neg hsome]
        split
        · exact .inr (.inr rfl)
        · split
          · split
            · exact .inr (.inl rfl)
            · exact .inl rfl
          · exact .inl rfl

/-- **A statement that is read is as it should be.** Calls, allocations and field accesses have been
checked; of the others nothing is asked. -/
theorem stmtOk_of_readStmt {text : String} {s : Stmt} (h : readStmt p m text = .ok s) :
    p.StmtOk s := by
  obtain ⟨form, hread, h⟩ := exists_of_readStmt h
  cases resolves_of_resolveForm h with
  | call h => exact stmtOk_of_resolveCall hp (Grammar.formed_of_read hread) h
  | @new dst cls bounds x t hx ht hconcrete =>
    -- there are no more bounds than dimensions
    have hdims : bounds.length ≤ t.dims := Program.le_dims_of_type? ht
    have hcount : bounds.countP id ≤ bounds.length := countP_le_length
    intro hlt
    omega
  | load hx hf | loadStatic hx hf | store hf hx | storeStatic hf hx =>
    obtain ⟨hfield, hstatic⟩ := isStatic_of_fieldAccess hp hf
    simp [Program.StmtOk, hfield, hstatic]
  | _ => trivial

end Statements

theorem exists_of_declareLocal {p : Program} {m m' : Method} (h : declareLocal p m text = .ok m') :
    ∃ v, Declared p v ∧ m.var? v.name = none ∧ m' = m.addVar v.name v.type := by
  unfold declareLocal at h
  split at h
  · next t ht =>
    split at h
    · next type htype =>
      obtain ⟨hnew, h⟩ := of_guard_ok h
      cases h
      exact ⟨⟨t.name, type⟩, ⟨text, t, ht, htype, rfl⟩, by simpa using hnew, rfl⟩
    · cases h
  · cases h

end Source

namespace Program

theorem StmtOk.congr {p p' : Program} (h : ∀ f, p'.field? f = p.field? f) {s : Stmt}
    (hs : p.StmtOk s) : p'.StmtOk s := by
  cases s with
  | load | store | loadStatic | storeStatic => simpa only [StmtOk, h] using hs
  | _ => exact hs

/-- The program has been accepted: the loader has made it from some source. -/
def Accepted (p : Program) : Prop :=
  ∃ source, load source = .ok p

end Program

end HeapFlow
