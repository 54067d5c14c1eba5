import Mathlib.Data.List.Forall2
import HeapFlow.Proofs.Numbering

/-!
# What numbers mean

Which number a thing gets from a registry depends on when it turned up. This file gives the numbers
their meanings: a context is a list of marks (`Ctx`), an object in a context is an abstract object
with such a list (`At Obj`), and a pointer is a `Place`, built from these. The relations
`Registry.CtxIs`, `ObjIs`, `PtrIs`, `MethodIs` and `SiteIs` say what a number means in a registry,
and so that it has been given out.
-/

namespace HeapFlow

/-- An element of a context. -/
inductive Mark where
  | site (s : CallSite)
  | obj (o : Obj)
  | type (t : Ty)

abbrev Ctx := List Mark

structure At (α : Type) where
  ctx : Ctx
  item : α

/-- A place that holds objects. -/
inductive Place where
  | var (ctx : Ctx) (v : Var)
  | field (base : At Obj) (f : FieldId)
  | elems (array : At Obj)
  | static (f : FieldId)

namespace Registry

/-- A registry continues another one if all its parts do. -/
structure Le (r r' : Registry) : Prop where
  heap : r.heap ≤ r'.heap
  contexts : r.contexts ≤ r'.contexts
  objects : r.objects ≤ r'.objects
  pointers : r.pointers ≤ r'.pointers
  methods : r.methods ≤ r'.methods
  sites : r.sites ≤ r'.sites

instance : LE Registry := ⟨Le⟩

theorem le_refl (r : Registry) : r ≤ r :=
  ⟨Heap.le_refl _, Contexts.le_refl _, Table.le_refl _, Table.le_refl _, Table.le_refl _,
    Table.le_refl _⟩

theorem le_trans {r₁ r₂ r₃ : Registry} (h₁ : r₁ ≤ r₂) (h₂ : r₂ ≤ r₃) : r₁ ≤ r₃ :=
  ⟨Heap.le_trans h₁.heap h₂.heap, Contexts.le_trans h₁.contexts h₂.contexts,
    Table.le_trans h₁.objects h₂.objects, Table.le_trans h₁.pointers h₂.pointers,
    Table.le_trans h₁.methods h₂.methods, Table.le_trans h₁.sites h₂.sites⟩

/-- What an element of a context means. Words and numbers mean nothing: no policy puts them into a
context. -/
inductive MarkIs (r : Registry) : Elem → Mark → Prop where
  | site (s : CallSite) : MarkIs r (.site s) (.site s)
  | obj {i : ObjId} {o : Obj} (h : r.heap.get? i = some o) : MarkIs r (.obj i) (.obj o)
  | type (t : Ty) : MarkIs r (.type t) (.type t)

/-- What the number of a context means. -/
def CtxIs (r : Registry) (c : CtxId) (C : Ctx) : Prop :=
  ∃ es, r.contexts.get? c = some es ∧ List.Forall₂ r.MarkIs es C

/-- What the number of an object in a context means. -/
def ObjIs (r : Registry) (o : CObjId) (O : At Obj) : Prop :=
  ∃ k, r.objects.get? o = some k ∧ r.CtxIs k.ctx O.ctx ∧ r.heap.get? k.item = some O.item

/-- What a thing in a numbered context means. -/
def InCtxIs {α : Type} (r : Registry) (k : InCtx α) (K : At α) : Prop :=
  r.CtxIs k.ctx K.ctx ∧ k.item = K.item

/-- What the number of a method in a context means. -/
def MethodIs (r : Registry) (m : CMethodId) (M : At MethodId) : Prop :=
  ∃ k, r.methods.get? m = some k ∧ r.InCtxIs k M

/-- What the number of a call site in a context means. -/
def SiteIs (r : Registry) (s : CSiteId) (S : At CallSite) : Prop :=
  ∃ k, r.sites.get? s = some k ∧ r.InCtxIs k S

/-- What a pointer built from numbers means. -/
inductive PlaceIs (r : Registry) : Pointer → Place → Prop where
  | var {c : CtxId} {C : Ctx} (v : Var) (h : r.CtxIs c C) : PlaceIs r (.var c v) (.var C v)
  | field {o : CObjId} {O : At Obj} (f : FieldId) (h : r.ObjIs o O) :
      PlaceIs r (.field o f) (.field O f)
  | elems {o : CObjId} {O : At Obj} (h : r.ObjIs o O) : PlaceIs r (.elems o) (.elems O)
  | static (f : FieldId) : PlaceIs r (.static f) (.static f)

/-- What the number of a pointer means. -/
def PtrIs (r : Registry) (p : PtrId) (P : Place) : Prop :=
  ∃ x, r.pointers.get? p = some x ∧ r.PlaceIs x P

section Mono

variable {r r' : Registry} (hle : r ≤ r')

include hle

/-- Meanings are kept when the registry grows. -/
theorem MarkIs.mono {e : Elem} {a : Mark} (h : r.MarkIs e a) : r'.MarkIs e a := by
  cases h with
  | site s => exact .site s
  | obj h => exact .obj (hle.heap _ _ h)
  | type t => exact .type t

theorem CtxIs.mono {c : CtxId} {C : Ctx} (h : r.CtxIs c C) : r'.CtxIs c C := by
  obtain ⟨es, hes, hC⟩ := h
  exact ⟨es, hle.contexts _ _ hes, hC.imp fun _ _ => MarkIs.mono hle⟩

theorem ObjIs.mono {o : CObjId} {O : At Obj} (h : r.ObjIs o O) : r'.ObjIs o O := by
  obtain ⟨k, hk, hC, hO⟩ := h
  exact ⟨k, hle.objects _ _ hk, hC.mono hle, hle.heap _ _ hO⟩

theorem InCtxIs.mono {α : Type} {k : InCtx α} {K : At α} (h : r.InCtxIs k K) : r'.InCtxIs k K :=
  ⟨h.1.mono hle, h.2⟩

theorem MethodIs.mono {m : CMethodId} {M : At MethodId} (h : r.MethodIs m M) : r'.MethodIs m M := by
  obtain ⟨k, hk, hM⟩ := h
  exact ⟨k, hle.methods _ _ hk, hM.mono hle⟩

theorem SiteIs.mono {s : CSiteId} {S : At CallSite} (h : r.SiteIs s S) : r'.SiteIs s S := by
  obtain ⟨k, hk, hS⟩ := h
  exact ⟨k, hle.sites _ _ hk, hS.mono hle⟩

/-- So are those of pointers. -/
theorem PlaceIs.mono {x : Pointer} {P : Place} (h : r.PlaceIs x P) : r'.PlaceIs x P := by
  cases h with
  | var v h => exact .var v (h.mono hle)
  | field f h => exact .field f (h.mono hle)
  | elems h => exact .elems (h.mono hle)
  | static f => exact .static f

theorem PtrIs.mono {p : PtrId} {P : Place} (h : r.PtrIs p P) : r'.PtrIs p P := by
  obtain ⟨x, hx, hP⟩ := h
  exact ⟨x, hle.pointers _ _ hx, hP.mono hle⟩

end Mono

section Unique

variable {r : Registry}

theorem MarkIs.unique {e : Elem} {a b : Mark} (ha : r.MarkIs e a) (hb : r.MarkIs e b) : a = b := by
  cases ha with
  | site | type => cases hb; rfl
  | obj ha =>
    cases hb with
    | obj hb => rw [Option.some.inj (ha.symm.trans hb)]

/-- **A number means one thing.** -/
theorem CtxIs.unique {c : CtxId} {C D : Ctx} (hC : r.CtxIs c C) (hD : r.CtxIs c D) : C = D := by
  obtain ⟨es, hes, hC⟩ := hC
  obtain ⟨fs, hfs, hD⟩ := hD
  cases hes.symm.trans hfs
  have hr : Relator.RightUnique r.MarkIs := fun _ _ _ => MarkIs.unique
  exact hr.forall₂ hC hD

theorem ObjIs.unique {o : CObjId} {A B : At Obj} (hA : r.ObjIs o A) (hB : r.ObjIs o B) : A = B := by
  obtain ⟨k, hk, hC, hO⟩ := hA
  obtain ⟨k', hk', hC', hO'⟩ := hB
  cases hk.symm.trans hk'
  cases A
  cases B
  cases hC.unique hC'
  cases hO.symm.trans hO'
  rfl

theorem InCtxIs.unique {α : Type} {k : InCtx α} {K L : At α} (hK : r.InCtxIs k K)
    (hL : r.InCtxIs k L) : K = L := by
  cases K
  cases L
  cases hK.1.unique hL.1
  cases hK.2.symm.trans hL.2
  rfl

theorem MethodIs.unique {m : CMethodId} {M N : At MethodId} (hM : r.MethodIs m M)
    (hN : r.MethodIs m N) : M = N := by
  obtain ⟨k, hk, hM⟩ := hM
  obtain ⟨l, hl, hN⟩ := hN
  cases hk.symm.trans hl
  exact hM.unique hN

theorem SiteIs.unique {s : CSiteId} {S T : At CallSite} (hS : r.SiteIs s S) (hT : r.SiteIs s T) :
    S = T := by
  obtain ⟨k, hk, hS⟩ := hS
  obtain ⟨l, hl, hT⟩ := hT
  cases hk.symm.trans hl
  exact hS.unique hT

/-- Pointers mean one place. -/
theorem PlaceIs.unique {x : Pointer} {P Q : Place} (hP : r.PlaceIs x P) (hQ : r.PlaceIs x Q) :
    P = Q := by
  cases hP with
  | var v h => cases hQ with | var _ h' => rw [h.unique h']
  | field f h => cases hQ with | field _ h' => rw [h.unique h']
  | elems h => cases hQ with | elems h' => rw [h.unique h']
  | static f => cases hQ; rfl

theorem PtrIs.unique {p : PtrId} {P Q : Place} (hP : r.PtrIs p P) (hQ : r.PtrIs p Q) : P = Q := by
  obtain ⟨x, hx, hP⟩ := hP
  obtain ⟨y, hy, hQ⟩ := hQ
  cases hx.symm.trans hy
  exact hP.unique hQ

end Unique

/-! ### A meaning has one number -/

section Inj

variable {r : Registry}

/-- **A meaning has one number**, as no two objects of the heap have the same origin. -/
theorem heap_inj {i j : ObjId} {o : Obj} (hi : r.heap.get? i = some o)
    (hj : r.heap.get? j = some o) : i = j :=
  r.heap.origin_inj hi hj rfl

theorem MarkIs.inj {e f : Elem} {a : Mark} (he : r.MarkIs e a) (hf : r.MarkIs f a) : e = f := by
  cases he with
  | site | type => cases hf; rfl
  | obj he =>
    cases hf with
    | obj hf => rw [heap_inj he hf]

/-- Contexts are told by their elements. -/
theorem CtxIs.inj {c d : CtxId} {C : Ctx} (hc : r.CtxIs c C) (hd' : r.CtxIs d C) : c = d := by
  obtain ⟨es, hes, hC⟩ := hc
  obtain ⟨fs, hfs, hC'⟩ := hd'
  have hl : Relator.LeftUnique r.MarkIs := fun _ _ _ => MarkIs.inj
  cases hl.forall₂ hC hC'
  exact Contexts.get?_inj hes hfs

theorem InCtxIs.inj {α : Type} {k l : InCtx α} {K : At α} (hk : r.InCtxIs k K)
    (hl : r.InCtxIs l K) : k = l := by
  cases k
  cases l
  cases hk.1.inj hl.1
  cases hk.2.trans hl.2.symm
  rfl

theorem ObjIs.inj {o p : CObjId} {O : At Obj} (ho : r.ObjIs o O) (hp : r.ObjIs p O) : o = p := by
  obtain ⟨⟨c, i⟩, hk, hC, hi⟩ := ho
  obtain ⟨⟨d, j⟩, hl, hD, hj⟩ := hp
  cases hC.inj hD
  cases heap_inj hi hj
  exact Table.get?_inj hk hl

theorem MethodIs.inj {m n : CMethodId} {M : At MethodId} (hm : r.MethodIs m M)
    (hn : r.MethodIs n M) : m = n := by
  obtain ⟨k, hk, hM⟩ := hm
  obtain ⟨l, hl, hM'⟩ := hn
  cases hM.inj hM'
  exact Table.get?_inj hk hl

theorem SiteIs.inj {s t : CSiteId} {S : At CallSite} (hs : r.SiteIs s S) (ht : r.SiteIs t S) :
    s = t := by
  obtain ⟨k, hk, hS⟩ := hs
  obtain ⟨l, hl, hS'⟩ := ht
  cases hS.inj hS'
  exact Table.get?_inj hk hl

/-- Places have one pointer. -/
theorem PlaceIs.inj {x y : Pointer} {P : Place} (hx : r.PlaceIs x P) (hy : r.PlaceIs y P) :
    x = y := by
  cases hx with
  | var v h => cases hy with | var _ h' => rw [h.inj h']
  | field f h => cases hy with | field _ h' => rw [h.inj h']
  | elems h => cases hy with | elems h' => rw [h.inj h']
  | static f => cases hy; rfl

theorem PtrIs.inj {p q : PtrId} {P : Place} (hp : r.PtrIs p P) (hq : r.PtrIs q P) : p = q := by
  obtain ⟨x, hx, hP⟩ := hp
  obtain ⟨y, hy, hP'⟩ := hq
  cases hP.inj hP'
  exact Table.get?_inj hx hy

end Inj

section Read

variable {r : Registry} {o : CObjId} {O : At Obj} {M : At MethodId} {m : CMethodId}
  {S : At CallSite} {s : CSiteId}

theorem ObjIs.obj? (h : r.ObjIs o O) : r.obj? o = some O.item := by
  obtain ⟨k, hk, -, hO⟩ := h
  simp [Registry.obj?, hk, hO]

/-- What is read off a registry is what the number means. -/
theorem ObjIs.objType (h : r.ObjIs o O) : r.objType o = O.item.type := by
  simp [Registry.objType, h.obj?]

theorem ObjIs.objId (h : r.ObjIs o O) : r.heap.get? (r.objId o) = some O.item := by
  obtain ⟨k, hk, -, hO⟩ := h
  simpa [Registry.objId, hk] using hO

theorem ObjIs.ctx (h : r.ObjIs o O) : r.CtxIs (r.objContext o) O.ctx := by
  obtain ⟨k, hk, hC, -⟩ := h
  simpa [Registry.objContext, hk] using hC

theorem MethodIs.methodId (h : r.MethodIs m M) : r.methodId m = M.item := by
  obtain ⟨k, hk, -, hM⟩ := h
  simpa [Registry.methodId, hk] using hM

theorem MethodIs.ctx (h : r.MethodIs m M) : r.CtxIs (r.methodContext m) M.ctx := by
  obtain ⟨k, hk, hC, -⟩ := h
  simpa [Registry.methodContext, hk] using hC

theorem MethodIs.method? {cm : CMethodId} {c : CtxId} {C : Ctx}
    {m : MethodId} (h : r.MethodIs cm ⟨C, m⟩) (hc : r.CtxIs c C) : r.method? c m = some cm := by
  obtain ⟨k, hk, hkm⟩ := h
  have hkey : k = ⟨c, m⟩ := hkm.inj ⟨hc, rfl⟩
  exact Table.find?_eq_some_iff.mpr (hkey ▸ hk)

theorem SiteIs.callSite (h : r.SiteIs s S) : r.callSite s = S.item := by
  obtain ⟨k, hk, -, hS⟩ := h
  simpa [Registry.callSite, hk] using hS

theorem SiteIs.ctx (h : r.SiteIs s S) : r.CtxIs (r.siteContext s) S.ctx := by
  obtain ⟨k, hk, hC, -⟩ := h
  simpa [Registry.siteContext, hk] using hC

end Read

end Registry

end HeapFlow
