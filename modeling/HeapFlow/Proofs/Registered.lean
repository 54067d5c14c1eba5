import HeapFlow.Proofs.WellFormed

/-!
# What a registry holds during a run

All numbers of the registry of a run mean something, its objects are such as the analysis makes, and
its contexts are as short as the policy wants them (`Registry.Wf`). For each thing that a run asks
for, the answer means what was asked for and the registry stays as it should be
(`Registry.Answers`). An object is asked for by its origin, which says everything about it
(`Setup.objectOf?`).
-/

namespace HeapFlow

open List Table

/-- The object that an analysis makes for an origin. -/
def Setup.objectOf? (g : Setup) : Origin → Option Obj
  | .alloc m i => match g.program.method? m, g.program.stmt? m i with
    | some d, some (.new _ t _) => some (.allocated d i t)
    | _, _ => none
  | .mergedStrings => some .mergedStrings
  | .mergedConstants => some .mergedConstants
  | .constant l => some (.constant l)
  | .mock desc t =>
    if desc = argumentDesc then (g.program.argumentsOwner? t).map (.argument t)
    else match t with
      | .array u => (g.program.argumentsOwner? u).map (.arguments u)
      | _ => none
  | .namedMock .. => none
  | .innerMock desc outer t => (g.objectOf? outer).bind fun o =>
      o.container.map fun m => .innerMock desc o t (some m)

theorem Obj.exists_of_mem_inners {m : MethodId} {outer o : Obj} {n : Nat} {t : Ty}
    (h : o ∈ Obj.inners m outer n t) :
    t.isArray = true ∧ ∃ u, o = .innerMock innerArrayDesc outer (.array u) (some m) := by
  induction n generalizing t with
  | zero => simp [inners] at h
  | succ n ih =>
    unfold inners at h
    split at h
    · rename_i u hu
      have ht : t.isArray = true := by
        cases t <;> simp_all [Ty.elem?, Ty.isArray]
      rcases mem_cons.mp h with rfl | h
      · exact ⟨ht, u, rfl⟩
      · exact ⟨ht, (ih h).2⟩
    · simp at h

namespace Merging

theorem allocated_of_isArray (a : Merging) (d : Method) (i : Nat) {t : Ty}
    (ht : t.isArray = true) : a.allocated d i t = .allocated d i t := by
  have hne : t ≠ .cls stringClass := by
    rintro rfl
    cases ht
  simp [allocated, hne]

theorem type_allocated (a : Merging) (d : Method) (i : Nat) (t : Ty) :
    (a.allocated d i t).type = t := by
  unfold allocated
  split
  · rename_i hmerged
    simp only [Bool.and_eq_true, decide_eq_true_eq] at hmerged
    exact hmerged.2.symm
  · rfl

theorem type_constant? {a : Merging} {l : Literal} {o : Obj} (h : a.constant? l = some o) :
    o.type = l.type := by
  cases l with
  | str bs =>
    cases h
    cases a.constants <;> rfl
  | cls t =>
    cases h
    rfl
  | _ => cases h

end Merging

namespace Setup

variable {g : Setup} (hp : g.program.WellFormed)

include hp

theorem objectOf?_alloc {m : MethodId} {d : Method} {i : Nat} {dst : Slot} {t : Ty} {n : Nat}
    (hd : g.program.method? m = some d) (hs : d.body[i]? = some (.new dst t n)) :
    g.objectOf? (.alloc d.id i) = some (.allocated d i t) := by
  have hid := hp.id_eq hd
  subst hid
  simp [objectOf?, Program.stmt?, hd, hs]

/-- **An object that the analysis makes is the object of its origin.** -/
theorem Creates.objectOf? {o : Obj} (h : g.Creates o) : g.objectOf? o.origin = some o := by
  cases h with
  | alloc hd hs ho =>
    rename_i d i dst t n
    rcases mem_cons.mp ho with rfl | ho
    · unfold Merging.allocated
      split
      · rfl
      · exact objectOf?_alloc hp hd hs
    · obtain ⟨ht, u, rfl⟩ := Obj.exists_of_mem_inners ho
      rw [Merging.allocated_of_isArray _ _ _ ht]
      simp only [Obj.innerMock, Setup.objectOf?]
      have hout : g.objectOf? (Obj.allocated d i t).origin = some (Obj.allocated d i t) :=
        objectOf?_alloc hp hd hs
      rw [hout]
      rfl
  | const hd hs ho =>
    unfold Merging.constant? at ho
    split at ho
    · cases ho
      split <;> rfl
    · cases ho
      rfl
    · cases ho
  | arguments h => simp [Obj.arguments, Obj.mock, Setup.objectOf?, argumentsDesc, argumentDesc, h]
  | argument h ht => simp [Obj.argument, Obj.mock, Setup.objectOf?, h]

/-- **Objects with the same origin are equal.** -/
theorem Creates.ext {a b : Obj} (ha : g.Creates a) (hb : g.Creates b) (h : a.origin = b.origin) :
    a = b := by
  have ha' := ha.objectOf? hp
  rw [h, hb.objectOf? hp] at ha'
  exact (Option.some.inj ha').symm

end Setup

theorem Policy.length_heapCtx (p : Policy) (C : Ctx) : (p.heapCtx C).length ≤ p.limit - 1 := by
  rw [heapCtx, List.rtake, length_drop]
  omega

theorem forall₂_rtake {α β : Type} {R : α → β → Prop} {l : List α} {l' : List β}
    (h : List.Forall₂ R l l') (k : Nat) : List.Forall₂ R (l.rtake k) (l'.rtake k) := by
  rw [List.rtake, List.rtake, ← h.length_eq]
  exact forall₂_drop _ h

namespace Registry

/-- The object with a number is the one of the allocation at a position of a method. -/
def AllocIs (g : Setup) (r : Registry) (m : MethodId) (i : Nat) (j : ObjId) : Prop :=
  ∃ d t o, d.id = m ∧ (Ask.alloc d i t).Occurs g.program ∧ r.heap.get? j = some o ∧
    o.origin = (g.merging.allocated d i t).origin

/-- What holds of the registry of a run at every moment. -/
structure Wf (g : Setup) (r : Registry) : Prop where
  allocs : ∀ {m i j}, r.heap.find? (.alloc m i) = some j → r.AllocIs g m i j
  created : ∀ {i o}, r.heap.get? i = some o → g.Creates o
  contexts : ∀ {c es}, r.contexts.get? c = some es →
    es.length ≤ g.policy.limit ∧ ∃ C, List.Forall₂ r.MarkIs es C
  objects : ∀ {o k}, r.objects.get? o = some k →
    ∃ O : At Obj, r.CtxIs k.ctx O.ctx ∧ r.heap.get? k.item = some O.item ∧
      O.ctx.length ≤ g.policy.limit - 1
  pointers : ∀ {p x}, r.pointers.get? p = some x → ∃ P, r.PlaceIs x P
  methods : ∀ {m k}, r.methods.get? m = some k → ∃ C, r.CtxIs k.ctx C
  sites : ∀ {s k}, r.sites.get? s = some k → ∃ C, r.CtxIs k.ctx C

section Wf

variable {g : Setup} {r r' : Registry}

theorem wf_empty (g : Setup) : Wf g {} where
  allocs h := by cases h
  created h := by cases h
  contexts := by
    intro c es h
    obtain ⟨hc, rfl⟩ := Contexts.get?_eq_some_iff.mp h
    obtain rfl : c = Contexts.emptyCtx := Nat.lt_one_iff.mp hc
    exact ⟨Nat.zero_le _, [], .nil⟩
  objects h := by simp at h
  pointers h := by simp at h
  methods h := by simp at h
  sites h := by simp at h

/-- A registry that continues a well-formed one is well-formed if what is new in it is as it should
be. -/
theorem Wf.extend (hr : r.Wf g) (hle : r ≤ r')
    (allocs : ∀ m i j, r'.heap.find? (.alloc m i) = some j →
      r.heap.find? (.alloc m i) = some j ∨ r'.AllocIs g m i j)
    (created : ∀ i o, r'.heap.get? i = some o → r.heap.get? i = some o ∨ g.Creates o)
    (contexts : ∀ c es, r'.contexts.get? c = some es → r.contexts.get? c = some es ∨
      es.length ≤ g.policy.limit ∧ ∃ C, List.Forall₂ r'.MarkIs es C)
    (objects : ∀ o k, r'.objects.get? o = some k → r.objects.get? o = some k ∨
      ∃ O : At Obj, r'.CtxIs k.ctx O.ctx ∧ r'.heap.get? k.item = some O.item ∧
        O.ctx.length ≤ g.policy.limit - 1)
    (pointers : ∀ p x, r'.pointers.get? p = some x → r.pointers.get? p = some x ∨
      ∃ P, r'.PlaceIs x P)
    (methods : ∀ m k, r'.methods.get? m = some k → r.methods.get? m = some k ∨
      ∃ C, r'.CtxIs k.ctx C)
    (sites : ∀ s k, r'.sites.get? s = some k → r.sites.get? s = some k ∨
      ∃ C, r'.CtxIs k.ctx C) : r'.Wf g where
  allocs h := by
    rcases allocs _ _ _ h with h | h
    · obtain ⟨d, t, o, hd, hoccurs, ho, horigin⟩ := hr.allocs h
      exact ⟨d, t, o, hd, hoccurs, hle.heap _ _ ho, horigin⟩
    · exact h
  created h := (created _ _ h).elim hr.created id
  contexts h := by
    rcases contexts _ _ h with h | h
    · obtain ⟨hlen, C, hC⟩ := hr.contexts h
      exact ⟨hlen, C, hC.imp fun _ _ => MarkIs.mono hle⟩
    · exact h
  objects h := by
    rcases objects _ _ h with h | h
    · obtain ⟨O, hC, hO, hlen⟩ := hr.objects h
      exact ⟨O, hC.mono hle, hle.heap _ _ hO, hlen⟩
    · exact h
  pointers h := by
    rcases pointers _ _ h with h | h
    · obtain ⟨P, hP⟩ := hr.pointers h
      exact ⟨P, hP.mono hle⟩
    · exact h
  methods h := by
    rcases methods _ _ h with h | h
    · obtain ⟨C, hC⟩ := hr.methods h
      exact ⟨C, hC.mono hle⟩
    · exact h
  sites h := by
    rcases sites _ _ h with h | h
    · obtain ⟨C, hC⟩ := hr.sites h
      exact ⟨C, hC.mono hle⟩
    · exact h

end Wf

theorem ctxIs_empty (r : Registry) : r.CtxIs Contexts.emptyCtx [] :=
  ⟨[], Contexts.get?_empty _, .nil⟩

/-! ### Answers -/

section Requests

variable (r : Registry)

/-- Requests only add. -/
theorem le_request (g : Merging) (a : Ask) : r ≤ (r.request g a).2 :=
  { le_refl r with heap := Heap.le_request g r.heap a }

theorem le_object (c : CtxId) (o : ObjId) : r ≤ (r.object c o).2 :=
  { le_refl r with objects := le_intern _ _ }

theorem le_method (c : CtxId) (m : MethodId) : r ≤ (r.method c m).2 :=
  { le_refl r with methods := le_intern _ _ }

theorem le_site (c : CtxId) (i : CallSite) : r ≤ (r.site c i).2 :=
  { le_refl r with sites := le_intern _ _ }

theorem le_pointer (x : Pointer) : r ≤ (r.pointer x).2 :=
  { le_refl r with pointers := le_intern _ _ }

end Requests

/-- A request has been answered: the registry has grown and is as it should be, and the answer means
what was asked for. -/
structure Answers (g : Setup) (r : Registry) (a : Nat × Registry)
    (Means : Registry → Nat → Prop) : Prop where
  le : r ≤ a.2
  wf : a.2.Wf g
  means : Means a.2 a.1

section Requests

variable {g : Setup} {r : Registry} (hr : r.Wf g)

include hr

/-- A request finds an object of the origin that it asks for. -/
theorem exists_request {a : Ask} {x : Obj} (hx : r.heap.wanted? g.merging a = some x)
    (ha : a.Occurs g.program) :
    ∃ y, (r.request g.merging a).2.heap.get? (r.request g.merging a).1 = some y ∧
      y.origin = x.origin := by
  have hs := Heap.serves_request hx
  obtain ⟨y, hy, horigin | ⟨d, i, t, rfl, hfind⟩⟩ := hs.get
  · exact ⟨y, hy, horigin⟩
  · -- the entry for the allocation has been made for the same statement
    obtain ⟨d', t', o, hid, ⟨hd', dst', n', hst'⟩, ho, horigin⟩ := hr.allocs hfind
    obtain ⟨hd, dst, n, hst⟩ := ha
    cases (hid ▸ hd').symm.trans hd
    cases hst'.symm.trans hst
    cases hx
    exact ⟨o, hs.le _ _ ho, horigin⟩

/-- Asking for an object: `o` is what the analysis makes, and `x` is what it is asked for as; the
two may differ only if an object of the origin is there already. -/
theorem answers_request_as (hp : g.program.WellFormed) {a : Ask} {o x : Obj}
    (hx : r.heap.wanted? g.merging a = some x) (ha : a.Occurs g.program) (ho : g.Creates o)
    (hxo : x.origin = o.origin) (hnew : x = o ∨ ∃ i, r.heap.get? i = some o) :
    Answers g r (r.request g.merging a) fun r' i => r'.heap.get? i = some o := by
  obtain ⟨y, hy, hyx⟩ := exists_request hr hx ha
  have hs := Heap.serves_request hx
  have hcreated : ∀ i z, (r.request g.merging a).2.heap.get? i = some z →
      r.heap.get? i = some z ∨ g.Creates z := by
    intro i z hz
    rcases hs.old hz with hz | rfl
    · exact .inl hz
    · rcases hnew with rfl | ⟨j, hj⟩
      · exact .inr ho
      · -- an object of the origin was there, so nothing has been added
        cases Heap.origin_inj _ hz (hs.le _ _ hj) hxo
        have hzo : z = o := Option.some.inj (hz.symm.trans (hs.le _ _ hj))
        exact .inr (hzo ▸ ho)
  have hyc : g.Creates y := (hcreated _ _ hy).elim hr.created id
  refine ⟨r.le_request _ a, ?_, ?_⟩
  · refine hr.extend (r.le_request _ a) (fun m i j hj => ?_) hcreated (fun _ _ => .inl)
      (fun _ _ => .inl) (fun _ _ => .inl) (fun _ _ => .inl) fun _ _ => .inl
    rcases hs.alloc hj with hj | ⟨rfl, d, t, rfl, rfl⟩
    · exact .inl hj
    · cases hx
      exact .inr ⟨d, t, y, rfl, ha, hy, hyx⟩
  · rw [← hyc.ext hp ho (hyx.trans hxo)]
    exact hy

variable {C : Ctx} {c : CtxId} {S : At CallSite} {s : CSiteId}

/-- A context that has been made: its elements mean something and are within the limit. -/
theorem answers_of_gives {l : List Elem} {a : CtxId × Contexts} (h : Contexts.Gives r.contexts l a)
    (hC : List.Forall₂ r.MarkIs l C) (hlen : l.length ≤ g.policy.limit) :
    Answers g r (a.1, { r with contexts := a.2 }) fun r' c => r'.CtxIs c C := by
  have hr' : r ≤ { r with contexts := a.2 } :=
    { le_refl r with contexts := h.le }
  have hmarks : ∀ {es D}, List.Forall₂ r.MarkIs es D →
      List.Forall₂ (MarkIs { r with contexts := a.2 }) es D :=
    fun hD => hD.imp fun _ _ => MarkIs.mono hr'
  refine ⟨hr', ?_, l, h.get, hmarks hC⟩
  refine hr.extend hr' (fun _ _ _ => .inl) (fun _ _ => .inl) (fun c es hes => ?_)
    (fun _ _ => .inl) (fun _ _ => .inl) (fun _ _ => .inl) fun _ _ => .inl
  rcases h.only c es hes with hes | hpre
  · exact .inl hes
  · obtain ⟨l', rfl⟩ := hpre
    refine .inr ⟨?_, ?_⟩
    · rw [length_append] at hlen
      omega
    · have hD := forall₂_take es.length hC
      rw [take_left] at hD
      exact ⟨_, hmarks hD⟩

theorem answers_empty : Answers g r (Contexts.emptyCtx, r) fun r' c => r'.CtxIs c [] :=
  ⟨le_refl r, hr, r.ctxIs_empty⟩

theorem answers_here (hC : r.CtxIs c C) : Answers g r (c, r) fun r' c => r'.CtxIs c C :=
  ⟨le_refl r, hr, hC⟩

/-- A context is extended and cut. -/
theorem answers_append {e : Elem} {a : Mark} {k : Int} (hC : r.CtxIs c C) (he : r.MarkIs e a)
    (hk : k.toNat ≤ g.policy.limit) :
    Answers g r (r.append c e k) fun r' c => r'.CtxIs c ((C ++ [a]).rtake k.toNat) := by
  obtain ⟨es, hes, hC⟩ := hC
  have hall : List.Forall₂ r.MarkIs (es ++ [e]) (C ++ [a]) := rel_append hC (.cons he .nil)
  refine answers_of_gives hr (Contexts.gives_append hes e k) (forall₂_rtake hall _) ?_
  rw [List.rtake, length_drop]
  omega

theorem answers_last {k : Int} (hC : r.CtxIs c C) (hk : k.toNat ≤ g.policy.limit) :
    Answers g r (r.last c k) fun r' c => r'.CtxIs c (C.rtake k.toNat) := by
  obtain ⟨es, hes, hC⟩ := hC
  refine answers_of_gives hr (Contexts.gives_last hes k) (forall₂_rtake hC _) ?_
  rw [List.rtake, length_drop]
  omega

theorem answers_heapContext {m : CMethodId} {M : At MethodId} (hM : r.MethodIs m M) :
    Answers g r (g.policy.heapContext r m) fun r' c => r'.CtxIs c (g.policy.heapCtx M.ctx) := by
  have hcut : ∀ k : Nat, k = g.policy.limit →
      Answers g r (r.last (r.methodContext m) (k - 1))
        fun r' c => r'.CtxIs c (M.ctx.rtake (k - 1)) := by
    intro k hk
    have hlimit : ((k : Int) - 1).toNat = k - 1 := by omega
    exact hlimit ▸ answers_last hr hM.ctx (by omega)
  unfold Policy.heapContext Policy.heapCtx
  cases hpol : g.policy with
  | insensitive => simpa [Policy.limit] using answers_empty hr
  | call k | obj k | type k => exact hcut k (by simp [hpol, Policy.limit])

theorem answers_staticContext (hS : r.SiteIs s S) :
    Answers g r (g.policy.staticContext r s) fun r' c => r'.CtxIs c (g.policy.siteCtx S) := by
  unfold Policy.staticContext Policy.siteCtx
  cases hpol : g.policy with
  | insensitive => exact answers_empty hr
  | call k =>
    dsimp only
    rw [hS.callSite]
    exact answers_append hr hS.ctx (.site _) (by simp [hpol, Policy.limit])
  | obj | type => exact answers_here hr hS.ctx

/-- The context of a callee, as the policy chooses it. -/
theorem answers_calleeContext {o : CObjId} {O : At Obj} (hS : r.SiteIs s S) (hO : r.ObjIs o O) :
    Answers g r (g.policy.calleeContext r s o) fun r' c => r'.CtxIs c (g.policy.recvCtx S O) := by
  unfold Policy.calleeContext Policy.recvCtx
  cases hpol : g.policy with
  | insensitive => exact answers_empty hr
  | call k =>
    dsimp only
    rw [hS.callSite]
    exact answers_append hr hS.ctx (.site _) (by simp [hpol, Policy.limit])
  | obj k => exact answers_append hr hO.ctx (.obj hO.objId) (by simp [hpol, Policy.limit])
  | type k =>
    dsimp only
    rw [hO.obj?]
    exact answers_append hr hO.ctx (.type _) (by simp [hpol, Policy.limit])

theorem answers_object {i : ObjId} {o : Obj} (hC : r.CtxIs c C)
    (hlen : C.length ≤ g.policy.limit - 1) (ho : r.heap.get? i = some o) :
    Answers g r (r.object c i) fun r' n => r'.ObjIs n ⟨C, o⟩ := by
  have hle := r.le_object c i
  refine ⟨hle, ?_, ⟨c, i⟩, get?_intern _ _, hC.mono hle, ho⟩
  refine hr.extend hle (fun _ _ _ => .inl) (fun _ _ => .inl) (fun _ _ => .inl)
    (fun n k hk => ?_)
    (fun _ _ => .inl) (fun _ _ => .inl) fun _ _ => .inl
  rcases of_get?_intern hk with hk | rfl
  · exact .inl hk
  · exact .inr ⟨⟨C, o⟩, hC.mono hle, ho, hlen⟩

/-- A pointer for a place. -/
theorem answers_pointer {x : Pointer} {P : Place} (hP : r.PlaceIs x P) :
    Answers g r (r.pointer x) fun r' n => r'.PtrIs n P := by
  have hle := r.le_pointer x
  refine ⟨hle, ?_, x, get?_intern _ _, hP.mono hle⟩
  refine hr.extend hle (fun _ _ _ => .inl) (fun _ _ => .inl) (fun _ _ => .inl)
    (fun _ _ => .inl) (fun n y hy => ?_) (fun _ _ => .inl) fun _ _ => .inl
  rcases of_get?_intern hy with hy | rfl
  · exact .inl hy
  · exact .inr ⟨P, hP.mono hle⟩

theorem answers_method (hC : r.CtxIs c C) (m : MethodId) :
    Answers g r (r.method c m) fun r' n => r'.MethodIs n ⟨C, m⟩ := by
  have hle := r.le_method c m
  refine ⟨hle, ?_, ⟨c, m⟩, get?_intern _ _, hC.mono hle, rfl⟩
  refine hr.extend hle (fun _ _ _ => .inl) (fun _ _ => .inl) (fun _ _ => .inl)
    (fun _ _ => .inl) (fun _ _ => .inl) (fun n k hk => ?_) fun _ _ => .inl
  rcases of_get?_intern hk with hk | rfl
  · exact .inl hk
  · exact .inr ⟨C, hC.mono hle⟩

theorem answers_site (hC : r.CtxIs c C) (s : CallSite) :
    Answers g r (r.site c s) fun r' n => r'.SiteIs n ⟨C, s⟩ := by
  have hle := r.le_site c s
  refine ⟨hle, ?_, ⟨c, s⟩, get?_intern _ _, hC.mono hle, rfl⟩
  refine hr.extend hle (fun _ _ _ => .inl) (fun _ _ => .inl) (fun _ _ => .inl)
    (fun _ _ => .inl) (fun _ _ => .inl) (fun _ _ => .inl) fun n k hk => ?_
  rcases of_get?_intern hk with hk | rfl
  · exact .inl hk
  · exact .inr ⟨C, hC.mono hle⟩

end Requests

/-- The arguments of a type have been made, as if for an entry method. -/
def Provides (r : Registry) (t : Ty) (n : MethodId) : Prop :=
  (∃ i, r.heap.get? i = some (.arguments t n)) ∧
    (t.isReference = true → ∃ i, r.heap.get? i = some (.argument t n))

theorem Provides.mono {r r' : Registry} {t : Ty} {n : MethodId} (h : r.Provides t n)
    (hle : r ≤ r') : r'.Provides t n := by
  obtain ⟨⟨i, hi⟩, helem⟩ := h
  refine ⟨⟨i, hle.heap _ _ hi⟩, fun ht => ?_⟩
  obtain ⟨j, hj⟩ := helem ht
  exact ⟨j, hle.heap _ _ hj⟩

/-- The arguments of an entry method have been made, if it takes any. -/
def Supplies (r : Registry) (p : Program) (m : MethodId) : Prop :=
  ∀ t n, p.argumentsType? m = some t → p.argumentsOwner? t = some n → r.Provides t n

end Registry

end HeapFlow
