import HeapFlow.Proofs.Solving

/-!
# What arrays and receivers hold

Two kinds of places hold objects of one kind only, well-typed program or not. The elements of an
array are of its element type, since other objects do not pass. And with contexts made of objects or
types, a method has in a context only the receivers which that context is made from, unless the
program gives a new value to `this`. Objects are introduced at a place (`Introduced`) or flow there,
so it is enough to look at these two (`Derivable.holds_induction`).
-/

namespace HeapFlow

open List

section Places

variable {g : Setup}

/-- A place holds an object that has not flowed there. -/
inductive Introduced (g : Setup) (P : Place) (O : At Obj) : Prop where
  | given (h : Given g (.holds P O))
  | follow {h : Fact} (hh : Derivable g h) (hf : Follows g h (.holds P O))
  | current {C : Ctx} {d : Method} {v : Slot} (hC : Derivable g (.asks C))
      (hd : g.program.method? threadCurrent = some d) (hv : v ∈ d.returned)
      (hP : P = .var C (.declared threadCurrent v))

/-- **What holds of the objects that are introduced, and is kept by every flow, holds of the objects
of all places.** -/
theorem Derivable.holds_induction {Q : Place → At Obj → Prop}
    (hintro : ∀ {P O}, Introduced g P O → Q P O)
    (hflow : ∀ {F O}, Derivable g (.flow F) → F.Passes g.program O → Q F.src O → Q F.dst O)
    {P : Place} {O : At Obj} (h : Derivable g (.holds P O)) : Q P O := by
  refine (h.least (F := fun f => Derivable g f ∧ ∀ P O, f = .holds P O → Q P O) ?_).2 P O rfl
  intro f hf
  refine ⟨Derivable.closed g f (hf.mono fun _ h => h.1), ?_⟩
  rintro P O rfl
  cases hf with
  | given h => exact hintro (.given h)
  | follow hh hm hf => exact hintro (.follow hh.1 hf)
  | flow he hO hp => exact hflow he.1 hp (hO.2 _ _ rfl)
  | current hO hC hd hv => exact hintro (.current hC.1 hd hv rfl)
  | copy ho hh hm ht hf => cases hf

theorem Derivable.flow_cases {F : Flow} (h : Derivable g (.flow F)) :
    (∃ f, Derivable g f ∧ Follows g f (.flow F)) ∨ ∃ C v O, CopyFact g C O v (.flow F) := by
  cases h with
  | infer hF h =>
    cases h with
    | given h =>
      obtain ⟨b, -, he⟩ := h
      cases he with
      | args hm hf => cases hf
    | follow hh hm hf => exact .inl ⟨_, hF _ hh, hf⟩
    | copy ho hh hm ht hf => exact .inr ⟨_, _, _, hf⟩

theorem Derivable.isStatic_of_asks {C : Ctx} (h : Derivable g (.asks C)) {d : Method}
    (hd : g.program.method? threadCurrent = some d) : d.isStatic = true := by
  cases h with
  | infer hF h =>
    cases h with
    | given h =>
      obtain ⟨b, -, he⟩ := h
      cases he with
      | args hm hf => cases hf
    | follow _ _ hf =>
      cases hf with
      | stmt _ _ _ hf | wire hf => cases hf
      | ask ho ht hm =>
        simp only [Program.returnsThread, hd, Option.any_some, Bool.and_eq_true] at hm
        exact hm.2
      | use ht hf =>
        cases hf with
        | call _ _ _ _ hf | run _ _ _ hf => cases hf
    | copy ho hh hm ht hf => cases hf

/-- What a pointer holds, or will hold, is derivable. -/
theorem Machine.Sound.holds_derivable {m : Machine} (h : m.Sound g) {q : PtrId} {x : CObjId}
    (hx : x ∈ m.state.pointsTo q ∨ m.state.work.Waits q x) :
    ∃ P O, m.state.registry.PtrIs q P ∧ m.state.registry.ObjIs x O ∧ Derivable g (.holds P O) := by
  obtain ⟨f, hf⟩ := h.wf.means (x := .holds q x) hx
  have hder := h.derivable f ⟨.holds q x, hx, hf⟩
  cases hf with
  | holds hP hX => exact ⟨_, _, hP, hX, hder⟩

end Places

theorem Program.isSubtype_refl (p : Program) (t : Ty) : p.isSubtype t t = true := by
  cases t with
  | prim | array => simp [isSubtype]
  | null => rfl
  | cls a => simp [isSubtype, reaches, depthBound, reachesIn]

/-- Each inner array is an element of the one around it. -/
theorem Obj.type_of_infix_inners {m : MethodId} {outer o a b : Obj} {n : Nat} {t : Ty}
    (ho : o.type = t) (h : [a, b] <:+: o :: Obj.inners m outer n t) : a.type = .array b.type := by
  induction n generalizing o t with
  | zero => exact (not_infix_pair_singleton h).elim
  | succ n ih =>
    unfold inners at h
    split at h
    · rename_i u hu
      rcases infix_pair_cons.mp h with ⟨rfl, rfl⟩ | h
      · cases t with
        | array t =>
          cases hu
          exact ho
        | _ => cases hu
      · exact ih rfl h
    · exact (not_infix_pair_singleton h).elim

section Elements

variable {g : Setup} {A O : At Obj}

/-- Only arrays get elements by a flow, and only objects of the element type pass. -/
theorem Derivable.filter_of_elems {F : Flow} (h : Derivable g (.flow F)) (hF : F.dst = .elems A) :
    ∃ t, A.item.type = .array t ∧ F.filter = some t := by
  rcases h.flow_cases with ⟨h, -, hf⟩ | ⟨C, v, O, hf⟩
  · cases hf with
    | stmt _ _ _ hf | wire hf => cases hf <;> cases hF
    | use ht hf =>
      cases hf with
      | storeElem hd hs hx ht =>
        cases hF
        exact ⟨_, ht, rfl⟩
      | store | load | loadElem => cases hF
      | call _ _ _ _ hf | run _ _ _ hf => cases hf
  · cases hf with
    | load => cases hF
    | store n hp hd hs hc hx ht =>
      cases hF
      exact ⟨_, ht, rfl⟩

/-- What an array is made with is of its element type: the arguments of an entry method, and the
arrays that are made together with others. -/
theorem Introduced.fits (h : Introduced g (.elems A) O) :
    ∃ t, A.item.type = .array t ∧ g.program.isSubtype O.item.type t = true := by
  cases h with
  | given h =>
    obtain ⟨b, -, he⟩ := h
    cases he with
    | args hm hf =>
      cases hf with
      | elem => exact ⟨_, rfl, g.program.isSubtype_refl _⟩
  | follow hh hf =>
    cases hf with
    | @stmt M d i s f ht hd hs hf =>
      cases hf with
      | @inner dst t n a b hab =>
        have htype := g.merging.type_allocated d i t
        exact ⟨_, Obj.type_of_infix_inners htype hab, g.program.isSubtype_refl _⟩
    | wire hf => cases hf
    | use ht hf =>
      cases hf with
      | call _ _ _ _ hf | run _ _ _ hf => cases hf
  | current hC hd hv hP => cases hP

/-- **What an array holds is of its element type.** -/
theorem Derivable.fits_elems (h : Derivable g (.holds (.elems A) O)) :
    ∃ t, A.item.type = .array t ∧ g.program.isSubtype O.item.type t = true := by
  refine h.holds_induction (Q := fun P O => ∀ A, P = .elems A →
    ∃ t, A.item.type = .array t ∧ g.program.isSubtype O.item.type t = true) ?_ ?_ A rfl
  · rintro P O hO A rfl
    exact hO.fits
  · intro F O hF hpass _ A hA
    obtain ⟨t, ht, hfilter⟩ := hF.filter_of_elems hA
    exact ⟨t, ht, hpass t hfilter⟩

end Elements

/-- **At every moment, arrays hold objects of their element types**, and only such objects wait to
get into them. This is so for every accepted program, well typed or not, and every policy. -/
theorem arrays_hold_element_type {p : Program} (h : p.Accepted) (o : Options) (policy : Policy)
    {more : List Observer} (hmore : ∀ w ∈ more, w.Watches) (n : Nat) :
    let g := o.setup p policy more
    let s := ((g.initial []).run g n).state
    ∀ q a x, s.registry.pointers.get? q = some (.elems a) →
      x ∈ s.pointsTo q ∨ s.work.Waits q x →
      ∃ A X t, s.registry.obj? a = some A ∧ s.registry.obj? x = some X ∧ A.type = .array t ∧
        p.isSubtype X.type t = true := by
  intro g s q a x hq hx
  have hsound := Setup.sound_run (g := g) h.wellFormed (Options.unscripted_setup hmore) [] n
  obtain ⟨P, X, ⟨y, hy, hP⟩, hX, hder⟩ := hsound.holds_derivable hx
  cases Option.some.inj (hq.symm.trans hy)
  cases hP with
  | elems hA =>
    obtain ⟨t, ht, hsub⟩ := hder.fits_elems
    exact ⟨_, _, t, hA.obj?, hX.obj?, ht, hsub⟩

/-- An array of `A` is filled through a variable of another type, with an `A` and with something
else. -/
def mixedSource : ProgramSource where
  classes := [
    { name := "A" },
    { name := "Main"
      methods := [{
        sig := "static void main()"
        locals := ["A[] row", "Object[] all", "Object o", "A a"]
        body := ["row = new A[1]", "all = row", "o = new Object", "a = new A", "all[0] = o",
          "all[0] = a"] }] }]
  entries := ["Main.main"]

/-- Of the two objects, the array gets one. -/
theorem arrays_hold_element_type_mixed : ∃ p, Program.load mixedSource = .ok p ∧
    let g := Options.setup {} p (.obj 1) [.checker]
    let s n := ((g.initial []).run g n).state
    (∀ n q a x, (s n).registry.pointers.get? q = some (.elems a) →
      x ∈ (s n).pointsTo q ∨ (s n).work.Waits q x →
      ∃ A X t, (s n).registry.obj? a = some A ∧ (s n).registry.obj? x = some X ∧
        A.type = .array t ∧ p.isSubtype X.type t = true) ∧
    (s 100).registry.pointers.get? 4 = some (.elems 0) ∧
    ((s 100).pointsTo 4).toList.map (s 100).registry.objType = [.cls "A"] := by
  obtain ⟨p, hp, hptr, hset⟩ : ∃ p, Program.load mixedSource = .ok p ∧
      let g := Options.setup {} p (.obj 1) [.checker]
      let s := ((g.initial []).run g 100).state
      s.registry.pointers.get? 4 = some (.elems 0) ∧
        (s.pointsTo 4).toList.map s.registry.objType = [.cls "A"] :=
    exists_of_any_toOption (by decide +kernel)
  refine ⟨p, hp, fun n => ?_, hptr, hset⟩
  exact arrays_hold_element_type ⟨_, hp⟩ {} (.obj 1) (by simp [Observer.Watches]) n

/-! ### Receivers -/

/-- No statement gives a value to the receiver of its method. -/
def Program.KeepsReceivers (p : Program) : Prop :=
  ∀ m d v, p.method? m = some d → d.receiver? = some v → ∀ st ∈ d.body, st.target? ≠ some v

theorem Method.receiver?_eq_some {d : Method} {v : Slot} (h : d.receiver? = some v) :
    d.isStatic = false ∧ v = 0 := by
  unfold receiver? at h
  split at h
  · cases h
  · cases h
    exact ⟨Bool.eq_false_iff.mpr ‹_›, rfl⟩

section Receivers

variable {g : Setup} (hp : g.program.WellFormed) (hkeeps : g.program.KeepsReceivers)
  {m : MethodId} {d : Method} {v : Slot} (hd : g.program.method? m = some d)
  (hv : d.receiver? = some v)

include hp hkeeps hd hv

/-- Nothing flows to a receiver. -/
theorem Derivable.dst_ne_receiver {F : Flow} (h : Derivable g (.flow F)) (C : Ctx) :
    F.dst ≠ .var C (.declared m v) := by
  have hbody := hkeeps m d v hd hv
  have hparams : v ∉ d.params := by
    obtain ⟨hstatic, rfl⟩ := Method.receiver?_eq_some hv
    exact hp.receiver_notMem_params hd hstatic
  -- the method of the flow is the one of the receiver, so its statements do not assign it
  have hsame : ∀ {d'}, g.program.method? m = some d' → d' = d := fun hd' =>
    Option.some.inj (hd'.symm.trans hd)
  intro hF
  rcases h.flow_cases with ⟨h, -, hf⟩ | ⟨C, w, O, hf⟩
  · cases hf with
    | stmt ht hd' hs hf =>
      cases hf with
      | copy | cast | loadStatic =>
        cases hF
        cases hsame hd'
        exact hbody _ (mem_of_getElem? hs) rfl
      | storeStatic => cases hF
    | wire hf =>
      cases hf with
      | arg hk hc hd' hax ha =>
        cases hF
        cases hsame hd'
        exact hparams (of_mem_zip hax).2
      | ret hk hc hd' hr hx hw hh =>
        obtain ⟨d', hd', hmem⟩ := Program.exists_of_result hc hr
        cases hF
        cases hsame hd'
        exact hbody _ hmem hr
    | use ht hf =>
      cases hf with
      | load hd' hs | loadElem hd' hs =>
        cases hF
        cases hsame hd'
        exact hbody _ hs rfl
      | store | storeElem => cases hF
      | call _ _ _ _ hf | run _ _ _ hf => cases hf
  · cases hf <;> cases hF

/-- A receiver is introduced by a call on it, in the context that is made from it. -/
theorem Introduced.recvCtx {C : Ctx} {O : At Obj} (h : Introduced g (.var C (.declared m v)) O) :
    ∃ S, C = g.policy.recvCtx S O := by
  obtain ⟨hstatic, rfl⟩ := Method.receiver?_eq_some hv
  have hbody := hkeeps m d 0 hd hv
  cases h with
  | given h =>
    obtain ⟨b, -, he⟩ := h
    cases he with
    | args hm hf =>
      cases hf with
      | array hd' hx ht hn =>
        cases hd.symm.trans hd'
        exact absurd (mem_of_head? hx) (hp.receiver_notMem_params hd hstatic)
  | follow hh hf =>
    cases hf with
    | stmt ht hd' hs hf =>
      cases hf with
      | new | const =>
        cases hd.symm.trans hd'
        exact absurd rfl (hbody _ (mem_of_getElem? hs))
    | wire hf => cases hf
    | use ht hf =>
      cases hf with
      | call _ _ _ _ hf | run _ _ _ hf =>
        cases hf
        exact ⟨_, rfl⟩
  | current hC hd' hw hP =>
    cases hP
    exact absurd (hC.isStatic_of_asks hd) (Bool.eq_false_iff.mp hstatic)

/-- **A method has a receiver only in a context that is made from it.** -/
theorem Derivable.recvCtx {C : Ctx} {O : At Obj}
    (h : Derivable g (.holds (.var C (.declared m v)) O)) : ∃ S, C = g.policy.recvCtx S O := by
  refine h.holds_induction (Q := fun P O => ∀ C, P = .var C (.declared m v) →
    ∃ S, C = g.policy.recvCtx S O) ?_ ?_ C rfl
  · rintro P O hO C rfl
    exact hO.recvCtx hp hkeeps hd hv
  · intro F O hF _ _ C hdst
    exact absurd hdst (hF.dst_ne_receiver hp hkeeps hd hv C)

end Receivers

/-- The first context is that of the last `k` elements of the second one with one more element. -/
def Registry.Continues (r : Registry) (c b : CtxId) (e : Elem) (k : Nat) : Prop :=
  ∃ es, r.contexts.get? b = some es ∧ r.contexts.get? c = some ((es ++ [e]).rtake k)

theorem Registry.CtxIs.continues {r : Registry} {c b : CtxId} {C : Ctx}
    {e : Elem} {a : Mark} {k : Nat} (hc : r.CtxIs c ((C ++ [a]).rtake k)) (hb : r.CtxIs b C)
    (he : r.MarkIs e a) : r.Continues c b e k := by
  obtain ⟨fs, hfs, hc⟩ := hc
  obtain ⟨es, hes, hb⟩ := hb
  have hall : List.Forall₂ r.MarkIs (es ++ [e]) (C ++ [a]) := rel_append hb (.cons he .nil)
  have hl : Relator.LeftUnique r.MarkIs := fun _ _ _ => MarkIs.inj
  cases hl.forall₂ hc (forall₂_rtake hall k)
  exact ⟨es, hes, hfs⟩

/-- A context has one last element. -/
theorem Registry.Continues.elem_eq {r : Registry} {c b b' : CtxId} {e e' : Elem} {k : Nat}
    (h : r.Continues c b e (k + 1)) (h' : r.Continues c b' e' (k + 1)) : e = e' := by
  obtain ⟨es, -, hes⟩ := h
  obtain ⟨fs, -, hfs⟩ := h'
  have hlast := congrArg List.getLast? (Option.some.inj (hes.symm.trans hfs))
  rw [rtake_concat_succ, rtake_concat_succ, getLast?_concat, getLast?_concat] at hlast
  exact Option.some.inj hlast

/-- An instance method has an object as its receiver in a context, or will have it. -/
def State.Receives (s : State) (p : Program) (m : MethodId) (c : CtxId) (x : CObjId) : Prop :=
  ∃ d v q, p.method? m = some d ∧ d.receiver? = some v ∧
    s.registry.pointers.get? q = some (.var c (.declared m v)) ∧
    (x ∈ s.pointsTo q ∨ s.work.Waits q x)

/-- In terms of numbers: the context of a method is made from its receiver. -/
theorem Machine.Sound.recvCtx {g : Setup} {M : Machine} (h : M.Sound g)
    (hp : g.program.WellFormed) (hkeeps : g.program.KeepsReceivers) {m : MethodId} {c : CtxId}
    {x : CObjId} (hx : M.state.Receives g.program m c x) :
    ∃ S X, M.state.registry.ObjIs x X ∧ M.state.registry.CtxIs c (g.policy.recvCtx S X) := by
  obtain ⟨d, v, q, hd, hv, hq, hx⟩ := hx
  obtain ⟨P, X, ⟨y, hy, hP⟩, hX, hder⟩ := h.holds_derivable hx
  cases hq.symm.trans hy
  cases hP with
  | var _ hC =>
    obtain ⟨S, rfl⟩ := hder.recvCtx hp hkeeps hd hv
    exact ⟨S, X, hX, hC⟩

/-- **Receivers make contexts.** Of an accepted program in which no statement gives a value to
`this`, at every moment of an analysis with contexts of at most `k` objects, the context of a method
is made of the last `k` elements of the context of its receiver with the receiver at the end; so all
receivers in that context are the same abstract object. With contexts of types, the type that
contains the allocation of the receiver is at the end. -/
theorem receivers_make_contexts {p : Program} (h : p.Accepted) (hkeeps : p.KeepsReceivers)
    (o : Options) {more : List Observer} (hmore : ∀ w ∈ more, w.Watches) {k : Nat} (hk : 1 ≤ k)
    (n : Nat) :
    (let g := o.setup p (.obj k) more
      let s := ((g.initial []).run g n).state
      (∀ m c x, s.Receives p m c x → ∃ b i, s.registry.objects.get? x = some ⟨b, i⟩ ∧
        s.registry.Continues c b (.obj i) k) ∧
      ∀ m c x y, s.Receives p m c x → s.Receives p m c y → ∃ b b' i,
        s.registry.objects.get? x = some ⟨b, i⟩ ∧ s.registry.objects.get? y = some ⟨b', i⟩) ∧
    (let g := o.setup p (.type k) more
      let s := ((g.initial []).run g n).state
      ∀ m c x, s.Receives p m c x → ∃ b i X, s.registry.objects.get? x = some ⟨b, i⟩ ∧
        s.registry.heap.get? i = some X ∧ s.registry.Continues c b (.type X.containerType) k) := by
  have hsound policy :=
    Setup.sound_run (g := o.setup p policy more) h.wellFormed (Options.unscripted_setup hmore) [] n
  have hobj : let g := o.setup p (.obj k) more
      let s := ((g.initial []).run g n).state
      ∀ m c x, s.Receives p m c x → ∃ b i, s.registry.objects.get? x = some ⟨b, i⟩ ∧
        s.registry.Continues c b (.obj i) k := by
    intro g s m c x hx
    obtain ⟨S, X, ⟨⟨b, i⟩, hk, hctx, hitem⟩, hC⟩ :=
      (hsound (.obj k)).recvCtx h.wellFormed hkeeps hx
    exact ⟨b, i, hk, hC.continues hctx (.obj hitem)⟩
  refine ⟨⟨hobj, fun m c x y hx hy => ?_⟩, fun m c x hx => ?_⟩
  · obtain ⟨b, i, hxi, hi⟩ := hobj m c x hx
    obtain ⟨b', j, hyj, hj⟩ := hobj m c y hy
    obtain ⟨k, rfl⟩ := Nat.exists_eq_add_of_le' hk
    cases hi.elem_eq hj
    exact ⟨b, b', i, hxi, hyj⟩
  · obtain ⟨S, X, ⟨⟨b, i⟩, hk, hctx, hitem⟩, hC⟩ :=
      (hsound (.type k)).recvCtx h.wellFormed hkeeps hx
    exact ⟨b, i, X.item, hk, hitem, hC.continues hctx (.type _)⟩

/-- With contexts of at most two elements a method has two receivers, each in a context of its own.
-/
theorem receivers_make_contexts_box : ∃ p, Program.load boxSource = .ok p ∧ p.KeepsReceivers ∧
    (let g := Options.setup {} p (.obj 2) [.checker]
      let s n := ((g.initial []).run g n).state
      (∀ n m c x, (s n).Receives p m c x → ∃ b i, (s n).registry.objects.get? x = some ⟨b, i⟩ ∧
        (s n).registry.Continues c b (.obj i) 2) ∧
      (∀ n m c x y, (s n).Receives p m c x → (s n).Receives p m c y → ∃ b b' i,
        (s n).registry.objects.get? x = some ⟨b, i⟩ ∧
        (s n).registry.objects.get? y = some ⟨b', i⟩) ∧
      (s 200).Receives p ⟨"Box", "put(Object)"⟩ 1 1 ∧
      (s 200).Receives p ⟨"Box", "put(Object)"⟩ 2 2) ∧
    let g := Options.setup {} p (.type 2) [.checker]
    let s n := ((g.initial []).run g n).state
    ∀ n m c x, (s n).Receives p m c x → ∃ b i X, (s n).registry.objects.get? x = some ⟨b, i⟩ ∧
      (s n).registry.heap.get? i = some X ∧
      (s n).registry.Continues c b (.type X.containerType) 2 := by
  let put : MethodId := ⟨"Box", "put(Object)"⟩
  obtain ⟨p, hp, hbody, ⟨d, hd, hv⟩, ⟨hfirst, hone⟩, hsecond, htwo⟩ :
      ∃ p, Program.load boxSource = .ok p ∧
        (∀ d ∈ p.declared, ∀ v ∈ d.receiver?, ∀ st ∈ d.body, st.target? ≠ some v) ∧
        (∃ d ∈ p.method? put, d.receiver? = some 0) ∧
        let g := Options.setup {} p (.obj 2) [.checker]
        let s := ((g.initial []).run g 200).state
        (s.registry.pointers.get? 3 = some (.var 1 (.declared put 0)) ∧ 1 ∈ (s.pointsTo 3).toList) ∧
        s.registry.pointers.get? 5 = some (.var 2 (.declared put 0)) ∧ 2 ∈ (s.pointsTo 5).toList :=
    exists_of_any_toOption (by decide +kernel)
  have hkeeps : p.KeepsReceivers := fun m d v hd => hbody d (Program.mem_declared hd) v
  have hwatch : ∀ w ∈ [Observer.checker], w.Watches := by simp [Observer.Watches]
  have hat := receivers_make_contexts ⟨_, hp⟩ hkeeps {} hwatch (k := 2) (by decide)
  exact ⟨p, hp, hkeeps, ⟨fun n => (hat n).1.1, fun n => (hat n).1.2,
    ⟨d, 0, 3, hd, hv, hfirst, .inl (OrderedSet.mem_def.mpr hone)⟩,
    ⟨d, 0, 5, hd, hv, hsecond, .inl (OrderedSet.mem_def.mpr htwo)⟩⟩, fun n => (hat n).2⟩

end HeapFlow
