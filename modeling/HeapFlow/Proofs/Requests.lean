import HeapFlow.Proofs.Changes

/-!
# What a run asks the heap for

An abstract object gets into the heap by a request. How it is shown is a matter of its origin and of
the program (`Program.originLabel`), whatever observers and scripts ask for; a heap of such objects
is *interned*, and all actions of a run keep it so. Only one of them touches the lists of the
result, and only a few touch the call graph or the initialized classes (`State.Minds`).
-/

namespace HeapFlow

/-- How the object of an origin is shown. -/
def Program.originLabel (p : Program) : Origin → String
  | .alloc m i => match p.method? m, p.stmt? m i with
    | some d, some (.new _ t _) => (Obj.allocated d i t).label
    | _, _ => ""
  | .mergedStrings => Obj.mergedStrings.label
  | .mergedConstants => Obj.mergedConstants.label
  | .constant l => l.text
  | .mock desc t => desc ++ ":" ++ t.name
  | .namedMock desc name t => Obj.qualifiedLabel desc name.text t
  | .innerMock desc outer t => Obj.qualifiedLabel desc (p.originLabel outer) t

/-- An object is shown as its origin says. -/
def Obj.Labelled (p : Program) (o : Obj) : Prop :=
  o.label = p.originLabel o.origin

/-- **An interned heap**: its objects are shown as their origins say. -/
def Heap.Interned (p : Program) (h : Heap) : Prop :=
  ∀ i o, h.get? i = some o → o.Labelled p

section Labelled

variable {p : Program} {g : Merging} {h : Heap} {a : Ask} {o : Obj}

theorem Heap.Interned.labelled (hh : h.Interned p) (ha : a.Occurs p)
    (ho : h.wanted? g a = some o) : o.Labelled p := by
  cases a with
  | alloc d i t =>
    obtain ⟨hd, dst, n, hs⟩ := ha
    cases ho
    unfold Merging.allocated
    split
    · rfl
    · simp [Obj.Labelled, Obj.allocated, Program.originLabel, Program.stmt?, hd, hs]
  | constant l =>
    cases l with
    | str bs =>
      cases ho
      split <;> rfl
    | cls t =>
      cases ho
      rfl
    | null | int => cases ho
  | mock desc identity t c =>
    cases identity with
    | none | token =>
      cases ho
      rfl
    | object i =>
      obtain ⟨x, hx, rfl⟩ := Option.map_eq_some_iff.mp ho
      have hlabel : x.label = p.originLabel x.origin := hh _ _ hx
      simp only [Obj.Labelled, Obj.innerMock, Program.originLabel, hlabel]

/-- A request keeps the heap interned. -/
theorem Heap.Interned.request (hh : h.Interned p) (ha : a.Occurs p) :
    (h.request g a).2.Interned p := by
  intro i x hx
  rcases Heap.request_cases g h a with ⟨o, ho, hs⟩ | ⟨-, heq⟩
  · rcases hs.old hx with hx | rfl
    · exact hh _ _ hx
    · exact hh.labelled ha ho
  · exact hh _ _ (heq ▸ hx)

end Labelled

namespace HeapRequest

variable {p : Program} {x : HeapRequest} {a : Ask}

/-- What a script asks for stands in the program. -/
theorem occurs_ask (hp : p.WellFormed) (h : x.ask p = .ok a) : a.Occurs p := by
  cases x with
  | alloc m i =>
    simp only [ask] at h
    split at h
    · next d dst t n hd hs =>
      cases h
      rw [Program.stmt?, hd] at hs
      cases hp.id_eq hd
      exact ⟨hd, dst, n, hs⟩
    · cases h
  | constant l =>
    cases l <;> cases h <;> trivial
  | mock _ name =>
    cases name <;> cases h <;> trivial

/-- There is an object for what a script asks for. -/
theorem isSome_wanted? (h : x.ask p = .ok a) (g : Merging) (k : Heap) :
    (k.wanted? g a).isSome = true := by
  cases x with
  | alloc m i =>
    simp only [ask] at h
    split at h
    · cases h
      rfl
    · cases h
  | constant l =>
    cases l <;> cases h <;> rfl
  | mock _ name =>
    cases name <;> cases h <;> rfl

end HeapRequest

/-- **What is left alone** between two states. The heap stays interned, if a program is given to
judge that by; the lists of the result stay as they are; and so do the call graph and the
initialized classes, unless it draws. -/
structure State.Minds (p? : Option Program) (draws : Prop) (s s' : State) : Prop where
  heap : ∀ p ∈ p?, s.registry.heap.Interned p → s'.registry.heap.Interned p
  snapshot : s'.snapshot = s.snapshot
  drawn : draws ∨ s'.calls = s.calls ∧ s'.initialized = s.initialized

namespace State.Minds

variable {p? : Option Program} {draws : Prop} {s s' s'' : State}

theorem refl (s : State) : s.Minds p? draws s :=
  ⟨fun _ _ hs => hs, rfl, .inr ⟨rfl, rfl⟩⟩

/-- What is left alone by two actions. -/
theorem trans (h : s.Minds p? draws s') (h' : s'.Minds p? draws s'') : s.Minds p? draws s'' where
  heap p hp hs := h'.heap p hp (h.heap p hp hs)
  snapshot := h'.snapshot.trans h.snapshot
  drawn := h.drawn.elim .inl fun ⟨hcalls, hinit⟩ => h'.drawn.imp_right fun ⟨hcalls', hinit'⟩ =>
    ⟨hcalls'.trans hcalls, hinit'.trans hinit⟩

theorem of_eq (hheap : s'.registry.heap = s.registry.heap)
    (h : (s'.snapshot, s'.calls, s'.initialized) = (s.snapshot, s.calls, s.initialized)) :
    s.Minds p? draws s' := by
  simp only [Prod.mk.injEq] at h
  exact ⟨fun _ _ hs => hheap ▸ hs, h.1, .inr h.2⟩

theorem of_drawn (hd : draws) (hheap : s'.registry.heap = s.registry.heap)
    (hsnapshot : s'.snapshot = s.snapshot) : s.Minds p? draws s' :=
  ⟨fun _ _ hs => hheap ▸ hs, hsnapshot, .inl hd⟩

end State.Minds

end HeapFlow
