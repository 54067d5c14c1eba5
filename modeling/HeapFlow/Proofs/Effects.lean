import HeapFlow.Proofs.Adding
import HeapFlow.Proofs.Tasks

/-!
# The effect of a task

Everything about runs rests on one description of what a single task does, `Effect`: nothing is
lost; the task is *paid*, so that what it owed, and what follows from anything newly settled, is
there or owed by the tasks that it leaves; it is *sound*: a set of facts that has what was there and
owed, and is closed under the rules as far as their premises are settled, has what is there
afterwards; and it makes *progress* (`Progress`), so that a run ends.

Adding facts (`Grows`) settles nothing but flow edges. The actions that settle facts are described
by `Steps`, which also names what is newly settled.
-/

namespace HeapFlow

/-- What an action does to the facts of a state: it adds the facts `E`, and settles the facts `N`
besides flow edges. -/
structure Steps (g : Setup) (E N : Set Fact) (s s' : State) : Prop where
  le : s.registry ≤ s'.registry
  wf : s'.Wf g
  settled : ∀ {f}, s.Settled f → s'.Settled f
  has : ∀ {f}, s.Has f → s'.Has f
  adds : ∀ {f}, f ∈ E → s'.Has f
  settles : ∀ {f}, f ∈ N → s'.Settled f
  fresh : ∀ {f}, s'.Settled f → s.Settled f ∨ f ∈ N ∨ ∃ F, f = .flow F
  only : ∀ {D}, FlowClosed g D → (∀ f, s.Has f → D f) → (∀ f ∈ E, D f) → ∀ f, s'.Has f → D f

section Steps

variable {g : Setup} {E E' N N' : Set Fact} {n : Nat} {s s' s₁ s₂ : State}

theorem Grows.steps (h : Grows g E n s s') (hs : s.Wf g) : Steps g E ∅ s s' where
  le := h.le
  wf := h.wf
  settled := h.settled
  has := h.has
  adds := h.adds
  settles h := h.elim
  fresh {f} hf := by
    by_cases hflow : ∃ F, f = .flow F
    · exact .inr (.inr hflow)
    · exact .inl (h.settled_back hs hf fun F hF => hflow ⟨F, hF⟩)
  only := h.only

/-- One action after the other. -/
theorem Steps.trans (h₁ : Steps g E N s s₁) (h₂ : Steps g E' N' s₁ s₂) :
    Steps g (E ∪ E') (N ∪ N') s s₂ where
  le := Registry.le_trans h₁.le h₂.le
  wf := h₂.wf
  settled h := h₂.settled (h₁.settled h)
  has h := h₂.has (h₁.has h)
  adds h := h.elim (fun h => h₂.has (h₁.adds h)) h₂.adds
  settles h := h.elim (fun h => h₂.settled (h₁.settles h)) h₂.settles
  fresh h := by
    rcases h₂.fresh h with h | h | h
    · rcases h₁.fresh h with h | h | h
      · exact .inl h
      · exact .inr (.inl (.inl h))
      · exact .inr (.inr h)
    · exact .inr (.inl (.inr h))
    · exact .inr (.inr h)
  only hF hs hE :=
    h₂.only hF (h₁.only hF hs fun f hf => hE f (.inl hf)) fun f hf => hE f (.inr hf)

/-- Facts that follow from the others need not be listed. -/
theorem Steps.shrink (h : Steps g E N s s') (hE' : E' ⊆ E)
    (hE : ∀ {D}, FlowClosed g D → (∀ f, s.Has f → D f) → (∀ f ∈ E', D f) → ∀ f ∈ E, D f) :
    Steps g E' N s s' :=
  { h with
    adds := fun hf => h.adds (hE' hf)
    only := fun hF hD hD' => h.only hF hD (hE hF hD hD') }

/-- Nothing is settled but what is named, and flow edges. -/
theorem Steps.settled_back (h : Steps g E N s s') {f : Fact} (hf : s'.Settled f)
    (hflow : ∀ F, f ≠ .flow F) : s.Settled f ∨ f ∈ N := by
  rcases h.fresh hf with h | h | ⟨F, h⟩
  · exact .inl h
  · exact .inr h
  · exact absurd h (hflow F)

theorem Steps.returned (h : Steps g E N s s') (hO : ∀ O, .started O ∉ N) (hC : ∀ C, .asks C ∉ N)
    (hr : s.Returned g) : s'.Returned g := by
  intro O C d v hsO hsC hd hv
  have hsO' : s.Settled (.started O) := (h.settled_back hsO (by simp)).resolve_right (hO O)
  have hsC' : s.Settled (.asks C) := (h.settled_back hsC (by simp)).resolve_right (hC C)
  exact h.has (hr hsO' hsC' hd hv)

/-- **Settling notes.** The notes `A` are settled and the notes `B` begin to wait; whatever waited
before still waits or is settled. Objects that are settled have to flow. -/
theorem steps_of_notes (s' : State) {A B : Set Note} (hs : s.Wf g) (hw : s'.work.Wf)
    (hreg : s'.registry = s.registry) (hcopies : s'.copies = s.copies)
    (hnotes : ∀ x, s'.Notes x ↔ s.Notes x ∨ x ∈ A)
    (hnow : ∀ x, s'.Awaits x → s.Awaits x ∨ x ∈ B)
    (hthen : ∀ x, s.Awaits x ∨ x ∈ B → s'.Notes x ∨ s'.Awaits x)
    (hN : ∀ x ∈ A, ∃ f ∈ N, s.registry.NoteIs x f) (hA : ∀ f ∈ N, ∃ x ∈ A, s.registry.NoteIs x f)
    (hE : ∀ x ∈ B, ∃ f ∈ E, s.registry.NoteIs x f) (hB : ∀ f ∈ E, ∃ x ∈ B, s.registry.NoteIs x f)
    (hflow : ∀ F, .flow F ∉ N)
    (hflowed : ∀ F O, s.Settled (.flow F) → .holds F.src O ∈ N → F.Passes g.program O →
      s'.Has (.holds F.dst O)) : Steps g (N ∪ E) N s s' := by
  have hhas : ∀ {f}, s.Has f → s'.Has f := by
    rintro f ⟨x, hx, hf⟩
    refine ⟨x, ?_, hreg ▸ hf⟩
    rcases hx with hx | hx
    · exact .inl ((hnotes x).mpr (.inl hx))
    · exact hthen x (.inl hx)
  have hfresh : ∀ {f}, s'.Settled f → s.Settled f ∨ f ∈ N := by
    rintro f ⟨x, hx, hf⟩
    rw [hreg] at hf
    rcases (hnotes x).mp hx with hx | hx
    · exact .inl ⟨x, hx, hf⟩
    · obtain ⟨f', hf', hxf'⟩ := hN x hx
      rw [hf.unique hxf']
      exact .inr hf'
  have hsettles : ∀ {f}, f ∈ N → s'.Settled f := by
    intro f hf
    obtain ⟨x, hx, hxf⟩ := hA f hf
    exact ⟨x, (hnotes x).mpr (.inr hx), hreg ▸ hxf⟩
  refine ⟨hreg ▸ Registry.le_refl _, ?_, ?_, hhas, ?_, hsettles,
    fun h => (hfresh h).imp_right .inl, ?_⟩
  · -- the state stays well-formed; its settled flow edges are old, so that only objects are new
    refine ⟨hreg ▸ hs.registry, hw, fun {x} hx => ?_, fun hp => ?_, hcopies ▸ hs.copied,
      fun {F O} hF hO hP => ?_⟩
    · rw [hreg]
      rcases hx with hx | hx
      · rcases (hnotes x).mp hx with hx | hx
        · exact hs.means (.inl hx)
        · obtain ⟨f, -, hf⟩ := hN x hx
          exact ⟨f, hf⟩
      · rcases hnow x hx with hx | hx
        · exact hs.means (.inr hx)
        · obtain ⟨f, -, hf⟩ := hE x hx
          exact ⟨f, hf⟩
    · rw [hcopies]
      exact hs.temps (hreg ▸ hp)
    · have hF := (hfresh hF).resolve_right (hflow F)
      rcases hfresh hO with hO | hO
      · exact hhas (hs.flowed hF hO hP)
      · exact hflowed F O hF hO hP
  · rintro f ⟨x, hx, hf⟩
    exact ⟨x, (hnotes x).mpr (.inl hx), hreg ▸ hf⟩
  · rintro f (hf | hf)
    · exact (hsettles hf).has
    · obtain ⟨x, hx, hxf⟩ := hB f hf
      exact ⟨x, hthen x (.inr hx), hreg ▸ hxf⟩
  · rintro D - hD hDE f ⟨x, hx, hf⟩
    rw [hreg] at hf
    rcases hx with hx | hx
    · rcases (hnotes x).mp hx with hx | hx
      · exact hD f ⟨x, .inl hx, hf⟩
      · obtain ⟨f', hf', hxf'⟩ := hN x hx
        rw [hf.unique hxf']
        exact hDE f' (.inl hf')
    · rcases hnow x hx with hx | hx
      · exact hD f ⟨x, .inr hx, hf⟩
      · obtain ⟨f', hf', hxf'⟩ := hE x hx
        rw [hf.unique hxf']
        exact hDE f' (.inr hf')

/-- Settling notes that are neither about objects nor about flow edges: nothing has to flow, and the
waiting work stays as it is. -/
theorem steps_mark (s' : State) {A : Set Note} (hs : s.Wf g) (hwork : s'.work = s.work)
    (hreg : s'.registry = s.registry) (hcopies : s'.copies = s.copies)
    (hnotes : ∀ x, s'.Notes x ↔ s.Notes x ∨ x ∈ A)
    (hN : ∀ x ∈ A, ∃ f ∈ N, s.registry.NoteIs x f) (hA : ∀ f ∈ N, ∃ x ∈ A, s.registry.NoteIs x f)
    (hflow : ∀ F, .flow F ∉ N) (hholds : ∀ P O, .holds P O ∉ N) : Steps g N N s s' := by
  have hawaits : ∀ x, s'.Awaits x ↔ s.Awaits x := by
    intro x
    cases x <;> simp [State.Awaits, hwork]
  refine (steps_of_notes s' (B := ∅) (E := ∅) hs (hwork ▸ hs.work) hreg hcopies hnotes
    (fun x hx => .inl ((hawaits x).mp hx)) (fun x hx => .inr ((hawaits x).mpr ?_)) hN hA (by simp)
    (by simp) hflow fun F O _ hO => (hholds _ _ hO).elim).shrink Set.subset_union_left
    fun _ _ hN f hf => hf.elim (hN f) fun h => h.elim
  exact hx.resolve_right (Set.notMem_empty x)

end Steps

/-- The facts whose settling counts as progress. -/
def Fact.Counts : Fact → Prop
  | .holds _ _ => True
  | .call _ => True
  | .reached _ => True
  | .initialized _ => True
  | _ => False

/-- Why a run ends: a task of weight `w` that is to tell `a` observers of a new method leaves less
behind than there was, in one of five ways. The first ways count more than the later ones. -/
inductive Progress (g : Setup) (a w : Nat) (s : State) (ts : List Task) (s' : State) : Prop where
  | announces {m : MethodId} (h : s'.Settled (.announced m)) (hnew : ¬ s.Settled (.announced m))
      (ha : announcements ts ≤ a + g.observers.length)
  | tells (ha : announcements ts < a)
  | settles {f : Fact} (hc : s'.copies = s.copies) (ha : announcements ts ≤ a) (hf : f.Counts)
      (h : s'.Settled f) (hnew : ¬ s.Settled f)
  | lighter (hc : s'.copies = s.copies) (ha : announcements ts ≤ a)
      (h : agendaWeight g ts + s'.work.calls.size < w + s.work.calls.size)
  | drains (hc : s'.copies = s.copies) (ha : announcements ts ≤ a)
      (h : agendaWeight g ts + s'.work.calls.size ≤ w + s.work.calls.size)
      (hp : s'.work.pending.length < s.work.pending.length)

/-- A fact that a task which owes it has to see to. The copies of array elements that an observer is
to make depend on what it has found out before, so they are not counted. -/
def Fact.Kept (g : Setup) (f : Fact) : Prop :=
  .arrayCopy ∈ g.observers → ∀ C O v, ¬ CopyFact g C O v f

theorem Fact.kept_of_ne_flow {g : Setup} {f : Fact} (h : ∀ F, f ≠ .flow F) : f.Kept g := by
  intro _ C O v hf
  cases hf with
  | load | store => exact h _ rfl

theorem WireFact.kept {g : Setup} {e : CallEdge (At CallSite) (At MethodId)} {f : Fact}
    (h : WireFact g e f) : f.Kept g := by
  intro _ C O v hf
  cases h with
  | arg | ret => cases hf

/-- **The effect of a task** that owes the facts `X`: the tasks `ts` are left to do. -/
structure Effect (g : Setup) (X : Set Fact) (a w : Nat) (s : State) (ts : List Task)
    (s' : State) : Prop where
  le : s.registry ≤ s'.registry
  wf : s'.Wf g
  settled : ∀ {f}, s.Settled f → s'.Settled f
  has : ∀ {f}, s.Has f → s'.Has f
  returned : s.Returned g → s'.Returned g
  paid : ∀ {f}, f.Kept g → f ∈ X → s'.Has f ∨ Owed g s'.registry ts f
  spurs : ∀ {h f}, s'.Settled h → Follows g h f → s.Settled h ∨ s'.Has f ∨ Owed g s'.registry ts f
  /-- No new facts are there but by the rules, and what is left to do is supported. -/
  sound : ∀ {D}, StableOn g s'.Settled D → (∀ f, s.Has f → D f) → (∀ f ∈ X, D f) →
    (∀ f, s'.Has f → D f) ∧ ∀ t ∈ ts, t.Supported g D s'.registry
  orderly : Orderly g s'.registry ts
  progress : Progress g a w s ts s'

section Effect

variable {g : Setup} {X E N : Set Fact} {a w n : Nat} {s s' : State} {ts : List Task}

/-- The effect of a task that settles facts. -/
theorem Steps.effect (h : Steps g E N s s')
    (hret : s.Returned g → s'.Returned g)
    (hpaid : ∀ f, f.Kept g → f ∈ X → s'.Has f ∨ Owed g s'.registry ts f)
    (hspurs : ∀ f ∈ N, ∀ f', Follows g f f' → s'.Has f' ∨ Owed g s'.registry ts f')
    (hsound : ∀ {D}, StableOn g s'.Settled D → (∀ f, s.Has f → D f) → (∀ f ∈ X, D f) →
      (∀ f ∈ E, D f) ∧ ∀ t ∈ ts, t.Supported g D s'.registry)
    (hprogress : Progress g a w s ts s')
    (hord : Orderly g s'.registry ts) :
    Effect g X a w s ts s' where
  le := h.le
  wf := h.wf
  settled := h.settled
  has := h.has
  returned := hret
  paid := hpaid _
  spurs {f f'} hf hff' := by
    rcases h.fresh hf with hf | hf | ⟨F, rfl⟩
    · exact .inl hf
    · exact .inr (hspurs f hf f' hff')
    · cases hff'
  sound hS hD hX := ⟨h.only hS.flow hD (hsound hS hD hX).1, (hsound hS hD hX).2⟩
  orderly := hord
  progress := hprogress

/-- The effect of a task that only adds facts. -/
theorem Grows.effect (h : Grows g E n s s') (hs : s.Wf g)
    (hpaid : ∀ f, f.Kept g → f ∈ X → f ∈ E ∨ Owed g s'.registry ts f) (hE : E ⊆ X)
    (hts : ∀ {D}, (∀ f ∈ X, D f) → ∀ t ∈ ts, t.Supported g D s'.registry)
    (ha : announcements ts ≤ a) (hw : agendaWeight g ts + n < w)
    (hord : Orderly g s'.registry ts) : Effect g X a w s ts s' := by
  refine (h.steps hs).effect (h.returned hs) (fun f hk hf => ?_) (fun f hf => hf.elim)
    (fun _ _ hX => ⟨fun f hf => hX f (hE hf), hts hX⟩) (.lighter h.same.copies ha ?_) hord
  · exact (hpaid f hk hf).imp_left h.adds
  · have := h.queue
    omega

theorem Grows.effect_idle (h : Grows g ∅ 0 s s') (hs : s.Wf g) (hX : ∀ f ∈ X, s'.Has f) :
    Effect g X a (w + 1) s [] s' := by
  refine (h.steps hs).effect (h.returned hs) (fun f _ hf => .inl (hX f hf)) (fun f hf => hf.elim)
    (fun _ _ _ => ⟨fun f hf => hf.elim, by simp⟩) (.lighter h.same.copies (Nat.zero_le _) ?_)
    (.of_none (by simp))
  have := h.queue
  simp only [agendaWeight_nil]
  omega

theorem Effect.append (h : Effect g X a w s ts s') {u : Task} (hu : u.Means g s.registry)
    (hord : ∀ m, u ≠ .arguments m) :
    Effect g (X ∪ {f | u.Owes g s.registry f}) (a + u.announcing) (w + u.weight g) s (ts ++ [u])
      s' := by
  refine { h with paid := ?_, spurs := ?_, sound := ?_, orderly := ?_, progress := ?_ }
  · rintro f hk (hf | hf)
    · exact (h.paid hk hf).imp_right (Owed.append [u])
    · exact .inr ⟨u, by simp, hf.mono h.le⟩
  · intro f f' hf hff'
    exact (h.spurs hf hff').imp_right (.imp_right (Owed.append [u]))
  · intro D hS hD hX
    obtain ⟨hhas, hts⟩ := h.sound hS hD fun f hf => hX f (.inl hf)
    refine ⟨hhas, fun t ht => ?_⟩
    rcases List.mem_append.mp ht with ht | ht
    · exact hts t ht
    · rw [List.mem_singleton.mp ht]
      have hsup : u.Supported g D s.registry := ⟨hu, fun f hf => hX f (.inr hf)⟩
      exact hsup.mono h.le
  · exact h.orderly.append (.of_none fun m hm => hord m (List.mem_singleton.mp hm).symm)
  · have hann : announcements (ts ++ [u]) = announcements ts + u.announcing := by simp
    have hwei : agendaWeight g (ts ++ [u]) = agendaWeight g ts + u.weight g := by simp
    cases h.progress with
    | announces h hnew ha => exact .announces h hnew (by omega)
    | tells ha => exact .tells (by omega)
    | settles hc ha hf h hnew => exact .settles hc (by omega) hf h hnew
    | lighter hc ha h => exact .lighter hc (by omega) (by omega)
    | drains hc ha h hp => exact .drains hc (by omega) (by omega) hp

theorem Effect.congr {Y : Set Fact} (h : Effect g X a w s ts s') (hXY : X = Y) :
    Effect g Y a w s ts s' :=
  hXY ▸ h

section Due

variable {t : Task} {us : List Task} {f : Fact}
  (h : Effect g {f | t.Owes g s.registry f} a w s ts s')

include h

/-- **What is there or owed stays so**: what the task owed is paid or passed on. -/
theorem Effect.due (hk : f.Kept g) (hf : s.Has f ∨ Owed g s.registry (t :: us) f) :
    s'.Has f ∨ Owed g s'.registry (ts ++ us) f := by
  rcases hf with hf | ⟨u, hu, hf⟩
  · exact .inl (h.has hf)
  · rcases List.mem_cons.mp hu with rfl | hu
    · exact (h.paid hk hf).imp_right (Owed.append us)
    · exact .inr ⟨u, List.mem_append_right _ hu, hf.mono h.le⟩

/-- What follows from something settled is there or owed, if it was so before for what was settled
before. -/
theorem Effect.due_of_follows {x : Fact} (hk : f.Kept g) (hx : s'.Settled x) (hf : Follows g x f)
    (hold : s.Settled x → s.Has f ∨ Owed g s.registry (t :: us) f) :
    s'.Has f ∨ Owed g s'.registry (ts ++ us) f := by
  rcases h.spurs hx hf with hx | hnew
  · exact h.due hk (hold hx)
  · exact hnew.imp_right (Owed.append us)

end Due

end Effect

end HeapFlow
