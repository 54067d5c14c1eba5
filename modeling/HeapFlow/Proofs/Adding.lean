import HeapFlow.Proofs.View

/-!
# Adding facts

Most of what an analysis does is adding facts: it asks the registry for numbers, lets objects and
call edges wait, and adds flow edges. `Grows g E n s s'` says what this does to the facts of a
state, `Act.Adds` that an action succeeds and does it. As `E` is a set of facts and not of notes, it
can be named beforehand, whatever numbers an action will meet.
-/

namespace HeapFlow

open Registry

/-- What adding facts leaves alone. -/
structure State.Same (s s' : State) : Prop where
  sets : s'.sets = s.sets
  edges : s'.calls.edges = s.calls.edges
  reachable : s'.calls.reachable = s.calls.reachable
  methods : s'.methods = s.methods
  initialized : s'.initialized = s.initialized
  threads : s'.threads = s.threads
  copies : s'.copies = s.copies

theorem State.Same.refl (s : State) : s.Same s :=
  ⟨rfl, rfl, rfl, rfl, rfl, rfl, rfl⟩

theorem State.Same.trans {s₁ s₂ s₃ : State} (h₁ : s₁.Same s₂) (h₂ : s₂.Same s₃) : s₁.Same s₃ :=
  ⟨h₂.sets.trans h₁.sets, h₂.edges.trans h₁.edges, h₂.reachable.trans h₁.reachable,
    h₂.methods.trans h₁.methods, h₂.initialized.trans h₁.initialized,
    h₂.threads.trans h₁.threads, h₂.copies.trans h₁.copies⟩

/-- What is settled stays as it was, flow edges apart. -/
theorem State.Same.notes_iff {s s' : State} (h : s.Same s') {x : Note}
    (hx : ∀ a b k t, x ≠ .flow a b k t) : s'.Notes x ↔ s.Notes x := by
  cases x with
  | flow a b k t => exact absurd rfl (hx a b k t)
  | holds p o => simp [State.Notes, State.pointsTo, h.sets]
  | call e => simp [State.Notes, h.edges]
  | reached m => simp [State.Notes, h.reachable]
  | announced m => simp [State.Notes, h.methods]
  | initialized c => simp [State.Notes, h.initialized]
  | started | asks => simp [State.Notes, h.threads]

/-- **What adding facts does to a state**: the facts `E` are there, nothing is lost, all else comes
from the old facts and `E` by the rules, and at most `n` call edges more wait. -/
structure Grows (g : Setup) (E : Set Fact) (n : Nat) (s s' : State) : Prop where
  le : s.registry ≤ s'.registry
  same : s.Same s'
  joins : ∀ {a b k t}, s.flow.Joins a b k t → s'.flow.Joins a b k t
  wf : s'.Wf g
  has : ∀ {f}, s.Has f → s'.Has f
  adds : ∀ {f}, f ∈ E → s'.Has f
  only : ∀ {D}, FlowClosed g D → (∀ f, s.Has f → D f) → (∀ f ∈ E, D f) → ∀ f, s'.Has f → D f
  /-- At most `n` call edges are new in the queue. -/
  queue : s'.work.calls.size ≤ s.work.calls.size + n

namespace Grows

variable {g : Setup} {E E' : Set Fact} {n n' : Nat} {s s' s₁ s₂ : State}

theorem refl (hs : s.Wf g) : Grows g ∅ 0 s s :=
  ⟨Registry.le_refl _, .refl s, id, hs, id, fun h => h.elim, fun _ h _ => h, Nat.le_refl _⟩

theorem trans (h₁ : Grows g E n s s₁) (h₂ : Grows g E' n' s₁ s₂) :
    Grows g (E ∪ E') (n + n') s s₂ where
  le := Registry.le_trans h₁.le h₂.le
  same := h₁.same.trans h₂.same
  joins h := h₂.joins (h₁.joins h)
  wf := h₂.wf
  has h := h₂.has (h₁.has h)
  adds h := h.elim (fun h => h₂.has (h₁.adds h)) h₂.adds
  only hF hs hE :=
    h₂.only hF (h₁.only hF hs fun f hf => hE f (.inl hf)) fun f hf => hE f (.inr hf)
  queue := by
    have := h₁.queue
    have := h₂.queue
    omega

theorem congr (h : Grows g E n s s') (hE : E = E') (hn : n ≤ n') : Grows g E' n' s s' := by
  subst hE
  exact { h with queue := Nat.le_trans h.queue (Nat.add_le_add_left hn _) }

theorem settled (h : Grows g E n s s') {f : Fact} (hf : s.Settled f) : s'.Settled f := by
  refine State.Settled.mono h.le (fun x hx => ?_) hf
  cases x with
  | flow a b k t => exact h.joins hx
  | _ => exact (h.same.notes_iff (by simp)).mpr hx

/-- Only flow edges are settled anew. -/
theorem settled_back (h : Grows g E n s s') (hs : s.Wf g) {f : Fact} (hf : s'.Settled f)
    (hflow : ∀ F, f ≠ .flow F) : s.Settled f := by
  obtain ⟨x, hx, hxf⟩ := hf
  refine State.Settled.back hs h.le ((h.same.notes_iff ?_).mp hx) hxf
  rintro a b k t rfl
  cases hxf
  exact hflow _ rfl

theorem returned (h : Grows g E n s s') (hs : s.Wf g) (hr : s.Returned g) : s'.Returned g :=
  fun hO hC hd hv =>
    h.has (hr (h.settled_back hs hO (by simp)) (h.settled_back hs hC (by simp)) hd hv)

end Grows

/-! ### One change at a time -/

section Changes

variable {g : Setup} {s : State} (hs : s.Wf g)

include hs

/-- Numbers given out add no facts. -/
theorem grows_registry {r : Registry} (hle : s.registry ≤ r) (hr : r.Wf g)
    (htemps : ∀ p c m n, r.pointers.get? p = some (.var c (.copyTemp m n)) →
      s.registry.pointers.get? p = some (.var c (.copyTemp m n)) ∨ n < s.copies.length) :
    Grows g ∅ 0 s { s with registry := r } := by
  have hhas : ∀ {f}, s.Has f → State.Has { s with registry := r } f := by
    rintro f ⟨x, hx, hf⟩
    exact ⟨x, hx, hf.mono hle⟩
  have hback : ∀ {f}, State.Settled { s with registry := r } f → s.Settled f := by
    rintro f ⟨x, hx, hf⟩
    exact State.Settled.back hs hle hx hf
  refine ⟨hle, ⟨rfl, rfl, rfl, rfl, rfl, rfl, rfl⟩, id, ?_, hhas, fun h => h.elim, ?_,
    Nat.le_refl _⟩
  · refine ⟨hr, hs.work, fun {x} hx => ?_, fun {p c m n} hp => ?_, hs.copied, ?_⟩
    · obtain ⟨f, hf⟩ := hs.means (x := x) hx
      exact ⟨f, hf.mono hle⟩
    · rcases htemps p c m n hp with hp | hn
      · exact hs.temps hp
      · exact hn
    · exact fun hF hO hP => hhas (hs.flowed (hback hF) (hback hO) hP)
  · rintro D - hD - f ⟨x, hx, hf⟩
    exact hD f (State.Has.back hs hle hx hf)

theorem grows_of_like {s' : State} (hreg : s'.registry = s.registry) (hflow : s'.flow = s.flow)
    (hwork : s'.work = s.work) (hsame : s.Same s') : Grows g ∅ 0 s s' := by
  have hnotes : ∀ {x}, s'.Notes x ↔ s.Notes x := by
    intro x
    cases x with
    | flow a b k t => simp [State.Notes, hflow]
    | _ => exact hsame.notes_iff (by simp)
  have hawaits : ∀ {x}, s'.Awaits x ↔ s.Awaits x := by
    intro x
    cases x <;> simp [State.Awaits, hwork]
  have hsettled : ∀ {f}, s'.Settled f ↔ s.Settled f := by
    intro f
    simp only [State.Settled, hnotes, hreg]
  have hhas : ∀ {f}, s'.Has f ↔ s.Has f := by
    intro f
    simp only [State.Has, hnotes, hawaits, hreg]
  refine ⟨hreg ▸ Registry.le_refl _, hsame, fun h => hflow ▸ h, ?_, hhas.mpr, fun h => h.elim,
    fun _ hD _ f hf => hD f (hhas.mp hf), by rw [hwork]; omega⟩
  refine ⟨hreg ▸ hs.registry, hwork ▸ hs.work, fun hx => ?_, fun hp => ?_,
    hsame.copies ▸ hs.copied, ?_⟩
  · rw [hnotes, hawaits] at hx
    exact hreg ▸ hs.means hx
  · rw [hsame.copies]
    exact hs.temps (hreg ▸ hp)
  · intro F O hF hO hP
    exact hhas.mpr (hs.flowed (hsettled.mp hF) (hsettled.mp hO) hP)

/-- What is put on the work list is there, though it still waits. -/
theorem grows_work {w : WorkList} {N : Set Note} {E : Set Fact} {n : Nat} (hw : w.Wf)
    (hN : ∀ x, State.Awaits { s with work := w } x ↔ s.Awaits x ∨ x ∈ N)
    (hmeans : ∀ x ∈ N, ∃ f ∈ E, s.registry.NoteIs x f)
    (hE : ∀ f ∈ E, ∃ x ∈ N, s.registry.NoteIs x f) (hn : w.calls.size ≤ s.work.calls.size + n) :
    Grows g E n s { s with work := w } := by
  have hhas : ∀ {f}, s.Has f → State.Has { s with work := w } f := by
    rintro f ⟨x, hx | hx, hf⟩
    · exact ⟨x, .inl hx, hf⟩
    · exact ⟨x, .inr ((hN x).mpr (.inl hx)), hf⟩
  refine ⟨Registry.le_refl _, ⟨rfl, rfl, rfl, rfl, rfl, rfl, rfl⟩, id, ?_, hhas, ?_, ?_, hn⟩
  · refine ⟨hs.registry, hw, fun {x} hx => ?_, hs.temps, hs.copied,
      fun hF hO hP => hhas (hs.flowed hF hO hP)⟩
    rw [hN] at hx
    rcases hx with hx | hx | hx
    · exact hs.means (.inl hx)
    · exact hs.means (.inr hx)
    · obtain ⟨f, -, hf⟩ := hmeans x hx
      exact ⟨f, hf⟩
  · intro f hf
    obtain ⟨x, hx, hxf⟩ := hE f hf
    exact ⟨x, .inr ((hN x).mpr (.inr hx)), hxf⟩
  · rintro D - hD hDE f ⟨x, hx, hf⟩
    rw [hN] at hx
    rcases hx with hx | hx | hx
    · exact hD f ⟨x, .inl hx, hf⟩
    · exact hD f ⟨x, .inr hx, hf⟩
    · obtain ⟨f', hf', hxf'⟩ := hmeans x hx
      rw [hf.unique hxf']
      exact hDE f' hf'

theorem grows_addObjects {p : PtrId} {P : Place} {t : Objects} {T : Set (At Obj)}
    (hP : s.registry.PtrIs p P) (ht : s.registry.SetIs t T) :
    Grows g {f | ∃ O ∈ T, f = .holds P O} 0 s
      { s with work := if t.isEmpty then s.work else s.work.addObjects p t } := by
  split
  · rename_i hempty
    refine (Grows.refl hs).congr (Set.ext fun f => ⟨fun h => h.elim, ?_⟩) le_rfl
    rintro ⟨O, hO, -⟩
    obtain ⟨o, ho, -⟩ := ht.covers O hO
    exact OrderedSet.not_mem_of_isEmpty hempty o ho
  refine grows_work hs (WorkList.addObjects_wf hs.work p t) (N := {x | ∃ o ∈ t, x = .holds p o})
    (fun x => ?_) ?_ ?_ ?_
  · cases x with
    | holds q o =>
      simp only [State.Awaits, WorkList.waits_addObjects hs.work, Set.mem_ofPred_eq,
        Note.holds.injEq]
      constructor
      · rintro (h | ⟨rfl, h⟩)
        · exact .inl h
        · exact .inr ⟨o, h, rfl, rfl⟩
      · rintro (h | ⟨o', h, rfl, rfl⟩)
        · exact .inl h
        · exact .inr ⟨rfl, h⟩
    | call e => simp [State.Awaits, WorkList.calls_addObjects]
    | _ => simp [State.Awaits]
  · rintro x ⟨o, ho, rfl⟩
    obtain ⟨O, hO, hoO⟩ := ht.means o ho
    exact ⟨_, ⟨O, hO, rfl⟩, .holds hP hoO⟩
  · rintro f ⟨O, hO, rfl⟩
    obtain ⟨o, ho, hoO⟩ := ht.covers O hO
    exact ⟨_, ⟨o, ho, rfl⟩, .holds hP hoO⟩
  · rw [WorkList.calls_addObjects]
    omega

theorem grows_addCall {e : CCallEdge} {E : CallEdge (At CallSite) (At MethodId)}
    (hE : s.registry.EdgeIs e E) :
    Grows g {.call E} 1 s { s with work := s.work.addCall e } := by
  refine grows_work hs (hs.work.addCall e) (N := {.call e}) (fun x => ?_) ?_ ?_ ?_
  · cases x with
    | holds q o => simp [State.Awaits, WorkList.addCall, WorkList.Waits]
    | call e' => simp [State.Awaits, WorkList.addCall]
    | _ => simp [State.Awaits]
  · rintro x rfl
    exact ⟨_, rfl, .call hE⟩
  · rintro f rfl
    exact ⟨_, rfl, .call hE⟩
  · simp only [WorkList.addCall, ← Fifo.length_toList, Fifo.toList_push, List.length_append,
      List.length_singleton]
    omega

/-- A flow edge may be attached when what its source holds has been passed on. -/
theorem grows_attach {a b : PtrId} {F : Flow} (ha : s.registry.PtrIs a F.src)
    (hb : s.registry.PtrIs b F.dst)
    (hclosed : ∀ O, s.Settled (.holds F.src O) → F.Passes g.program O → s.Has (.holds F.dst O)) :
    Grows g {.flow F} 0 s { s with flow := (s.flow.attach a b F.kind F.transfer).2 } := by
  obtain ⟨hiff, -⟩ := s.flow.attach_cases a b F.kind F.transfer
  have hnotes : ∀ {x}, State.Notes { s with flow := (s.flow.attach a b F.kind F.transfer).2 } x →
      s.Notes x ∨ x = .flow a b F.kind F.transfer := by
    intro x hx
    cases x with
    | flow a' b' k t =>
      rcases (hiff a' b' k t).mp hx with h | ⟨rfl, rfl, rfl, rfl⟩
      · exact .inl h
      · exact .inr rfl
    | _ => exact .inl hx
  have hkeep : ∀ {x}, s.Notes x →
      State.Notes { s with flow := (s.flow.attach a b F.kind F.transfer).2 } x := by
    intro x hx
    cases x with
    | flow a' b' k t => exact (hiff a' b' k t).mpr (.inl hx)
    | _ => exact hx
  have hhas : ∀ {f}, s.Has f →
      State.Has { s with flow := (s.flow.attach a b F.kind F.transfer).2 } f := by
    rintro f ⟨x, hx | hx, hf⟩
    · exact ⟨x, .inl (hkeep hx), hf⟩
    · exact ⟨x, .inr hx, hf⟩
  have hnew : s.registry.NoteIs (.flow a b F.kind F.transfer) (.flow F) := .flow ha hb rfl rfl
  have hback : ∀ {f}, State.Settled { s with flow := (s.flow.attach a b F.kind F.transfer).2 } f →
      s.Settled f ∨ f = .flow F := by
    rintro f ⟨x, hx, hf⟩
    rcases hnotes hx with hx | rfl
    · exact .inl ⟨x, hx, hf⟩
    · exact .inr (hf.unique hnew)
  -- the edge is the only new note, and it has nothing left to pass on
  refine ⟨Registry.le_refl _, ⟨rfl, rfl, rfl, rfl, rfl, rfl, rfl⟩,
    fun h => (hiff _ _ _ _).mpr (.inl h), ?_, hhas, ?_, ?_, Nat.le_refl _⟩
  · refine ⟨hs.registry, hs.work, fun {x} hx => ?_, hs.temps, hs.copied, fun {G O} hG hO hP => ?_⟩
    · rcases hx with hx | hx
      · rcases hnotes hx with hx | rfl
        · exact hs.means (.inl hx)
        · exact ⟨_, hnew⟩
      · exact hs.means (.inr hx)
    · have hO' := (hback hO).resolve_right (by simp)
      rcases hback hG with hG | hG
      · exact hhas (hs.flowed hG hO' hP)
      · cases hG
        exact hhas (hclosed O hO' hP)
  · rintro f rfl
    exact ⟨.flow a b F.kind F.transfer, .inl ((hiff _ _ _ _).mpr (.inr ⟨rfl, rfl, rfl, rfl⟩)), hnew⟩
  · rintro D - hD hDF f ⟨x, hx | hx, hf⟩
    · rcases hnotes hx with hx | rfl
      · exact hD f ⟨x, .inl hx, hf⟩
      · rw [hf.unique hnew]
        exact hDF _ rfl
    · exact hD f ⟨x, .inr hx, hf⟩

end Changes

/-- Facts that follow from the others need not be listed. -/
theorem Grows.shrink {g : Setup} {A E : Set Fact} {n : Nat} {s s' : State}
    (h : Grows g (A ∪ E) n s s')
    (hA : ∀ {D}, FlowClosed g D → (∀ f, s.Has f → D f) → (∀ f ∈ E, D f) → ∀ f ∈ A, D f) :
    Grows g E n s s' :=
  { h with
    adds := fun hf => h.adds (.inr hf)
    only := fun hF hD hE => h.only hF hD fun f hf => hf.elim (hA hF hD hE f) (hE f) }

/-! ### Actions -/

namespace Act

/-- An action succeeds and adds facts; `Q` says what its answer is. -/
def Adds (g : Setup) {α : Type} (a : Act α) (s : State) (E : Set Fact) (n : Nat)
    (Q : α → State → Prop) : Prop :=
  ∃ x s', a s = .ok x s' ∧ Grows g E n s s' ∧ Q x s'

section Compose

variable {g : Setup} {α β : Type} {s : State} {E E' : Set Fact} {n n' : Nat} {a : Act α}
  {f : α → Act β} {s' : State} {Q : α → State → Prop} {Q' : β → State → Prop}

theorem bind_of_ok {x : α} (h : a s = .ok x s') : (a >>= f) s = f x s' := by
  simp [bind, EStateM.bind, h]

theorem get_bind_eq (f : State → Act β) : (get >>= f) s = f s s :=
  rfl

theorem set_bind_eq (f : PUnit → Act β) : (set s' >>= f) s = f ⟨⟩ s' :=
  rfl

theorem Adds.pure (hs : s.Wf g) {x : α} (hQ : Q x s) : Adds g (Pure.pure x) s ∅ 0 Q :=
  ⟨x, s, rfl, .refl hs, hQ⟩

theorem Adds.nothing (hs : s.Wf g) {x : α} (hQ : Q x s) (hE : ∀ f, f ∉ E) :
    Adds g (Pure.pure x) s E n Q :=
  ⟨x, s, rfl, (Grows.refl hs).congr (Set.eq_empty_iff_forall_notMem.mpr hE).symm (Nat.zero_le n),
    hQ⟩

/-- Actions one after the other add what both add. -/
theorem Adds.bind (ha : Adds g a s E n Q)
    (hf : ∀ x s', Grows g E n s s' → Q x s' → Adds g (f x) s' E' n' Q') :
    Adds g (a >>= f) s (E ∪ E') (n + n') Q' := by
  obtain ⟨x, s₁, h₁, hg₁, hQ⟩ := ha
  obtain ⟨y, s₂, h₂, hg₂, hQ'⟩ := hf x s₁ hg₁ hQ
  exact ⟨y, s₂, (bind_of_ok h₁).trans h₂, hg₁.trans hg₂, hQ'⟩

theorem Adds.congr_le (h : Adds g a s E n Q) (hE : E = E') (hn : n ≤ n') : Adds g a s E' n' Q := by
  obtain ⟨x, s', h, hg, hx⟩ := h
  exact ⟨x, s', h, hg.congr hE hn, hx⟩

theorem Adds.congr (h : Adds g a s E n Q) (hE : E = E') : Adds g a s E' n Q :=
  h.congr_le hE le_rfl

theorem Adds.bind_nothing (ha : Adds g a s ∅ 0 Q)
    (hf : ∀ x s', Grows g ∅ 0 s s' → Q x s' → Adds g (f x) s' E n Q') : Adds g (a >>= f) s E n Q' :=
  (ha.bind hf).congr_le (Set.empty_union E) (by omega)

theorem Adds.get_bind {f : State → Act β} {Q : β → State → Prop} (h : Adds g (f s) s E n Q) :
    Adds g (get >>= f) s E n Q :=
  h

theorem Adds.then_pure {y : β} (ha : Adds g a s E n Q)
    (hQ : ∀ x s', Grows g E n s s' → Q x s' → Q' y s') :
    Adds g (a >>= fun _ => Pure.pure y) s E n Q' := by
  obtain ⟨x, s', h, hg, hx⟩ := ha
  exact ⟨y, s', (bind_of_ok h).trans rfl, hg, hQ x s' hg hx⟩

/-- What is done on a condition adds facts on that condition. -/
theorem Adds.guard {c : Prop} [Decidable c] {y : α} (hs : s.Wf g) (h : c → Adds g a s E n Q)
    (hy : Q y s) : Adds g (if c then a else Pure.pure y) s {f | c ∧ f ∈ E} n Q := by
  by_cases hc : c
  · rw [if_pos hc]
    exact (h hc).congr (by simp [hc])
  · rw [if_neg hc]
    exact .nothing hs hy (by simp [hc])

/-- **A loop** adds what its rounds add. The rounds may rely on the registry having grown since the
beginning of the loop, and on what is settled having stayed as it was. -/
theorem Adds.forIn {l : List β} {body : β → PUnit → Act (ForInStep PUnit)} {F : β → Set Fact}
    (hs : s.Wf g)
    (h : ∀ x ∈ l, ∀ s', s'.Wf g → s.registry ≤ s'.registry → s.Same s' →
      Adds g (body x ⟨⟩) s' (F x) n fun r _ => r = .yield ⟨⟩) :
    Adds g (ForIn.forIn l PUnit.unit body) s {f | ∃ x ∈ l, f ∈ F x} (l.length * n)
      fun _ _ => True := by
  induction l generalizing s with
  | nil => exact .nothing hs trivial (by simp)
  | cons x l ih =>
    rw [List.forIn_cons]
    obtain ⟨r, s₁, h₁, hg₁, rfl⟩ := h x (.head _) s hs (Registry.le_refl _) (.refl s)
    obtain ⟨u, s₂, h₂, hg₂, -⟩ := ih hg₁.wf fun y hy s' hs' hle hsame =>
      h y (List.mem_cons_of_mem x hy) s' hs' (Registry.le_trans hg₁.le hle) (hg₁.same.trans hsame)
    refine ⟨u, s₂, (bind_of_ok h₁).trans h₂, ?_, trivial⟩
    refine (hg₁.trans hg₂).congr (Set.ext fun f => ?_) ?_
    · simp
    · rw [List.length_cons, Nat.add_mul]
      omega

end Compose

theorem addObjects_apply (p : PtrId) (t : Objects) (s : State) :
    addObjects p t s =
      .ok ⟨⟩ { s with work := if t.isEmpty then s.work else s.work.addObjects p t } := by
  unfold addObjects
  cases t.isEmpty <;> rfl

variable {k : FlowKind} {t : Objects} {o : CObjId}

/-- An object is passed on along an edge exactly if its transfer lets it through. -/
theorem mem_passOn {g : Setup} {s : State} {F : Flow} {a b : PtrId} {O : At Obj}
    (hO : s.registry.ObjIs o O) :
    o ∈ g.passOn s ⟨a, b, k, F.transfer, t⟩ ↔ o ∈ t ∧ F.Passes g.program O := by
  unfold Flow.transfer Flow.Passes
  cases F.filter with
  | none => simp [Setup.passOn, Transfer.apply]
  | some t => simp [Setup.passOn, Transfer.apply, State.fits, hO.objType]

theorem mem_of_mem_passOn {g : Setup} {s : State} {F : Flow} {a b : PtrId}
    (h : o ∈ g.passOn s ⟨a, b, k, F.transfer, t⟩) : o ∈ t := by
  unfold Flow.transfer at h
  split at h
  · exact h
  · exact (OrderedSet.mem_filter.mp h).1

section Actions

variable {g : Setup} {s : State} (hs : s.Wf g)

include hs

/-- A request to the registry adds no facts and has an answer that means something. -/
theorem adds_register (ask : Registry → Nat × Registry) {Means : Registry → Nat → Prop}
    (ha : Registry.Answers g s.registry (ask s.registry) Means)
    (htemps : ∀ p c m n,
      (ask s.registry).2.pointers.get? p = some (.var c (.copyTemp m n)) →
      s.registry.pointers.get? p = some (.var c (.copyTemp m n)) ∨ n < s.copies.length) :
    Adds g (register ask) s ∅ 0 fun x s' => Means s'.registry x :=
  ⟨_, _, rfl, grows_registry hs ha.le ha.wf htemps, ha.means⟩

theorem adds_request_as (hp : g.program.WellFormed) {a : Ask} {o x : Obj}
    (hx : s.registry.heap.wanted? g.merging a = some x) (ha : a.Occurs g.program) (ho : g.Creates o)
    (hxo : x.origin = o.origin) (hnew : x = o ∨ ∃ i, s.registry.heap.get? i = some o) :
    Adds g (register (·.request g.merging a)) s ∅ 0 fun i s' => s'.registry.heap.get? i = some o :=
  adds_register hs (·.request g.merging a)
    (answers_request_as hs.registry hp hx ha ho hxo hnew) fun _ _ _ _ => .inl

theorem adds_request (hp : g.program.WellFormed) {a : Ask} {o : Obj}
    (hw : s.registry.heap.wanted? g.merging a = some o) (ha : a.Occurs g.program)
    (ho : g.Creates o) :
    Adds g (register (·.request g.merging a)) s ∅ 0 fun i s' => s'.registry.heap.get? i = some o :=
  adds_request_as hs hp hw ha ho rfl (.inl rfl)

variable {c : CtxId} {C : Ctx} {M : At MethodId} {m : CMethodId} {S : At CallSite} {i : CSiteId}
  {o : CObjId} {O : At Obj} {P : Place} {f : FieldId}

theorem adds_object {i : ObjId} {o : Obj} (hC : s.registry.CtxIs c C)
    (hlen : C.length ≤ g.policy.limit - 1) (ho : s.registry.heap.get? i = some o) :
    Adds g (register (·.object c i)) s ∅ 0 fun n s' => s'.registry.ObjIs n ⟨C, o⟩ :=
  adds_register hs (·.object c i) (answers_object hs.registry hC hlen ho) fun _ _ _ _ => .inl

theorem adds_method (hC : s.registry.CtxIs c C) (m : MethodId) :
    Adds g (register (·.method c m)) s ∅ 0 fun n s' => s'.registry.MethodIs n ⟨C, m⟩ :=
  adds_register hs (·.method c m) (answers_method hs.registry hC m) fun _ _ _ _ => .inl

theorem adds_site (hC : s.registry.CtxIs c C) (i : CallSite) :
    Adds g (register (·.site c i)) s ∅ 0 fun n s' => s'.registry.SiteIs n ⟨C, i⟩ :=
  adds_register hs (·.site c i) (answers_site hs.registry hC i) fun _ _ _ _ => .inl

theorem adds_heapContext (hM : s.registry.MethodIs m M) :
    Adds g (register fun r => g.policy.heapContext r m) s ∅ 0
      fun c s' => s'.registry.CtxIs c (g.policy.heapCtx M.ctx) := by
  refine adds_register hs (g.policy.heapContext · m)
    (answers_heapContext hs.registry hM) fun p c m' n => ?_
  cases g.policy <;> exact .inl

theorem adds_staticContext (hS : s.registry.SiteIs i S) :
    Adds g (register fun r => g.policy.staticContext r i) s ∅ 0
      fun c s' => s'.registry.CtxIs c (g.policy.siteCtx S) := by
  refine adds_register hs (g.policy.staticContext · i)
    (answers_staticContext hs.registry hS) fun p c m n => ?_
  cases g.policy <;> exact .inl

theorem adds_calleeContext (hS : s.registry.SiteIs i S) (hO : s.registry.ObjIs o O) :
    Adds g (register fun r => g.policy.calleeContext r i o) s ∅ 0
      fun c s' => s'.registry.CtxIs c (g.policy.recvCtx S O) := by
  refine adds_register hs (g.policy.calleeContext · i o)
    (answers_calleeContext hs.registry hS hO) fun p c m n => ?_
  cases g.policy <;> exact .inl

/-- The number of a place; temporary variables must belong to known copies. -/
theorem adds_pointer {x : Pointer} (hP : s.registry.PlaceIs x P)
    (hx : ∀ c m n, x = .var c (.copyTemp m n) → n < s.copies.length) :
    Adds g (register (·.pointer x)) s ∅ 0 fun p s' => s'.registry.PtrIs p P := by
  refine adds_register hs (·.pointer x) (answers_pointer hs.registry hP) fun p c m n h => ?_
  rcases Table.of_get?_intern h with h | h
  · exact .inl h
  · exact .inr (hx c m n h.symm)

theorem adds_declared (hC : s.registry.CtxIs c C) (m : MethodId) (x : Slot) :
    Adds g (variablePtr c (.declared m x)) s ∅ 0
      fun p s' => s'.registry.PtrIs p (.var C (.declared m x)) :=
  adds_pointer hs (.var _ hC) (by simp)

theorem adds_field (hO : s.registry.ObjIs o O)
    (hf : (g.program.field? f).any (·.isStatic) = false) :
    Adds g (pointer g (.field o f)) s ∅ 0 fun p s' => s'.registry.PtrIs p (.field O f) := by
  obtain ⟨p, s', h, hg, hp⟩ := adds_pointer hs (.field f hO) (by simp)
  refine ⟨p, s', ?_, hg, hp⟩
  rw [← h]
  simp [pointer, Registry.admits, hf, get_bind_eq]

theorem adds_elems (hO : s.registry.ObjIs o O) (ht : O.item.type.isArray = true) :
    Adds g (pointer g (.elems o)) s ∅ 0 fun p s' => s'.registry.PtrIs p (.elems O) := by
  obtain ⟨p, s', h, hg, hp⟩ := adds_pointer hs (.elems hO) (by simp)
  refine ⟨p, s', ?_, hg, hp⟩
  rw [← h]
  simp [pointer, Registry.admits, hO.objType, ht, get_bind_eq]

theorem adds_static (hf : (g.program.field? f).any (·.isStatic) = true) :
    Adds g (pointer g (.static f)) s ∅ 0 fun p s' => s'.registry.PtrIs p (.static f) := by
  obtain ⟨p, s', h, hg, hp⟩ := adds_pointer hs (.static f) (by simp)
  refine ⟨p, s', ?_, hg, hp⟩
  rw [← h]
  simp [pointer, Registry.admits, hf, get_bind_eq]

/-- Objects put on the work list of a pointer. -/
theorem adds_addObjects {p : PtrId} {t : Objects} {T : Set (At Obj)} (hP : s.registry.PtrIs p P)
    (ht : s.registry.SetIs t T) :
    Adds g (addObjects p t) s {f | ∃ O ∈ T, f = .holds P O} 0 fun _ _ => True :=
  ⟨⟨⟩, _, addObjects_apply p t s, grows_addObjects hs hP ht, trivial⟩

theorem adds_addObject {p : PtrId} (hP : s.registry.PtrIs p P) (hO : s.registry.ObjIs o O) :
    Adds g (addObjects p (OrderedSet.singleton o)) s {.holds P O} 0 fun _ _ => True :=
  (adds_addObjects hs hP hO.singleton).congr (by ext; simp)

theorem adds_addToVar (hC : s.registry.CtxIs c C) (hO : s.registry.ObjIs o O) (m : MethodId)
    (x : Slot) :
    Adds g (addToVar c (.declared m x) o) s {.holds (.var C (.declared m x)) O} 0 fun _ _ => True :=
  (adds_declared hs hC m x).bind_nothing fun _ _ hg hp => adds_addObject hg.wf hp (hO.mono hg.le)

theorem adds_addCall {e : CCallEdge} {E : CallEdge (At CallSite) (At MethodId)}
    (hE : s.registry.EdgeIs e E) : Adds g (addCall e) s {.call E} 1 fun _ _ => True :=
  ⟨⟨⟩, _, rfl, grows_addCall hs hE, trivial⟩

theorem adds_setContainer (i : CSiteId) (m : CMethodId) :
    Adds g (setContainer i m) s ∅ 0 fun _ _ => True := by
  exact ⟨⟨⟩, _, rfl, grows_of_like hs rfl rfl rfl ⟨rfl, CallGraph.edges_setContainer ..,
    CallGraph.reachable_setContainer .., rfl, rfl, rfl, rfl⟩, trivial⟩

/-- An object in the context that the policy gives it. -/
theorem adds_allocate {i : ObjId} {o : Obj} (hM : s.registry.MethodIs m M)
    (ho : s.registry.heap.get? i = some o) :
    Adds g (allocate g m i) s ∅ 0 fun n s' => s'.registry.ObjIs n (g.made M o) :=
  (adds_heapContext hs hM).bind_nothing fun _ _ hg hc =>
    adds_object hg.wf hc (g.policy.length_heapCtx M.ctx) (hg.le.heap _ _ ho)

/-- **A flow edge.** What the source has so far flows at once, so it need not be listed. -/
theorem adds_addFlow {a b : PtrId} {F : Flow} (ha : s.registry.PtrIs a F.src)
    (hb : s.registry.PtrIs b F.dst) :
    Adds g (addFlow g a b F.kind F.transfer) s {.flow F} 0 fun _ _ => True := by
  have hsrc : ∀ {O}, s.Settled (.holds F.src O) → ∃ o ∈ s.pointsTo a, s.registry.ObjIs o O := by
    rintro O ⟨x, hx, hf⟩
    cases hf with
    | holds hp ho =>
      cases hp.inj ha
      exact ⟨_, hx, ho⟩
  by_cases hnew : ((s.flow.attach a b F.kind F.transfer).1 && !(s.pointsTo a).isEmpty) = true
  · -- the new edge is given what the source has; then its consequences are there
    let s' : State := { s with flow := (s.flow.attach a b F.kind F.transfer).2 }
    let x : Passage := ⟨a, b, F.kind, F.transfer, s.pointsTo a⟩
    have hmeans : ∀ o ∈ g.passOn s' x, ∃ O, s.registry.ObjIs o O :=
      fun o ho => (hs.ptrIs (mem_of_mem_passOn ho)).2
    have hg₁ := grows_addObjects hs hb (.of_means hmeans)
    have hg₂ := grows_attach hg₁.wf ha hb fun O hO hP => by
      obtain ⟨o, ho, hoO⟩ := hsrc hO
      exact hg₁.adds ⟨O, ⟨o, (mem_passOn (s := s') hoO).mpr ⟨ho, hP⟩, hoO⟩, rfl⟩
    have hg₃ := (hg₁.trans hg₂).shrink (fun hF hD hE f hf => by
      obtain ⟨O, ⟨o, ho, hoO⟩, rfl⟩ := hf
      have hO : s.Settled (.holds F.src O) :=
        State.settled_holds ha hoO (mem_of_mem_passOn ho)
      exact hF (hE _ rfl) (hD _ hO.has) ((mem_passOn (s := s') hoO).mp ho).2)
    have hg₄ : Grows g ∅ 0 _ (s'.handed g x) :=
      grows_of_like hg₃.wf rfl rfl rfl ⟨rfl, rfl, rfl, rfl, rfl, rfl, rfl⟩
    refine ⟨⟨⟩, _, ?_, (hg₃.trans hg₄).congr (Set.union_empty _) (by omega), trivial⟩
    rw [addFlow]
    simp only [get_bind_eq, set_bind_eq, hnew, if_true]
    rfl
  · -- the edge is there already, or the source is empty
    have hclosed : ∀ O, s.Settled (.holds F.src O) → F.Passes g.program O →
        s.Has (.holds F.dst O) := by
      intro O hO hP
      obtain ⟨o, ho, -⟩ := hsrc hO
      have hj : s.flow.Joins a b F.kind F.transfer := by
        refine (s.flow.attach_cases a b F.kind F.transfer).2 (Bool.eq_false_iff.mpr fun htrue => ?_)
        simp [htrue, OrderedSet.isEmpty_of_mem ho] at hnew
      exact hs.flowed (State.settled_flow ha hb hj) hO hP
    refine ⟨⟨⟩, _, ?_, grows_attach hs ha hb hclosed, trivial⟩
    rw [addFlow]
    simp only [get_bind_eq, set_bind_eq, hnew]
    rfl

end Actions

end Act

end HeapFlow
