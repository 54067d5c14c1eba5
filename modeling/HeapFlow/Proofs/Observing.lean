import HeapFlow.Proofs.Reaching

/-!
# What observers do

Four observers model part of the analysis: they bring the entry methods, initialize classes, run
started threads and copy array elements. The others only watch. This file gives the effect of a
reaction. In the started threads two kinds of facts meet: a thread may be started after the running
thread has been asked for, or before, and each time the new one is joined with all the old ones.
-/

namespace HeapFlow

open List Act

section Threads

variable {g : Setup} {s : State} (hs : s.Wf g)

include hs

variable {T : Set (At Obj)} {t delta : Objects} {C : Ctx}

theorem Act.adds_returnThreads (hp : g.program.WellFormed) {c : CtxId} (hC : s.registry.CtxIs c C)
    (hT : s.registry.SetIs t T) :
    Adds g (returnThreads g c t) s {f | ∃ O ∈ T, ∃ d v, g.program.method? threadCurrent = some d ∧
      v ∈ d.returned ∧ f = .holds (.var C (.declared threadCurrent v)) O} 0 fun _ _ => True := by
  unfold returnThreads
  split
  · rename_i hnone
    exact .nothing hs trivial (by simp [hnone])
  · rename_i d hd
    have hid : d.id = threadCurrent := hp.id_eq hd
    refine Adds.then_pure ((Adds.forIn (n := 0)
      (F := fun v => {f | ∃ O ∈ T, f = .holds (.var C (.declared threadCurrent v)) O})
      hs ?_).congr_le (Set.ext fun f => ⟨?_, ?_⟩) (by simp)) fun _ _ _ _ => trivial
    · intro v _ s' hs' hle _
      refine (adds_declared hs' (hC.mono hle) d.id v).bind_nothing fun p s₁ hg₁ hp₁ => ?_
      rw [hid] at hp₁
      exact (adds_addObjects hg₁.wf hp₁ ((hT.mono hle).mono hg₁.le)).then_pure fun _ _ _ _ => rfl
    · rintro ⟨v, hv, O, hO, rfl⟩
      exact ⟨O, hO, d, v, hd, hv, rfl⟩
    · rintro ⟨O, hO, d', v, hd', hv, rfl⟩
      cases hd.symm.trans hd'
      exact ⟨v, hv, O, hO, rfl⟩

/-- Threads and contexts are added to those that an observer keeps. -/
theorem steps_threads {t : Threads} {A : Set CObjId} {B : Set CtxId} {N : Set Fact}
    (hrun : ∀ o, o ∈ t.running ↔ o ∈ s.threads.running ∨ o ∈ A)
    (hask : ∀ c, c ∈ t.asking ↔ c ∈ s.threads.asking ∨ c ∈ B)
    (hA : ∀ o ∈ A, ∃ O, s.registry.ObjIs o O ∧ .started O ∈ N)
    (hB : ∀ c ∈ B, ∃ C, s.registry.CtxIs c C ∧ .asks C ∈ N)
    (hN : ∀ f ∈ N, (∃ o ∈ A, ∃ O, s.registry.ObjIs o O ∧ f = .started O) ∨
      ∃ c ∈ B, ∃ C, s.registry.CtxIs c C ∧ f = .asks C) :
    Steps g N N s { s with threads := t } := by
  have hnotes : ∀ x, State.Notes { s with threads := t } x ↔
      s.Notes x ∨ x ∈ ({y | ∃ o ∈ A, y = .started o} ∪ {y | ∃ c ∈ B, y = .asks c} : Set Note) := by
    intro x
    cases x with
    | started o => simpa [State.Notes] using hrun o
    | asks c => simpa [State.Notes] using hask c
    | _ => exact (or_iff_left (by simp)).symm
  refine steps_mark { s with threads := t } hs rfl rfl rfl hnotes ?_ ?_ ?_ ?_
  · rintro x (⟨o, ho, rfl⟩ | ⟨c, hc, rfl⟩)
    · obtain ⟨O, hO, hf⟩ := hA o ho
      exact ⟨_, hf, .started hO⟩
    · obtain ⟨C, hC, hf⟩ := hB c hc
      exact ⟨_, hf, .asks hC⟩
  · intro f hf
    rcases hN f hf with ⟨o, ho, O, hO, rfl⟩ | ⟨c, hc, C, hC, rfl⟩
    · exact ⟨_, .inl ⟨o, ho, rfl⟩, .started hO⟩
    · exact ⟨_, .inr ⟨c, hc, rfl⟩, .asks hC⟩
  · intro F hF
    rcases hN _ hF with ⟨o, -, O, -, h⟩ | ⟨c, -, C, -, h⟩ <;> cases h
  · intro P O hO
    rcases hN _ hO with ⟨o, -, O', -, h⟩ | ⟨c, -, C, -, h⟩ <;> cases h

theorem Act.adds_runThreads {i : CSiteId} (hi : s.registry.SiteIs i ⟨C, .threadRun⟩)
    (hT : s.registry.SetIs delta T) :
    Adds g (forIn delta.toList PUnit.unit fun o _ => do
        match (g.program.dispatch ((← get).registry.objType o) threadRun.subsig).filter
            fun m => !m.isAbstract && !m.isStatic with
        | some m =>
          callOn g .other i o m.id
          Pure.pure (ForInStep.yield PUnit.unit)
        | none => Pure.pure (ForInStep.yield PUnit.unit)) s
      {f | ∃ O ∈ T, ∃ n, g.program.runMethod? O.item.type = some n ∧
        BindFact g .other ⟨C, .threadRun⟩ O n.id f} (delta.toList.length * 1) fun _ _ => True := by
  refine adds_forNew hs hT (A := fun O => {f | ∃ n, g.program.runMethod? O.item.type = some n ∧
    BindFact g .other ⟨C, .threadRun⟩ O n.id f}) fun o O hO hoO s' hs' hle => ?_
  refine Adds.get_bind ?_
  rw [(hoO.mono hle).objType]
  split
  · rename_i m hm
    obtain ⟨_, s₁, h₁, hg₁, -⟩ := adds_callOn hs' .other (hi.mono hle) (hoO.mono hle) m.id
    refine ⟨_, s₁, (bind_of_ok h₁).trans rfl,
      hg₁.congr (Set.ext fun f => ⟨fun hf => ⟨m, hm, hf⟩, ?_⟩) le_rfl, rfl⟩
    rintro ⟨n, hn, hf⟩
    cases hm.symm.trans hn
    exact hf
  · rename_i hm
    refine .nothing hs' rfl ?_
    rintro f ⟨n, hn, -⟩
    cases hm.symm.trans hn

/-- New threads are returned in all contexts in which the running thread is asked for. -/
theorem Act.adds_returnAll (hp : g.program.WellFormed) {l : List CtxId}
    (hl : ∀ c ∈ l, ∃ C, s.registry.CtxIs c C) (hT : s.registry.SetIs t T) :
    Adds g (if !t.isEmpty then do
        for c in l do returnThreads g c t
      else Pure.pure ()) s
      {f | ∃ c ∈ l, ∃ C, s.registry.CtxIs c C ∧ ∃ O ∈ T, ∃ d v,
        g.program.method? threadCurrent = some d ∧ v ∈ d.returned ∧
        f = .holds (.var C (.declared threadCurrent v)) O} 0 fun _ _ => True := by
  split
  · refine Adds.then_pure ((Adds.forIn (n := 0) hs fun c hc s' hs' hle _ => ?_).congr_le
      rfl (by simp)) fun _ _ _ _ => trivial
    obtain ⟨C, hC⟩ := hl c hc
    obtain ⟨_, s₁, h₁, hg₁, -⟩ := adds_returnThreads hs' hp (hC.mono hle) (hT.mono hle)
    refine ⟨_, s₁, (bind_of_ok h₁).trans rfl,
      hg₁.congr (Set.ext fun f => ⟨fun hf => ⟨C, hC, hf⟩, ?_⟩) le_rfl, rfl⟩
    rintro ⟨C', hC', hf⟩
    cases hC.unique hC'
    exact hf
  · rename_i hempty
    refine .nothing hs trivial ?_
    rintro f ⟨-, -, -, -, O, hO, -⟩
    obtain ⟨o, ho, -⟩ := hT.covers O hO
    exact OrderedSet.not_mem_of_isEmpty (by simpa using hempty) o ho

omit hs in
/-- Threads stay returned where the running thread is asked for, if those that are new are. -/
theorem Steps.returned_of_started {s' : State} {E N : Set Fact} (h : Steps g E N s s')
    (hN : ∀ f ∈ N, ∃ o ∈ delta, ∃ O, s.registry.ObjIs o O ∧ f = .started O)
    (hnew : ∀ o ∈ delta, o ∉ s.threads.running → ∀ c ∈ s.threads.asking, ∀ {O C d v},
      s.registry.ObjIs o O → s.registry.CtxIs c C → g.program.method? threadCurrent = some d →
      v ∈ d.returned → s'.Has (.holds (.var C (.declared threadCurrent v)) O))
    (hr : s.Returned g) : s'.Returned g := by
  intro O C d v hO hC hd hv
  have hask : s.Settled (.asks C) := by
    refine (h.settled_back hC (by simp)).resolve_right fun hf => ?_
    obtain ⟨o, -, O', -, heq⟩ := hN _ hf
    cases heq
  by_cases hold : s.Settled (.started O)
  · exact h.has (hr hold hask hd hv)
  · obtain ⟨o, ho, O', hoO, heq⟩ := hN _ ((h.settled_back hO (by simp)).resolve_left hold)
    cases heq
    obtain ⟨x, hx, hxC⟩ := hask
    cases hxC with
    | asks hc => exact hnew o ho (fun h => hold ⟨.started o, h, .started hoO⟩) _ hx hoO hc hd hv

/-- **Threads are started**: they run, and are returned wherever the running thread is asked for. -/
theorem effect_startThreads (hp : g.program.WellFormed) {p : PtrId} {c : CtxId}
    (hC : s.registry.CtxIs c C) (hP : s.registry.PtrIs p (.var C (.declared threadStart 0)))
    (hmeans : ∀ o ∈ delta, ∃ O, s.registry.ObjIs o O) (hthreads : g.program.hasThreads = true) :
    ∃ s', Act.startThreads g c delta s = .ok ⟨⟩ s' ∧
      Effect g {f | Observer.threads.Brings g s.registry (.grown p delta) f} 0
        (delta.toList.length + 1) s [] s' := by
  obtain ⟨i, s₁, h₁, hg₁, hi⟩ := adds_site hs hC .threadRun
  have hT : s₁.registry.SetIs delta {O | ∃ o ∈ delta, s.registry.ObjIs o O} :=
    (Registry.SetIs.of_means hmeans).mono hg₁.le
  obtain ⟨_, s₂, h₂, hg₂, -⟩ := adds_runThreads hg₁.wf hi hT
  have hg := hg₁.trans hg₂
  -- the threads are taken down
  have hsteps := steps_threads hg.wf (A := {o | o ∈ delta}) (B := ∅)
    (t := { s₂.threads with running := s₂.threads.running.union delta })
    (N := {f | ∃ o ∈ delta, ∃ O, s.registry.ObjIs o O ∧ f = .started O})
    (fun o => OrderedSet.mem_union) (by simp)
    (fun o ho => by
      obtain ⟨O, hO⟩ := hmeans o ho
      exact ⟨O, hO.mono hg.le, o, ho, O, hO, rfl⟩)
    (by simp)
    (by
      rintro f ⟨o, ho, O, hO, rfl⟩
      exact .inl ⟨o, ho, O, hO.mono hg.le, rfl⟩)
  -- and returned where the running thread was asked for
  have hasks : ∀ c ∈ s₂.threads.asking, ∃ C, s₂.registry.CtxIs c C := by
    intro c hc
    obtain ⟨f, hf⟩ := hg.wf.means (x := .asks c) (.inl hc)
    cases hf with
    | asks h => exact ⟨_, h⟩
  have hfresh : s₂.registry.SetIs (delta.diff s₂.threads.running)
      {O | ∃ o ∈ delta.diff s₂.threads.running, s₂.registry.ObjIs o O} := by
    refine .of_means fun o ho => ?_
    obtain ⟨O, hO⟩ := hmeans o (OrderedSet.mem_diff.mp ho).1
    exact ⟨O, hO.mono hg.le⟩
  obtain ⟨_, s', h', hg', -⟩ := adds_returnAll hsteps.wf hp hasks hfresh
  have hall := ((hg.steps hs).trans hsteps).trans (hg'.steps hsteps.wf)
  refine ⟨s', ?_, hall.effect ?_ ?_ ?_ ?_ (.lighter ?_ ?_ ?_) (.of_none (by simp))⟩
  · exact (bind_of_ok h₁).trans ((bind_of_ok h₂).trans h')
  · refine hall.returned_of_started (fun f hf => by simpa using hf) fun o ho hnew c' hc' O C' d v
      hoO hcC hd hv => hall.adds (.inr ⟨c', ?_, C', hcC.mono hg.le, O,
        ⟨o, OrderedSet.mem_diff.mpr ⟨ho, ?_⟩, hoO.mono hg.le⟩, d, v, hd, hv, rfl⟩)
    · rw [hg.same.threads]
      exact hc'
    · rw [hg.same.threads]
      exact hnew
  · intro f _ hf
    cases hf with
    | start _ ho hO _ => exact .inl (hall.adds (.inl (.inr ⟨_, ho, _, hO, rfl⟩)))
    | run hP' ho hO _ hn hf =>
      cases hP.unique hP'
      exact .inl (hall.adds (.inl (.inl (.inr ⟨_, ⟨_, ho, hO⟩, _, hn, hf⟩))))
  · rintro f ((hf | ⟨o, -, O, -, rfl⟩) | hf) f' hf'
    · exact hf.elim
    · cases hf'
    · exact hf.elim
  · intro D hS hD hX
    refine ⟨?_, by simp⟩
    rintro f (((hf | ⟨O, ⟨o, ho, hO⟩, n, hn, hf⟩) | ⟨o, ho, O, hO, rfl⟩) |
      ⟨c', hc', C', hC', O, ⟨o, ho, hO⟩, d, v, hd, hv, rfl⟩)
    · exact hf.elim
    · exact hX f (.run hP ho hO hthreads hn hf)
    · exact hX _ (.start hP ho hO hthreads)
    · obtain ⟨O', hO'⟩ := hmeans o (OrderedSet.mem_diff.mp ho).1
      cases (hO'.mono hg.le).unique hO
      refine hS.current
        (hX _ (.start hP (OrderedSet.mem_diff.mp ho).1 hO' hthreads)) (hD _ ?_) hd hv
      rw [hg.same.threads] at hc'
      exact State.Has.back hs hg.le (x := .asks c') (.inl hc') (.asks hC')
  · exact hg'.same.copies.trans hg.same.copies
  · exact Nat.le_refl 0
  · have hq : s'.work.calls.size ≤ s₂.work.calls.size := hg'.queue
    have hq' := hg.queue
    simp only [agendaWeight_nil]
    omega

/-- The running thread is asked for: all threads so far are returned. -/
theorem effect_threadsReached (hp : g.program.WellFormed) {m : CMethodId} {M : At MethodId}
    (hM : s.registry.MethodIs m M) :
    ∃ s', Act.threadsReached g m s = .ok ⟨⟩ s' ∧
      Effect g {f | Observer.threads.Brings g s.registry (.methodIn m) f} 0 1 s [] s' := by
  by_cases hr : g.program.returnsThread M.item = true
  · -- first the context asks, then the threads that run so far are returned in it
    have hsteps := steps_threads hs (A := ∅) (B := {s.registry.methodContext m})
      (N := {.asks M.ctx})
      (t := { s.threads with asking := s.threads.asking ++ [s.registry.methodContext m] })
      (by simp) (by simp) (by simp) (by rintro c rfl; exact ⟨_, hM.ctx, rfl⟩)
      (by rintro f rfl; exact .inr ⟨_, rfl, _, hM.ctx, rfl⟩)
    have hrunning : ∀ o ∈ s.threads.running, ∃ O, s.registry.ObjIs o O := by
      intro o ho
      obtain ⟨f, hf⟩ := hs.means (x := .started o) (.inl ho)
      cases hf with
      | started h => exact ⟨_, h⟩
    obtain ⟨_, s', h', hg', -⟩ := adds_returnThreads hsteps.wf hp hM.ctx (.of_means hrunning)
    have hall := hsteps.trans (hg'.steps hsteps.wf)
    refine ⟨s', ?_, hall.effect ?_ ?_ ?_ ?_ (.lighter hg'.same.copies (Nat.le_refl 0) ?_)
      (.of_none (by simp))⟩
    · simp only [Act.threadsReached, get_bind_eq, hM.methodId, hr]
      exact h'
    · intro hret O C d v hO hC hd hv
      have hold : s.Settled (.started O) :=
        (hall.settled_back hO (by simp)).resolve_right (by simp)
      rcases hall.settled_back hC (by simp) with h | h
      · exact hall.has (hret hold h hd hv)
      · -- the context is new: all started threads have just been returned in it
        obtain ⟨x, hx, hxO⟩ := hold
        cases hxO with
        | started hO =>
          obtain rfl : C = M.ctx := by simpa using h
          exact hall.adds (.inr ⟨O, ⟨_, hx, hO⟩, d, v, hd, hv, rfl⟩)
    · intro f _ hf
      cases hf with
      | ask hM' _ =>
        cases hM.unique hM'
        exact .inl (hall.adds (.inl rfl))
    · rintro f (rfl | hf) f' hf'
      · cases hf'
      · exact hf.elim
    · intro D hS hD hX
      have hask : D (.asks M.ctx) := hX _ (.ask hM hr)
      refine ⟨?_, by simp⟩
      rintro f (rfl | ⟨O, ⟨o, ho, hO⟩, d, v, hd, hv, rfl⟩)
      · exact hask
      · exact hS.current (hD _ ⟨.started o, .inl ho, .started hO⟩) hask hd hv
    · have hq : s'.work.calls.size ≤ s.work.calls.size := hg'.queue
      simp only [agendaWeight_nil]
      omega
  · refine ⟨s, ?_, (Grows.refl hs).effect_idle hs ?_⟩
    · simp only [Act.threadsReached, get_bind_eq, hM.methodId, hr]
      rfl
    · intro f hf
      cases hf with
      | ask hM' hr' =>
        cases hM.unique hM'
        exact (hr hr').elim

end Threads

/-! ### Copies of array elements -/

section Copies

variable {g : Setup} {s : State}

theorem steps_copies (hs : s.Wf g) {l : List CopyCall} (hl : ∀ k ∈ l, g.program.Copies k) :
    Steps g ∅ ∅ s { s with copies := s.copies ++ l } where
  le := Registry.le_refl _
  wf :=
    { registry := hs.registry
      work := hs.work
      means := fun {x} hx => hs.means (x := x) hx
      temps := fun h => by
        have hlt := hs.temps h
        simp only [length_append]
        omega
      copied := fun k hk => (mem_append.mp hk).elim (hs.copied k) (hl k)
      flowed := fun hF hO hP => hs.flowed hF hO hP }
  settled h := h
  has h := h
  adds h := h.elim
  settles h := h.elim
  fresh h := .inl h
  only _ hD _ := hD

/-- An action succeeds and does nothing but take down the copies of a kind. -/
def Act.TakesDown {α : Type} (K : CopyCall → Prop) (a : Act α) (s : State) (y : α) : Prop :=
  ∃ l, a s = .ok y { s with copies := s.copies ++ l } ∧ ∀ k, k ∈ l ↔ K k

section TakesDown

variable {α β : Type} {K K' : CopyCall → Prop}

theorem Act.TakesDown.pure (y : α) (hK : ∀ k, ¬ K k) : TakesDown K (Pure.pure y) s y :=
  ⟨[], by rw [append_nil]; rfl, fun k => by simp [hK k]⟩

variable {a : Act α}

/-- Copies are taken down one after the other. -/
theorem Act.TakesDown.bind {f : α → Act β} {y : α} {z : β} (h : TakesDown K a s y)
    (hf : ∀ s', TakesDown K' (f y) s' z) : TakesDown (fun k => K k ∨ K' k) (a >>= f) s z := by
  obtain ⟨l, hl, hcopies⟩ := h
  obtain ⟨l', hl', hcopies'⟩ := hf { s with copies := s.copies ++ l }
  refine ⟨l ++ l', (bind_of_ok hl).trans ?_, fun k => ?_⟩
  · rw [hl', append_assoc]
  · rw [mem_append, hcopies, hcopies']

theorem Act.TakesDown.congr {y : α} (h : TakesDown K a s y) (hK : ∀ k, K k ↔ K' k) :
    TakesDown K' a s y := by
  obtain ⟨l, hl, hcopies⟩ := h
  exact ⟨l, hl, fun k => (hcopies k).trans (hK k)⟩

theorem Act.TakesDown.forIn {l : List β} {body : β → PUnit → Act (ForInStep PUnit)}
    {K : β → CopyCall → Prop} (h : ∀ x ∈ l, ∀ s, TakesDown (K x) (body x ⟨⟩) s (.yield ⟨⟩))
    (s : State) :
    TakesDown (fun k => ∃ x ∈ l, K x k) (ForIn.forIn l PUnit.unit body) s ⟨⟩ := by
  induction l generalizing s with
  | nil => exact .pure _ (by simp)
  | cons x l ih =>
    rw [forIn_cons]
    refine ((h x (.head _) s).bind fun s' =>
      ih (fun y hy => h y (.tail _ hy)) s').congr fun k => ?_
    simp

end TakesDown

/-- **The copies of a method are taken down.** -/
theorem Act.takesDown_copiesReached (hp : g.program.WellFormed) (m : MethodId) :
    TakesDown (fun k => k.method = m ∧ g.program.Copies k) (copiesReached g m) s ⟨⟩ := by
  unfold copiesReached
  split
  · rename_i d hcopy hd
    -- each statement contributes the copy it makes, if it makes one
    refine ((TakesDown.forIn (K := fun (x : Nat × Stmt) k => ∃ c, x.2 = .invoke c ∧
      g.program.isArrayCopy c = true ∧ k.method = m ∧ c.args[0]? = some k.src ∧
      c.args[2]? = some k.dst) ?_ s).bind fun _ => .pure (K := fun _ => False) _ fun _ => id).congr
      fun k => ?_
    · rintro ⟨i, st⟩ hmem s'
      dsimp only
      split
      · rename_i c
        split
        · rename_i hc
          have hst := mem_of_getElem? (Method.mem_indexedBody.mp hmem)
          have hlen := hp.arrayCopy_args hd hst hc
          obtain ⟨src, hsrc⟩ : ∃ x, c.args[0]? = some x :=
            ⟨_, getElem?_eq_getElem (by omega)⟩
          obtain ⟨dst, hdst⟩ : ∃ x, c.args[2]? = some x :=
            ⟨_, getElem?_eq_getElem (by omega)⟩
          have htaken : TakesDown (fun k => k = ⟨m, src, dst⟩)
              (modify fun s => { s with copies := s.copies ++ [⟨m, src, dst⟩] }) s' ⟨⟩ :=
            ⟨[⟨m, src, dst⟩], rfl, fun k => mem_singleton⟩
          simp only [hsrc, hdst]
          refine TakesDown.congr (htaken.bind fun _ =>
            .pure (K := fun _ => False) (ForInStep.yield PUnit.unit) fun _ => id) fun k => ?_
          rw [or_false]
          constructor
          · rintro rfl
            exact ⟨c, rfl, hc, rfl, hsrc, hdst⟩
          · rintro ⟨c', heq, -, rfl, hsrc', hdst'⟩
            cases heq
            cases hsrc.symm.trans hsrc'
            cases hdst.symm.trans hdst'
            rfl
        · rename_i hc
          exact .pure _ (by simp [hc])
      · rename_i hne
        exact .pure _ fun k ⟨c, hc, _⟩ => hne c hc
    · rw [or_false]
      constructor
      · rintro ⟨x, hx, c, hxc, hc, hm, hsrc, hdst⟩
        have hst := mem_of_getElem? (Method.mem_indexedBody.mp hx)
        rw [hxc] at hst
        exact ⟨hm, hcopy, d, c, hm ▸ hd, hst, hc, hsrc, hdst⟩
      · rintro ⟨hm, -, d', c, hd', hst, hc, hsrc, hdst⟩
        rw [hm, hd] at hd'
        cases hd'
        obtain ⟨i, hi⟩ := mem_iff_getElem?.mp hst
        exact ⟨(i, .invoke c), Method.mem_indexedBody.mpr hi, c, rfl, hc, hm, hsrc, hdst⟩
  · rename_i hnone
    refine .pure _ ?_
    rintro k ⟨rfl, hcopy, d, c, hd, -⟩
    exact hnone d hcopy hd

section Temporaries

variable (hs : s.Wf g) {c : CtxId} {C : Ctx} {v : Var} {delta : Objects} {T : Set (At Obj)}
  (hC : s.registry.CtxIs c C) (hT : s.registry.SetIs delta T) {l : List (CopyCall × Nat)}
  (hl : ∀ x ∈ l, x.2 < s.copies.length)

include hs hC hT hl

/-- An array in a variable is joined with the copies that name the variable. -/
theorem Act.adds_forCopies {x : CopyCall → Slot} {B : CObjId → PtrId → Act PUnit}
    {F : Place → At Obj → Ty → Flow}
    (hB : ∀ {s p P o O t}, s.Wf g → s.registry.PtrIs p P → s.registry.ObjIs o O →
      O.item.type = .array t → Adds g (B o p) s {.flow (F P O t)} 0 fun _ _ => True) :
    Adds g (forIn l PUnit.unit fun y _ =>
      if v = .declared y.1.method (x y.1) then do
        let p ← variablePtr c (.copyTemp y.1.method y.2)
        for o in (← get).arraysIn delta do B o p
        Pure.pure (ForInStep.yield PUnit.unit)
      else Pure.pure (ForInStep.yield PUnit.unit)) s
      {f | ∃ y ∈ l, v = .declared y.1.method (x y.1) ∧ ∃ O ∈ T, ∃ t, O.item.type = .array t ∧
        f = .flow (F (.var C (.copyTemp y.1.method y.2)) O t)} 0 fun _ _ => True := by
  refine (Adds.forIn (n := 0) hs fun y hy s' hs' hle hsame => ?_).congr_le rfl (by simp)
  refine Adds.guard hs' (fun _ => ?_) rfl
  refine (adds_pointer hs' (.var (.copyTemp y.1.method y.2) (hC.mono hle)) ?_).bind_nothing
    fun p s₁ hg₁ hp => adds_forArrays hg₁.wf (hT.mono (Registry.le_trans hle hg₁.le))
      fun _ _ _ _ hs₂ hle₂ hO ht => hB hs₂ (hp.mono hle₂) hO ht
  intro c' m' n' heq
  cases heq
  rw [hsame.copies]
  exact hl y hy

end Temporaries

/-- The flow by which an array takes part in the copy with a number. -/
inductive CopyCall.Link (k : CopyCall) (n : Nat) (C : Ctx) (O : At Obj) : Var → Fact → Prop where
  | load {t : Ty} (ht : O.item.type = .array t) : Link k n C O (.declared k.method k.src)
      (.flow ⟨.elems O, .var C (.copyTemp k.method n), .loadElem, none⟩)
  | store {t : Ty} (ht : O.item.type = .array t) : Link k n C O (.declared k.method k.dst)
      (.flow ⟨.var C (.copyTemp k.method n), .elems O, .storeElem, some t⟩)

theorem CopyCall.Link.copyFact {k : CopyCall} {n : Nat} {C : Ctx} {O : At Obj} {v : Var} {f : Fact}
    (h : k.Link n C O v f) (hk : g.program.Copies k) : CopyFact g C O v f := by
  obtain ⟨hcopy, d, c, hd, hs, hc, hsrc, hdst⟩ := hk
  cases h with
  | load ht => exact .load n hcopy hd hs hc hsrc ht
  | store ht => exact .store n hcopy hd hs hc hdst ht

theorem Act.adds_copiesGrown (hs : s.Wf g) {p : PtrId} {c : CtxId} {C : Ctx} {v : Var}
    {delta : Objects} {T : Set (At Obj)} (hC : s.registry.CtxIs c C)
    (hx : s.registry.pointers.get? p = some (.var c v)) (hT : s.registry.SetIs delta T) :
    Adds g (copiesGrown g p delta) s
      {f | ∃ (n : Nat) (k : CopyCall), s.copies[n]? = some k ∧ ∃ O ∈ T, k.Link n C O v f} 0
      fun _ _ => True := by
  have hcopies : ∀ x ∈ s.copies.zipIdx, x.2 < s.copies.length := fun x hx =>
    (List.getElem?_eq_some_iff.mp (mem_zipIdx_iff_getElem?.mp hx)).1
  obtain ⟨_, s₁, h₁, hg₁, -⟩ := adds_forCopies (v := v) (x := CopyCall.src) (B := loadElems g)
    (F := fun P O _ => ⟨.elems O, P, .loadElem, none⟩) hs hC hT hcopies
    fun hs => adds_loadElems hs
  obtain ⟨_, s₂, h₂, hg₂, -⟩ := adds_forCopies (v := v) (x := CopyCall.dst)
    (B := fun o p => storeElems g p o) (F := fun P O t => ⟨P, .elems O, .storeElem, some t⟩)
    hg₁.wf (hC.mono hg₁.le) (hT.mono hg₁.le)
    (fun x hx => (hg₁.same.copies ▸ hcopies x hx : x.2 < s₁.copies.length))
    fun hs => adds_storeElems hs
  have hrun : copiesGrown g p delta s = .ok ⟨⟩ s₂ := by
    rw [copiesGrown, get_bind_eq, hx]
    exact (bind_of_ok h₁).trans (bind_of_ok h₂)
  refine Adds.congr ⟨⟨⟩, s₂, hrun, hg₁.trans hg₂, trivial⟩ ?_
  ext f
  constructor
  · rintro (⟨x, hmem, rfl, O, hO, t, ht, rfl⟩ | ⟨x, hmem, rfl, O, hO, t, ht, rfl⟩)
    · exact ⟨x.2, x.1, mem_zipIdx_iff_getElem?.mp hmem, O, hO, .load ht⟩
    · exact ⟨x.2, x.1, mem_zipIdx_iff_getElem?.mp hmem, O, hO, .store ht⟩
  · rintro ⟨n, k, hk, O, hO, hlink⟩
    have hmem : (k, n) ∈ s.copies.zipIdx := mem_zipIdx_iff_getElem?.mpr hk
    cases hlink with
    | load ht => exact .inl ⟨(k, n), hmem, rfl, O, hO, _, ht, rfl⟩
    | store ht => exact .inr ⟨(k, n), hmem, rfl, O, hO, _, ht, rfl⟩

end Copies

namespace Act

section Watching

variable {g : Setup} {s : State} (hs : s.Wf g)

include hs

theorem adds_violation (a b : String) : Adds g (violation a b) s ∅ 0 fun _ _ => True :=
  ⟨⟨⟩, _, rfl, grows_of_like hs rfl rfl rfl ⟨rfl, rfl, rfl, rfl, rfl, rfl, rfl⟩, trivial⟩

theorem adds_checkMethod (m : CMethodId) : Adds g (checkMethod m) s ∅ 0 fun _ _ => True := by
  have hmodify : ∀ s' : State, s'.Wf g → Adds g (modify fun s => { s with
      checker := { s.checker with methodsIn := m :: s.checker.methodsIn } }) s' ∅ 0
      fun _ _ => True := fun s' hs' =>
    ⟨⟨⟩, _, rfl, grows_of_like hs' rfl rfl rfl ⟨rfl, rfl, rfl, rfl, rfl, rfl, rfl⟩, trivial⟩
  refine Adds.get_bind ?_
  dsimp only
  split
  · exact (adds_violation hs _ _).bind_nothing fun _ s' hg _ => hmodify s' hg.wf
  · exact hmodify s hs

theorem adds_checkVariable (c : CtxId) (v : Var) :
    Adds g (checkVariable g c v) s ∅ 0 fun _ _ => True := by
  have hguard : ∀ {b : Prop} [Decidable b] {x y : String} {s' : State}, s'.Wf g →
      Adds g (if b then violation x y else Pure.pure ()) s' ∅ 0 fun _ _ => True := by
    intro b _ x y s' hs'
    split
    · exact adds_violation hs' x y
    · exact .pure hs' trivial
  refine Adds.get_bind ?_
  dsimp only
  split
  · split
    · exact (adds_violation hs _ _).bind_nothing fun _ s' hg _ => hguard hg.wf
    · exact hguard hs
  · exact .pure hs trivial

/-- The checker adds no facts. -/
theorem adds_check {e : Event} (he : e.Means s.registry) :
    Adds g (check g e) s ∅ 0 fun _ _ => True := by
  cases e with
  | method m =>
    exact ⟨⟨⟩, _, rfl, grows_of_like hs rfl rfl rfl ⟨rfl, rfl, rfl, rfl, rfl, rfl, rfl⟩, trivial⟩
  | methodIn m => exact adds_checkMethod hs m
  | grown p delta =>
    obtain ⟨⟨C, v, x, hx, hxP⟩, -⟩ := he
    cases hxP with
    | var v hC =>
      refine Adds.get_bind ?_
      rw [hx]
      exact adds_checkVariable hs _ v
  | _ => exact .pure hs trivial

theorem adds_count (e : Event) : Adds g (count e) s ∅ 0 fun _ _ => True :=
  ⟨⟨⟩, _, rfl, grows_of_like hs rfl rfl rfl ⟨rfl, rfl, rfl, rfl, rfl, rfl, rfl⟩, trivial⟩

theorem adds_record (lead : String) (e : Event) :
    Adds g (record g lead false e) s ∅ 0 fun ts _ => ts = [] :=
  ⟨_, _, rfl, grows_of_like hs rfl rfl rfl ⟨rfl, rfl, rfl, rfl, rfl, rfl, rfl⟩, rfl⟩

end Watching

end Act

/-! ### Reactions -/

/-- No observer acts on a script. -/
def Setup.Unscripted (g : Setup) : Prop :=
  ∀ lead, .recorder lead true ∉ g.observers

section Reactions

variable {g : Setup} {s : State} (hs : s.Wf g)

include hs

/-- The entry methods are brought. -/
theorem effect_enter (implicit : Bool) :
    ∃ ts s', Act.enter g implicit s = .ok ts s' ∧
      Effect g {f | (Observer.entryPoints implicit).Brings g s.registry .start f} 0
        ((Observer.entryPoints implicit).weight g .start + 1) s ts s' := by
  refine ⟨_, s, rfl, (Grows.refl hs).effect hs ?_ (Set.empty_subset _) ?_ ?_ ?_
    (.append (.of_none (by simp)) (orderly_arguments _))⟩
  · intro f _ hf
    cases hf with
    | entry hf =>
      cases hf with
      | entry hm =>
        exact .inr ⟨_, mem_append_left _ (mem_map.mpr ⟨_, hm, rfl⟩), .entry _⟩
      | args hm hf =>
        exact .inr ⟨_, mem_append_right _ (mem_map.mpr ⟨_, hm, rfl⟩), .arguments hf⟩
  · intro D hX t ht
    rcases mem_append.mp ht with ht | ht
    · obtain ⟨m, hm, rfl⟩ := mem_map.mp ht
      refine ⟨trivial, fun f hf => ?_⟩
      cases hf
      exact hX _ (.entry (.entry hm))
    · obtain ⟨m, hm, rfl⟩ := mem_map.mp ht
      refine ⟨trivial, fun f hf => ?_⟩
      cases hf with
      | arguments hf => exact hX _ (.entry (.args hm hf))
  · refine Nat.le_of_eq (announcements_eq_zero fun t ht => ?_)
    rcases mem_append.mp ht with ht | ht <;>
      · obtain ⟨m, -, rfl⟩ := mem_map.mp ht
        rfl
  · rw [agendaWeight_append, agendaWeight_map (k := 2) fun _ => rfl,
      agendaWeight_map (k := 1) fun _ => rfl]
    simp only [Observer.weight]
    omega

theorem effect_initializations (m : MethodId) :
    Effect g {f | Observer.classInit.Brings g s.registry (.method m) f} 1
      (Observer.classInit.weight g (.method m) + 1) s (g.program.initializations m) s := by
  refine (Grows.refl hs).effect hs ?_ (Set.empty_subset _) ?_ ?_ ?_ (.of_none fun n hn => ?_)
  · intro f _ hf
    cases hf with
    | init hd hc hk =>
      exact .inr ⟨_, Program.mem_initializations_iff.mpr ⟨_, hd, _, hc, rfl⟩, .initClass hk⟩
  · intro D hX t ht
    obtain ⟨d, hd, c, hc, rfl⟩ := Program.mem_initializations_iff.mp ht
    refine ⟨trivial, fun f hf => ?_⟩
    cases hf with
    | initClass hk => exact hX _ (.init hd hc hk)
  · rw [announcements_eq_zero]
    · exact Nat.zero_le 1
    · intro t ht
      obtain ⟨d, -, c, -, rfl⟩ := Program.mem_initializations_iff.mp ht
      rfl
  · have hlen : agendaWeight g (g.program.initializations m) =
        (g.program.initializations m).length := by
      unfold Program.initializations
      split
      · rw [agendaWeight_map (k := 1) fun _ => rfl, length_map, Nat.mul_one]
      · rfl
    simp only [Observer.weight]
    omega
  · obtain ⟨d, -, c, -, heq⟩ := Program.mem_initializations_iff.mp hn
    cases heq

variable {delta : Objects}

/-- Started threads run when the receiver of the method that starts them grows. -/
theorem effect_threadsGrown (hp : g.program.WellFormed) {p : PtrId}
    (he : (Event.grown p delta).Means s.registry) :
    ∃ s', Act.threadsGrown g p delta s = .ok ⟨⟩ s' ∧
      Effect g {f | Observer.threads.Brings g s.registry (.grown p delta) f} 0
        (delta.toList.length + 1) s [] s' := by
  obtain ⟨⟨C, v, x, hx, hP⟩, hO⟩ := he
  have hP' : s.registry.PtrIs p (.var C v) := ⟨x, hx, hP⟩
  cases hP with
  | var v hC =>
    by_cases h : g.program.hasThreads = true ∧ v = .declared threadStart 0
    · obtain ⟨hthreads, rfl⟩ := h
      obtain ⟨s', hs', heff⟩ := effect_startThreads hs hp hC hP' hO hthreads
      refine ⟨s', ?_, heff⟩
      simp only [Act.threadsGrown, get_bind_eq, hx, hthreads, if_true]
      exact hs'
    · refine ⟨s, ?_, (Grows.refl hs).effect_idle hs ?_⟩
      · by_cases hthreads : g.program.hasThreads = true
        · have hv : v ≠ .declared threadStart 0 := fun hv => h ⟨hthreads, hv⟩
          simp only [Act.threadsGrown, get_bind_eq, hx, hthreads, if_true, hv, if_false]
          rfl
        · simp only [Act.threadsGrown, hthreads]
          rfl
      · intro f hf
        cases hf with
        | start hp' _ _ hthreads | run hp' _ _ hthreads =>
          cases hP'.unique hp'
          exact absurd ⟨hthreads, rfl⟩ h

/-- The copies that a new method makes are taken down, and one observer more has been told of it. -/
theorem effect_copiesReached (hp : g.program.WellFormed) (m : MethodId) :
    ∃ s', Act.copiesReached g m s = .ok ⟨⟩ s' ∧
      Effect g {f | Observer.arrayCopy.Brings g s.registry (.method m) f} 1 1 s [] s' := by
  obtain ⟨l, hrun, hl⟩ := takesDown_copiesReached (s := s) hp m
  have hsteps := steps_copies hs fun k hk => ((hl k).mp hk).2
  refine ⟨_, hrun, hsteps.effect ?_ ?_ (fun f hf => hf.elim) ?_ (.tells Nat.zero_lt_one)
    (.of_none (by simp))⟩
  · exact hsteps.returned (by simp) (by simp)
  · intro f _ hf
    cases hf
  · exact fun _ _ _ => ⟨fun f hf => hf.elim, by simp⟩

theorem effect_copiesGrown (ho : .arrayCopy ∈ g.observers) {p : PtrId}
    (he : (Event.grown p delta).Means s.registry) :
    ∃ s', Act.copiesGrown g p delta s = .ok ⟨⟩ s' ∧
      Effect g {f | Observer.arrayCopy.Brings g s.registry (.grown p delta) f} 0 1 s [] s' := by
  obtain ⟨⟨C, v, x, hx, hP⟩, hO⟩ := he
  have hP' : s.registry.PtrIs p (.var C v) := ⟨x, hx, hP⟩
  cases hP with
  | var v hC =>
    obtain ⟨_, s', hrun, hg, -⟩ := adds_copiesGrown hs hC hx (.of_means hO)
    refine ⟨s', hrun, hg.effect hs (fun f hk hf => ?_) (fun f hf => ?_) (by simp) (by simp)
      (by simp) (.of_none (by simp))⟩
    · cases hf with
      | copy _ _ _ hf => exact absurd hf (hk ho _ _ _)
    · obtain ⟨n, k, hk, O, ⟨o, ho, hoO⟩, hlink⟩ := hf
      exact .copy hP' ho hoO (hlink.copyFact (hs.copied k (mem_of_getElem? hk)))

/-- **The effect of a reaction**: the observer brings what it is to bring. -/
theorem effect_react (hp : g.program.WellFormed) (hscript : g.Unscripted) {e : Event}
    (he : e.Means s.registry) {o : Observer} (ho : o ∈ g.observers) :
    ∃ ts s', Act.react g e o s = .ok ts s' ∧
      Effect g {f | o.Brings g s.registry e f} (Task.notify e [o]).announcing
        (o.weight g e + 1) s ts s' := by
  have hidle : ∀ {o : Observer} {a w}, (∀ f, ¬ o.Brings g s.registry e f) →
      ∃ ts s', (pure [] : Act (List Task)) s = .ok ts s' ∧
        Effect g {f | o.Brings g s.registry e f} a (w + 1) s ts s' :=
    fun h => ⟨[], s, rfl, (Grows.refl hs).effect_idle hs fun f hf => absurd hf (h f)⟩
  cases o with
  | entryPoints b =>
    cases e with
    | start => exact effect_enter hs b
    | _ => exact hidle (by rintro f ⟨⟩)
  | classInit =>
    cases e with
    | method m => exact ⟨_, s, rfl, effect_initializations hs m⟩
    | _ => exact hidle (by rintro f ⟨⟩)
  | threads =>
    cases e with
    | grown p delta =>
      obtain ⟨s', hrun, heff⟩ := effect_threadsGrown hs hp he
      exact ⟨[], s', bind_of_ok hrun, heff⟩
    | methodIn m =>
      obtain ⟨M, hM⟩ := he
      obtain ⟨s', hrun, heff⟩ := effect_threadsReached hs hp hM
      exact ⟨[], s', bind_of_ok hrun, heff⟩
    | _ => exact hidle (by rintro f ⟨⟩)
  | arrayCopy =>
    cases e with
    | method m =>
      obtain ⟨s', hrun, heff⟩ := effect_copiesReached hs hp m
      exact ⟨[], s', bind_of_ok hrun, heff⟩
    | grown p delta =>
      obtain ⟨s', hrun, heff⟩ := effect_copiesGrown hs ho he
      exact ⟨[], s', bind_of_ok hrun, heff⟩
    | _ => exact hidle (by rintro f ⟨⟩)
  | checker =>
    obtain ⟨_, s', hrun, hg, -⟩ := adds_check hs he
    exact ⟨[], s', bind_of_ok hrun, hg.effect_idle hs (by rintro f ⟨⟩)⟩
  | profiler =>
    obtain ⟨_, s', hrun, hg, -⟩ := adds_count hs e
    exact ⟨[], s', bind_of_ok hrun, hg.effect_idle hs (by rintro f ⟨⟩)⟩
  | recorder lead scripted =>
    cases scripted with
    | true => exact absurd ho (hscript lead)
    | false =>
      obtain ⟨ts, s', hrun, hg, rfl⟩ := adds_record hs lead e
      exact ⟨[], s', hrun, hg.effect_idle hs (by rintro f ⟨⟩)⟩

end Reactions

end HeapFlow
