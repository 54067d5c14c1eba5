import HeapFlow.Proofs.Settling

/-!
# Call edges, methods and classes

A call edge that is new makes its callee reachable; a method that is newly reached has its
statements turned into facts, and observers are told; a class that is initialized for the first time
has its superclass initialized and its initializer reached. In each case one fact is settled, and
what follows from it is left to do. An edge may wait several times, but it counts once.
-/

namespace HeapFlow

open List Act

section Calls

variable {g : Setup} {s : State} (hs : s.Wf g) {e : CCallEdge} {w : WorkList}
  (hpoll : s.work.poll = some (.call e, w))

include hs hpoll

theorem steps_connected {c : CallGraph CSiteId CMethodId} {A : Set Note} {N : Set Fact}
    (hreach : c.reachable = s.calls.reachable)
    (hedges : ∀ x, x ∈ c.edges ↔ x ∈ s.calls.edges ∨ .call x ∈ A) (he : e ∈ c.edges)
    (hA : ∀ x ∈ A, x = .call e) (hN : ∀ x ∈ A, ∃ f ∈ N, s.registry.NoteIs x f)
    (hNA : ∀ f ∈ N, ∃ x ∈ A, s.registry.NoteIs x f) :
    Steps g N N s { s with work := w, calls := c } := by
  obtain ⟨hw, -, hpending, hcalls⟩ := hs.work.of_poll_call hpoll
  have hcall : ∀ f ∈ N, ∃ E, f = .call E := by
    intro f hf
    obtain ⟨x, hx, hxf⟩ := hNA f hf
    cases hA x hx
    cases hxf with
    | call h => exact ⟨_, rfl⟩
  have hnotes : ∀ x, State.Notes { s with work := w, calls := c } x ↔ s.Notes x ∨ x ∈ A := by
    intro x
    cases x with
    | call x => exact hedges x
    | reached m =>
      refine Iff.trans ?_ (or_iff_left fun h => by cases hA _ h).symm
      change m ∈ c.reachable ↔ m ∈ s.calls.reachable
      rw [hreach]
    | _ => exact (or_iff_left fun h => by cases hA _ h).symm
  refine (steps_of_notes { s with work := w, calls := c } (B := ∅) (E := ∅) hs hw rfl rfl hnotes
    (fun x hx => .inl ?_) (fun x hx => ?_) hN hNA (by simp) (by simp) ?_ ?_).shrink
    Set.subset_union_left fun _ _ hN f hf => hf.elim (hN f) fun h => h.elim
  · -- the edge that is taken from the queue is all that does not wait any more
    cases x with
    | holds q o =>
      obtain ⟨t, ht, ho⟩ := hx
      exact ⟨t, hpending ▸ ht, ho⟩
    | call x =>
      change x ∈ s.work.calls.toList
      rw [hcalls]
      exact .tail _ hx
    | _ => exact hx
  · replace hx := hx.resolve_right (Set.notMem_empty x)
    cases x with
    | holds q o =>
      obtain ⟨t, ht, ho⟩ := hx
      exact .inr ⟨t, hpending.symm ▸ ht, ho⟩
    | call x =>
      change x ∈ s.work.calls.toList at hx
      rw [hcalls] at hx
      rcases mem_cons.mp hx with rfl | hx
      · exact .inl he
      · exact .inr hx
    | _ => exact hx.elim
  · intro F hF
    obtain ⟨E, hE⟩ := hcall _ hF
    cases hE
  · intro F O _ hO
    obtain ⟨E, hE⟩ := hcall _ hO
    cases hE

omit hs hpoll in
theorem adds_connected {s : State} (hs : s.Wf g) {E : CallEdge (At CallSite) (At MethodId)}
    (hE : s.registry.EdgeIs e E) (b : Bool) :
    Act.Adds g (if b then do
        let m ← Act.register (·.method (s.registry.siteContext e.site)
          (s.registry.callSite e.site).method)
        Act.setContainer e.site m
        Pure.pure [Task.reach e.callee, Task.wire e]
      else Pure.pure [Task.reach e.callee, Task.wire e]) s ∅ 0
      fun ts _ => ts = [.reach e.callee, .wire e] := by
  refine (Act.Adds.guard (E := ∅) (Q := fun ts _ => ts = [Task.reach e.callee, Task.wire e]) hs
    (fun _ => ?_) rfl).congr (by simp)
  refine (adds_method hs hE.site.ctx _).bind_nothing fun m s₁ hg₁ _ => ?_
  exact (adds_setContainer hg₁.wf e.site m).then_pure fun _ _ _ _ => rfl

/-- **A waiting call edge enters the call graph.** -/
theorem effect_connect :
    ∃ ts s', Act.connect e { s with work := w } = .ok ts s' ∧ Effect g ∅ 0 0 s ts s' := by
  have hcalls := (hs.work.of_poll_call hpoll).2.2.2
  have hwaits : s.Awaits (.call e) := by
    change e ∈ s.work.calls.toList
    rw [hcalls]
    exact .head _
  obtain ⟨E, hE⟩ : ∃ E, s.registry.EdgeIs e E := by
    obtain ⟨f, hf⟩ := hs.means (.inr hwaits)
    cases hf with
    | call h => exact ⟨_, h⟩
  have hsize : s.work.calls.size = w.calls.size + 1 := by
    rw [← Fifo.length_toList, hcalls, length_cons, Fifo.length_toList]
  by_cases hold : e ∈ s.calls.edges
  · -- the edge is there already: the queue is shorter
    have hsteps := steps_connected (c := s.calls) (A := ∅) (N := ∅) hs hpoll rfl
      (by simp) hold (by simp) (by simp) (by simp)
    refine ⟨[], { s with work := w }, ?_, hsteps.effect
      (hsteps.returned (fun _ h => h.elim) fun _ h => h.elim) (fun f _ hf => hf.elim)
      (fun f hf => hf.elim) (fun _ _ _ => ⟨fun f hf => hf.elim, by simp⟩) (.lighter rfl ?_ ?_)
      (.of_none (by simp))⟩
    · simp only [Act.connect, get_bind_eq, set_bind_eq, s.calls.addEdge_of_mem hold]
      rfl
    · simp
    · simp only [agendaWeight_nil]
      omega
  -- it is new: its callee is reached, and its arguments flow
  obtain ⟨c, hadd, hreach, hedges⟩ := s.calls.addEdge_of_not_mem hold
  have hsteps := steps_connected (A := {.call e}) (N := {.call E}) hs hpoll hreach
    (by simpa using hedges) ((hedges e).mpr (.inr rfl)) (by simp)
    (by rintro x rfl; exact ⟨_, rfl, .call hE⟩) (by rintro f rfl; exact ⟨_, rfl, .call hE⟩)
  obtain ⟨_, s', hrun, hg, rfl⟩ := adds_connected hsteps.wf hE (c.container? e.site).isNone
  have hboth := hsteps.trans (hg.steps hsteps.wf)
  have hE' : s'.registry.EdgeIs e E := hE.mono hboth.le
  refine ⟨[.reach e.callee, .wire e], s', ?_, hboth.effect (hboth.returned (by simp) (by simp))
    (fun f _ hf => hf.elim) ?_ ?_
    (.settles (f := .call E) hg.same.copies (Nat.le_refl 0) trivial ?_ ?_) (.of_none (by simp))⟩
  · simp only [Act.connect, get_bind_eq, set_bind_eq, hadd]
    exact hrun
  · rintro f (rfl | hf) f' hf'
    · cases hf' with
      | reach => exact .inr ⟨_, .head _, .reach hE'.callee⟩
      | wire hf' => exact .inr ⟨.wire e, by simp, .wire hE' hf'⟩
    · exact hf.elim
  · intro D hS hD _
    have hcall : D (.call E) := hD _ ⟨.call e, .inr hwaits, .call hE⟩
    have hset : s'.Settled (.call E) := hboth.settles (.inl rfl)
    refine ⟨?_, fun t ht => ?_⟩
    · rintro f (rfl | hf)
      · exact hcall
      · exact hf.elim
    · rcases mem_pair.mp ht with rfl | rfl
      · exact Task.supported_reach hE'.callee (hS.follow hset hcall (.reach E))
      · refine ⟨⟨E, hE', hS.fits hcall⟩, fun f hf => ?_⟩
        cases hf with
        | wire hE'' hf =>
          cases hE'.unique hE''
          exact hS.follow hset hcall (.wire hf)
  · exact hg.settled (f := .call E) ⟨.call e, (hedges e).mpr (.inr rfl), .call hE⟩
  · intro h
    exact hold (State.notes_of_settled (x := .call e) (.call hE) h)

end Calls

/-- **The next piece of waiting work is done**, and if there is any, the rest is left for later. -/
theorem effect_drain {g : Setup} {s : State} (hs : s.Wf g) (hp : g.program.WellFormed) :
    ∃ ts s', Act.drain g s = .ok ts s' ∧
      Effect g {f | Task.drain.Owes g s.registry f} 0 1 s ts s' ∧
      ((ts = [] ∧ s' = s ∧ s.work.pending = [] ∧ s.work.calls.toList = []) ∨
        ∃ us, ts = us ++ [.drain]) := by
  have hlater : ∀ {a : Act (List Task)} {s₀ : State},
      (∃ ts s', a s₀ = .ok ts s' ∧ Effect g ∅ 0 0 s ts s') →
      ∃ ts s', (a >>= fun ts => pure (ts ++ [Task.drain])) s₀ = .ok ts s' ∧
        Effect g {f | Task.drain.Owes g s.registry f} 0 1 s ts s' ∧
        ((ts = [] ∧ s' = s ∧ s.work.pending = [] ∧ s.work.calls.toList = []) ∨
          ∃ us, ts = us ++ [.drain]) := by
    rintro a s₀ ⟨ts, s', h, heff⟩
    refine ⟨ts ++ [.drain], s', (bind_of_ok h).trans rfl, ?_, .inr ⟨ts, rfl⟩⟩
    exact (heff.append (u := .drain) trivial nofun).congr (Set.empty_union _)
  rcases hs.work.poll_cases with ⟨hpoll, hpending, hcalls⟩ | ⟨p, t, w, hpoll, -⟩ | ⟨e, w, hpoll, -⟩
  · refine ⟨[], s, ?_, (Grows.refl hs).effect_idle hs (by rintro f ⟨⟩),
      .inl ⟨rfl, rfl, hpending, hcalls⟩⟩
    simp only [Act.drain, get_bind_eq, hpoll]
    rfl
  · simp only [Act.drain, get_bind_eq, hpoll, set_bind_eq]
    exact hlater (effect_deliver hs hp hpoll)
  · simp only [Act.drain, get_bind_eq, hpoll, set_bind_eq]
    exact hlater (effect_connect hs hpoll)

/-! ### Methods -/

section Methods

variable {g : Setup} {s : State} (hs : s.Wf g) {m : CMethodId} {M : At MethodId}
  (hM : s.registry.MethodIs m M)

include hs hM

variable {c : CallGraph CSiteId CMethodId} {S D : Fact → Prop}

/-- A method is settled as reached, and announced if it is new. -/
theorem steps_reached {l : List MethodId} {K : Set MethodId} (hedges : c.edges = s.calls.edges)
    (hreach : ∀ x, x ∈ c.reachable ↔ x ∈ s.calls.reachable ∨ x = m)
    (hmethods : ∀ x, x ∈ l ↔ x ∈ s.methods ∨ x ∈ K) :
    Steps g ({.reached M} ∪ {f | ∃ x ∈ K, f = .announced x})
      ({.reached M} ∪ {f | ∃ x ∈ K, f = .announced x}) s { s with calls := c, methods := l } := by
  have hnotes : ∀ x, State.Notes { s with calls := c, methods := l } x ↔
      s.Notes x ∨ x ∈ ({.reached m} ∪ {y | ∃ x ∈ K, y = .announced x} : Set Note) := by
    intro x
    cases x with
    | call e =>
      refine Iff.trans ?_ (or_iff_left (by simp)).symm
      change e ∈ c.edges ↔ e ∈ s.calls.edges
      rw [hedges]
    | reached n => simpa [State.Notes] using hreach n
    | announced n => simpa [State.Notes] using hmethods n
    | _ => exact (or_iff_left (by simp)).symm
  refine steps_mark { s with calls := c, methods := l } hs rfl rfl rfl hnotes ?_ ?_ (by simp)
    (by simp)
  · rintro x (rfl | ⟨n, hn, rfl⟩)
    · exact ⟨_, .inl rfl, .reached hM⟩
    · exact ⟨_, .inr ⟨n, hn, rfl⟩, .announced n⟩
  · rintro f (rfl | ⟨n, hn, rfl⟩)
    · exact ⟨_, .inl rfl, .reached hM⟩
    · exact ⟨_, .inr ⟨n, hn, rfl⟩, .announced n⟩

omit hs hM in
theorem enact_mem_statements {d : Method} {i : Nat} {st : Stmt}
    (hd : g.program.method? M.item = some d) (hi : d.body[i]? = some st) :
    .enact m i ∈ (List.range (match g.program.method? M.item with
      | some d => d.body.length
      | none => 0)).map (Task.enact m) := by
  obtain ⟨hlt, -⟩ := List.getElem?_eq_some_iff.mp hi
  exact mem_map.mpr ⟨i, mem_range.mpr (by rw [hd]; exact hlt), rfl⟩

omit hs hM in
theorem supported_method (hS : StableOn g S D) {r : Registry} {n : MethodId}
    (hset : S (.announced n)) (h : D (.announced n)) :
    (Task.notify (.method n) g.observers).Supported g D r := by
  refine Task.supported_notify trivial fun o ho f hf => ?_
  cases hf with
  | init hd hc hk => exact hS.follow hset h (.init ho hd hc hk)

omit hs in
theorem supported_enact (hS : StableOn g S D) {i : Nat} (ht : g.Translates M.item)
    (hset : S (.reached M)) (h : D (.reached M)) : (Task.enact m i).Supported g D s.registry := by
  refine ⟨⟨M, hM⟩, fun f hf => ?_⟩
  cases hf with
  | enact hM' hd hi hf =>
    cases hM.unique hM'
    exact hS.follow hset h (.stmt ht hd hi hf)

omit hs in
theorem supported_methodIn (hS : StableOn g S D) (ht : g.Translates M.item) (hset : S (.reached M))
    (h : D (.reached M)) : (Task.notify (.methodIn m) g.observers).Supported g D s.registry := by
  refine Task.supported_notify ⟨M, hM⟩ fun o ho f hf => ?_
  cases hf with
  | ask hM' hr =>
    cases hM.unique hM'
    exact hS.follow hset h (.ask ho ht hr)

theorem effect_reach_body (hadd : s.calls.addReachable m = (true, c))
    (hedges : c.edges = s.calls.edges)
    (hreach : ∀ x, x ∈ c.reachable ↔ x ∈ s.calls.reachable ∨ x = m)
    (hnew : ¬ s.Settled (.reached M)) (ht : g.Translates M.item) :
    ∃ ts s', Act.reach g m s = .ok ts s' ∧ Effect g {.reached M} 0 1 s ts s' := by
  -- the news of the method, if no context had it before, and the statements of its body
  obtain ⟨told, htold⟩ : ∃ told, told =
      if s.methods.contains M.item then [] else [Task.notify (.method M.item) g.observers] :=
    ⟨_, rfl⟩
  obtain ⟨enacts, henacts⟩ : ∃ enacts, enacts = (List.range (match g.program.method? M.item with
      | some d => d.body.length
      | none => 0)).map (Task.enact m) := ⟨_, rfl⟩
  have hsteps := steps_reached (K := {x | x = M.item ∧ M.item ∉ s.methods})
    (l := if s.methods.contains M.item then s.methods else s.methods ++ [M.item]) hs hM hedges
    hreach (by intro x; by_cases h : M.item ∈ s.methods <;> simp [h])
  have hann : ∀ {s' : State}, s'.methods =
      (if s.methods.contains M.item then s.methods else s.methods ++ [M.item]) →
      s'.Settled (.announced M.item) := by
    intro s' hs'
    refine ⟨.announced M.item, ?_, .announced _⟩
    change M.item ∈ s'.methods
    rw [hs']
    by_cases h : M.item ∈ s.methods <;> simp [h]
  have hnotify : M.item ∉ s.methods → .notify (.method M.item) g.observers ∈ told := by
    intro h
    simp [htold, h]
  refine ⟨told ++ enacts ++ [.notify (.methodIn m) g.observers], _, ?_,
    hsteps.effect (hsteps.returned (by simp) (by simp)) ?_ ?_ ?_ ?_
      (.of_none (by simp [htold, henacts]))⟩
  · have happ : (g.onlyApp && !g.program.isApplication M.item) = false := by
      cases honly : g.onlyApp with
      | false => rfl
      | true => simp [ht honly]
    simp only [Act.reach, get_bind_eq, set_bind_eq, hadd, hM.methodId, happ, htold, henacts]
    rfl
  · rintro f - rfl
    exact .inl (hsteps.adds (.inl rfl))
  · rintro f (rfl | ⟨x, ⟨rfl, hx⟩, rfl⟩) f' hf'
    · cases hf' with
      | announce => exact .inl (hann rfl).has
      | stmt _ hd hi hf' =>
        refine .inr ⟨_, mem_append_left _ (mem_append_right _ ?_), .enact hM hd hi hf'⟩
        exact henacts ▸ enact_mem_statements hd hi
      | ask ho _ h =>
        exact .inr ⟨_, mem_append_right _ (mem_singleton_self _), .notify ho (.ask hM h)⟩
    · cases hf' with
      | init ho hd hc hk =>
        exact .inr ⟨_, mem_append_left _ (mem_append_left _ (hnotify hx)),
          .notify ho (.init hd hc hk)⟩
  · intro D hS _ hX
    have hreached : D (.reached M) := hX _ rfl
    have hannounced : D (.announced M.item) :=
      hS.follow (hsteps.settles (.inl rfl)) hreached (.announce ht)
    refine ⟨?_, fun t htask => ?_⟩
    · rintro f (rfl | ⟨x, ⟨rfl, -⟩, rfl⟩)
      · exact hreached
      · exact hannounced
    · simp only [mem_append, mem_singleton] at htask
      rcases htask with (htask | htask) | rfl
      · rw [htold] at htask
        split at htask
        · cases htask
        · cases mem_singleton.mp htask
          exact supported_method hS (hann rfl) hannounced
      · rw [henacts] at htask
        obtain ⟨i, -, rfl⟩ := mem_map.mp htask
        exact supported_enact hM hS ht (hsteps.settles (.inl rfl)) hreached
      · exact supported_methodIn hM hS ht (hsteps.settles (.inl rfl)) hreached
  · -- a method that is new in every context brings news of itself, which only announcing outweighs
    have henact : announcements enacts = 0 := announcements_eq_zero fun t htask => by
      rw [henacts] at htask
      obtain ⟨i, -, rfl⟩ := mem_map.mp htask
      rfl
    have hlast : announcements [Task.notify (.methodIn m) g.observers] = 0 := rfl
    by_cases hmem : M.item ∈ s.methods
    · have htold' : told = [] := by simp [htold, hmem]
      refine .settles (f := .reached M) rfl ?_ trivial (hsteps.settles (.inl rfl)) hnew
      simp [htold', henact, hlast]
    · have htold' : told = [.notify (.method M.item) g.observers] := by simp [htold, hmem]
      refine .announces (m := M.item) (hann rfl) ?_ ?_
      · rintro ⟨x, hx, hf⟩
        cases hf
        exact hmem hx
      · simp [htold', henact, hlast, Task.announcing]

/-- **A method becomes reachable.** -/
theorem effect_reach :
    ∃ ts s', Act.reach g m s = .ok ts s' ∧ Effect g {.reached M} 0 1 s ts s' := by
  by_cases hold : m ∈ s.calls.reachable
  · refine ⟨[], s, ?_, (Grows.refl hs).effect_idle hs ?_⟩
    · simp only [Act.reach, get_bind_eq, set_bind_eq, s.calls.addReachable_of_mem hold]
      rfl
    · rintro f rfl
      exact ⟨.reached m, .inl hold, .reached hM⟩
  obtain ⟨c, hadd, hedges, hreach⟩ := s.calls.addReachable_of_not_mem hold
  have hnew : ¬ s.Settled (.reached M) :=
    fun h => hold (State.notes_of_settled (x := .reached m) (.reached hM) h)
  by_cases ht : g.Translates M.item
  · exact effect_reach_body hs hM hadd hedges hreach hnew ht
  · -- the body does not count, so nothing follows
    have hlib : g.onlyApp = true ∧ g.program.isApplication M.item = false := by
      simpa [Setup.Translates] using ht
    have hsteps := steps_reached (l := s.methods) (K := ∅) hs hM hedges hreach (by simp)
    refine ⟨[], { s with calls := c }, ?_,
      hsteps.effect (hsteps.returned (by simp) (by simp)) ?_ ?_ ?_
      (.settles (f := .reached M) rfl (by simp) trivial (hsteps.settles (.inl rfl)) hnew)
      (.of_none (by simp))⟩
    · simp only [Act.reach, get_bind_eq, set_bind_eq, hadd, hM.methodId, hlib]
      rfl
    · rintro f - rfl
      exact .inl (hsteps.adds (.inl rfl))
    · rintro f (rfl | ⟨x, hx, -⟩) f' hf'
      · cases hf' with
        | announce ht' | stmt ht' | ask _ ht' => exact (ht ht').elim
      · exact hx.elim
    · intro D _ _ hX
      refine ⟨?_, by simp⟩
      rintro f (rfl | ⟨x, hx, -⟩)
      · exact hX _ rfl
      · exact hx.elim

end Methods

/-! ### Classes and entry methods -/

section Classes

variable {g : Setup} {s : State} (hs : s.Wf g)

include hs

theorem steps_initialized (c : String) :
    Steps g {.initialized c} {.initialized c} s { s with initialized := s.initialized ++ [c] } := by
  have hnotes : ∀ x, State.Notes { s with initialized := s.initialized ++ [c] } x ↔
      s.Notes x ∨ x ∈ ({.initialized c} : Set Note) := by
    intro x
    cases x with
    | initialized c' => simp [State.Notes]
    | _ => exact (or_iff_left (by simp)).symm
  refine steps_mark { s with initialized := s.initialized ++ [c] } hs rfl rfl rfl hnotes ?_ ?_
    (by simp) (by simp)
  · rintro x rfl
    exact ⟨_, rfl, .initialized c⟩
  · rintro f rfl
    exact ⟨_, rfl, .initialized c⟩

omit hs in
/-- A class is initialized already or does not exist, or it is taken down; then its superclass and
its initializer are left to do. -/
theorem Act.initClass_cases {c : String} {ts : List Task} {s' : State}
    (h : Act.initClass g c s = .ok ts s') :
    ts = [] ∧ s' = s ∨ ∃ k above, g.program.class? c = some k ∧ c ∉ s.initialized ∧
      s' = { s with initialized := s.initialized ++ [c] } ∧
      ts = .notify (.initialized c) g.observers :: above ++ [.clinit c] ∧
      ∀ t ∈ above, ∃ u, k.super = some u ∧ t = .initClass u := by
  simp only [Act.initClass, get_bind_eq] at h
  cases hk : g.program.class? c with
  | none =>
    simp only [hk] at h
    cases h
    exact .inl ⟨rfl, rfl⟩
  | some k =>
    simp only [hk] at h
    split at h
    · cases h
      exact .inl ⟨rfl, rfl⟩
    · rename_i hnew
      cases h
      refine .inr ⟨k, _, rfl, by simpa using hnew, rfl, rfl, fun t ht => ?_⟩
      split at ht
      · exact ⟨_, by assumption, mem_singleton.mp ht⟩
      · cases ht

/-- **A class is initialized.** -/
theorem effect_initClass (c : String) :
    ∃ ts s', Act.initClass g c s = .ok ts s' ∧
      Effect g {f | (Task.initClass c).Owes g s.registry f} 0 1 s ts s' := by
  cases hk : g.program.class? c with
  | none =>
    refine ⟨[], s, ?_, (Grows.refl hs).effect_idle hs ?_⟩
    · simp only [Act.initClass, get_bind_eq, hk]
      rfl
    · rintro f ⟨⟩
      simp_all
  | some k =>
    by_cases hold : c ∈ s.initialized
    · refine ⟨[], s, ?_, (Grows.refl hs).effect_idle hs ?_⟩
      · simp only [Act.initClass, get_bind_eq, hk]
        rw [if_pos (by simpa using hold)]
        rfl
      · rintro f ⟨⟩
        exact ⟨.initialized c, .inl hold, .initialized c⟩
    -- the superclass and the initializer are left to do
    obtain ⟨above, habove⟩ : ∃ above : List Task, above = (k.super.map .initClass).toList :=
      ⟨_, rfl⟩
    have hmem : ∀ t, t ∈ above ↔ ∃ u, k.super = some u ∧ t = .initClass u := by
      intro t
      rw [habove]
      cases k.super <;> simp
    have hsteps := steps_initialized hs c
    refine ⟨.notify (.initialized c) g.observers :: above ++ [.clinit c], _, ?_,
      hsteps.effect (hsteps.returned (by simp) (by simp)) ?_ ?_ ?_
      (.settles (f := .initialized c) rfl ?_ trivial (hsteps.settles rfl) ?_)
      (.of_none (by simp [hmem]))⟩
    · simp only [Act.initClass, get_bind_eq, hk]
      rw [if_neg (by simpa using hold), habove]
      cases k.super <;> rfl
    · rintro f - ⟨⟩
      exact .inl (hsteps.adds rfl)
    · rintro f rfl f' hf'
      cases hf' with
      | super hc hu hk' =>
        cases hk.symm.trans hc
        exact .inr ⟨_, mem_append_left _ (.tail _ ((hmem _).mpr ⟨_, hu, rfl⟩)), .initClass hk'⟩
      | clinit hc hd =>
        exact .inr ⟨_, mem_append_right _ (mem_singleton_self _), .clinit hc hd⟩
    · intro D hS _ hX
      have hinit : D (.initialized c) := hX _ (.initClass (by rw [hk]; rfl))
      have hset := hsteps.settles (f := .initialized c) rfl
      refine ⟨by rintro f rfl; exact hinit, fun t ht => ?_⟩
      rw [mem_between, hmem] at ht
      rcases ht with rfl | ⟨u, hu, rfl⟩ | rfl
      · exact Task.supported_notify trivial (by rintro o - f ⟨⟩)
      · refine ⟨trivial, fun f hf => ?_⟩
        cases hf with
        | initClass hk' => exact hS.follow hset hinit (.super hk hu hk')
      · refine ⟨trivial, fun f hf => ?_⟩
        cases hf with
        | clinit hc hd => exact hS.follow hset hinit (.clinit hc hd)
    · have habove' : announcements above = 0 := announcements_eq_zero fun t ht => by
        obtain ⟨u, -, rfl⟩ := (hmem t).mp ht
        rfl
      simp [habove', Task.announcing]
    · rintro ⟨x, hx, hf⟩
      cases hf
      exact hold hx

theorem effect_entry (m : MethodId) :
    ∃ ts s', Act.entry m s = .ok ts s' ∧
      Effect g {f | (Task.entry m).Owes g s.registry f} 0 2 s ts s' := by
  obtain ⟨i, s₁, h₁, hg₁, hi⟩ := adds_method hs (Registry.ctxIs_empty _) m
  have hg₂ : Grows g ∅ 0 s₁ { s₁ with calls := s₁.calls.addEntry i } :=
    grows_of_like hg₁.wf rfl rfl rfl
      ⟨rfl, CallGraph.edges_addEntry .., CallGraph.reachable_addEntry .., rfl, rfl, rfl, rfl⟩
  refine ⟨[.reach i], _, (bind_of_ok h₁).trans rfl, (hg₁.trans hg₂).effect hs ?_
    (fun f hf => hf.elim id id |>.elim) ?_ (Nat.le_refl 0) (Nat.le_refl 2)
    (.of_none (by simp))⟩
  · rintro f - ⟨⟩
    exact .inr ⟨_, mem_singleton_self _, .reach hi⟩
  · intro D hX t ht
    cases mem_singleton.mp ht
    exact Task.supported_reach hi (hX _ (.entry m))

/-- Its initializer is reached. -/
theorem effect_clinit (c : String) :
    ∃ ts s', Act.clinit g c s = .ok ts s' ∧
      Effect g {f | (Task.clinit c).Owes g s.registry f} 0 2 s ts s' := by
  cases hd : (g.program.class? c).bind Class.clinit? with
  | none =>
    refine ⟨[], s, ?_, (Grows.refl hs).effect_idle hs ?_⟩
    · simp only [Act.clinit, hd]
      rfl
    · rintro f ⟨⟩
      simp_all
  | some d =>
    obtain ⟨k, hk, hkd⟩ := Option.bind_eq_some_iff.mp hd
    obtain ⟨i, s₁, h₁, hg₁, hi⟩ := adds_method hs (Registry.ctxIs_empty _) d.id
    refine ⟨[.reach i], s₁, ?_, hg₁.effect hs ?_ (Set.empty_subset _) ?_ (Nat.le_refl 0)
      (Nat.le_refl 2) (.of_none (by simp))⟩
    · simp only [Act.clinit, hd]
      exact (bind_of_ok h₁).trans rfl
    · intro f _ hf
      cases hf with
      | clinit hc hd' =>
        cases hk.symm.trans hc
        cases hkd.symm.trans hd'
        exact .inr ⟨_, mem_singleton_self _, .reach hi⟩
    · intro D hX t ht
      cases mem_singleton.mp ht
      exact Task.supported_reach hi (hX _ (.clinit hk hkd))

end Classes

end HeapFlow
