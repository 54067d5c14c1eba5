import HeapFlow.Proofs.Observing

/-!
# What tasks do

Every task that can be carried out (`Task.Means`) is carried out without failing, and has an
`Effect`. The one thing this asks for beyond the numbers of the task is that arguments are given in
order. The second part is about the end of a run: waiting work is done until there is none, and what
comes after that makes no more work.
-/

namespace HeapFlow

open List

section Performing

variable {g : Setup} {s : State} (hs : s.Wf g)

theorem Setup.OnlyUnresolved.told {r : Registry} {ts : List Task} (h : g.OnlyUnresolved ts) :
    (∀ {D}, ∀ t ∈ ts, t.Supported g D r) ∧ announcements ts = 0 ∧
      agendaWeight g ts ≤ g.observers.length + 1 ∧ Orderly g r ts := by
  rcases h with rfl | ⟨o, c, i, rfl⟩
  · exact ⟨by simp, rfl, Nat.zero_le _, .of_none (by simp)⟩
  · refine ⟨fun {D} t ht => ?_, rfl, ?_, .of_none (by simp)⟩
    · rw [mem_singleton.mp ht]
      exact Task.supported_notify trivial (by rintro o - f ⟨⟩)
    · rw [agendaWeight_cons, weight_notify_idle fun o => by cases o <;> rfl]
      simp

/-- The effect of an action that adds what a task owes, with at most one call edge, and leaves
nothing to do but to tell of a call without a target. -/
theorem Grows.effect_told {X E : Set Fact} {s s' : State} {ts : List Task} (h : Grows g E 1 s s')
    (hs : s.Wf g) (hX : X = E) (ht : g.OnlyUnresolved ts) :
    Effect g X 0 (g.observers.length + 3) s ts s' := by
  obtain ⟨hsup, hann, hwei, hord⟩ := ht.told (r := s'.registry)
  subst hX
  refine h.effect hs (fun f _ hf => .inl hf) subset_rfl (fun _ => hsup) (by omega) (by omega) hord

include hs

/-- Telling an observer. -/
theorem effect_notify (hp : g.program.WellFormed) (hscript : g.Unscripted) {e : Event}
    {os : List Observer} (ht : (Task.notify e os).Means g s.registry) :
    ∃ ts s', Act.notify g e os s = .ok ts s' ∧
      Effect g {f | (Task.notify e os).Owes g s.registry f} (Task.notify e os).announcing
        ((Task.notify e os).weight g) s ts s' := by
  obtain ⟨hos, he⟩ := ht
  cases os with
  | nil =>
    refine ⟨[], s, rfl, (Grows.refl hs).effect_idle hs ?_⟩
    rintro f ⟨ho, -⟩
    exact absurd ho not_mem_nil
  | cons o os =>
    obtain ⟨ts, s', hrun, heff⟩ := effect_react hs hp hscript he (hos (.head _))
    have hrest : (Task.notify e os).Means g s.registry :=
      ⟨fun o ho => hos (.tail _ ho), he⟩
    refine ⟨ts ++ [.notify e os], s', Act.bind_of_ok hrun, ?_⟩
    have hX : {f | o.Brings g s.registry e f} ∪ {f | (Task.notify e os).Owes g s.registry f} =
        {f | (Task.notify e (o :: os)).Owes g s.registry f} := by
      refine Set.ext fun f => ⟨?_, ?_⟩
      · rintro (hf | ⟨ho, hf⟩)
        · exact .notify (.head _) hf
        · exact .notify (.tail _ ho) hf
      · rintro ⟨ho, hf⟩
        rcases mem_cons.mp ho with rfl | ho
        · exact .inl hf
        · exact .inr (.notify ho hf)
    have ha : (Task.notify e [o]).announcing + (Task.notify e os).announcing =
        (Task.notify e (o :: os)).announcing := by
      cases e <;> simp [Task.announcing, Nat.add_comm]
    have hw : o.weight g e + 1 + (Task.notify e os).weight g =
        (Task.notify e (o :: os)).weight g := by
      simp only [Task.weight, map_cons, sum_cons]
      omega
    rw [← hX, ← ha, ← hw]
    exact heff.append hrest (by simp)

/-- A statement of a reached method. -/
theorem effect_enact (hp : g.program.WellFormed) {m : CMethodId} {M : At MethodId}
    (hM : s.registry.MethodIs m M) (i : Nat) :
    ∃ ts s', Act.perform g (.enact m i) s = .ok ts s' ∧
      Effect g {f | (Task.enact m i).Owes g s.registry f} 0 (g.observers.length + 3) s ts s' := by
  by_cases hbody : ∃ d st, g.program.method? M.item = some d ∧ d.body[i]? = some st
  · obtain ⟨d, st, hd, hst⟩ := hbody
    obtain ⟨ts, s', hrun, hg, hts⟩ := Act.adds_enact hs hp hM hd hst
    refine ⟨ts, s', ?_, hg.effect_told hs (Set.ext fun f => ⟨?_, .enact hM hd hst⟩) hts⟩
    · simp only [Act.perform, Act.get_bind_eq,
        hM.methodId, hd, Program.stmt?, Option.bind_some, hst]
      exact hrun
    · intro hf
      cases hf with
      | enact hM' hd' hst' hf =>
        cases hM.unique hM'
        cases hd.symm.trans hd'
        cases hst.symm.trans hst'
        exact hf
  · refine ⟨[], s, ?_, (Grows.refl hs).effect_idle hs ?_⟩
    · simp only [Act.perform, Act.get_bind_eq, hM.methodId]
      cases hd : g.program.method? M.item with
      | none => rfl
      | some d =>
        have hst : g.program.stmt? M.item i = none := by
          refine Option.eq_none_iff_forall_ne_some.mpr fun st hst => hbody ⟨d, st, hd, ?_⟩
          simpa [Program.stmt?, hd] using hst
        rw [hst]
        rfl
    · intro f hf
      cases hf with
      | enact hM' hd hst hf =>
        cases hM.unique hM'
        exact absurd ⟨_, _, hd, hst⟩ hbody

theorem effect_dispatch {i : CSiteId} {o : CObjId}
    (ht : (Task.dispatch i o).Means g s.registry) :
    ∃ ts s', Act.dispatch g i o s = .ok ts s' ∧
      Effect g {f | (Task.dispatch i o).Owes g s.registry f} 0 (g.observers.length + 3) s ts
        s' := by
  obtain ⟨⟨S, hS, hk⟩, O, hO⟩ := ht
  obtain ⟨ts, s', hrun, hg, hts⟩ := Act.adds_dispatch hs hS hO hk
  refine ⟨ts, s', hrun, hg.effect_told hs (Set.ext fun f => ⟨?_, ?_⟩) hts⟩
  · intro hf
    cases hf with
    | dispatch hS' hO' hk hn hf =>
      cases hS.unique hS'
      cases hO.unique hO'
      exact ⟨_, _, hk, hn, hf⟩
  · rintro ⟨k, n, hk, hn, hf⟩
    exact .dispatch hS hO hk hn hf

theorem effect_receive {c : CtxId} {site : CallSite} {l : List CObjId}
    (ht : (Task.receive c site l).Means g s.registry) :
    ∃ ts s', Act.receive c site l s = .ok ts s' ∧
      Effect g {f | (Task.receive c site l).Owes g s.registry f} 0
        ((Task.receive c site l).weight g) s ts s' := by
  obtain ⟨⟨C, hC⟩, hO, hk⟩ := ht
  obtain ⟨ts, s', hrun, hg, i, hi, rfl⟩ := Act.adds_receive (g := g) hs hC site l
  refine ⟨_, s', hrun, hg.effect hs ?_ (Set.empty_subset _) ?_ ?_ ?_ (.of_none (by simp))⟩
  · intro f _ hf
    cases hf with
    | receive hC' ho hO hk hn hf =>
      cases hC.unique hC'
      exact .inr ⟨_, mem_map.mpr ⟨_, ho, rfl⟩, .dispatch hi (hO.mono hg.le) hk hn hf⟩
  · intro D hX t ht
    obtain ⟨o, ho, rfl⟩ := mem_map.mp ht
    obtain ⟨O, hO⟩ := hO o ho
    refine ⟨⟨⟨_, hi, hk⟩, O, hO.mono hg.le⟩, fun f hf => ?_⟩
    cases hf with
    | dispatch hS' hO' hk hn hf =>
      cases hi.unique hS'
      cases (hO.mono hg.le).unique hO'
      exact hX f (.receive hC ho hO hk hn hf)
  · refine Nat.le_of_eq (announcements_eq_zero fun t ht => ?_)
    obtain ⟨o, -, rfl⟩ := mem_map.mp ht
    rfl
  · rw [agendaWeight_map (f := Task.dispatch i) (k := g.observers.length + 3) fun _ => rfl]
    exact Nat.lt_succ_self _

/-- A call edge. -/
theorem effect_wire (hp : g.program.WellFormed) {e : CCallEdge}
    (ht : (Task.wire e).Means g s.registry) :
    ∃ ts s', Act.wire g e s = .ok ts s' ∧
      Effect g {f | (Task.wire e).Owes g s.registry f} 0 (g.observers.length + 2) s ts s' := by
  obtain ⟨E, hE, hfits⟩ := ht
  obtain ⟨ts, s', hrun, hg, rfl⟩ := Act.adds_wire hs hp hE hfits
  refine ⟨_, s', hrun, hg.effect hs ?_ (fun f hf => .wire hE hf) ?_ (Nat.le_refl 0) ?_
    (.of_none (by simp))⟩
  · intro f _ hf
    cases hf with
    | wire hE' hf =>
      cases hE.unique hE'
      exact .inl hf
  · intro D _ t ht
    rw [mem_singleton.mp ht]
    exact Task.supported_notify trivial (by rintro o - f ⟨⟩)
  · rw [agendaWeight_cons, weight_notify_idle fun o => by cases o <;> rfl]
    simp

theorem effect_arguments (hp : g.program.WellFormed) {m : MethodId}
    (hm : g.program.MayGive s.registry [] m) :
    ∃ s', Act.giveArguments g m s = .ok ⟨⟩ s' ∧
      Effect g {f | (Task.arguments m).Owes g s.registry f} 0 1 s [] s' ∧
      s'.registry.Supplies g.program m := by
  have hmay : ∀ t, g.program.argumentsType? m = some t →
      ∃ n, g.program.argumentsOwner? t = some n ∧ (m = n ∨ s.registry.Provides t n) := by
    intro t ht
    obtain ⟨n, hn, hmn⟩ := hm t ht
    exact ⟨n, hn, hmn.imp_right fun h => h.resolve_right not_mem_nil⟩
  obtain ⟨_, s', hrun, hg, hprov⟩ := Act.adds_giveArguments hs hp hmay
  refine ⟨s', hrun, hg.effect hs ?_ (fun f hf => .arguments hf) (by simp) (Nat.le_refl 0)
    (by simp) (.of_none (by simp)), hprov⟩
  intro f _ hf
  cases hf with
  | arguments hf => exact .inl hf

theorem effect_finish :
    ∃ ts s', Act.perform g .finish s = .ok ts s' ∧
      Effect g {f | Task.finish.Owes g s.registry f} 0 (g.observers.length + 2) s ts s' := by
  have hg : Grows g ∅ 0 s { s with snapshot := some (Snapshot.of s.registry s.calls) } :=
    grows_of_like hs rfl rfl rfl ⟨rfl, rfl, rfl, rfl, rfl, rfl, rfl⟩
  refine ⟨[.notify .finish g.observers], _, rfl, hg.effect hs (by rintro f - ⟨⟩)
    (Set.empty_subset _) ?_ (Nat.le_refl 0) ?_ (.of_none (by simp))⟩
  · intro D _ t ht
    rw [mem_singleton.mp ht]
    exact Task.supported_notify trivial (by rintro o - f ⟨⟩)
  · rw [agendaWeight_cons, weight_notify_idle fun o => by cases o <;> rfl]
    simp

/-- **The effect of a task.** A task whose numbers mean something does not fail, and if it gives
arguments to an entry method, they have been made afterwards. -/
theorem effect_perform (hp : g.program.WellFormed) (hscript : g.Unscripted) {t : Task}
    (ht : t.Means g s.registry)
    (hgive : ∀ m, t = .arguments m → g.program.MayGive s.registry [] m) :
    ∃ ts s', Act.perform g t s = .ok ts s' ∧
      Effect g {f | t.Owes g s.registry f} t.announcing (t.weight g) s ts s' ∧
      ∀ m, t = .arguments m → s'.registry.Supplies g.program m := by
  -- all tasks but one leave the second part without content
  have hother : (∀ m, t ≠ .arguments m) →
      (∃ ts s', Act.perform g t s = .ok ts s' ∧
        Effect g {f | t.Owes g s.registry f} t.announcing (t.weight g) s ts s') →
      ∃ ts s', Act.perform g t s = .ok ts s' ∧
        Effect g {f | t.Owes g s.registry f} t.announcing (t.weight g) s ts s' ∧
        ∀ m, t = .arguments m → s'.registry.Supplies g.program m := by
    rintro hne ⟨ts, s', hrun, heff⟩
    exact ⟨ts, s', hrun, heff, fun m h => absurd h (hne m)⟩
  cases t with
  | notify e os => exact hother nofun (effect_notify hs hp hscript ht)
  | entry m => exact hother nofun (effect_entry hs m)
  | arguments m =>
    obtain ⟨s', hrun, heff, hprov⟩ := effect_arguments hs hp (hgive m rfl)
    refine ⟨[], s', Act.bind_of_ok hrun, heff, fun m' h => ?_⟩
    cases h
    exact hprov
  | reach m =>
    obtain ⟨M, hM⟩ := ht
    obtain ⟨ts, s', hrun, heff⟩ := effect_reach hs hM
    refine hother nofun ⟨ts, s', hrun, heff.congr (Set.ext fun f => ⟨?_, ?_⟩)⟩
    · rintro rfl
      exact .reach hM
    · intro hf
      cases hf with
      | reach hM' => rw [hM.unique hM', Set.mem_singleton_iff]
  | enact m i =>
    obtain ⟨M, hM⟩ := ht
    exact hother nofun (effect_enact hs hp hM i)
  | initClass c => exact hother nofun (effect_initClass hs c)
  | clinit c => exact hother nofun (effect_clinit hs c)
  | receive c site l => exact hother nofun (effect_receive hs ht)
  | dispatch i o => exact hother nofun (effect_dispatch hs ht)
  | wire e => exact hother nofun (effect_wire hs hp ht)
  | op | answer => exact ht.elim
  | drain =>
    obtain ⟨ts, s', hrun, heff, -⟩ := effect_drain hs hp
    exact hother nofun ⟨ts, s', hrun, heff⟩
  | finish => exact hother nofun (effect_finish hs)

end Performing

/-! ### The end of a run -/

section Finishing

variable {g : Setup} {s : State}

/-- Nothing waits: no objects for a pointer, and no call edge. -/
def State.Idle (s : State) : Prop :=
  s.work.pending = [] ∧ s.work.calls.toList = []

theorem State.Idle.settled_of_has (h : s.Idle) {f : Fact} (hf : s.Has f) : s.Settled f := by
  obtain ⟨x, hx | hx, hxf⟩ := hf
  · exact ⟨x, hx, hxf⟩
  · obtain ⟨hpending, hcalls⟩ := h
    cases x with
    | holds p o =>
      obtain ⟨t, ht, -⟩ := hx
      rw [hpending] at ht
      exact absurd ht not_mem_nil
    | call e =>
      change e ∈ s.work.calls.toList at hx
      rw [hcalls] at hx
      exact absurd hx not_mem_nil
    | _ => exact hx.elim

/-- The lists of the result are those of the state. -/
def State.Listed (s : State) : Prop :=
  s.snapshot = some (Snapshot.of s.registry s.calls)

theorem react_finish {o : Observer} (ho : ∀ lead, o ≠ .recorder lead true) :
    ∃ s', Act.react g .finish o s = .ok [] s' ∧ s'.work = s.work ∧ (s.Listed → s'.Listed) := by
  cases o with
  | recorder lead scripted =>
    cases scripted with
    | true => exact absurd rfl (ho lead)
    | false => exact ⟨_, rfl, rfl, id⟩
  | _ => exact ⟨_, rfl, rfl, id⟩

/-- How an agenda ends: there is a task that does the waiting work as long as anything waits. -/
inductive State.Ends (s : State) : List Task → Prop where
  | working (ts : List Task) : Ends s (ts ++ [.drain, .finish])
  | finishing (h : s.Idle) : Ends s [.finish]
  /-- The lists of the result are taken down, and observers are told of the end. -/
  | telling (h : s.Idle) (hlists : s.Listed) (os : List Observer) : Ends s [.notify .finish os]
  | done (h : s.Idle) (hlists : s.Listed) : Ends s []

/-- A task keeps the end of the agenda in order. -/
theorem State.Ends.perform (hs : s.Wf g) (hp : g.program.WellFormed) (hscript : g.Unscripted)
    {t : Task} {ts rest : List Task} {s' : State} (h : s.Ends (t :: rest))
    (ht : t.Means g s.registry) (hrun : Act.perform g t s = .ok ts s') : s'.Ends (ts ++ rest) := by
  generalize hA : t :: rest = A at h
  cases h with
  | working us =>
    cases us with
    | nil =>
      cases hA
      obtain ⟨ts', s'', hrun', -, hshape⟩ := effect_drain hs hp
      cases hrun.symm.trans hrun'
      rcases hshape with ⟨rfl, rfl, hidle⟩ | ⟨us, rfl⟩
      · exact .finishing hidle
      · simpa using State.Ends.working us
    | cons u us =>
      cases hA
      have hassoc := append_assoc ts us [.drain, .finish]
      exact hassoc ▸ State.Ends.working (ts ++ us)
  | finishing hidle =>
    cases hA
    cases hrun
    exact State.Ends.telling (s := { s with snapshot := some (Snapshot.of s.registry s.calls) })
      hidle rfl _
  | telling hidle hlists os =>
    cases hA
    cases os with
    | nil =>
      cases hrun
      exact .done hidle hlists
    | cons o os =>
      have ho : o ∈ g.observers := ht.1 (.head _)
      obtain ⟨s'', hrun', hwork, hsnap⟩ :=
        react_finish (g := g) (s := s) fun lead h => hscript lead (h ▸ ho)
      have hboth : Act.perform g (.notify .finish (o :: os)) s = .ok [.notify .finish os] s'' :=
        Act.bind_of_ok hrun'
      cases hrun.symm.trans hboth
      refine .telling ?_ (hsnap hlists) os
      rwa [State.Idle, hwork]
  | done => cases hA

theorem State.Ends.of_nil (h : s.Ends []) : s.Idle ∧ s.Listed := by
  generalize hA : [] = A at h
  cases h with
  | working us => exact absurd hA (by simp)
  | finishing | telling => cases hA
  | done hidle hlists => exact ⟨hidle, hlists⟩

end Finishing

end HeapFlow
