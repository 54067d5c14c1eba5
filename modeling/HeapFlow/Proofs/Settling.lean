import HeapFlow.Proofs.Effects
import HeapFlow.Proofs.Growing

/-!
# Tasks that settle facts

Objects that wait reach their pointer, call edges enter the call graph, methods are reached and
classes initialized. When objects reach a pointer, all that flows from it and all that goes through
it is seen to at once (`effect_deliver`), so that an object that comes before a flow edge and one
that comes after it are treated alike: the former was passed on when the edge was added, the latter
is passed on here.
-/

namespace HeapFlow

open List

namespace WorkList

/-- Lets sets of objects wait for their pointers. -/
def addAll (w : WorkList) (l : List (PtrId × Objects)) : WorkList :=
  l.foldl (fun w x => if x.2.isEmpty then w else w.addObjects x.1 x.2) w

variable {w : WorkList} {l : List (PtrId × Objects)} {q : PtrId} {o : CObjId}

theorem Wf.addAll (hw : w.Wf) : (w.addAll l).Wf := by
  induction l generalizing w with
  | nil => exact hw
  | cons x l ih =>
    rw [WorkList.addAll, foldl_cons]
    split
    · exact ih hw
    · exact ih (addObjects_wf hw x.1 x.2)

/-- What waits after several sets have been added. -/
theorem waits_addAll (hw : w.Wf) :
    (w.addAll l).Waits q o ↔ w.Waits q o ∨ ∃ t, (q, t) ∈ l ∧ o ∈ t := by
  induction l generalizing w with
  | nil => simp [addAll]
  | cons x l ih =>
    obtain ⟨p, t⟩ := x
    rw [addAll, foldl_cons]
    split
    · rename_i hempty
      refine (ih hw).trans (or_congr Iff.rfl ⟨?_, ?_⟩)
      · rintro ⟨u, hu, ho⟩
        exact ⟨u, .tail _ hu, ho⟩
      · rintro ⟨u, hu, ho⟩
        rcases mem_cons.mp hu with heq | hu
        · cases heq
          exact (OrderedSet.not_mem_of_isEmpty hempty o ho).elim
        · exact ⟨u, hu, ho⟩
    · refine (ih (addObjects_wf hw p t)).trans ?_
      rw [waits_addObjects hw, or_assoc]
      refine or_congr Iff.rfl ⟨?_, ?_⟩
      · rintro (⟨rfl, ho⟩ | ⟨u, hu, ho⟩)
        · exact ⟨t, .head _, ho⟩
        · exact ⟨u, .tail _ hu, ho⟩
      · rintro ⟨u, hu, ho⟩
        rcases mem_cons.mp hu with heq | hu
        · cases heq
          exact .inl ⟨rfl, ho⟩
        · exact .inr ⟨u, hu, ho⟩

theorem calls_addAll (w : WorkList) (l : List (PtrId × Objects)) :
    (w.addAll l).calls = w.calls := by
  induction l generalizing w with
  | nil => rfl
  | cons x l ih =>
    rw [addAll, foldl_cons]
    split
    · exact ih w
    · exact (ih _).trans (calls_addObjects w x.1 x.2)

end WorkList

/-! ### Objects reach their pointer -/

namespace State

/-- What happens when objects are handed to transfers one after the other. -/
def handings (g : Setup) : State → List Passage → List Handing
  | _, [] => []
  | s, x :: l => ⟨x, g.passOn s x⟩ :: handings g (s.handed g x) l

/-- The state after objects have reached a pointer, before they flow on. -/
def arrived (s : State) (p : PtrId) (delta : Objects) : State :=
  s.setObjects p ((s.pointsTo p).union delta)

/-- What flows when objects arrive at a pointer: targets, and the objects given to them. -/
def flows (g : Setup) (s : State) (p : PtrId) (delta : Objects) : List (PtrId × Objects) :=
  ((s.arrived p delta).handings g (s.flow.passages p delta)).map fun x => (x.dst, x.given)

/-- The state after objects have reached a pointer and flowed on. -/
def propagated (g : Setup) (s : State) (p : PtrId) (delta : Objects) : State :=
  { s.arrived p delta with
    passed := ((s.arrived p delta).handings g (s.flow.passages p delta)).reverse ++ s.passed
    work := s.work.addAll (s.flows g p delta) }

variable {g : Setup} {s : State} {p q : PtrId} {delta u : Objects}

theorem calls_handed (x : Passage) : (s.handed g x).work.calls = s.work.calls :=
  WorkList.calls_addAll s.work [(x.dst, g.passOn s x)]

/-- Handing objects over writes it down and lets what is given wait. -/
theorem foldl_handed (s : State) (l : List Passage) :
    l.foldl (handed g) s = { s with
      passed := (s.handings g l).reverse ++ s.passed
      work := s.work.addAll ((s.handings g l).map fun x => (x.dst, x.given)) } := by
  induction l generalizing s with
  | nil => rfl
  | cons x l ih =>
    rw [foldl_cons, ih]
    simp only [handings, reverse_cons, append_assoc]
    rfl

theorem map_handings (s : State) (l : List Passage) :
    (s.handings g l).map Handing.toPassage = l := by
  induction l generalizing s with
  | nil => rfl
  | cons x l ih => rw [handings, map_cons, ih]

/-- Each transfer is applied in a state with the same numbers. -/
theorem given_of_mem_handings {l : List Passage} {x : Handing} (h : x ∈ s.handings g l) :
    ∃ s' : State, s'.registry = s.registry ∧ x.given = g.passOn s' x.toPassage := by
  induction l generalizing s with
  | nil => cases h
  | cons y l ih =>
    rcases mem_cons.mp h with rfl | h
    · exact ⟨s, rfl, rfl⟩
    · exact ih (s := s.handed g y) h

theorem of_mem_flows (h : (q, u) ∈ s.flows g p delta) :
    ∃ k t, s.flow.Joins p q k t ∧ ∃ s' : State, s'.registry = s.registry ∧
      u = g.passOn s' ⟨p, q, k, t, delta⟩ := by
  obtain ⟨⟨⟨a, b, k, t, objs⟩, given⟩, hx, heq⟩ := mem_map.mp h
  obtain ⟨s', hreg, hgiven⟩ := given_of_mem_handings hx
  have hmem := mem_map_of_mem (f := Handing.toPassage) hx
  rw [map_handings] at hmem
  obtain ⟨rfl, rfl, hj⟩ := FlowGraph.mem_passages.mp hmem
  cases heq
  exact ⟨k, t, hj, s', hreg, hgiven⟩

/-- Along every edge something flows. -/
theorem exists_flow {k : FlowKind} {t : Transfer} (hj : s.flow.Joins p q k t) :
    ∃ s' : State, s'.registry = s.registry ∧
      (q, g.passOn s' ⟨p, q, k, t, delta⟩) ∈ s.flows g p delta := by
  have hmem : (⟨p, q, k, t, delta⟩ : Passage) ∈ s.flow.passages p delta :=
    FlowGraph.mem_passages.mpr ⟨rfl, rfl, hj⟩
  rw [← map_handings (g := g) (s.arrived p delta) (s.flow.passages p delta)] at hmem
  obtain ⟨x, hx, hpassage⟩ := mem_map.mp hmem
  obtain ⟨s', hreg, hgiven⟩ := given_of_mem_handings hx
  refine ⟨s', hreg, mem_map.mpr ⟨x, hx, ?_⟩⟩
  rw [hgiven, hpassage]

end State

/-- Propagation hands new objects to all transfers. -/
theorem Act.propagate_apply (g : Setup) (p : PtrId) (t : Objects) (s : State) :
    propagate g p t s = .ok (t.diff (s.pointsTo p))
      (if (t.diff (s.pointsTo p)).isEmpty then s
        else s.propagated g p (t.diff (s.pointsTo p))) := by
  unfold propagate
  change (if (t.diff (s.pointsTo p)).isEmpty = true then _ else _ : Act Objects) s = _
  split
  · rfl
  · exact congrArg _ (State.foldl_handed _ _)

section Objects

variable {g : Setup} {s : State} (hs : s.Wf g) {p : PtrId} {t : Objects} {w : WorkList}
  (hpoll : s.work.poll = some (.objects p t, w))

include hs hpoll in
theorem waits_taken {q : PtrId} {o : CObjId} : s.work.Waits q o ↔ w.Waits q o ∨ q = p ∧ o ∈ t := by
  obtain ⟨-, hmem, hpending, -⟩ := hs.work.of_poll_objects hpoll
  constructor
  · rintro ⟨u, hu, ho⟩
    by_cases hq : q = p
    · subst hq
      rw [hs.work.entry_unique hu hmem] at ho
      exact .inr ⟨rfl, ho⟩
    · exact .inl ⟨u, hpending ▸ mem_filter.mpr ⟨hu, by simpa using hq⟩, ho⟩
  · rintro (⟨u, hu, ho⟩ | ⟨rfl, ho⟩)
    · rw [hpending] at hu
      exact ⟨u, (mem_filter.mp hu).1, ho⟩
    · exact ⟨t, hmem, ho⟩

include hs hpoll in
/-- Objects that their pointer has need not be delivered. -/
theorem steps_taken (hold : ∀ o ∈ t, o ∈ s.pointsTo p) : Steps g ∅ ∅ s { s with work := w } := by
  obtain ⟨hw, -, -, hcalls⟩ := hs.work.of_poll_objects hpoll
  refine (steps_of_notes { s with work := w } (A := ∅) (B := ∅) (N := ∅) (E := ∅) hs hw rfl rfl
    (fun x => (or_iff_left (Set.notMem_empty x)).symm) (fun x hx => .inl ?_) (fun x hx => ?_)
    (by simp) (by simp) (by simp) (by simp) (by simp) (by simp)).shrink (Set.empty_subset _)
    fun _ _ _ f hf => (hf.elim id id).elim
  · cases x with
    | holds q o => exact (waits_taken hs hpoll).mpr (.inl hx)
    | call e =>
      change e ∈ w.calls.toList at hx
      rwa [hcalls] at hx
    | _ => exact hx
  · replace hx := hx.resolve_right (Set.notMem_empty x)
    cases x with
    | holds q o =>
      rcases (waits_taken hs hpoll).mp hx with hx | ⟨rfl, ho⟩
      · exact .inr hx
      · exact .inl (hold o ho)
    | call e =>
      right
      change e ∈ w.calls.toList
      rwa [hcalls]
    | _ => exact hx.elim

/-- The facts that a place holds the objects of a set. -/
def Registry.Held (r : Registry) (P : Place) (delta : Objects) : Set Fact :=
  {f | ∃ o ∈ delta, ∃ O, r.ObjIs o O ∧ f = .holds P O}

theorem notes_propagated {delta : Objects} {x : Note} :
    State.Notes (State.propagated g { s with work := w } p delta) x ↔
      s.Notes x ∨ ∃ o ∈ delta, x = .holds p o := by
  cases x with
  | holds q o =>
    refine (State.mem_pointsTo_setObjects (s := { s with work := w })).trans ?_
    split
    · rename_i hq
      subst hq
      refine OrderedSet.mem_union.trans (or_congr Iff.rfl ⟨fun ho => ⟨o, ho, rfl⟩, ?_⟩)
      rintro ⟨o', ho', heq⟩
      cases heq
      exact ho'
    · rename_i hq
      refine (or_iff_left ?_).symm
      rintro ⟨o', -, heq⟩
      cases heq
      exact hq rfl
  | _ => exact (or_iff_left (by simp)).symm

variable {delta : Objects} (hdelta : ∀ o, o ∈ delta ↔ o ∈ t ∧ ¬ o ∈ s.pointsTo p) {P : Place}
  (hP : s.registry.PtrIs p P)

include hs hP in
/-- Flows from a pointer, in numbers, are flows from its place. -/
theorem flow_of_mem_flows {q : PtrId} {u : Objects}
    (h : (q, u) ∈ State.flows g { s with work := w } p delta) :
    ∃ F : Flow, s.registry.PtrIs q F.dst ∧ F.src = P ∧ s.Settled (.flow F) ∧
      ∃ s' : State, s'.registry = s.registry ∧
        u = g.passOn s' ⟨p, q, F.kind, F.transfer, delta⟩ := by
  obtain ⟨k, tr, hj, s', hreg, hu⟩ := State.of_mem_flows h
  obtain ⟨f, hf⟩ := hs.means (x := .flow p q k tr) (.inl hj)
  cases hf with
  | flow ha hb hk ht =>
    subst hk ht
    exact ⟨_, hb, ha.unique hP, State.settled_flow ha hb hj, s', hreg, hu⟩

include hP in
theorem exists_mem_flows {F : Flow} {o : CObjId} {O : At Obj} (hF : s.Settled (.flow F))
    (hsrc : F.src = P) (ho : o ∈ delta) (hO : s.registry.ObjIs o O) (hpass : F.Passes g.program O) :
    ∃ q u, (q, u) ∈ State.flows g { s with work := w } p delta ∧ o ∈ u ∧
      s.registry.PtrIs q F.dst := by
  obtain ⟨x, hx, hxF⟩ := hF
  cases hxF with
  | flow ha hb hk ht =>
    subst hsrc hk ht
    cases ha.inj hP
    obtain ⟨s', hreg, hmem⟩ := State.exists_flow (s := { s with work := w }) hx
    exact ⟨_, _, hmem, (Act.mem_passOn (s := s') (by rwa [hreg])).mpr ⟨ho, hpass⟩, hb⟩

include hs hpoll hdelta

/-- What has waited waits or is settled when objects have reached their pointer, and what flows on
begins to wait. -/
theorem awaits_propagated {x : Note} (hx : s.Awaits x ∨
      ∃ q u, (q, u) ∈ State.flows g { s with work := w } p delta ∧ ∃ o ∈ u, x = .holds q o) :
    State.Notes (State.propagated g { s with work := w } p delta) x ∨
      State.Awaits (State.propagated g { s with work := w } p delta) x := by
  obtain ⟨hw, -, -, hcalls⟩ := hs.work.of_poll_objects hpoll
  rcases hx with hx | ⟨q, u, hq, o, ho, rfl⟩
  · cases x with
    | holds q o =>
      rcases (waits_taken hs hpoll).mp hx with hx | ⟨rfl, ho⟩
      · exact .inr ((WorkList.waits_addAll hw).mpr (.inl hx))
      · refine .inl (notes_propagated.mpr ?_)
        by_cases hold : o ∈ s.pointsTo q
        · exact .inl hold
        · exact .inr ⟨o, (hdelta o).mpr ⟨ho, hold⟩, rfl⟩
    | call e =>
      right
      change e ∈ (w.addAll _).calls.toList
      rwa [WorkList.calls_addAll, hcalls]
    | _ => exact hx.elim
  · exact .inr ((WorkList.waits_addAll hw).mpr (.inr ⟨u, hq, ho⟩))

include hP

/-- **New objects reach their pointer** and flow on. -/
theorem steps_propagated :
    Steps g ∅ (s.registry.Held P delta) s (State.propagated g { s with work := w } p delta) := by
  obtain ⟨hw, hmem, -, hcalls⟩ := hs.work.of_poll_objects hpoll
  have hwaiting : ∀ o ∈ delta, ∃ O, s.registry.ObjIs o O := by
    intro o ho
    obtain ⟨f, hf⟩ := hs.means (x := .holds p o) (.inr ⟨t, hmem, ((hdelta o).mp ho).1⟩)
    cases hf with
    | holds _ hO => exact ⟨_, hO⟩
  have hheld : ∀ o O, o ∈ delta → s.registry.ObjIs o O → s.Has (.holds P O) :=
    fun o O ho hO => ⟨.holds p o, .inr ⟨t, hmem, ((hdelta o).mp ho).1⟩, .holds hP hO⟩
  -- the new objects are settled, and what flow edges let through of them begins to wait
  have h := steps_of_notes (State.propagated g { s with work := w } p delta)
    (A := {x | ∃ o ∈ delta, x = .holds p o})
    (B := {x | ∃ q u, (q, u) ∈ State.flows g { s with work := w } p delta ∧
      ∃ o ∈ u, x = .holds q o})
    (N := s.registry.Held P delta)
    (E := {f | ∃ F : Flow, s.Settled (.flow F) ∧ F.src = P ∧ ∃ o ∈ delta, ∃ O,
      s.registry.ObjIs o O ∧ F.Passes g.program O ∧ f = .holds F.dst O})
    hs (hw.addAll) rfl rfl (fun x => notes_propagated) ?_
    (fun x hx => awaits_propagated hs hpoll hdelta hx) ?_ ?_ ?_ ?_ ?_ ?_
  · refine h.shrink (Set.empty_subset _) ?_
    rintro D hflow hD - f (⟨o, ho, O, hO, rfl⟩ | ⟨F, hF, rfl, o, ho, O, hO, hpass, rfl⟩)
    · exact hD _ (hheld o O ho hO)
    · exact hflow (hD _ hF.has) (hD _ (hheld o O ho hO)) hpass
  · intro x hx
    cases x with
    | holds q o =>
      rcases (WorkList.waits_addAll hw).mp hx with hx | ⟨u, hq, ho⟩
      · exact .inl ((waits_taken hs hpoll).mpr (.inl hx))
      · exact .inr ⟨q, u, hq, o, ho, rfl⟩
    | call e =>
      change e ∈ (w.addAll _).calls.toList at hx
      rw [WorkList.calls_addAll, hcalls] at hx
      exact .inl hx
    | _ => exact hx.elim
  · rintro x ⟨o, ho, rfl⟩
    obtain ⟨O, hO⟩ := hwaiting o ho
    exact ⟨_, ⟨o, ho, O, hO, rfl⟩, .holds hP hO⟩
  · rintro f ⟨o, ho, O, hO, rfl⟩
    exact ⟨_, ⟨o, ho, rfl⟩, .holds hP hO⟩
  · rintro x ⟨q, u, hq, o, ho, rfl⟩
    obtain ⟨F, hdst, hsrc, hF, s', hreg, rfl⟩ := flow_of_mem_flows hs hP hq
    have hnew := Act.mem_of_mem_passOn ho
    obtain ⟨O, hO⟩ := hwaiting o hnew
    exact ⟨_, ⟨F, hF, hsrc, o, hnew, O, hO,
      ((Act.mem_passOn (s := s') (by rwa [hreg])).mp ho).2, rfl⟩, .holds hdst hO⟩
  · rintro f ⟨F, hF, hsrc, o, ho, O, hO, hpass, rfl⟩
    obtain ⟨q, u, hq, hou, hdst⟩ := exists_mem_flows (w := w) hP hF hsrc ho hO hpass
    exact ⟨_, ⟨q, u, hq, o, hou, rfl⟩, .holds hdst hO⟩
  · rintro F ⟨o, -, O, -, hF⟩
    cases hF
  · rintro F O hF ⟨o, ho, O', hO, heq⟩ hpass
    obtain ⟨hsrc, rfl⟩ := Fact.holds.inj heq
    obtain ⟨q, u, hq, hou, hdst⟩ := exists_mem_flows (w := w) hP hF hsrc ho hO hpass
    exact ⟨.holds q o, awaits_propagated hs hpoll hdelta (.inr ⟨q, u, hq, o, hou, rfl⟩),
      .holds hdst hO⟩

end Objects

/-! ### A variable has grown -/

section Grown

variable {g : Setup} (hp : g.program.WellFormed) {r : Registry} {p : PtrId} {c : CtxId} {C : Ctx}
  {v : Var} {delta : Objects} (hC : r.CtxIs c C) (hP : r.PtrIs p (.var C v))
  (hmeans : ∀ o ∈ delta, ∃ O, r.ObjIs o O) {m : MethodId} {d : Method}

include hp in
theorem takesReceiver_body {i : Nat} {k : Call} {x : Slot} (hd : g.program.method? m = some d)
    (hi : d.body[i]? = some (.invoke k)) (hk : k.receiver = some x) :
    g.program.TakesReceiver (.body m i) := by
  intro k' hk'
  cases Option.some.inj ((Program.call?_body hd hi).symm.trans hk')
  exact (hp.stmtOk hd (mem_of_getElem? hi)).2 (by rw [hk]; rfl)

variable (ht : g.Translates v.method) {S D : Fact → Prop} (hS : StableOn g S D)
  (hD : ∀ o ∈ delta, ∀ O, r.ObjIs o O → S (.holds (.var C v) O) ∧ D (.holds (.var C v) O))

include ht hC hmeans hS hD

include hp in
theorem supported_receive {x : Slot} {i : Nat} {k : Call} (hv : v = .declared m x)
    (hd : g.program.method? m = some d) (hi : d.body[i]? = some (.invoke k))
    (hk : k.receiver = some x) : (Task.receive c (.body m i) delta.toList).Supported g D r := by
  subst hv
  refine ⟨⟨⟨C, hC⟩, hmeans, takesReceiver_body hp hd hi hk⟩, fun f hf => ?_⟩
  cases hf with
  | receive hC' ho hO hk' hn hf =>
    cases hC.unique hC'
    cases Option.some.inj ((Program.call?_body hd hi).symm.trans hk')
    obtain ⟨hset, hin⟩ := hD _ ho _ hO
    exact hS.follow hset hin (.use ht (.call hd hi hk hn hf))

omit hC in
include hP in
theorem supported_grown : (Task.notify (.grown p delta) g.observers).Supported g D r := by
  refine Task.supported_notify ⟨⟨C, v, hP⟩, hmeans⟩ fun o hobs f hf => ?_
  cases hf with
  | start hp' ho hO h =>
    cases hP.unique hp'
    obtain ⟨hset, hin⟩ := hD _ ho _ hO
    exact hS.follow hset hin (.use ht (.start hobs h))
  | run hp' ho hO h hn hf =>
    cases hP.unique hp'
    obtain ⟨hset, hin⟩ := hD _ ho _ hO
    exact hS.follow hset hin (.use ht (.run hobs h hn hf))
  | copy hp' ho hO hf =>
    cases hP.unique hp'
    obtain ⟨hset, hin⟩ := hD _ ho _ hO
    exact hS.copy hobs hset hin ht hf

omit ht hmeans hS hD in
include hP in
/-- What follows when a variable holds an object is a flow, or owed by the calls on the variable or
by the news that it has grown. -/
theorem owed_of_useFact {calls : List Task} {o : CObjId} {O : At Obj} {f : Fact}
    (hcalls : ∀ m d x i k, v = .declared m x → g.program.method? m = some d →
      d.body[i]? = some (.invoke k) → k.receiver = some x →
      .receive c (.body m i) delta.toList ∈ calls)
    (ho : o ∈ delta) (hO : r.ObjIs o O) (hf : UseFact g C O v f) :
    (∃ F, f = .flow F) ∨ Owed g r (calls ++ [.notify (.grown p delta) g.observers]) f := by
  cases hf with
  | store | load | storeElem | loadElem => exact .inl ⟨_, rfl⟩
  | call hd hi hk hn hf =>
    exact .inr ⟨_, mem_append_left _ (hcalls _ _ _ _ _ rfl hd hi hk),
      .receive hC ho hO (Program.call?_body hd hi) hn hf⟩
  | start ht hp =>
    exact .inr ⟨_, mem_append_right _ (mem_singleton_self _), .notify ht (.start hP ho hO hp)⟩
  | run ht hp hn hf =>
    exact .inr ⟨_, mem_append_right _ (mem_singleton_self _), .notify ht (.run hP ho hO hp hn hf)⟩

end Grown

/-! ### Waiting objects -/

section Deliver

variable {g : Setup} {s : State} (hs : s.Wf g) (hp : g.program.WellFormed) {p : PtrId} {t : Objects}
  {w : WorkList} (hpoll : s.work.poll = some (.objects p t, w))

include hs hp hpoll

variable {delta : Objects} {o : CObjId} {O : At Obj}

omit hs hp hpoll in
theorem settles_delivered {P : Place} {E : Set Fact} {s' : State}
    (hdelta : ∀ o, o ∈ delta ↔ o ∈ t ∧ ¬ o ∈ s.pointsTo p) (hP : s.registry.PtrIs p P)
    (ho : o ∈ delta) (hO : s.registry.ObjIs o O)
    (h : Steps g E ∅ (State.propagated g { s with work := w } p delta) s') :
    s'.Settled (.holds P O) ∧ ¬ s.Settled (.holds P O) := by
  constructor
  · refine h.settled (f := .holds P O) ⟨.holds p o, notes_propagated.mpr (.inr ⟨o, ho, rfl⟩), ?_⟩
    exact .holds hP hO
  · intro hold
    exact ((hdelta o).mp ho).2 (State.notes_of_settled (x := .holds p o) (.holds hP hO) hold)

omit hp in
theorem effect_delivered_quiet {P : Place} (hdelta : ∀ o, o ∈ delta ↔ o ∈ t ∧ ¬ o ∈ s.pointsTo p)
    (hP : s.registry.PtrIs p P) (ho : o ∈ delta) (hO : s.registry.ObjIs o O)
    (hquiet : ∀ O f, ¬ Follows g (.holds P O) f) :
    Effect g ∅ 0 0 s [] (State.propagated g { s with work := w } p delta) := by
  have hsteps := steps_propagated hs hpoll hdelta hP
  obtain ⟨hnow, hnew⟩ :=
    settles_delivered hdelta hP ho hO ((Grows.refl hsteps.wf).steps hsteps.wf)
  refine hsteps.effect (hsteps.returned ?_ ?_) (fun f _ hf => hf.elim) ?_
    (fun _ _ _ => ⟨fun f hf => hf.elim, by simp⟩)
    (.settles (f := .holds P O) rfl (by simp) trivial hnow hnew) (.of_none (by simp))
  · rintro O ⟨o, -, O', -, heq⟩
    cases heq
  · rintro C ⟨o, -, O', -, heq⟩
    cases heq
  · rintro f ⟨o, -, O', -, rfl⟩ f' hf'
    exact (hquiet O' f' hf').elim

/-- Objects reach a variable: the statements that go through it concern them. -/
theorem effect_delivered_var {c : CtxId} {C : Ctx} {v : Var}
    (hdelta : ∀ o, o ∈ delta ↔ o ∈ t ∧ ¬ o ∈ s.pointsTo p) (hC : s.registry.CtxIs c C)
    (hP : s.registry.PtrIs p (.var C v)) (ho : o ∈ delta) (hO : s.registry.ObjIs o O)
    (hmeans : ∀ o ∈ delta, ∃ O, s.registry.ObjIs o O) (ht : g.Translates v.method) :
    ∃ ts s', Act.grow g p c v delta (State.propagated g { s with work := w } p delta) = .ok ts s' ∧
      Effect g ∅ 0 0 s ts s' := by
  have hmem := (hs.work.of_poll_objects hpoll).2.1
  have hsteps := steps_propagated hs hpoll hdelta hP
  obtain ⟨ts, s', hrun, hg, calls, rfl, hcall⟩ := Act.adds_grow (p := p) (v := v) hsteps.wf hp
    (hC.mono hsteps.le) (.of_means fun o ho => by
      obtain ⟨O, hO⟩ := hmeans o ho
      exact ⟨O, hO.mono hsteps.le⟩)
  have hle : s.registry ≤ s'.registry := hg.le
  obtain ⟨hnow, hnew⟩ := settles_delivered hdelta hP ho hO (hg.steps hsteps.wf)
  have hboth := hsteps.trans (hg.steps hsteps.wf)
  have hheld : ∀ o ∈ delta, ∀ O, s.registry.ObjIs o O → s.Has (.holds (.var C v) O) :=
    fun o ho O hO => ⟨.holds p o, .inr ⟨t, hmem, ((hdelta o).mp ho).1⟩, .holds hP hO⟩
  have hmeans' : ∀ o ∈ delta, ∃ O, s'.registry.ObjIs o O := by
    intro o ho
    obtain ⟨O, hO⟩ := hmeans o ho
    exact ⟨O, hO.mono hle⟩
  refine ⟨_, s', hrun, hboth.effect (hboth.returned ?_ ?_) (fun f _ hf => hf.elim) ?_ ?_
    (.settles (f := .holds (.var C v) O) hg.same.copies ?_ trivial hnow hnew) (.append ?_ ?_)⟩
  · rintro O (⟨o, -, O', -, heq⟩ | h)
    · cases heq
    · exact h
  · rintro C (⟨o, -, O', -, heq⟩ | h)
    · cases heq
    · exact h
  · rintro f (⟨o, ho, O, hO, rfl⟩ | hf) f' hf'
    · cases hf' with
      | use _ hf' =>
        -- flows are there by now, calls and news are owed
        have hreceive : ∀ m d x i k, v = .declared m x → g.program.method? m = some d →
            d.body[i]? = some (.invoke k) → k.receiver = some x →
            .receive c (.body m i) delta.toList ∈ calls := by
          intro m d x i k hv hd hi hk
          exact (hcall _).mpr ⟨m, d, x, i, k, hv, hd, hi, hk, rfl⟩
        rcases owed_of_useFact (hC.mono hle) (hP.mono hle) hreceive ho (hO.mono hle) hf' with
          ⟨F, rfl⟩ | h
        · exact .inl (hg.adds ⟨F, rfl, O, ⟨o, ho, hO⟩, hf'⟩)
        · exact .inr h
    · exact hf.elim
  · intro D hS hD _
    have hin : ∀ o ∈ delta, ∀ O, s.registry.ObjIs o O →
        s'.Settled (.holds (.var C v) O) ∧ D (.holds (.var C v) O) := fun o ho O hO =>
      ⟨(settles_delivered hdelta hP ho hO (hg.steps hsteps.wf)).1, hD _ (hheld o ho O hO)⟩
    have hin' : ∀ o ∈ delta, ∀ O, s'.registry.ObjIs o O →
        s'.Settled (.holds (.var C v) O) ∧ D (.holds (.var C v) O) := by
      intro o ho O hO
      obtain ⟨O', hO'⟩ := hmeans o ho
      cases (hO'.mono hle).unique hO
      exact hin o ho _ hO'
    refine ⟨?_, fun u hu => ?_⟩
    · rintro f (hf | ⟨F, rfl, O, ⟨o, ho, hO⟩, hf⟩)
      · exact hf.elim
      · obtain ⟨hset, hmem⟩ := hin o ho O hO
        exact hS.follow hset hmem (.use ht hf)
    · rcases mem_append.mp hu with hu | hu
      · obtain ⟨m, d, x, i, k, hv, hd, hi, hk, rfl⟩ := (hcall u).mp hu
        exact supported_receive hp (hC.mono hle) hmeans' ht hS hin' hv hd hi hk
      · rw [mem_singleton.mp hu]
        exact supported_grown (hP.mono hle) hmeans' ht hS hin'
  · rw [announcements_append, announcements_eq_zero]
    · exact Nat.le_refl _
    · intro u hu
      obtain ⟨m, d, x, i, k, -, -, -, -, rfl⟩ := (hcall u).mp hu
      rfl
  · refine .of_none fun m hm => ?_
    obtain ⟨_, d, x, i, k, -, -, -, -, hm⟩ := (hcall _).mp hm
    cases hm
  · exact .of_none (by simp)

/-- **Waiting objects are delivered.** -/
theorem effect_deliver : ∃ ts s', Act.deliver g p t { s with work := w } = .ok ts s' ∧
    Effect g ∅ 0 0 s ts s' := by
  obtain ⟨-, hmem, hpending, hcalls⟩ := hs.work.of_poll_objects hpoll
  obtain ⟨delta, hdelta'⟩ : ∃ delta, delta = t.diff (s.pointsTo p) := ⟨_, rfl⟩
  have hdelta : ∀ o, o ∈ delta ↔ o ∈ t ∧ ¬ o ∈ s.pointsTo p :=
    fun o => hdelta' ▸ OrderedSet.mem_diff
  have hprop := Act.propagate_apply g p t { s with work := w }
  have hsame : t.diff (State.pointsTo { s with work := w } p) = delta := hdelta'.symm
  rw [hsame] at hprop
  rw [Act.deliver, Act.bind_of_ok hprop]
  by_cases hempty : delta.isEmpty = true
  · -- nothing is new: the entry is dropped
    have hold : ∀ o ∈ t, o ∈ s.pointsTo p := by
      intro o ho
      by_contra hnew
      exact OrderedSet.not_mem_of_isEmpty hempty o ((hdelta o).mpr ⟨ho, hnew⟩)
    have hsteps := steps_taken hs hpoll hold
    rw [if_pos hempty, if_pos hempty]
    refine ⟨[], { s with work := w }, rfl, hsteps.effect
      (hsteps.returned (fun _ h => h.elim) fun _ h => h.elim) (fun f _ hf => hf.elim)
      (fun f hf => hf.elim) (fun _ _ _ => ⟨fun f hf => hf.elim, by simp⟩) (.drains rfl ?_ ?_ ?_)
      (.of_none (by simp))⟩
    · simp
    · simp [hcalls]
    · change w.pending.length < _
      rw [hpending, length_filter_lt_length_iff_exists]
      exact ⟨(p, t), hmem, by simp⟩
  -- there are new objects, and they and the pointer mean something
  obtain ⟨o, ho⟩ : ∃ o, o ∈ delta := by
    obtain ⟨o, l, hl⟩ := exists_cons_of_ne_nil
      (fun h : delta.toList = [] => hempty (List.isEmpty_iff.mpr h))
    exact ⟨o, OrderedSet.mem_def.mpr (hl ▸ .head _)⟩
  have hnote : ∀ o ∈ delta, ∃ f, s.registry.NoteIs (.holds p o) f :=
    fun o ho => hs.means (.inr ⟨t, hmem, ((hdelta o).mp ho).1⟩)
  have hmeans : ∀ o ∈ delta, ∃ O, s.registry.ObjIs o O := by
    intro o ho
    obtain ⟨f, hf⟩ := hnote o ho
    cases hf with
    | holds _ hO => exact ⟨_, hO⟩
  obtain ⟨O, hO⟩ := hmeans o ho
  obtain ⟨P, x, hx, hxP⟩ : ∃ P, s.registry.PtrIs p P := by
    obtain ⟨f, hf⟩ := hnote o ho
    cases hf with
    | holds hP _ => exact ⟨_, hP⟩
  have hP : s.registry.PtrIs p P := ⟨x, hx, hxP⟩
  rw [if_neg hempty, if_neg hempty]
  have hx' : (State.propagated g { s with work := w } p delta).registry.pointers.get? p = some x :=
    hx
  rw [Act.get_bind_eq, hx']
  cases hxP with
  | var v hC =>
    dsimp only
    split
    · rename_i hlib
      refine ⟨[], _, rfl, effect_delivered_quiet hs hpoll hdelta hP ho hO ?_⟩
      rintro O f (_ | _ | _ | _ | _ | _ | _ | _ | ⟨ht, -⟩)
      simp only [Bool.and_eq_true, Bool.not_eq_true'] at hlib
      simp [ht hlib.1] at hlib
    · rename_i happ
      refine effect_delivered_var hs hp hpoll hdelta hC hP ho hO hmeans fun honly => ?_
      simpa [honly] using happ
  | field | elems | static =>
    exact ⟨[], _, rfl, effect_delivered_quiet hs hpoll hdelta hP ho hO (by rintro O f ⟨⟩)⟩

end Deliver

end HeapFlow
