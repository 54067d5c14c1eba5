import HeapFlow.Proofs.Agenda

/-!
# News

News that is on the agenda is true (`Machine.Truthful`). And news is not lost: what an observer has
to be told of stays pending until it is told (`Machine.Performs.pending`), and a task that makes
something happen puts the news of it on the agenda. What an observer remembers changes only when it
is told.
-/

namespace HeapFlow

open List

section Memory

variable {g : Setup} {mem : Observer → Prop} {s s' : State}

theorem Change.memory (h : Change g mem s s') :
    (¬ mem .checker → s'.checker = s.checker) ∧ (¬ mem .arrayCopy → s'.copies = s.copies) := by
  cases h with
  | registry | objects | call | threads => exact ⟨fun _ => rfl, fun _ => rfl⟩
  | flow =>
    unfold State.joined
    split <;> exact ⟨fun _ => rfl, fun _ => rfl⟩
  | other h => exact ⟨h.checker, h.copies⟩

theorem Changes.memory (h : Changes g mem s s') :
    (¬ mem .checker → s'.checker = s.checker) ∧ (¬ mem .arrayCopy → s'.copies = s.copies) := by
  induction h with
  | refl => exact ⟨fun _ => rfl, fun _ => rfl⟩
  | tail _ h ih =>
    exact ⟨fun hm => (h.memory.1 hm).trans (ih.1 hm), fun hm => (h.memory.2 hm).trans (ih.2 hm)⟩

theorem State.memory_delivered (g : Setup) (s : State) (p : PtrId) (t : Objects) :
    (s.delivered g p t).checker = s.checker ∧ (s.delivered g p t).copies = s.copies := by
  unfold delivered
  split <;> exact ⟨rfl, rfl⟩

variable {r : Option (List Task)} {t : Task}

/-- What an observer remembers changes only when it is told. -/
theorem Outcome.memory (h : Outcome g s t r s') :
    (¬ t.Tells .checker → s'.checker = s.checker) ∧
      (¬ t.Tells .arrayCopy → s'.copies = s.copies) := by
  cases h with
  | routine _ hc | tell hc | wire hc => exact hc.memory
  | told | again | skip | reach | idle | known => exact ⟨fun _ => rfl, fun _ => rfl⟩
  | @deliver p u w =>
    exact (State.memory_delivered g { s with work := w } p u).imp (fun h _ => h) fun h _ => h
  | @grow p u w _ _ _ _ _ _ _ _ hc =>
    obtain ⟨hchecker, hcopies⟩ := State.memory_delivered g { s with work := w } p u
    exact ⟨fun _ => (hc.memory.1 id).trans hchecker, fun _ => (hc.memory.2 id).trans hcopies⟩
  | connect _ _ hc => exact ⟨fun _ => hc.memory.1 id, fun _ => hc.memory.2 id⟩

end Memory

/-- **Where news comes from**: the task that leaves it tells an observer of the same event, or it is
the one by which the event happens. -/
inductive Event.Arises (g : Setup) (s : State) : Task → List Observer → Event → Prop where
  | again {e : Event} (o : Observer) (os : List Observer) : Arises g s (.notify e (o :: os)) os e
  /-- The event is not counted. If a class is initialized, the task is there for it. -/
  | quiet (t : Task) {e : Event} (h : e.Quiet)
      (hinit : ∀ c, e = .initialized c → t = .initClass c) : Arises g s t g.observers e
  | method {m : CMethodId} (hm : m ∉ s.calls.reachable)
      (ht : g.Translates (s.registry.methodId m)) (hnew : s.registry.methodId m ∉ s.methods) :
      Arises g s (.reach m) g.observers (.method (s.registry.methodId m))
  | methodIn {m : CMethodId} (hm : m ∉ s.calls.reachable)
      (ht : g.Translates (s.registry.methodId m)) :
      Arises g s (.reach m) g.observers (.methodIn m)
  | call (e : CCallEdge) : Arises g s (.wire e) g.observers (.call e)
  | grown (p : PtrId) (delta : Objects) : Arises g s .drain g.observers (.grown p delta)

section Arises

variable {g : Setup} {s s' : State} {t : Task} {ts : List Task} {os : List Observer} {e : Event}

theorem Setup.OnlyUnresolved.arises (h : g.OnlyUnresolved ts) (hmem : .notify e os ∈ ts) :
    e.Arises g s t os := by
  rcases h with rfl | ⟨o, c, i, rfl⟩
  · cases hmem
  · cases mem_singleton.mp hmem
    exact .quiet t trivial (by simp)

/-- So does all news that a task leaves. -/
theorem Task.Leaves.arises (h : t.Leaves g s s' ts) (hmem : .notify e os ∈ ts) :
    e.Arises g s t os := by
  cases h with
  | told | arguments | again | initialized | blank | idle => cases hmem
  | enter b os' =>
    simp only [mem_append, mem_map, mem_singleton] at hmem
    rcases hmem with (⟨m, -, h⟩ | ⟨m, -, h⟩) | h <;> cases h
    exact .again _ _
  | init m os' =>
    rcases mem_append.mp hmem with hmem | hmem
    · obtain ⟨d, -, c, -, h⟩ := Program.mem_initializations_iff.mp hmem
      cases h
    · cases mem_singleton.mp hmem
      exact .again _ _
  | deliver | entry | clinit => cases mem_singleton.mp hmem
  | tell =>
    cases mem_singleton.mp hmem
    exact .again _ _
  | finish =>
    cases mem_singleton.mp hmem
    exact .quiet _ trivial (by simp)
  | wire e =>
    cases mem_singleton.mp hmem
    exact .call e
  | reach hm ht =>
    rcases g.mem_bodyTasks hmem with ⟨hnew, h⟩ | ⟨i, h⟩ | h
    · cases h
      exact .method hm ht hnew
    · cases h
    · cases h
      exact .methodIn hm ht
  | enact _ _ h | dispatch _ _ h => exact h.arises hmem
  | initClass c h =>
    rcases mem_between.mp hmem with heq | hmem | heq
    · cases heq
      exact .quiet _ trivial (by simp)
    · obtain ⟨b, h⟩ := h _ hmem
      cases h
    · cases heq
  | receive c site l i =>
    obtain ⟨o, -, h⟩ := mem_map.mp hmem
    cases h
  | @grow p delta us hus =>
    rcases mem_append.mp hmem with hmem | hmem
    · obtain ⟨c, i, l, h⟩ := hus _ hmem
      cases h
    · rcases mem_pair.mp hmem with heq | heq <;> cases heq
      exact .grown p delta
  | connect =>
    rcases mem_triple.mp hmem with heq | heq | heq <;> cases heq

theorem Task.Leaves.next {o : Observer} (h : (Task.notify e (o :: os)).Leaves g s s' ts) :
    .notify e os ∈ ts := by
  cases h with
  | enter | init | tell => simp

end Arises

/-! ### News is true -/

/-- An event has happened. -/
def State.Saw (g : Setup) (s : State) : Event → Prop
  | .method id => id ∈ s.methods
  | .methodIn m => m ∈ s.calls.reachable ∧ g.Translates (s.registry.methodId m)
  | .grown p delta =>
      (∃ c v, s.registry.pointers.get? p = some (.var c v) ∧ g.Translates v.method) ∧
        ∀ o ∈ delta, o ∈ s.pointsTo p
  | _ => True

namespace Machine

variable {g : Setup} {m : Machine} {t : Task} {rest ts : List Task} {s' : State}

/-- **News on the agenda is true.** -/
def Truthful (g : Setup) (m : Machine) : Prop :=
  ∀ {e os}, .notify e os ∈ m.agenda → m.state.Saw g e

/-- An observer is still to be told of an event. -/
def Pending (m : Machine) (e : Event) (o : Observer) : Prop :=
  ∃ os, .notify e os ∈ m.agenda ∧ o ∈ os

variable {o : Observer}

theorem pending_of_mem {e : Event} (ho : o ∈ g.observers) (h : .notify e g.observers ∈ ts) :
    Pending { state := s', agenda := ts ++ rest } e o :=
  ⟨g.observers, mem_append_left _ h, ho⟩

/-- When waiting work is taken up, no news is pending. -/
theorem Steady.not_pending (h : m.Steady g) (hA : m.agenda = .drain :: rest) {e : Event} :
    ¬ m.Pending e o := by
  rintro ⟨os, hmem, -⟩
  rw [hA, h.drain_last hA] at hmem
  simp at hmem

section Step

variable (hp : m.Performs g t rest ts s')

include hp

/-- News stays pending until it is told. -/
theorem Performs.pending {e : Event} {o : Observer} (h : m.Pending e o) :
    (∃ os, t = .notify e (o :: os)) ∨ Pending { state := s', agenda := ts ++ rest } e o := by
  obtain ⟨os, hmem, ho⟩ := h
  rw [hp.agenda] at hmem
  rcases mem_cons.mp hmem with rfl | hmem
  · cases os with
    | nil => cases ho
    | cons o' os =>
      rcases mem_cons.mp ho with rfl | ho
      · exact .inl ⟨os, rfl⟩
      · exact .inr ⟨os, mem_append_left _ hp.leaves.next, ho⟩
  · exact .inr ⟨os, mem_append_right _ hmem, ho⟩

/-- A method that is new is told. -/
theorem Performs.methods {id : MethodId} (h : id ∈ s'.methods) :
    id ∈ m.state.methods ∨ .notify (.method id) g.observers ∈ ts := by
  have hdelivered : ∀ {p u w}, (State.delivered g { m.state with work := w } p u).methods =
      m.state.methods := by
    intro p u w
    unfold State.delivered
    split <;> rfl
  cases hp.outcome with
  | routine _ hc | tell hc | wire hc | connect _ _ hc => exact .inl (hc.frame.methods ▸ h)
  | told | again | skip | idle | known => exact .inl h
  | deliver => exact .inl (hdelivered ▸ h)
  | grow _ _ _ _ hc => exact .inl (hdelivered ▸ hc.frame.methods ▸ h)
  | @reach cm hcm ht =>
    simp only [State.reached] at h
    split at h
    · exact .inl h
    · rename_i hnew
      rcases mem_append.mp h with h | h
      · exact .inl h
      · refine .inr ?_
        rw [mem_singleton.mp h]
        simp only [Setup.bodyTasks, hnew]
        simp

variable {cm : CMethodId}

/-- So is a method in a context, if its body counts. -/
theorem Performs.reachable (h : cm ∈ s'.calls.reachable) :
    cm ∈ m.state.calls.reachable ∨ t = .reach cm ∧ (g.Translates (m.state.registry.methodId cm) →
      .notify (.methodIn cm) g.observers ∈ ts) := by
  have hdelivered : ∀ {p u w}, (State.delivered g { m.state with work := w } p u).calls =
      m.state.calls := by
    intro p u w
    unfold State.delivered
    split <;> rfl
  cases hp.outcome with
  | routine _ hc | tell hc | wire hc => exact .inl (hc.frame.reachable ▸ h)
  | told | again | idle | known => exact .inl h
  | deliver => exact .inl (hdelivered ▸ h)
  | grow _ _ _ _ hc => exact .inl (hdelivered ▸ hc.frame.reachable ▸ h)
  | connect _ _ hc =>
    rw [hc.frame.reachable] at h
    exact .inl (m.state.calls.reachable_addEdge _ ▸ h)
  | skip _ ht =>
    refine ((CallGraph.mem_reachable_addReachable _).mp h).imp_right ?_
    rintro rfl
    exact ⟨rfl, fun h => absurd h ht⟩
  | reach =>
    refine ((CallGraph.mem_reachable_addReachable _).mp h).imp_right ?_
    rintro rfl
    exact ⟨rfl, fun _ => by simp [Setup.bodyTasks]⟩

/-- An object of a variable was there before, or observers will be told that the variable grows by
it, if its method's body counts. -/
theorem Performs.grown {q : PtrId} {o : CObjId} {c : CtxId} {v : Var} (h : o ∈ s'.pointsTo q)
    (hq : m.state.registry.pointers.get? q = some (.var c v)) (hv : g.Translates v.method) :
    o ∈ m.state.pointsTo q ∨
      t = .drain ∧ ∃ delta, o ∈ delta ∧ .notify (.grown q delta) g.observers ∈ ts := by
  cases hp.outcome with
  | routine _ hc | tell hc | wire hc | connect _ _ hc => exact .inl (hc.frame.pointsTo q ▸ h)
  | told | again | skip | reach | idle | known => exact .inl h
  | @deliver p u w _ hsilent =>
    rcases State.mem_pointsTo_delivered.mp h with h | ⟨rfl, ho⟩
    · exact .inl h
    · rcases hsilent with hnone | hsilent
      · exact absurd ho (OrderedSet.not_mem_of_isEmpty hnone _)
      · exact absurd hv (hsilent c v hq)
  | @grow p u w _ _ _ _ _ _ _ _ hc hr =>
    rw [hc.frame.pointsTo q] at h
    rcases State.mem_pointsTo_delivered.mp h with h | ⟨rfl, ho⟩
    · exact .inl h
    · obtain ⟨us, rfl, -⟩ := hr ts rfl
      exact .inr ⟨rfl, _, ho, mem_append_right _ (.head _)⟩

theorem Performs.of_reach (ht : t = .reach cm) (hnew : cm ∉ m.state.calls.reachable)
    (hc : g.Translates (m.state.registry.methodId cm)) :
    ts = g.bodyTasks m.state cm ∧ s' = m.state.reached cm := by
  subst ht
  cases hp.outcome with
  | routine hr => exact hr.elim
  | again h => exact absurd h hnew
  | skip _ h => exact absurd hc h
  | reach => exact ⟨rfl, rfl⟩

theorem Performs.saw_of_reach (ht : t = .reach cm) (hnew : cm ∉ m.state.calls.reachable)
    (hc : g.Translates (m.state.registry.methodId cm)) :
    s'.Saw g (.method (m.state.registry.methodId cm)) ∧ s'.Saw g (.methodIn cm) := by
  rw [(hp.of_reach ht hnew hc).2]
  refine ⟨?_, (CallGraph.mem_reachable_addReachable _).mpr (.inr rfl), hc⟩
  simp only [State.Saw, State.reached]
  split
  · rename_i h
    exact contains_iff_mem.mp h
  · exact mem_append_right _ (mem_singleton.mpr rfl)

theorem Performs.saw_of_grow {p : PtrId} {delta : Objects} {os : List Observer}
    (ht : t = .drain) (hmem : .notify (.grown p delta) os ∈ ts) : s'.Saw g (.grown p delta) := by
  subst ht
  cases hp.outcome with
  | routine hr => exact hr.elim
  | idle | deliver | known => simp at hmem
  | connect _ _ _ hr =>
    rw [hr ts rfl] at hmem
    simp at hmem
  | @grow q u w c v _ _ _ _ hq hv hc hr =>
    obtain ⟨us, rfl, -, hus⟩ := hr ts rfl
    rcases mem_append.mp hmem with hmem | hmem
    · obtain ⟨i, h⟩ := hus _ hmem
      cases h
    · rcases mem_pair.mp hmem with h | h <;> cases h
      refine ⟨⟨c, v, hp.effect.le.pointers _ _ hq, hv⟩, fun o ho => ?_⟩
      rw [hc.frame.pointsTo]
      exact State.mem_pointsTo_delivered.mpr (.inr ⟨rfl, ho⟩)

variable (hm : m.Steady g)

include hm

theorem Performs.notes {x : Note} (h : m.state.Notes x) : s'.Notes x := by
  obtain ⟨f, hf⟩ := hm.sound.wf.means (.inl h)
  exact State.notes_of_settled (hf.mono hp.effect.le) (hp.effect.settled ⟨x, h, hf⟩)

theorem Performs.saw {e : Event} (h : m.state.Saw g e) : s'.Saw g e := by
  cases e with
  | method id => exact hp.notes hm (x := .announced id) h
  | methodIn cm =>
    refine ⟨hp.notes hm (x := .reached cm) h.1, ?_⟩
    rw [(hm.known.state.reachable cm h.1).methodId_eq hp.effect.le]
    exact h.2
  | grown p delta =>
    obtain ⟨⟨c, v, hv, ht⟩, hmem⟩ := h
    exact ⟨⟨c, v, hp.effect.le.pointers _ _ hv, ht⟩,
      fun o ho => hp.notes hm (x := .holds p o) (hmem o ho)⟩
  | _ => trivial

/-- **A step keeps the news true.** -/
theorem Truthful.step (h : m.Truthful g) : Truthful g { state := s', agenda := ts ++ rest } := by
  intro e os hmem
  rcases mem_append.mp hmem with hmem | hmem
  · cases hp.leaves.arises hmem with
    | again => exact hp.saw hm (h (hp.agenda ▸ mem_cons_self ..))
    | quiet _ hquiet =>
      cases e with
      | method | methodIn | grown => exact hquiet.elim
      | _ => trivial
    | method hcm ht hnew => exact (hp.saw_of_reach rfl hcm ht).1
    | methodIn hcm ht => exact (hp.saw_of_reach rfl hcm ht).2
    | call => trivial
    | grown => exact hp.saw_of_grow rfl hmem
  · exact hp.saw hm (h (hp.agenda ▸ mem_cons_of_mem _ hmem))

end Step

theorem truthful_initial (g : Setup) (script : Script) : (g.initial script).Truthful g := by
  intro e os hmem
  rcases mem_triple.mp hmem with h | h | h <;> cases h
  trivial

end Machine

end HeapFlow
