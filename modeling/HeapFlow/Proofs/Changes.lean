import HeapFlow.Proofs.Interventions
import HeapFlow.Proofs.Settling

/-!
# How a state may change

Whatever the observers do, a run changes its state in few ways. Most actions make only *changes*
(`Change`). Three tasks do more, each once: waiting objects reach their pointer, a waiting call edge
enters the call graph, and a method becomes reachable (`Settles`). So nothing is ever lost
(`State.Keeps`), except that waiting work is done; and the numbers that a state holds have been
given out (`State.Known`), if observers pass on only objects that exist (`Setup.Honest`).
-/

namespace HeapFlow

open List

/-- The state in which a flow edge has a transfer. -/
def State.attached (s : State) (src dst : PtrId) (kind : FlowKind) (t : Transfer) : State :=
  { s with flow := (s.flow.attach src dst kind t).2 }

/-- The state after a transfer has been attached to a flow edge: if the edge did not have it, what
the source has passes through it. -/
def State.joined (g : Setup) (s : State) (src dst : PtrId) (kind : FlowKind) (t : Transfer) :
    State :=
  if (s.flow.attach src dst kind t).1 && !(s.pointsTo src).isEmpty then
    (s.attached src dst kind t).handed g ⟨src, dst, kind, t, s.pointsTo src⟩
  else s.attached src dst kind t

theorem Act.addFlow_apply (g : Setup) (src dst : PtrId) (kind : FlowKind) (t : Transfer)
    (s : State) : addFlow g src dst kind t s = .ok ⟨⟩ (s.joined g src dst kind t) := by
  unfold addFlow State.joined
  change (if ((s.flow.attach src dst kind t).1 && !(s.pointsTo src).isEmpty) = true then _ else _ :
    Act Unit) _ = _
  split <;> rfl

/-- Two states are alike in all that the flow of objects depends on and all that it makes. What the
checker and the observer of copies remember may differ only if they are among `mem`. -/
structure State.Alike (mem : Observer → Prop) (s s' : State) : Prop where
  registry : s'.registry = s.registry
  sets : s'.sets = s.sets
  flow : s'.flow = s.flow
  passed : s'.passed = s.passed
  edges : s'.calls.edges = s.calls.edges
  reachable : s'.calls.reachable = s.calls.reachable
  work : s'.work = s.work
  methods : s'.methods = s.methods
  running : s'.threads.running = s.threads.running
  checker : ¬ mem .checker → s'.checker = s.checker
  copies : ¬ mem .arrayCopy → s'.copies = s.copies

theorem State.alike_checker {mem : Observer → Prop} (hmem : mem .checker) (s : State)
    (c : Checker) : s.Alike mem { s with checker := c } := by
  constructor <;> intros <;> first | rfl | contradiction

theorem State.alike_copies {mem : Observer → Prop} (hmem : mem .arrayCopy) (s : State)
    (l : List CopyCall) : s.Alike mem { s with copies := l } := by
  constructor <;> intros <;> first | rfl | contradiction

/-- **A change** in which only observers among `mem` change what they remember: the registry grows,
objects or call edges are let wait, a transfer is attached to a flow edge, or something is changed
that the flow of objects does not depend on. -/
inductive Change (g : Setup) (mem : Observer → Prop) (s : State) : State → Prop where
  | registry {r : Registry} (h : s.registry ≤ r) : Change g mem s { s with registry := r }
  | objects {p : PtrId} {t : Objects} (hp : s.registry.HasPointer p)
      (ht : ∀ o ∈ t, s.registry.HasObject o) :
      Change g mem s { s with work := s.work.addAll [(p, t)] }
  | call {e : CCallEdge} (he : s.registry.HasMethod e.callee) :
      Change g mem s { s with work := s.work.addCall e }
  | flow {src dst : PtrId} {kind : FlowKind} {t : Transfer} (hdst : s.registry.HasPointer dst)
      (ht : ∀ o, t = .always o → s.registry.HasObject o) :
      Change g mem s (s.joined g src dst kind t)
  | threads {t : Threads} (h : ∀ o ∈ t.running, s.registry.HasObject o) :
      Change g mem s { s with threads := t }
  | other {s' : State} (h : s.Alike mem s') : Change g mem s s'

def Changes (g : Setup) (mem : Observer → Prop) : State → State → Prop :=
  Relation.ReflTransGen (Change g mem)

/-- The state after waiting objects have reached their pointer: those that are new flow on. -/
def State.delivered (g : Setup) (s : State) (p : PtrId) (t : Objects) : State :=
  if (t.diff (s.pointsTo p)).isEmpty then s else s.propagated g p (t.diff (s.pointsTo p))

/-- **What a task settles**, before it makes changes. -/
inductive Settles (g : Setup) (s : State) : State → Prop where
  | nothing : Settles g s s
  | objects {p : PtrId} {t : Objects} {w : WorkList} (h : s.work.poll = some (.objects p t, w)) :
      Settles g s (State.delivered g { s with work := w } p t)
  | call {e : CCallEdge} {w : WorkList} (h : s.work.poll = some (.call e, w)) :
      Settles g s { s with work := w, calls := (s.calls.addEdge e).2 }
  | reach {m : CMethodId} {l : List MethodId} (h : s.registry.HasMethod m) :
      Settles g s { s with calls := (s.calls.addReachable m).2, methods := l }

/-! ### Nothing is lost -/

/-- A flow graph has all edges of another, with all their transfers. -/
def FlowGraph.Keeps (G G' : FlowGraph) : Prop :=
  ∀ e ∈ G.edges, ∃ e' ∈ G'.edges, e'.src = e.src ∧ e'.dst = e.dst ∧ e'.kind = e.kind ∧
    ∀ t ∈ e.transfers, t ∈ e'.transfers

/-- **A state has everything that another one has**: numbers, objects of pointers, flow edges with
their transfers, reachable methods and call edges. -/
structure State.Keeps (s s' : State) : Prop where
  registry : s.registry ≤ s'.registry
  objects : ∀ p o, o ∈ s.pointsTo p → o ∈ s'.pointsTo p
  flow : s.flow.Keeps s'.flow
  reachable : ∀ m ∈ s.calls.reachable, m ∈ s'.calls.reachable
  edges : ∀ e ∈ s.calls.edges, e ∈ s'.calls.edges

namespace FlowGraph

variable {G G' G'' : FlowGraph}

theorem Keeps.refl (G : FlowGraph) : G.Keeps G :=
  fun e he => ⟨e, he, rfl, rfl, rfl, fun _ h => h⟩

theorem Keeps.trans (h : G.Keeps G') (h' : G'.Keeps G'') : G.Keeps G'' := by
  intro e he
  obtain ⟨e₁, he₁, hsrc, hdst, hkind, ht⟩ := h e he
  obtain ⟨e₂, he₂, hsrc', hdst', hkind', ht'⟩ := h' e₁ he₁
  exact ⟨e₂, he₂, hsrc'.trans hsrc, hdst'.trans hdst, hkind'.trans hkind, fun t h => ht' t (ht t h)⟩

/-- Attaching a transfer keeps the edges. -/
theorem keeps_attach (G : FlowGraph) (src dst : PtrId) (kind : FlowKind) (t : Transfer) :
    G.Keeps (G.attach src dst kind t).2 := by
  have hedge : G.Keeps (G.addEdge src dst kind).2 := by
    unfold addEdge
    split
    · exact .refl G
    · exact fun e he => ⟨e, mem_append_left _ he, rfl, rfl, rfl, fun _ h => h⟩
  refine hedge.trans ?_
  unfold attach addTransfer
  split
  · exact .refl _
  · split
    · exact .refl _
    · intro e he
      refine ⟨_, mem_map_of_mem he, ?_⟩
      split
      · exact ⟨rfl, rfl, rfl, fun _ h => mem_append_left _ h⟩
      · exact ⟨rfl, rfl, rfl, fun _ h => h⟩

end FlowGraph

section Keeping

variable {g : Setup} {mem : Observer → Prop} {s s' s'' : State}

theorem State.Keeps.refl (s : State) : s.Keeps s :=
  ⟨Registry.le_refl _, fun _ _ h => h, .refl _, fun _ h => h, fun _ h => h⟩

theorem State.Keeps.trans (h : s.Keeps s') (h' : s'.Keeps s'') : s.Keeps s'' :=
  ⟨Registry.le_trans h.registry h'.registry, fun p o ho => h'.objects p o (h.objects p o ho),
    h.flow.trans h'.flow, fun m hm => h'.reachable m (h.reachable m hm),
    fun e he => h'.edges e (h.edges e he)⟩

theorem State.Alike.keeps (h : s.Alike mem s') : s.Keeps s' where
  registry := by
    rw [h.registry]
    exact Registry.le_refl _
  objects p o ho := by
    rw [State.pointsTo, h.sets]
    exact ho
  flow := by
    rw [h.flow]
    exact .refl _
  reachable m hm := by
    rw [h.reachable]
    exact hm
  edges e he := by
    rw [h.edges]
    exact he

theorem State.joined_keeps (g : Setup) (s : State) (src dst : PtrId) (kind : FlowKind)
    (t : Transfer) : s.Keeps (s.joined g src dst kind t) := by
  have hflow := s.flow.keeps_attach src dst kind t
  unfold joined
  split
  · exact { State.Keeps.refl s with flow := hflow }
  · exact { State.Keeps.refl s with flow := hflow }

/-- **Changes lose nothing.** -/
theorem Change.keeps (h : Change g mem s s') : s.Keeps s' := by
  cases h with
  | registry hr => exact { State.Keeps.refl s with registry := hr }
  | objects | call | threads => exact { State.Keeps.refl s with }
  | flow => exact State.joined_keeps ..
  | other h => exact h.keeps

theorem Changes.trans (h : Changes g mem s s') (h' : Changes g mem s' s'') : Changes g mem s s'' :=
  Relation.ReflTransGen.trans h h'

theorem Change.mono {mem' : Observer → Prop} (h : Change g mem s s') (hmem : ∀ o, mem o → mem' o) :
    Change g mem' s s' := by
  cases h with
  | registry hr => exact .registry hr
  | objects hp ht => exact .objects hp ht
  | call he => exact .call he
  | flow hdst ht => exact .flow hdst ht
  | threads hr => exact .threads hr
  | other h =>
    exact .other { h with
      checker := fun hnot => h.checker fun hm => hnot (hmem _ hm)
      copies := fun hnot => h.copies fun hm => hnot (hmem _ hm) }

theorem Changes.mono {mem' : Observer → Prop} (h : Changes g mem s s')
    (hmem : ∀ o, mem o → mem' o) : Changes g mem' s s' := by
  induction h with
  | refl => exact .refl
  | tail _ hc ih => exact ih.tail (hc.mono hmem)

theorem Changes.keeps (h : Changes g mem s s') : s.Keeps s' := by
  induction h with
  | refl => exact .refl s
  | tail _ h ih => exact ih.trans h.keeps

theorem Changes.le (h : Changes g mem s s') : s.registry ≤ s'.registry :=
  h.keeps.registry

/-- Propagation adds new objects to their pointer, and else to none. -/
theorem State.mem_pointsTo_propagated {p q : PtrId} {delta : Objects} {o : CObjId} :
    o ∈ (s.propagated g p delta).pointsTo q ↔ o ∈ s.pointsTo q ∨ q = p ∧ o ∈ delta := by
  have hsets : (s.propagated g p delta).pointsTo q =
      (s.setObjects p ((s.pointsTo p).union delta)).pointsTo q := rfl
  rw [hsets, mem_pointsTo_setObjects]
  by_cases h : q = p
  · simp [h]
  · simp [h]

theorem State.propagated_keeps (g : Setup) (s : State) (p : PtrId) (delta : Objects) :
    s.Keeps (s.propagated g p delta) where
  registry := Registry.le_refl _
  objects _ _ ho := mem_pointsTo_propagated.mpr (.inl ho)
  flow := .refl _
  reachable _ h := h
  edges _ h := h

theorem State.delivered_keeps (g : Setup) (s : State) (p : PtrId) (t : Objects) :
    s.Keeps (s.delivered g p t) := by
  unfold delivered
  split
  · exact .refl s
  · exact propagated_keeps g s p _

/-- Of objects that reach a pointer, it gets those that it did not have. -/
theorem State.mem_pointsTo_delivered {p q : PtrId} {t : Objects} {o : CObjId} :
    o ∈ (s.delivered g p t).pointsTo q ↔ o ∈ s.pointsTo q ∨ q = p ∧ o ∈ t.diff (s.pointsTo p) := by
  unfold delivered
  split
  · rename_i h
    refine ⟨.inl, fun ho => ho.elim id fun ⟨_, ho⟩ => ?_⟩
    exact absurd ho (OrderedSet.not_mem_of_isEmpty h _)
  · exact mem_pointsTo_propagated

theorem State.keeps_work (s : State) (w : WorkList) : s.Keeps { s with work := w } :=
  { State.Keeps.refl s with }

/-- **Settling loses nothing.** -/
theorem Settles.keeps (h : Settles g s s') : s.Keeps s' := by
  cases h with
  | nothing => exact .refl s
  | @objects p t w h => exact (s.keeps_work w).trans (State.delivered_keeps ..)
  | @call e w h =>
    refine { s.keeps_work w with reachable := fun m hm => ?_, edges := fun x hx => ?_ }
    · rw [CallGraph.reachable_addEdge]
      exact hm
    · exact (CallGraph.mem_edges_addEdge _).mpr (.inl hx)
  | @reach m l h =>
    refine { State.Keeps.refl s with reachable := fun x hx => ?_, edges := fun x hx => ?_ }
    · exact (CallGraph.mem_reachable_addReachable _).mpr (.inl hx)
    · rw [CallGraph.edges_addReachable]
      exact hx

end Keeping

/-! ### Numbers have been given out -/

/-- The transfers of observers pass on nothing but objects that exist. -/
def Setup.Honest (g : Setup) : Prop :=
  ∀ key s x o, o ∈ g.custom key s x → s.registry.HasObject o

/-- **The numbers that a state holds have been given out.** -/
structure State.Known (s : State) : Prop where
  work : s.work.Wf
  holder : ∀ p, ∀ o ∈ s.pointsTo p, s.registry.HasPointer p
  settled : ∀ p, ∀ o ∈ s.pointsTo p, s.registry.HasObject o
  target : ∀ x ∈ s.work.pending, s.registry.HasPointer x.1
  waiting : ∀ p o, s.work.Waits p o → s.registry.HasObject o
  calls : ∀ e ∈ s.work.calls.toList, s.registry.HasMethod e.callee
  reachable : ∀ m ∈ s.calls.reachable, s.registry.HasMethod m
  joined : ∀ a b k t, s.flow.Joins a b k t →
    s.registry.HasPointer b ∧ ∀ o, t = .always o → s.registry.HasObject o
  running : ∀ o ∈ s.threads.running, s.registry.HasObject o

theorem WorkList.mem_pending_addAll {w : WorkList} {l : List (PtrId × Objects)}
    {x : PtrId × Objects} (h : x ∈ (w.addAll l).pending) :
    (∃ u, (x.1, u) ∈ w.pending) ∨ ∃ t, (x.1, t) ∈ l := by
  induction l generalizing w with
  | nil => exact .inl ⟨x.2, h⟩
  | cons y l ih =>
    rw [addAll, foldl_cons] at h
    split at h
    · rcases ih h with hold | ⟨t, ht⟩
      · exact .inl hold
      · exact .inr ⟨t, .tail _ ht⟩
    · rcases ih h with ⟨u, hu⟩ | ⟨t, ht⟩
      · rcases mem_pending_addObjects hu with hold | hnew
        · exact .inl hold
        · exact .inr ⟨y.2, by rw [show x.1 = y.1 from hnew]; exact .head _⟩
      · exact .inr ⟨t, .tail _ ht⟩

namespace State.Known

variable {g : Setup} {mem : Observer → Prop} {s s' : State}

theorem not_mem_pointsTo_initial (script : Script) (p : PtrId) (o : CObjId) :
    o ∉ pointsTo { script := script } p := by
  intro h
  simp only [pointsTo, getElem?_toArray, getElem?_nil, Option.getD_none] at h
  exact OrderedSet.mem_empty h

/-- At the start no numbers are held. -/
theorem initial (script : Script) : State.Known { script := script } where
  work := WorkList.wf_empty
  holder p o h := (not_mem_pointsTo_initial script p o h).elim
  settled p o h := (not_mem_pointsTo_initial script p o h).elim
  target _ h := by cases h
  waiting _ _ h := by
    obtain ⟨_, h, -⟩ := h
    cases h
  calls _ h := by simp at h
  reachable _ h := by cases h
  joined _ _ _ _ h := by
    obtain ⟨_, h, -⟩ := h
    cases h
  running _ h := (OrderedSet.mem_empty h).elim

/-- What is passed on exists. -/
theorem hasObject_passOn (hg : g.Honest) {x : Passage}
    (hx : ∀ o ∈ x.objects, s.registry.HasObject o)
    (ht : ∀ o, x.transfer = .always o → s.registry.HasObject o) {o : CObjId}
    (ho : o ∈ g.passOn s x) : s.registry.HasObject o := by
  unfold Setup.passOn at ho
  split at ho
  · exact hg _ _ _ _ ho
  · unfold Transfer.apply at ho
    split at ho
    · exact hx o ho
    · exact hx o (OrderedSet.mem_filter.mp ho).1
    · split at ho
      · exact (OrderedSet.mem_empty ho).elim
      · rename_i y rest hlist
        rw [OrderedSet.mem_singleton.mp ho]
        refine hx y (OrderedSet.mem_def.mpr ?_)
        rw [hlist]
        exact .head _
    · exact (OrderedSet.mem_empty ho).elim
    · rename_i h
      rw [OrderedSet.mem_singleton.mp ho]
      exact ht _ h
    · exact (OrderedSet.mem_empty ho).elim

theorem grow (hs : s.Known) {r : Registry} (h : s.registry ≤ r) :
    State.Known { s with registry := r } where
  work := hs.work
  holder p o ho := (hs.holder p o ho).mono h
  settled p o ho := (hs.settled p o ho).mono h
  target x hx := (hs.target x hx).mono h
  waiting p o ho := (hs.waiting p o ho).mono h
  calls e he := (hs.calls e he).mono h
  reachable m hm := (hs.reachable m hm).mono h
  joined a b k t hj :=
    ⟨(hs.joined a b k t hj).1.mono h, fun o ho => ((hs.joined a b k t hj).2 o ho).mono h⟩
  running o ho := (hs.running o ho).mono h

theorem addAll (hs : s.Known) {l : List (PtrId × Objects)}
    (hl : ∀ x ∈ l, s.registry.HasPointer x.1 ∧ ∀ o ∈ x.2, s.registry.HasObject o) :
    State.Known { s with work := s.work.addAll l } where
  work := hs.work.addAll
  holder := hs.holder
  settled := hs.settled
  target x hx := by
    rcases WorkList.mem_pending_addAll hx with ⟨u, hu⟩ | ⟨t, ht⟩
    · exact hs.target (x.1, u) hu
    · exact (hl _ ht).1
  waiting p o ho := by
    rcases (WorkList.waits_addAll hs.work).mp ho with ho | ⟨t, ht, ho⟩
    · exact hs.waiting p o ho
    · exact (hl _ ht).2 o ho
  calls e he := by
    rw [WorkList.calls_addAll] at he
    exact hs.calls e he
  reachable := hs.reachable
  joined := hs.joined
  running := hs.running

/-- A transfer leads to a known pointer. -/
theorem attach (hs : s.Known) (hg : g.Honest) {src dst : PtrId} {kind : FlowKind} {t : Transfer}
    (hdst : s.registry.HasPointer dst) (ht : ∀ o, t = .always o → s.registry.HasObject o) :
    (s.joined g src dst kind t).Known := by
  have hflow : (s.attached src dst kind t).Known := by
    refine { hs with joined := fun a b k u hj => ?_ }
    rcases ((s.flow.attach_cases src dst kind t).1 a b k u).mp hj with hj | ⟨-, rfl, -, rfl⟩
    · exact hs.joined a b k u hj
    · exact ⟨hdst, ht⟩
  unfold State.joined
  split
  · refine { hflow.addAll (l := [(dst, _)]) fun x hx => ?_ with }
    rw [mem_singleton.mp hx]
    exact ⟨hdst, fun o ho => hasObject_passOn hg (hs.settled src) ht ho⟩
  · exact hflow

theorem alike (hs : s.Known) (h : s.Alike mem s') : s'.Known where
  work := h.work ▸ hs.work
  holder p o ho := by
    rw [pointsTo, h.sets] at ho
    rw [h.registry]
    exact hs.holder p o ho
  settled p o ho := by
    rw [pointsTo, h.sets] at ho
    rw [h.registry]
    exact hs.settled p o ho
  target x hx := by
    rw [h.work] at hx
    rw [h.registry]
    exact hs.target x hx
  waiting p o ho := by
    rw [h.work] at ho
    rw [h.registry]
    exact hs.waiting p o ho
  calls e he := by
    rw [h.work] at he
    rw [h.registry]
    exact hs.calls e he
  reachable m hm := by
    rw [h.reachable] at hm
    rw [h.registry]
    exact hs.reachable m hm
  joined a b k t hj := by
    rw [h.flow] at hj
    rw [h.registry]
    exact hs.joined a b k t hj
  running o ho := by
    rw [h.running] at ho
    rw [h.registry]
    exact hs.running o ho

/-- **A change keeps to known numbers.** -/
theorem change (hs : s.Known) (hg : g.Honest) (h : Change g mem s s') : s'.Known := by
  cases h with
  | registry hr => exact hs.grow hr
  | objects hp ht =>
    refine hs.addAll fun x hx => ?_
    rw [mem_singleton.mp hx]
    exact ⟨hp, ht⟩
  | @call e he =>
    refine { hs with work := hs.work.addCall e, calls := fun x hx => ?_ }
    rcases mem_append.mp (Fifo.toList_push _ _ ▸ hx) with hx | hx
    · exact hs.calls x hx
    · rw [mem_singleton.mp hx]
      exact he
  | flow hdst ht => exact hs.attach hg hdst ht
  | threads h => exact { hs with running := h }
  | other h => exact hs.alike h

theorem changes (hs : s.Known) (hg : g.Honest) (h : Changes g mem s s') : s'.Known := by
  induction h with
  | refl => exact hs
  | tail _ h ih => exact ih.change hg h

theorem propagated (hs : s.Known) (hg : g.Honest) {p : PtrId} (hp : s.registry.HasPointer p)
    {delta : Objects} (hdelta : ∀ o ∈ delta, s.registry.HasObject o) :
    (s.propagated g p delta).Known := by
  have hflows : ∀ x ∈ s.flows g p delta,
      s.registry.HasPointer x.1 ∧ ∀ o ∈ x.2, s.registry.HasObject o := by
    rintro ⟨q, u⟩ hx
    obtain ⟨k, t, hj, s', hreg, rfl⟩ := State.of_mem_flows hx
    obtain ⟨hq, ht⟩ := hs.joined p q k t hj
    rw [← hreg] at hdelta ht ⊢
    exact ⟨hreg ▸ hq, fun o ho => hasObject_passOn hg hdelta ht ho⟩
  refine { hs.addAll hflows with holder := fun q o ho => ?_, settled := fun q o ho => ?_ }
  · rcases mem_pointsTo_propagated.mp ho with ho | ⟨rfl, -⟩
    · exact hs.holder q o ho
    · exact hp
  · rcases mem_pointsTo_propagated.mp ho with ho | ⟨-, ho⟩
    · exact hs.settled q o ho
    · exact hdelta o ho

/-- **So does settling.** -/
theorem settles (hs : s.Known) (hg : g.Honest) (h : Settles g s s') : s'.Known := by
  cases h with
  | nothing => exact hs
  | @objects p t w hpoll =>
    obtain ⟨hw, hmem, hpend, hcalls⟩ := hs.work.of_poll_objects hpoll
    have htaken : State.Known { s with work := w } := by
      refine { hs with
        work := hw, target := fun x hx => ?_, waiting := ?_, calls := hcalls ▸ hs.calls }
      · rw [hpend] at hx
        exact hs.target x (mem_filter.mp hx).1
      · rintro q o ⟨u, hu, ho⟩
        rw [hpend] at hu
        exact hs.waiting q o ⟨u, (mem_filter.mp hu).1, ho⟩
    unfold State.delivered
    split
    · exact htaken
    · refine htaken.propagated hg (hs.target _ hmem) fun o ho => ?_
      exact hs.waiting p o ⟨t, hmem, (OrderedSet.mem_diff.mp ho).1⟩
  | @call e w hpoll =>
    obtain ⟨hw, -, hpend, hcalls⟩ := hs.work.of_poll_call hpoll
    refine { hs with
      work := hw, target := hpend ▸ hs.target, waiting := ?_, calls := fun x hx => ?_
      reachable := ?_ }
    · rintro q o ⟨u, hu, ho⟩
      rw [hpend] at hu
      exact hs.waiting q o ⟨u, hu, ho⟩
    · refine hs.calls x ?_
      rw [hcalls]
      exact .tail _ hx
    · rw [CallGraph.reachable_addEdge]
      exact hs.reachable
  | @reach m l h =>
    refine { hs with reachable := fun x hx => ?_ }
    rcases (CallGraph.mem_reachable_addReachable _).mp hx with hx | rfl
    · exact hs.reachable x hx
    · exact h

end State.Known

end HeapFlow
