import HeapFlow.Proofs.Agenda

/-!
# What happens before its method is reached

When a call is resolved, the call edge begins to wait, and at once the receiver is bound to the
callee's `this`. Objects are delivered before call edges are taken, so what goes through the
receiver takes effect while the callee is not reached yet. A variable is `Early` if it can hold
objects before its method is reached. All others hold objects only when their method is reached, and
its calls enter the call graph only when it is reached or about to be (`Machine.Timely`). Facts that
are in time (`Timed`) are closed under the rules as far as premises are settled, so a step does not
leave them.
-/

namespace HeapFlow

open List

/-- **A variable that can hold objects before its method is reached.** -/
inductive Program.Early (p : Program) : Var → Prop where
  | receiver {m : MethodId} {d : Method} (hd : p.method? m = some d) (hs : d.isStatic = false) :
      Early p (.declared m 0)
  | load {m : MethodId} {d : Method} {v y : Slot} {f : FieldId} (hd : p.method? m = some d)
      (hs : .load y v f ∈ d.body) (hy : (d.varType y).holdsObjects = true)
      (h : Early p (.declared m v)) : Early p (.declared m y)
  | loadElem {m : MethodId} {d : Method} {v y : Slot} (hd : p.method? m = some d)
      (hs : .loadElem y v ∈ d.body) (hy : (d.varType y).holdsObjects = true)
      (h : Early p (.declared m v)) : Early p (.declared m y)
  | copy {m : MethodId} {d : Method} {c : Call} {x : Slot} (n : Nat) (hd : p.method? m = some d)
      (hs : .invoke c ∈ d.body) (hc : p.isArrayCopy c = true) (hx : c.args[0]? = some x)
      (h : Early p (.declared m x)) : Early p (.copyTemp m n)

/-- The method in a context that makes a call. -/
def CallEdge.home (E : CallEdge (At CallSite) (At MethodId)) : At MethodId :=
  ⟨E.site.ctx, E.site.item.method⟩

theorem exists_of_append_eq {α : Type} {l l' pre post : List α} {a : α}
    (h : l ++ l' = pre ++ a :: post) : (∃ k, l = pre ++ a :: k) ∨ ∃ k, pre = l ++ k := by
  rcases append_eq_append_iff.mp h with ⟨k, hk, -⟩ | ⟨k, hk, hpost⟩
  · exact .inr ⟨k, hk⟩
  · cases k with
    | nil => exact .inr ⟨[], by simpa using hk.symm⟩
    | cons b k =>
      cases hpost
      exact .inl ⟨k, hk⟩

section Settling

variable {g : Setup} {mem : Observer → Prop} {s s' : State}

theorem Change.queue (h : Change g mem s s') :
    ∃ new, s'.work.calls.toList = s.work.calls.toList ++ new := by
  cases h with
  | registry | threads => exact ⟨[], (append_nil _).symm⟩
  | objects =>
    refine ⟨[], ?_⟩
    rw [append_nil]
    exact congrArg Fifo.toList (WorkList.calls_addAll ..)
  | @call e => exact ⟨[e], Fifo.toList_push ..⟩
  | flow =>
    refine ⟨[], ?_⟩
    rw [append_nil]
    unfold State.joined
    split
    · exact congrArg Fifo.toList (State.calls_handed _)
    · rfl
  | other h => exact ⟨[], by rw [h.work, append_nil]⟩

theorem Changes.queue (h : Changes g mem s s') :
    ∃ new, s'.work.calls.toList = s.work.calls.toList ++ new := by
  induction h with
  | refl => exact ⟨[], (append_nil _).symm⟩
  | tail _ h ih =>
    obtain ⟨l, hl⟩ := ih
    obtain ⟨l', hl'⟩ := h.queue
    exact ⟨l ++ l', by rw [hl', hl, append_assoc]⟩

theorem State.calls_delivered (g : Setup) (s : State) (p : PtrId) (t : Objects) :
    (s.delivered g p t).work.calls = s.work.calls := by
  unfold delivered
  split
  · rfl
  · exact WorkList.calls_addAll ..

variable {r : Option (List Task)} {t : Task} {e : CCallEdge}

/-- **The queue of call edges**: a task takes edges off its front, which are then in the call graph,
and puts new ones at its end. -/
theorem Outcome.queue (h : Outcome g s t r s') (hs : s.Known) :
    ∃ front l new, s.work.calls.toList = front ++ l ∧ s'.work.calls.toList = l ++ new ∧
      ∀ e ∈ front, e ∈ s'.calls.edges := by
  have hnone : ∀ {s₁ : State} {new}, s₁.work.calls.toList = s.work.calls.toList ++ new →
      ∃ front l new, s.work.calls.toList = front ++ l ∧ s₁.work.calls.toList = l ++ new ∧
        ∀ e ∈ front, e ∈ s₁.calls.edges :=
    fun hnew => ⟨[], _, _, rfl, hnew, fun _ h => absurd h not_mem_nil⟩
  cases h with
  | routine _ hc | tell hc | wire hc =>
    obtain ⟨new, hnew⟩ := hc.queue
    exact hnone hnew
  | told | again | skip | reach | idle => exact hnone (append_nil _).symm
  | @deliver p u w h =>
    obtain ⟨-, -, -, hcalls⟩ := hs.work.of_poll_objects h
    have hsame : (State.delivered g { s with work := w } p u).work.calls.toList =
        s.work.calls.toList ++ [] := by rw [State.calls_delivered, hcalls, append_nil]
    exact hnone hsame
  | grow h _ _ _ hc =>
    obtain ⟨-, -, -, hcalls⟩ := hs.work.of_poll_objects h
    obtain ⟨new, hnew⟩ := hc.queue
    rw [State.calls_delivered, hcalls] at hnew
    exact hnone hnew
  | @known e w h he =>
    obtain ⟨-, -, -, hcalls⟩ := hs.work.of_poll_call h
    exact ⟨[e], _, [], hcalls, (append_nil _).symm, by simpa using he⟩
  | @connect e w _ _ h he hc =>
    obtain ⟨-, -, -, hcalls⟩ := hs.work.of_poll_call h
    obtain ⟨new, hnew⟩ := hc.queue
    refine ⟨[e], _, new, hcalls, hnew, ?_⟩
    rw [hc.frame.edges]
    simp [CallGraph.mem_edges_addEdge]

/-- An object that is new to a pointer has waited for it. -/
theorem Outcome.pointsTo_back (h : Outcome g s t r s') (hs : s.Known) {q : PtrId} {o : CObjId}
    (ho : o ∈ s'.pointsTo q) : o ∈ s.pointsTo q ∨ t = .drain ∧ s.work.Waits q o := by
  have hdelivered : ∀ {p u w}, s.work.poll = some (.objects p u, w) →
      o ∈ (State.delivered g { s with work := w } p u).pointsTo q →
      o ∈ s.pointsTo q ∨ s.work.Waits q o := by
    intro p u w hpoll ho
    obtain ⟨-, hmem, -⟩ := hs.work.of_poll_objects hpoll
    rcases State.mem_pointsTo_delivered.mp ho with ho | ⟨rfl, ho⟩
    · exact .inl ho
    · exact .inr ⟨u, hmem, (OrderedSet.mem_diff.mp ho).1⟩
  cases h with
  | routine _ hc | tell hc | wire hc | connect _ _ hc => exact .inl (hc.frame.pointsTo q ▸ ho)
  | told | again | skip | reach | idle | known => exact .inl ho
  | deliver h => exact (hdelivered h ho).imp_right fun h => ⟨rfl, h⟩
  | grow h _ _ _ hc => exact (hdelivered h (hc.frame.pointsTo q ▸ ho)).imp_right fun h => ⟨rfl, h⟩

/-- An edge that is new has waited. -/
theorem Outcome.edges_back (h : Outcome g s t r s') (hs : s.Known) (he : e ∈ s'.calls.edges) :
    e ∈ s.calls.edges ∨ t = .drain ∧ ∃ l, s.work.calls.toList = e :: l := by
  have hdelivered : ∀ {p u w}, (State.delivered g { s with work := w } p u).calls.edges =
      s.calls.edges := by
    intro p u w
    unfold State.delivered
    split <;> rfl
  cases h with
  | routine _ hc | tell hc | wire hc => exact .inl (hc.frame.edges ▸ he)
  | told | again | idle | known => exact .inl he
  | skip | reach => exact .inl (s.calls.edges_addReachable _ ▸ he)
  | deliver => exact .inl (hdelivered ▸ he)
  | grow _ _ _ _ hc => exact .inl (hdelivered ▸ hc.frame.edges ▸ he)
  | connect h _ hc =>
    obtain ⟨-, -, -, hcalls⟩ := hs.work.of_poll_call h
    rw [hc.frame.edges] at he
    rcases (CallGraph.mem_edges_addEdge _).mp he with he | rfl
    · exact .inl he
    · exact .inr ⟨rfl, _, hcalls⟩

theorem Outcome.mem_edges_of_poll (h : Outcome g s .drain r s') {w : WorkList}
    (hpoll : s.work.poll = some (.call e, w)) : e ∈ s'.calls.edges := by
  cases h with
  | routine ht => exact ht.elim
  | idle h | deliver h | grow h =>
    rw [h] at hpoll
    cases hpoll
  | known h he =>
    rw [h] at hpoll
    cases hpoll
    exact he
  | connect h _ hc =>
    rw [h] at hpoll
    cases hpoll
    rw [hc.frame.edges]
    exact (CallGraph.mem_edges_addEdge _).mpr (.inr rfl)

/-- Facts that may wait: objects of a place, and call edges. -/
def Fact.Waits : Fact → Prop
  | .holds _ _ => True
  | .call _ => True
  | _ => False

theorem State.Has.settled {f : Fact} (h : s.Has f) (hf : ¬ f.Waits) : s.Settled f := by
  obtain ⟨x, hx, hxf⟩ := h
  refine ⟨x, hx.resolve_right fun hwaits => hf ?_, hxf⟩
  cases hxf with
  | holds | call => trivial
  | _ => exact hwaits.elim

end Settling

/-- A call edge to a method is there or waits. -/
def State.Calls (s : State) (M : At MethodId) : Prop :=
  ∃ E, E.callee = M ∧ s.Has (.call E)

namespace Machine

variable {g : Setup} {m : Machine}

/-- A method is reached, or to be reached. -/
def Ready (g : Setup) (m : Machine) (M : At MethodId) : Prop :=
  m.Due g (.reached M)

/-- A call edge to a method is there, waits, or is owed. -/
def Expects (g : Setup) (m : Machine) (M : At MethodId) : Prop :=
  ∃ E, E.callee = M ∧ m.Due g (.call E)

/-- A place may get objects: if it is a variable, its method is reached or to be reached, or the
variable is early and there will be a call edge to its method. -/
def Open (g : Setup) (m : Machine) (P : Place) : Prop :=
  ∀ C v, P = .var C v → m.Ready g ⟨C, v.method⟩ ∨ g.program.Early v ∧ m.Expects g ⟨C, v.method⟩

/-- **A fact is in time.** A call is also in time if its caller is among the methods `called`. -/
def Timed (g : Setup) (m : Machine) (called : At MethodId → Prop) : Fact → Prop
  | .holds P _ => m.Open g P
  | .flow F => m.Open g F.dst
  | .call E => m.Ready g E.home ∨ called E.home
  | .asks C => m.Ready g ⟨C, threadCurrent⟩
  | _ => True

/-- **The third invariant of a run**: nothing happens too early, early variables apart. -/
structure Timely (g : Setup) (m : Machine) : Prop where
  /-- A variable that holds objects belongs to a reached method, or it is early and its method is
  called. -/
  held : ∀ {C v O}, m.state.Settled (.holds (.var C v) O) →
    m.state.Settled (.reached ⟨C, v.method⟩) ∨ g.program.Early v ∧ m.state.Calls ⟨C, v.method⟩
  timed : ∀ {f}, m.Due g f → m.Timed g m.state.Calls f
  /-- The caller of an edge of the call graph is reached or to be reached. -/
  called : ∀ {E}, m.state.Settled (.call E) → m.Ready g E.home
  /-- The caller of a waiting edge is reached or to be reached, or called by an edge that waits
  before it. -/
  queue : ∀ {pre e post E}, m.state.work.calls.toList = pre ++ e :: post →
    m.state.registry.EdgeIs e E →
    m.Ready g E.home ∨ ∃ e' ∈ pre, ∃ E', m.state.registry.EdgeIs e' E' ∧ E'.callee = E.home

variable {f : Fact} {E : CallEdge (At CallSite) (At MethodId)}

theorem Sound.derivable_of_due (h : m.Sound g) (hf : m.Due g f) : Derivable g f := by
  rcases hf with hf | ⟨t, ht, hf⟩
  · exact h.derivable f hf
  · exact (h.supported t ht).owes f hf

theorem kept_reached {M : At MethodId} : Fact.Kept g (.reached M) :=
  Fact.kept_of_ne_flow (by simp)

theorem kept_call : Fact.Kept g (.call E) :=
  Fact.kept_of_ne_flow (by simp)

theorem Ready.open {C : Ctx} {v : Var} (h : m.Ready g ⟨C, v.method⟩) : m.Open g (.var C v) := by
  rintro C' v' ⟨⟩
  exact .inl h

/-- The callee of an edge is reached or to be reached. -/
theorem Steady.ready_callee (h : m.Steady g) (hE : m.state.Settled (.call E)) :
    m.Ready g E.callee :=
  h.mindful.follow kept_reached hE (.reach E)

theorem open_of_home {P : Place} (h : P.home? = none) : m.Open g P := by
  rintro C v rfl
  cases h

theorem Ready.timed {called : At MethodId → Prop} (h : ∀ M, f.home? = some M → m.Ready g M) :
    m.Timed g called f := by
  cases f with
  | holds P O =>
    rintro C v rfl
    exact .inl (h _ rfl)
  | flow F =>
    intro C v hv
    refine .inl (h _ ?_)
    rw [Fact.home?, hv, Place.home?]
  | call E => exact .inl (h _ rfl)
  | asks C => exact h _ rfl
  | _ => trivial

theorem given_of_due_initial {script : Script} (h : (g.initial script).Due g f) : Given g f := by
  rcases h with h | ⟨t, ht, h⟩
  · exact absurd h (State.not_has_initial script _)
  · rcases mem_triple.mp ht with rfl | rfl | rfl
    · cases h with
      | notify ho hf =>
        cases hf with
        | entry hf => exact ⟨_, ho, hf⟩
    · cases h
    · cases h

theorem timely_initial (g : Setup) (script : Script) : (g.initial script).Timely g where
  held h := absurd h.has (State.not_has_initial script _)
  timed := by
    intro f hf
    obtain ⟨b, ho, hf⟩ := given_of_due_initial hf
    refine Ready.timed fun M hM => ?_
    cases hf with
    | entry => cases hM
    | args hm hf =>
      rw [hf.home hM]
      refine .inr ⟨_, .head _, .notify ho (.entry (.entry ?_))⟩
      exact mem_append_left _ (mem_filter.mp hm).1
  called h := absurd h.has (State.not_has_initial script _)
  queue {pre e post E} h := by
    change [] = pre ++ e :: post at h
    simp at h

section Step

variable {t : Task} {rest ts : List Task} {s' : State} (hg : g.Tame) (hm : m.Steady g)
  (hp : m.Performs g t rest ts s')

include hg hm hp

variable {f : Fact} {M : At MethodId} {O : At Obj}

theorem Performs.due (hk : f.Kept g) (h : m.Due g f) :
    Due g { state := s', agenda := ts ++ rest } f :=
  hp.next ▸ hm.sound.due_step hg.wellFormed hg.unscripted hk h

theorem Performs.expects (h : m.Expects g M) :
    Expects g { state := s', agenda := ts ++ rest } M := by
  obtain ⟨E, hE, hdue⟩ := h
  exact ⟨E, hE, hp.due hg hm kept_call hdue⟩

omit hg hm in
theorem Performs.calls (h : m.state.Calls M) : s'.Calls M := by
  obtain ⟨E, hE, hhas⟩ := h
  exact ⟨E, hE, hp.effect.has hhas⟩

omit hg in
/-- **A step does not leave a set of facts** that is closed under the rules as far as premises are
settled, if all that was there or owed is in it. -/
theorem Performs.mem_of_due {D : Fact → Prop} (hD : StableOn g s'.Settled D)
    (hbefore : ∀ f, m.Due g f → D f) (hf : Due g { state := s', agenda := ts ++ rest } f) :
    D f := by
  have hmem : t ∈ m.agenda := hp.agenda ▸ .head _
  obtain ⟨hhas, hts⟩ := hp.effect.sound hD (fun f hf => hbefore f (.inl hf))
    fun f hf => hbefore f (.inr ⟨t, hmem, hf⟩)
  rcases hf with hf | ⟨u, hu, hf⟩
  · exact hhas f hf
  · rcases mem_append.mp hu with hu | hu
    · exact (hts u hu).owes f hf
    · have hu : u ∈ m.agenda := hp.agenda ▸ .tail _ hu
      exact hbefore f (.inr ⟨u, hu, hf.back hp.effect.le (hm.sound.supported u hu).means⟩)

omit hg in
theorem Performs.has_of_holds {P : Place} (h : s'.Settled (.holds P O)) :
    m.state.Has (.holds P O) := by
  obtain ⟨x, hx, hxf⟩ := h
  cases hxf with
  | @holds q o _ _ hq ho =>
    have hback := (hp.outcome.pointsTo_back hm.known.state hx).imp_right And.right
    exact State.Has.back hm.sound.wf hp.effect.le (x := .holds q o) hback (.holds hq ho)

/-- What is in time stays so. -/
theorem Performs.timed (h : m.Timed g m.state.Calls f) :
    Timed g { state := s', agenda := ts ++ rest } m.state.Calls f := by
  have hopen : ∀ {P}, m.Open g P → Open g { state := s', agenda := ts ++ rest } P :=
    fun hP C v hv => (hP C v hv).imp (hp.due hg hm kept_reached)
      fun ⟨he, hE⟩ => ⟨he, hp.expects hg hm hE⟩
  cases f with
  | holds | flow => exact hopen h
  | call E => exact h.imp_left (hp.due hg hm kept_reached)
  | asks C => exact hp.due hg hm kept_reached h
  | _ => trivial

variable (ht : m.Timely g)

include ht

omit hg in
/-- After a step a variable that holds objects belongs to a reached method, or it is early and its
method was called before the step. -/
theorem Timely.held_step {C : Ctx} {v : Var} (h : s'.Settled (.holds (.var C v) O)) :
    s'.Settled (.reached ⟨C, v.method⟩) ∨ g.program.Early v ∧ m.state.Calls ⟨C, v.method⟩ := by
  have hhas := hp.has_of_holds hm h
  obtain ⟨x, hx, hxf⟩ := h
  cases hxf with
  | @holds q o _ _ hq ho =>
    rcases hp.outcome.pointsTo_back hm.known.state hx with hold | ⟨rfl, -⟩
    · have hset := State.Settled.back hm.sound.wf hp.effect.le (x := .holds q o) hold (.holds hq ho)
      exact (ht.held hset).imp_left hp.effect.settled
    · -- the object waited; then nothing is owed, so what was to come is there
      rcases ht.timed (.inl hhas) C v rfl with hready | ⟨hearly, E, hE, hdue⟩
      · exact .inl (hp.effect.settled ((hm.has_of_due hp.agenda hready).settled id))
      · exact .inr ⟨hearly, E, hE, hm.has_of_due hp.agenda hdue⟩

theorem Timely.called_step {E : CallEdge (At CallSite) (At MethodId)}
    (h : s'.Settled (.call E)) : Ready g { state := s', agenda := ts ++ rest } E.home := by
  obtain ⟨x, hx, hxf⟩ := h
  cases hxf with
  | @call e _ hE =>
    refine hp.due hg hm kept_reached ?_
    rcases hp.outcome.edges_back hm.known.state hx with hold | ⟨-, l, hl⟩
    · exact ht.called (State.Settled.back hm.sound.wf hp.effect.le (x := .call e) hold (.call hE))
    · have hwaits : e ∈ m.state.work.calls.toList := hl ▸ .head _
      obtain ⟨E', hE'⟩ := hm.sound.wf.edgeIs (.inr hwaits)
      cases (hE'.mono hp.effect.le).unique hE
      -- no edge waits before the first one
      have hfirst : m.state.work.calls.toList = [] ++ e :: l := hl
      exact (ht.queue hfirst hE').resolve_right (by simp)

/-- **What is in time is closed under the rules**, as far as premises are settled. -/
theorem Timely.stableOn (hm' : Steady g { state := s', agenda := ts ++ rest }) :
    StableOn g s'.Settled fun f =>
      Timed g { state := s', agenda := ts ++ rest } m.state.Calls f ∧ Derivable g f := by
  have hstable := Derivable.stableOn hg.wellFormed s'.Settled
  have hexpects : ∀ {M}, m.state.Calls M → Expects g { state := s', agenda := ts ++ rest } M := by
    rintro M ⟨E, hE, hhas⟩
    exact ⟨E, hE, hp.due hg hm kept_call (.inl hhas)⟩
  refine ⟨fun {h f} hset hD hf => ⟨?_, hstable.follow hset hD.2 hf⟩,
    fun he hO hP => ⟨he.1, hstable.flow he.2 hO.2 hP⟩,
    fun {O C d v} hO hC hd hv => ⟨?_, hstable.current hO.2 hC.2 hd hv⟩,
    fun {C v O f} ho hset hD htr hf => ⟨?_, hstable.copy ho hset hD.2 htr hf⟩,
    fun he => hstable.fits he.2⟩
  · cases hf with
    | announce | init | super | clinit | reach => trivial
    | stmt htr hd hst hf =>
      refine Ready.timed fun N hN => ?_
      rw [hf.home hN]
      exact .inl hset.has
    | ask ho htr hM =>
      refine Ready.timed fun N hN => ?_
      rw [← Option.some.inj hN, ← Program.eq_threadCurrent hM]
      exact .inl hset.has
    | wire hf =>
      refine Ready.timed fun N hN => ?_
      rcases hf.home hN with rfl | rfl
      · exact ht.called_step hg hm hp hset
      · exact hm'.ready_callee hset
    | @use C v O f htr hf =>
      -- a call on the object, written or modelled: the edge precedes its receiver
      have hbind : ∀ {kind S n f}, BindFact g kind S O n.id f → Follows g (.holds (.var C v) O)
          (.call (g.recvEdge kind S O n.id)) → g.program.method? n.id = some n →
          n.isStatic = false → S.ctx = C → S.item.method = v.method →
          Timed g { state := s', agenda := ts ++ rest } m.state.Calls f := by
        intro kind S n f hf hcall hn hstatic hC hv
        have hhome : (g.recvEdge kind S O n.id).home = ⟨C, v.method⟩ := by
          rw [CallEdge.home, Setup.recvEdge, hC, hv]
        cases hf with
        | call =>
          change Ready _ _ (g.recvEdge kind S O n.id).home ∨ m.state.Calls _
          rw [hhome]
          exact (ht.held_step hm hp hset).imp (fun h => .inl h.has) And.right
        | this =>
          rintro C' v' ⟨⟩
          exact .inr ⟨.receiver hn hstatic, _, rfl, hm'.mindful.follow kept_call hset hcall⟩
      cases hf with
      | store | storeElem => exact open_of_home rfl
      | start => trivial
      | load hd hs hy =>
        rintro C' v' ⟨⟩
        exact (ht.held_step hm hp hset).imp (fun h => .inl h.has)
          fun ⟨he, hcalls⟩ => ⟨.load hd hs hy he, hexpects hcalls⟩
      | loadElem hd hs hy =>
        rintro C' v' ⟨⟩
        exact (ht.held_step hm hp hset).imp (fun h => .inl h.has)
          fun ⟨he, hcalls⟩ => ⟨.loadElem hd hs hy he, hexpects hcalls⟩
      | call hd hs hv hn hf =>
        exact hbind hf (.use htr (.call hd hs hv hn .call)) (hg.wellFormed.callee?_spec hn).2
          (Program.isStatic_of_instance hn) rfl rfl
      | run ho hth hn hf =>
        exact hbind hf (.use htr (.run ho hth hn .call)) (hg.wellFormed.runMethod?_spec hn)
          (Program.isStatic_of_instance hn) rfl rfl
  · exact Ready.open hC.1
  · cases hf with
    | load n hp' hd hs hc hx ht' =>
      rintro C' v' ⟨⟩
      exact (ht.held_step hm hp hset).imp (fun h => .inl h.has)
        fun ⟨he, hcalls⟩ => ⟨.copy n hd hs hc hx he, hexpects hcalls⟩
    | store => exact open_of_home rfl

/-- **A step keeps everything in time.** -/
theorem Timely.step (hm' : Steady g { state := s', agenda := ts ++ rest }) :
    Timely g { state := s', agenda := ts ++ rest } := by
  have hdue : ∀ {f}, Due g { state := s', agenda := ts ++ rest } f →
      Timed g { state := s', agenda := ts ++ rest } m.state.Calls f := fun hf =>
    (hp.mem_of_due hm (ht.stableOn hg hm hp hm')
      (fun f hf => ⟨hp.timed hg hm (ht.timed hf), hm.sound.derivable_of_due hf⟩) hf).1
  refine ⟨fun h => (ht.held_step hm hp h).imp_right fun ⟨he, hc⟩ => ⟨he, hp.calls hc⟩,
    fun {f} hf => ?_, ht.called_step hg hm hp, fun {pre e post E} hsplit hE => ?_⟩
  · have h := hdue hf
    cases f with
    | call E => exact h.imp_right hp.calls
    | _ => exact h
  · obtain ⟨front, l, new, hold, hnew, hfront⟩ := hp.outcome.queue hm.known.state
    -- an edge in the queue means in the old state what it means in the new one
    have hback : ∀ {e E}, e ∈ m.state.work.calls.toList → s'.registry.EdgeIs e E →
        m.state.registry.EdgeIs e E := by
      intro e E he hE
      obtain ⟨E', hE'⟩ := hm.sound.wf.edgeIs (.inr he)
      cases (hE'.mono hp.effect.le).unique hE
      exact hE'
    -- an edge that waited is now in the call graph, or waits before the new ones
    have hwaited : ∀ {e' E'}, e' ∈ front → m.state.registry.EdgeIs e' E' →
        Ready g { state := s', agenda := ts ++ rest } E'.callee := by
      intro e' E' he' hE'
      exact hm'.ready_callee ⟨.call e', hfront e' he', .call (hE'.mono hp.effect.le)⟩
    rcases exists_of_append_eq (hnew.symm.trans hsplit) with ⟨k, hk⟩ | ⟨k, rfl⟩
    · -- the edge waited before
      have hq : m.state.work.calls.toList = (front ++ pre) ++ e :: k := by
        rw [hold, hk, append_assoc]
      have hmemOld : e ∈ m.state.work.calls.toList := by
        rw [hq]
        simp
      rcases ht.queue hq (hback hmemOld hE) with hready | ⟨e', he', E', hE', hcallee⟩
      · exact .inl (hp.due hg hm kept_reached hready)
      · rcases mem_append.mp he' with he' | he'
        · exact .inl (hcallee ▸ hwaited he' hE')
        · exact .inr ⟨e', he', E', hE'.mono hp.effect.le, hcallee⟩
    · -- the edge is new, and an edge that called its caller before the step stands before it
      have hmemNew : e ∈ s'.work.calls.toList := by
        have h := hsplit
        dsimp only at h
        rw [h]
        simp
      have htimed : Timed g { state := s', agenda := ts ++ rest } m.state.Calls (.call E) :=
        hdue (.inl ⟨.call e, .inr hmemNew, .call hE⟩)
      rcases htimed with hready | ⟨E', hE', x, hx | hx, hxE⟩
      · exact .inl hready
      · left
        rw [← hE']
        exact hm'.ready_callee (hp.effect.settled ⟨x, hx, hxE⟩)
      · cases hxE with
        | @call e' _ hE'' =>
          have he' : e' ∈ front ++ l := hold ▸ hx
          rcases mem_append.mp he' with he' | he'
          · exact .inl (hE' ▸ hwaited he' hE'')
          · exact .inr ⟨e', mem_append_left _ he', E', hE''.mono hp.effect.le, hE'⟩

end Step

/-- **When a call edge is taken, its caller is reached.** -/
theorem Timely.home_reached (ht : m.Timely g) (hm : m.Steady g) {rest : List Task}
    (hA : m.agenda = .drain :: rest) {e : CCallEdge} {l : List CCallEdge}
    (hl : m.state.work.calls.toList = e :: l) (hE : m.state.registry.EdgeIs e E) :
    m.state.Settled (.reached E.home) := by
  -- no edge waits before the first one
  have hfirst : m.state.work.calls.toList = [] ++ e :: l := hl
  have hready := (ht.queue hfirst hE).resolve_right (by simp)
  exact (hm.has_of_due hA hready).settled id

theorem timely_run (hg : g.Tame) (script : Script) (n : Nat) :
    ((g.initial script).run g n).Timely g :=
  (Steady.induction hg (timely_initial g script) (fun hm hp hm' ht => ht.step hg hm hp hm') n).2

end Machine

end HeapFlow
