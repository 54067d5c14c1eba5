import HeapFlow.Proofs.Altering

/-!
# What a task can do

The actions of observers and of scripts make only changes as well, so it can be said once and for
all what a task does to a state and what it leaves to do (`Outcome`). Everything that is shown about
all runs is shown from this list. A task that fails has done some of what it would have done; the
list covers that too.
-/

namespace HeapFlow

open List

namespace Act

section Models

variable {g : Setup} {lic : Licence} {s : State}

theorem does_enter (implicit : Bool) : Does g lic (enter g implicit) s g.Calm := by
  refine .pure fun u hu => ?_
  rcases mem_append.mp hu with hu | hu
  · obtain ⟨m, -, rfl⟩ := mem_map.mp hu
    trivial
  · obtain ⟨m, -, rfl⟩ := mem_map.mp hu
    trivial

theorem does_mock (desc : String) (t : Ty) (c : Option MethodId) :
    Does g lic (register (·.request g.merging (.mock desc .none t c))) s
      fun i s' => s'.registry.HasAbstract i :=
  does_request rfl fun _ _ => trivial

/-- An entry method is given its arguments. -/
theorem does_giveArguments (m : MethodId) : Does g lic (giveArguments g m) s fun _ _ => True := by
  unfold giveArguments
  split
  · exact .pure trivial
  · split
    · exact .pure trivial
    · split
      · refine (does_mock _ _ _).bind fun o s₁ _ ho => ?_
        refine (does_object ho _).bind fun args s₂ _ hargs => ?_
        dsimp only
        split
        · refine (does_mock _ _ _).bind fun i s₃ h₃ hi => ?_
          refine (does_object hi _).bind fun elem s₄ h₄ helem => ?_
          refine (does_pointer _).bind fun p s₅ h₅ hp => ?_
          refine (does_addObject hp (helem.mono h₅.le)).seq fun s₆ h₆ => ?_
          exact does_addToVar (hargs.mono (((h₃.trans h₄).trans h₅).trans h₆).le) _ _
        · exact does_addToVar hargs _ _
      · exact .pure trivial

theorem calm_initializations (m : MethodId) : g.Calm (g.program.initializations m) s := by
  intro u hu
  obtain ⟨d, -, c, -, rfl⟩ := Program.mem_initializations_iff.mp hu
  trivial

theorem does_returnThreads {t : Objects} (ht : ∀ o ∈ t, s.registry.HasObject o) (c : CtxId) :
    Does g lic (returnThreads g c t) s fun _ _ => True := by
  unfold returnThreads
  split
  · exact .pure trivial
  · refine Does.then_pure (.forIn fun v _ s₁ h₁ => ?_) fun _ _ => trivial
    refine (does_variablePtr _ _).bind fun p s₂ h₂ hp => ?_
    exact (does_addObjects hp fun o ho => (ht o ho).mono (h₁.trans h₂).le).then_pure
      fun _ _ => trivial

variable {delta : Objects}

/-- Threads are started. -/
theorem does_startThreads (hg : g.Honest) (hs : s.Known)
    (hdelta : ∀ o ∈ delta, s.registry.HasObject o) (c : CtxId) :
    Does g lic (startThreads g c delta) s fun _ _ => True := by
  refine (does_site _ _).bind fun i s₁ h₁ _ => ?_
  refine Does.seq (Q := fun _ _ => True) (.forIn fun o ho s₂ h₂ => Does.get_bind ?_)
    fun s₂ h₂ => Does.get_bind ?_
  · dsimp only
    split
    · refine (does_callOn ?_ _ _ _).then_pure fun _ _ => trivial
      exact (hdelta o (OrderedSet.mem_def.mpr ho)).mono (h₁.trans h₂).le
    · exact .pure trivial
  · have hs₂ : s₂.Known := hs.changes hg (h₁.trans h₂).changes
    have hdelta₂ : ∀ o ∈ delta, s₂.registry.HasObject o :=
      fun o ho => (hdelta o ho).mono (h₁.trans h₂).le
    refine Does.seq (Q := fun _ _ => True)
      (.modify (.of_change (.threads fun o ho => ?_) rfl rfl) trivial)
      fun s₃ h₃ => .guard (fun _ => ?_) trivial
    · rcases OrderedSet.mem_union.mp ho with ho | ho
      · exact hs₂.running o ho
      · exact hdelta₂ o ho
    · refine Does.then_pure (.forIn fun k _ s₄ h₄ => ?_) fun _ _ => trivial
      refine (does_returnThreads (fun o ho => ?_) k).then_pure fun _ _ => trivial
      exact (hdelta₂ o (OrderedSet.mem_diff.mp ho).1).mono (h₃.trans h₄).le

theorem does_threadsGrown (hg : g.Honest) (hs : s.Known)
    (hdelta : ∀ o ∈ delta, s.registry.HasObject o) (p : PtrId) :
    Does g lic (threadsGrown g p delta) s fun _ _ => True := by
  refine .guard (fun _ => Does.get_bind ?_) trivial
  split
  · exact .guard (fun _ => does_startThreads hg hs hdelta _) trivial
  · exact .pure trivial

theorem does_threadsReached (hs : s.Known) (m : CMethodId) :
    Does g lic (threadsReached g m) s fun _ _ => True := by
  refine Does.get_bind (.guard (fun _ => ?_) trivial)
  refine Does.seq (Q := fun _ _ => True)
    (.set (.of_change (.threads hs.running) rfl rfl) trivial) fun s₁ h₁ => ?_
  exact does_returnThreads (fun o ho => (hs.running o ho).mono h₁.le) _

theorem does_copiesReached (hmem : lic.mem .arrayCopy) (m : MethodId) :
    Does g lic (copiesReached g m) s fun _ _ => True := by
  unfold copiesReached
  split
  · refine Does.then_pure (.forIn fun x _ s₁ _ => ?_) fun _ _ => trivial
    dsimp only
    split
    · split
      · split
        · split
          · exact (does_memory (s₁.alike_copies hmem _) rfl).then_pure fun _ _ => trivial
          · exact .throw _
        · exact .throw _
      · exact .pure trivial
    · exact .pure trivial
  · exact .pure trivial

/-- An array is joined with its copies. -/
theorem does_copiesGrown (p : PtrId) (delta : Objects) :
    Does g lic (copiesGrown g p delta) s fun _ _ => True := by
  refine Does.get_bind ?_
  split
  · refine Does.get_bind ?_
    dsimp only
    refine Does.seq (Q := fun _ _ => True) (.forIn fun x _ s₁ _ => ?_) fun s₁ _ => ?_
    · refine .guard (fun _ => ?_) trivial
      refine (does_variablePtr _ _).bind fun dst s₂ _ hdst => Does.get_bind ?_
      refine Does.then_pure (.forIn fun o _ s₃ h₃ => ?_) fun _ _ => trivial
      exact (does_loadElems (hdst.mono h₃.le) o).then_pure fun _ _ => trivial
    · refine Does.then_pure (.forIn fun x _ s₂ _ => ?_) fun _ _ => trivial
      refine .guard (fun _ => ?_) trivial
      refine (does_variablePtr _ _).bind fun src s₃ _ _ => Does.get_bind ?_
      refine Does.then_pure (.forIn fun o _ s₄ _ => ?_) fun _ _ => trivial
      exact (does_storeElems src o).then_pure fun _ _ => trivial
  · exact .pure trivial

end Models

section Monitors

variable {g : Setup} {lic : Licence} {s : State}

theorem does_violation (hmem : lic.mem .checker) (early announced : String) :
    Does g lic (violation early announced) s fun _ _ => True :=
  does_memory (s.alike_checker hmem _) rfl

theorem does_checkMethod (hmem : lic.mem .checker) (m : CMethodId) :
    Does g lic (checkMethod m) s fun _ _ => True := by
  refine Does.get_bind ?_
  dsimp only
  split
  · refine (does_violation hmem _ _).seq fun s₁ _ => ?_
    exact does_memory (s₁.alike_checker hmem _) rfl
  · exact does_memory (s.alike_checker hmem _) rfl

theorem does_checkVariable (hmem : lic.mem .checker) (c : CtxId) (v : Var) :
    Does g lic (checkVariable g c v) s fun _ _ => True := by
  refine Does.get_bind (.guard (fun _ => ?_) trivial)
  have hlate : ∀ {b : Prop} [Decidable b] {x y : String} {s' : State},
      Does g lic (if b then violation x y else Pure.pure ()) s' fun _ _ => True :=
    .guard (fun _ => does_violation hmem _ _) trivial
  dsimp only
  split
  · exact (does_violation hmem _ _).seq fun _ _ => hlate
  · exact hlate

theorem does_checkPointer (hmem : lic.mem .checker) (p : PtrId) :
    Does g lic (checkPointer g p) s fun _ _ => True := by
  refine Does.get_bind ?_
  split
  · exact does_checkVariable hmem _ _
  · exact .throw _

/-- The checker remembers something. -/
theorem does_check (hmem : lic.mem .checker) (e : Event) :
    Does g lic (check g e) s fun _ _ => True := by
  cases e with
  | method m => exact does_memory (s.alike_checker hmem _) rfl
  | methodIn m => exact does_checkMethod hmem m
  | grown p delta => exact does_checkPointer hmem p
  | _ => exact .pure trivial

theorem does_record (lead : String) (scripted : Bool) (e : Event) :
    Does g lic (record g lead scripted e) s g.Calm := by
  refine Does.get_bind ?_
  refine Does.seq (Q := fun _ _ => True)
    (.set (.of_change (.other (by constructor <;> intros <;> rfl)) rfl rfl) trivial)
    fun s₁ _ => .guard (fun _ => ?_) calm_nil
  refine (does_memory (by constructor <;> intros <;> rfl) rfl).then_pure fun s₂ _ u hu => ?_
  obtain ⟨h, -, hu⟩ := mem_flatMap.mp hu
  obtain ⟨op, -, rfl⟩ := mem_map.mp hu
  trivial

end Monitors

section Operations

variable {g : Setup} {lic : Licence} {s : State}
  (hp : ∀ p ∈ lic.program?, p = g.program ∧ p.WellFormed)

theorem does_context (es : List Elem) : Does g lic (register (·.context es)) s fun _ _ => True :=
  does_register (Registry.le_context _ _) rfl trivial

include hp

/-- What an operation names is entered into the registry first. -/
theorem does_enterObject (o : ObjectSpec) :
    Does g lic (enterObject g o) s fun i s' => s'.registry.HasObject i := by
  refine (does_context _).bind fun c s₁ _ _ => ?_
  split
  · exact .throw _
  · rename_i hx
    refine (does_request (HeapRequest.isSome_wanted? hx _ _) fun p hp' => ?_).bind
      fun i s₂ _ hi => does_object hi c
    obtain ⟨rfl, hwf⟩ := hp p hp'
    exact HeapRequest.occurs_ask hwf hx

theorem does_enterObjects (l : List ObjectSpec) :
    Does g lic (l.mapM (enterObject g)) s fun is s' => ∀ i ∈ is, s'.registry.HasObject i := by
  induction l generalizing s with
  | nil => exact .pure fun _ h => by cases h
  | cons o l ih =>
    rw [mapM_cons]
    refine (does_enterObject hp o).bind fun i s₁ _ hi => ?_
    refine ih.bind fun is s₂ h₂ his => .pure fun j hj => ?_
    rcases mem_cons.mp hj with rfl | hj
    · exact hi.mono h₂.le
    · exact his j hj

theorem does_enterParts (p : PointerSpec) : Does g lic (enterParts g p) s fun _ _ => True := by
  cases p with
  | var c v => exact (does_context _).bind fun _ _ _ _ => .pure trivial
  | field o | elems o => exact (does_enterObject hp o).bind fun _ _ _ _ => .pure trivial
  | static f => exact .pure trivial

theorem does_enterPointer (p : PointerSpec) :
    Does g lic (enterPointer g p) s fun i s' => s'.registry.HasPointer i :=
  (does_enterParts hp p).bind fun x _ _ _ => does_pointer x

omit hp in
theorem does_enterMethod (m : MethodSpec) :
    Does g lic (enterMethod m) s fun i s' => s'.registry.HasMethod i :=
  (does_context _).bind fun c _ _ _ => does_method c _

theorem does_enterTransfer (t : TransferSpec) :
    Does g lic (enterTransfer g t) s fun t s' => ∀ o, t = .always o → s'.registry.HasObject o := by
  cases t with
  | always o =>
    refine (does_enterObject hp o).bind fun i s₁ _ hi => .pure fun x hx => ?_
    cases hx
    exact hi
  | _ => exact .pure (by nofun)

/-- **An operation of a script.** -/
theorem does_operate (hd : lic.draws) (hmem : lic.mem .checker) (op : Op) :
    Does g lic (operate g op) s fun x => g.Calm x.1 := by
  cases op with
  | addObjects p objs =>
    refine (does_enterParts hp p).bind fun x s₁ _ _ => ?_
    refine (does_enterObjects hp objs).bind fun l s₂ _ hl => ?_
    refine (does_pointer x).bind fun q s₃ h₃ hq => ?_
    refine (does_addObjects hq fun o ho => ?_).then_pure fun _ _ => calm_nil
    exact (hl o (OrderedSet.mem_ofList.mp ho)).mono h₃.le
  | addFlow src dst kind t =>
    refine (does_enterTransfer hp t).bind fun t s₁ _ ht => ?_
    refine (does_enterPointer hp src).bind fun a s₂ h₂ _ => ?_
    refine (does_enterPointer hp dst).bind fun b s₃ h₃ hb => ?_
    exact (does_addFlow hb fun o ho => (ht o ho).mono (h₂.trans h₃).le).then_pure
      fun _ _ => calm_nil
  | addCall kind caller index callee =>
    refine (does_context _).bind fun c s₁ _ _ => (does_site _ _).bind fun i s₂ _ _ => ?_
    refine (does_enterMethod callee).bind fun m s₃ _ hm => ?_
    exact (does_addCall hm).then_pure fun _ _ => calm_nil
  | reach m =>
    refine (does_enterMethod m).bind fun i s₁ _ hi => .pure fun u hu => ?_
    rw [mem_singleton.mp hu]
    exact hi
  | entry m => exact (does_entry hd m).bind fun ts s₁ _ hts => Does.get_bind (.pure hts)
  | init c =>
    refine .pure fun u hu => ?_
    rw [mem_singleton.mp hu]
    trivial
  | look p => exact (does_enterPointer hp p).bind fun i s₁ _ _ => Does.get_bind (.pure calm_nil)
  | result =>
    refine Does.get_bind ?_
    split
    · exact .pure calm_nil
    · exact .throw _
  | solve => exact .throw _
  | checkMethod m =>
    refine (does_enterMethod m).bind fun i s₁ _ _ => ?_
    exact (does_checkMethod hmem i).then_pure fun _ _ => calm_nil
  | checkPointer p =>
    refine (does_enterPointer hp p).bind fun i s₁ _ _ => ?_
    exact (does_checkPointer hmem i).then_pure fun _ _ => calm_nil

theorem does_carryOut (hd : lic.draws) (hmem : lic.mem .checker) (op : Op) :
    Does g lic (carryOut g op) s g.Calm := by
  have hop := does_operate (s := s) hp hd hmem op
  unfold Does at hop ⊢
  unfold carryOut
  cases h : operate g op s with
  | ok x s' =>
    rw [h] at hop
    refine ⟨hop.1, fun u hu => ?_⟩
    rcases mem_append.mp hu with hu | hu
    · exact hop.2 u hu
    · rw [mem_singleton.mp hu]
      trivial
  | error e s' =>
    rw [h] at hop
    exact ⟨hop.trans (.of_change (.other (by constructor <;> intros <;> rfl)) rfl rfl), calm_nil⟩

omit hp in
theorem does_answer (a : OpAnswer) : Does g lic (answer a) s fun _ _ => True := by
  cases a with
  | _ => exact does_memory (by constructor <;> intros <;> rfl) rfl

end Operations

section Tasks

variable {g : Setup} {lic : Licence} {s : State}

/-- **What an observer does** is change the state and leave quiet tasks to do. -/
theorem does_react (hg : g.Honest) (hs : s.Known) {e : Event} (he : e.Known s.registry)
    {o : Observer} (hmem : lic.mem o) : Does g lic (react g e o) s g.Calm := by
  unfold react
  split
  · split
    · exact does_enter _
    · exact .pure calm_nil
  · split
    · exact .pure (calm_initializations _)
    · exact .pure calm_nil
  · split
    · exact (does_threadsGrown hg hs he.2.2 _).then_pure fun _ _ => calm_nil
    · exact (does_threadsReached hs _).then_pure fun _ _ => calm_nil
    · exact .pure calm_nil
  · split
    · exact (does_copiesReached hmem _).then_pure fun _ _ => calm_nil
    · exact (does_copiesGrown _ _).then_pure fun _ _ => calm_nil
    · exact .pure calm_nil
  · exact (does_check hmem e).then_pure fun _ _ => calm_nil
  · exact (does_memory (by constructor <;> intros <;> rfl) rfl).then_pure fun _ _ => calm_nil
  · exact does_record _ _ _

/-- Tasks other than news, reached methods, call edges, waiting work and the end make changes and
leave quiet tasks to do. -/
theorem does_perform {p? : Option Program} (hp : ∀ p ∈ p?, p = g.program ∧ p.WellFormed) {t : Task}
    (ht : t.Known g s.registry) (hr : t.Routine) (hfinish : t ≠ .finish) :
    Does g ⟨t.Tells, True, p?⟩ (perform g t) s g.Calm := by
  cases t with
  | notify | reach | wire | drain => exact hr.elim
  | entry m => exact does_entry trivial m
  | arguments m => exact (does_giveArguments m).then_pure fun _ _ => calm_nil
  | enact m i =>
    refine Does.get_bind ?_
    dsimp only
    split
    · rename_i d st hd hst
      refine does_enact trivial (fun p hp' => ?_) _
      obtain ⟨rfl, hwf⟩ := hp p hp'
      rw [Program.stmt?, hd] at hst
      rw [← hwf.id_eq hd] at hd
      exact ⟨hd, hst⟩
    · exact .pure calm_nil
  | initClass c => exact does_initClass trivial c
  | clinit c => exact does_clinit c
  | receive c i objs => exact does_receive ht c i
  | dispatch i o => exact does_dispatch ht i
  | op o => exact does_carryOut hp trivial trivial o
  | answer a => exact (does_answer a).then_pure fun _ _ => calm_nil
  | finish => exact absurd rfl hfinish

end Tasks

end Act

/-! ### Outcomes -/

def Program.bodySize (p : Program) (m : MethodId) : Nat :=
  match p.method? m with
  | some d => d.body.length
  | none => 0

/-- The state after a method whose body counts has become reachable. -/
def State.reached (s : State) (m : CMethodId) : State :=
  let id := s.registry.methodId m
  { s with
    calls := (s.calls.addReachable m).2
    methods := if s.methods.contains id then s.methods else s.methods ++ [id] }

/-- What is to be done when a method has become reachable: the first time, the method is told; then
the statements; then the method in its context is told. -/
def Setup.bodyTasks (g : Setup) (s : State) (m : CMethodId) : List Task :=
  let id := s.registry.methodId m
  (if s.methods.contains id then [] else [.notify (.method id) g.observers]) ++
    (List.range (g.program.bodySize id)).map (Task.enact m) ++ [.notify (.methodIn m) g.observers]

theorem Setup.mem_bodyTasks {g : Setup} {s : State} {m : CMethodId} {t : Task}
    (h : t ∈ g.bodyTasks s m) :
    (s.registry.methodId m ∉ s.methods ∧
      t = .notify (.method (s.registry.methodId m)) g.observers) ∨
      (∃ i, t = .enact m i) ∨ t = .notify (.methodIn m) g.observers := by
  simp only [bodyTasks, mem_append, mem_map, mem_singleton] at h
  rcases h with (h | ⟨i, -, rfl⟩) | rfl
  · split at h
    · cases h
    next hnew =>
      exact .inl ⟨fun hm => hnew (contains_iff_mem.mpr hm), mem_singleton.mp h⟩
  · exact .inr (.inl ⟨i, rfl⟩)
  · exact .inr (.inr rfl)

/-- **What a task can do**: from the state `s` it leads to another one and leaves some tasks to do,
or fails. -/
inductive Outcome (g : Setup) (s : State) : Task → Option (List Task) → State → Prop where
  | routine {t : Task} {r : Option (List Task)} {s' : State} (ht : t.Routine)
      (h : Changes g t.Tells s s') (hr : ∀ ts ∈ r, g.Calm ts s') : Outcome g s t r s'
  | told (e : Event) : Outcome g s (.notify e []) (some []) s
  | tell {e : Event} {o : Observer} {os : List Observer} {r : Option (List Task)} {s' : State}
      (h : Changes g (· = o) s s')
      (hr : ∀ ts ∈ r, ∃ us, ts = us ++ [.notify e os] ∧ g.Calm us s') :
      Outcome g s (.notify e (o :: os)) r s'
  | wire {e : CCallEdge} {r : Option (List Task)} {s' : State}
      (h : Changes g (fun _ => False) s s')
      (hr : ∀ ts ∈ r, ts = [.notify (.call e) g.observers]) : Outcome g s (.wire e) r s'
  | again {m : CMethodId} (hm : m ∈ s.calls.reachable) : Outcome g s (.reach m) (some []) s
  | skip {m : CMethodId} (hm : m ∉ s.calls.reachable)
      (ht : ¬ g.Translates (s.registry.methodId m)) :
      Outcome g s (.reach m) (some []) { s with calls := (s.calls.addReachable m).2 }
  | reach {m : CMethodId} (hm : m ∉ s.calls.reachable)
      (ht : g.Translates (s.registry.methodId m)) :
      Outcome g s (.reach m) (some (g.bodyTasks s m)) (s.reached m)
  | idle (h : s.work.poll = none) : Outcome g s .drain (some []) s
  | deliver {p : PtrId} {t : Objects} {w : WorkList} (h : s.work.poll = some (.objects p t, w))
      (hp : (t.diff (s.pointsTo p)).isEmpty = true ∨
        ∀ c v, s.registry.pointers.get? p = some (.var c v) → ¬ g.Translates v.method) :
      Outcome g s .drain (some [.drain]) (State.delivered g { s with work := w } p t)
  | grow {p : PtrId} {t : Objects} {w : WorkList} {c : CtxId} {v : Var} {r : Option (List Task)}
      {s' : State} (h : s.work.poll = some (.objects p t, w))
      (hnew : (t.diff (s.pointsTo p)).isEmpty = false)
      (hp : s.registry.pointers.get? p = some (.var c v)) (ht : g.Translates v.method)
      (hc : Changes g (fun _ => False) (State.delivered g { s with work := w } p t) s')
      (hr : ∀ ts ∈ r, ∃ us, ts = us ++
        [.notify (.grown p (t.diff (s.pointsTo p))) g.observers, .drain] ∧ g.Calm us s' ∧
          ∀ u ∈ us, ∃ i, u = .receive c i (t.diff (s.pointsTo p)).toList) :
      Outcome g s .drain r s'
  | known {e : CCallEdge} {w : WorkList} (h : s.work.poll = some (.call e, w))
      (he : e ∈ s.calls.edges) : Outcome g s .drain (some [.drain]) { s with work := w }
  | connect {e : CCallEdge} {w : WorkList} {r : Option (List Task)} {s' : State}
      (h : s.work.poll = some (.call e, w)) (he : e ∉ s.calls.edges)
      (hc : Changes g (fun _ => False) { s with work := w, calls := (s.calls.addEdge e).2 } s')
      (hr : ∀ ts ∈ r, ts = [.reach e.callee, .wire e, .drain]) : Outcome g s .drain r s'

/-- A task does one of these things, and minds what it may not touch. -/
structure Task.Performed (g : Setup) (p? : Option Program) (draws : Prop) (s : State) (t : Task)
    (r : Option (List Task)) (s' : State) : Prop where
  outcome : Outcome g s t r s'
  minds : s.Minds p? draws s'

namespace Act

section Perform

variable {g : Setup} {l : Licence} {p? : Option Program} {draws : Prop} {s : State}

/-- What an action answers, or that it fails, and the state it leads to. -/
def Results {α : Type} (a : Act α) (s : State) (P : Option α → State → Prop) : Prop :=
  match a s with
  | .ok x s' => P (some x) s'
  | .error _ s' => P none s'

variable {α : Type} {P : Option α → State → Prop} {a b : Act α} {s' : State} {w : WorkList}
  {t : Objects} {e : CCallEdge}

theorem Results.of_ok (h : Results a s P) {x : α} (hx : a s = .ok x s') : P (some x) s' := by
  unfold Results at h
  rwa [hx] at h

theorem Results.of_error (h : Results a s P) {e : Failure} (hx : a s = .error e s') :
    P none s' := by
  unfold Results at h
  rwa [hx] at h

theorem Results.imp {P' : Option α → State → Prop} (h : Results a s P)
    (himp : ∀ r s', P r s' → P' r s') : Results a s P' := by
  unfold Results at h ⊢
  cases hx : a s with
  | ok x s' | error e s' =>
    rw [hx] at h
    exact himp _ _ h

theorem Does.results {Q : α → State → Prop} (h : Does g l a s Q)
    (hP : ∀ r s', Deeds g l s s' → (∀ x ∈ r, Q x s') → P r s') : Results a s P := by
  unfold Does at h
  unfold Results
  cases hx : a s with
  | ok x s' =>
    rw [hx] at h
    refine hP _ _ h.1 fun y hy => ?_
    cases hy
    exact h.2
  | error e s' =>
    rw [hx] at h
    exact hP _ _ h fun _ hy => by cases hy

theorem performed_notify (hg : g.Honest) (hs : s.Known) {e : Event} {os : List Observer}
    (he : e.Known s.registry) :
    Results (notify g e os) s (Task.Performed g p? draws s (.notify e os)) := by
  cases os with
  | nil => exact ⟨.told e, .refl s⟩
  | cons o os =>
    have hreact : Does g ⟨(· = o), draws, p?⟩ (react g e o) s g.Calm := does_react hg hs he rfl
    have h : Does g ⟨(· = o), draws, p?⟩ (notify g e (o :: os)) s
        fun ts s' => ∃ us, ts = us ++ [.notify e os] ∧ g.Calm us s' :=
      hreact.bind fun us s' _ hus => .pure ⟨us, rfl, hus⟩
    exact h.results fun r s' hc hr => ⟨.tell hc.changes hr, hc.minds⟩

theorem not_translates_iff {m : MethodId} :
    ¬ g.Translates m ↔ (g.onlyApp && !g.program.isApplication m) = true := by
  simp [Setup.Translates]

/-- A method becomes reachable. -/
theorem performed_reach (hd : draws) (m : CMethodId) :
    Results (reach g m) s (Task.Performed g p? draws s (.reach m)) := by
  unfold Results
  by_cases hm : m ∈ s.calls.reachable
  · have h : reach g m s = .ok [] s := by
      simp only [reach, get_bind_eq, set_bind_eq, s.calls.addReachable_of_mem hm]
      rfl
    rw [h]
    exact ⟨.again hm, .refl s⟩
  obtain ⟨c, hadd, -, -⟩ := s.calls.addReachable_of_not_mem hm
  have hc : c = (s.calls.addReachable m).2 := by rw [hadd]
  by_cases ht : g.Translates (s.registry.methodId m)
  · have hcounts := Bool.eq_false_iff.mpr fun h => not_translates_iff.mpr h ht
    have h : reach g m s = .ok (g.bodyTasks s m) (s.reached m) := by
      simp only [reach, get_bind_eq, set_bind_eq, hadd, hcounts, State.reached]
      rfl
    rw [h]
    exact ⟨.reach hm ht, .of_drawn hd rfl rfl⟩
  · have h : reach g m s = .ok [] { s with calls := (s.calls.addReachable m).2 } := by
      simp only [reach, get_bind_eq, set_bind_eq, hadd, not_translates_iff.mp ht]
      rfl
    rw [h]
    exact ⟨.skip hm ht, .of_drawn hd rfl rfl⟩

theorem drain_of_none (h : s.work.poll = none) : drain g s = .ok [] s := by
  simp only [drain, get_bind_eq, h]
  rfl

/-- Waiting objects are delivered before calls. -/
theorem drain_of_objects {p : PtrId} (h : s.work.poll = some (.objects p t, w)) :
    drain g s = (deliver g p t >>= fun ts => pure (ts ++ [.drain])) { s with work := w } := by
  simp only [drain, get_bind_eq, set_bind_eq, h]

theorem drain_of_call (h : s.work.poll = some (.call e, w)) :
    drain g s = (connect e >>= fun ts => pure (ts ++ [.drain])) { s with work := w } := by
  simp only [drain, get_bind_eq, set_bind_eq, h]

theorem deliver_apply (p : PtrId) (t : Objects) :
    deliver g p t s = if (t.diff (s.pointsTo p)).isEmpty then .ok [] s
      else (match s.registry.pointers.get? p with
        | some (.var c v) =>
          if g.onlyApp && !g.program.isApplication v.method then pure []
          else grow g p c v (t.diff (s.pointsTo p))
        | _ => pure [] : Act (List Task)) (s.delivered g p t) := by
  unfold deliver State.delivered
  refine (bind_of_ok (propagate_apply g p t s)).trans ?_
  split
  · rfl
  · rfl

theorem connect_of_mem (h : e ∈ s.calls.edges) : connect e s = .ok [] s := by
  simp only [connect, get_bind_eq, set_bind_eq, s.calls.addEdge_of_mem h]
  rfl

theorem connect_of_not_mem (h : e ∉ s.calls.edges) :
    connect e s = (if ((s.calls.addEdge e).2.container? e.site).isNone then do
        let m ← register (·.method (s.registry.siteContext e.site)
          (s.registry.callSite e.site).method)
        setContainer e.site m
        pure [.reach e.callee, .wire e]
      else pure [.reach e.callee, .wire e] : Act (List Task))
      { s with calls := (s.calls.addEdge e).2 } := by
  obtain ⟨c, hadd, -, -⟩ := s.calls.addEdge_of_not_mem h
  simp only [connect, get_bind_eq, set_bind_eq, hadd]
  rfl

theorem Results.of_eq {s u : State} (h : a s = b u) (hb : Results b u P) : Results a s P := by
  unfold Results at hb ⊢
  rw [h]
  exact hb

theorem bind_eq_of_eq {β : Type} {f : α → Act β} {s₁ s₂ : State} (h : a s₁ = b s₂) :
    (a >>= f) s₁ = (b >>= f) s₂ := by
  simp only [bind, EStateM.bind, h]

theorem minds_delivered (w : WorkList) (p : PtrId) (t : Objects) :
    s.Minds p? draws (State.delivered g { s with work := w } p t) := by
  unfold State.delivered
  split <;> exact .of_eq rfl rfl

/-- Waiting objects reach their pointer. -/
theorem performed_deliver {p : PtrId} (hs : s.Known) (h : s.work.poll = some (.objects p t, w))
    (hmem : (p, t) ∈ s.work.pending) :
    Results (drain g) s (Task.Performed g p? draws s .drain) := by
  refine .of_eq (drain_of_objects h) ?_
  have happly := deliver_apply (g := g) (s := { s with work := w }) p t
  by_cases hnew : (t.diff (s.pointsTo p)).isEmpty = true
  · have hsame : State.delivered g { s with work := w } p t = { s with work := w } := if_pos hnew
    refine .of_eq (b := pure [Task.drain]) (u := State.delivered g { s with work := w } p t)
      ((bind_of_ok (happly.trans (if_pos hnew))).trans ?_) ?_
    · rw [hsame]
      rfl
    · exact ⟨.deliver h (.inl hnew), minds_delivered _ _ _⟩
  · refine .of_eq (bind_eq_of_eq (happly.trans (if_neg hnew))) ?_
    -- what happens next depends on what the pointer stands for
    cases hp : s.registry.pointers.get? p with
    | none =>
      refine ⟨.deliver h (.inr fun c v hv => ?_), minds_delivered _ _ _⟩
      rw [hp] at hv
      cases hv
    | some x =>
      cases x with
      | var c v =>
        dsimp only
        split
        · rename_i hskip
          refine ⟨.deliver h (.inr fun c' v' hv => ?_), minds_delivered _ _ _⟩
          rw [hp] at hv
          cases hv
          exact not_translates_iff.mpr hskip
        · rename_i hcounts
          have ht : g.Translates v.method :=
            Classical.not_not.mp fun hnot => hcounts (not_translates_iff.mp hnot)
          have hkeeps := (s.keeps_work w).trans (State.delivered_keeps g { s with work := w } p t)
          refine Does.results (l := ⟨fun _ => False, draws, p?⟩)
            ((does_grow (fun o ho => ?_) p c v).bind (R := fun ts s' => ∃ us, ts = us ++
              [.notify (.grown p (t.diff (s.pointsTo p))) g.observers, .drain] ∧ g.Calm us s' ∧
                ∀ u ∈ us, ∃ i, u = .receive c i (t.diff (s.pointsTo p)).toList)
              fun ts s' _ hts => ?_) fun r s' hc hr =>
                ⟨.grow h ?_ hp ht hc.changes hr, (minds_delivered _ _ _).trans hc.minds⟩
          · exact (hs.waiting p o ⟨t, hmem, (OrderedSet.mem_diff.mp ho).1⟩).mono hkeeps.registry
          · obtain ⟨us, rfl, hus⟩ := hts
            exact .pure ⟨us, append_assoc us _ _, hus⟩
          · simpa using hnew
      | _ =>
        refine ⟨.deliver h (.inr fun c v hv => ?_), minds_delivered _ _ _⟩
        rw [hp] at hv
        cases hv

/-- A waiting call edge enters the call graph. -/
theorem performed_connect (hd : draws) (h : s.work.poll = some (.call e, w)) :
    Results (drain g) s (Task.Performed g p? draws s .drain) := by
  refine .of_eq (drain_of_call h) ?_
  by_cases he : e ∈ s.calls.edges
  · refine .of_eq (b := pure [Task.drain]) (u := { s with work := w })
      ((bind_of_ok (connect_of_mem (s := { s with work := w }) he)).trans rfl) ?_
    exact ⟨.known h he, .of_eq rfl rfl⟩
  · refine .of_eq (bind_eq_of_eq (connect_of_not_mem (s := { s with work := w }) he)) ?_
    have hdrawn : s.Minds p? draws { s with work := w, calls := (s.calls.addEdge e).2 } :=
      .of_drawn hd rfl rfl
    refine Does.results (g := g) (l := ⟨fun _ => False, draws, p?⟩)
      (Q := fun ts _ => ts = [.reach e.callee, .wire e, .drain])
      (Does.bind (Q := fun ts _ => ts = [.reach e.callee, .wire e]) ?_ fun ts s' _ hts => ?_)
      fun r s' hc hr => ⟨.connect h he hc.changes hr, hdrawn.trans hc.minds⟩
    · refine .guard (fun _ => ?_) rfl
      exact (does_method _ _).bind fun m s' _ _ =>
        (does_setContainer hd _ m).then_pure fun _ _ => rfl
    · rw [hts]
      exact .pure rfl

theorem performed_drain (hd : draws) (hs : s.Known) :
    Results (drain g) s (Task.Performed g p? draws s .drain) := by
  rcases hs.work.poll_cases with ⟨h, -⟩ | ⟨p, t, w, h, -, hmem, -⟩ | ⟨e, w, h, -⟩
  · unfold Results
    rw [drain_of_none h]
    exact ⟨.idle h, .refl s⟩
  · exact performed_deliver hs h hmem
  · exact performed_connect hd h

theorem performed_perform (hp : ∀ p ∈ p?, p = g.program ∧ p.WellFormed) (hg : g.Honest)
    (hs : s.Known) {t : Task} (ht : t.Known g s.registry) (hfinish : t ≠ .finish) :
    Results (perform g t) s (Task.Performed g p? True s t) := by
  cases t with
  | notify e os => exact performed_notify hg hs ht.2
  | reach m => exact performed_reach trivial m
  | wire e =>
    exact Does.results (l := ⟨fun _ => False, True, p?⟩) (does_wire e)
      fun r s' hc hr => ⟨.wire hc.changes hr, hc.minds⟩
  | drain => exact performed_drain trivial hs
  | _ =>
    exact (does_perform hp ht trivial hfinish).results
      fun r s' hc hr => ⟨.routine trivial hc.changes hr, hc.minds⟩

/-- **What a task can do.** -/
theorem outcome_perform (hg : g.Honest) (hs : s.Known) {t : Task} (ht : t.Known g s.registry) :
    Results (perform g t) s (Outcome g s t) := by
  by_cases hfinish : t = .finish
  · subst hfinish
    refine Outcome.routine trivial (.single (.other ?_)) fun ts hts => ?_
    · constructor <;> intros <;> rfl
    · cases hts
      exact calm_notify trivial
  · have h : Results (perform g t) s (Task.Performed g none True s t) :=
      performed_perform (by simp) hg hs ht hfinish
    exact h.imp fun _ _ h => h.outcome

end Perform

end Act

end HeapFlow
