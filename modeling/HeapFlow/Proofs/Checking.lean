import HeapFlow.Proofs.News
import HeapFlow.Proofs.Timing

/-!
# What the checker finds

The checker takes down what comes too early: a method in a context before the method itself, and a
variable, other than a receiver, that grows before its method, or its method in its context, has
been told. All that it finds is `Hasty`: about early variables (`Program.Early`), or about class
initializers that are not static.

Other variables grow when their method is reached, and when waiting work is done no news is pending
(`Machine.Timely`). A method in a context is told after the method itself, unless it is reached
again while the news of the first time is pending. Only class initializers are reached in between,
in the empty context, and a static one is reached in the empty context first (`Machine.Primed`).
-/

namespace HeapFlow

open List

def faultText (early announced : String) : String :=
  "hit " ++ early ++ " before processing " ++ announced

namespace Program

/-- A variable is the receiver of its method. -/
def IsReceiver (p : Program) (v : Var) : Prop :=
  (p.method? v.method).any (fun d => d.receiver?.isSome && v.slot? = d.receiver?) = true

/-- A class initializer that is not static. -/
def InstanceClinit (p : Program) (m : MethodId) : Prop :=
  m.subsig = Class.clinitSubsig ∧ ∃ d, p.method? m = some d ∧ d.isStatic = false

/-- **Faults that can be found**: about early variables that are no receivers, and about class
initializers that are not static. -/
inductive Hasty (p : Program) : String → Prop where
  | method {m : MethodId} (ctx : String) (hm : p.InstanceClinit m) :
      Hasty p (faultText (ctx ++ ":" ++ m.text) m.text)
  | var {v : Var} (hv : p.Early v) (hr : ¬ p.IsReceiver v) :
      Hasty p (faultText (p.varText v) v.method.text)
  | varIn {v : Var} (ctx : String) (hv : p.Early v) (hr : ¬ p.IsReceiver v) :
      Hasty p (faultText (ctx ++ ":" ++ p.varText v) (ctx ++ ":" ++ v.method.text))

end Program

/-- A fault that the checker takes down when it is told of an event. -/
inductive State.Fault (g : Setup) (s : State) : Event → String → Prop where
  | method {m : CMethodId} (h : s.registry.methodId m ∉ s.checker.methods) :
      Fault g s (.methodIn m) (faultText (s.registry.methodText m) (s.registry.methodId m).text)
  | var {p : PtrId} {delta : Objects} {c : CtxId} {v : Var}
      (hp : s.registry.pointers.get? p = some (.var c v)) (hr : ¬ g.program.IsReceiver v)
      (h : v.method ∉ s.checker.methods) :
      Fault g s (.grown p delta) (faultText (g.program.varText v) v.method.text)
  /-- The method of the variable has not been told in the context of the variable. -/
  | varIn {p : PtrId} {delta : Objects} {c : CtxId} {v : Var}
      (hp : s.registry.pointers.get? p = some (.var c v)) (hr : ¬ g.program.IsReceiver v)
      (h : ∀ m, s.registry.method? c v.method = some m → m ∉ s.checker.methodsIn) :
      Fault g s (.grown p delta) (faultText (s.registry.pointerText g.program (.var c v))
        (s.registry.contextText c ++ ":" ++ v.method.text))

/-- **What the checker remembers** when it has been told of an event. -/
structure Checker.Told (g : Setup) (s : State) (e : Event) (k : Checker) : Prop where
  methods : ∀ m, m ∈ s.checker.methods ∨ e = .method m → m ∈ k.methods
  methodsIn : ∀ m, m ∈ s.checker.methodsIn ∨ e = .methodIn m → m ∈ k.methodsIn
  violations : ∀ x ∈ k.violations, x ∈ s.checker.violations ∨ s.Fault g e x

namespace Act

variable {g : Setup} {s s' : State} {x : Unit}

/-- The checker is told of a method in a context. -/
theorem told_checkMethod {m : CMethodId} (h : checkMethod m s = .ok x s') :
    Checker.Told g s (.methodIn m) s'.checker := by
  rw [checkMethod, get_bind_eq] at h
  dsimp only at h
  split at h
  · rename_i hnew
    cases h
    refine ⟨by simp, by simp [eq_comm, or_comm], fun x hx => ?_⟩
    refine (mem_append.mp hx).imp_right fun hx => ?_
    rw [mem_singleton.mp hx]
    exact .method (by simpa using hnew)
  · cases h
    exact ⟨by simp, by simp [eq_comm, or_comm], fun _ => .inl⟩

/-- An action only takes down faults of a kind. -/
def Reports (F : String → Prop) (a : Act Unit) : Prop :=
  ∀ s x s', a s = .ok x s' → s'.checker.methods = s.checker.methods ∧
    s'.checker.methodsIn = s.checker.methodsIn ∧
    ∀ x ∈ s'.checker.violations, x ∈ s.checker.violations ∨ F x

section Reports

variable {F : String → Prop}

theorem Reports.pure : Reports F (Pure.pure ()) := by
  intro s x s' h
  cases h
  exact ⟨rfl, rfl, fun _ => .inl⟩

theorem Reports.bind {a b : Act Unit} (ha : Reports F a) (hb : Reports F b) :
    Reports F (a >>= fun _ => b) := by
  intro s x s' h
  simp only [Bind.bind, EStateM.bind] at h
  split at h
  · rename_i s₁ h₁
    obtain ⟨hm, hin, hv⟩ := ha _ _ _ h₁
    obtain ⟨hm', hin', hv'⟩ := hb _ _ _ h
    exact ⟨hm'.trans hm, hin'.trans hin, fun x hx => (hv' x hx).elim (hv x) .inr⟩
  · cases h

variable {announced early : String}

theorem reports_violation (h : F (faultText early announced)) :
    Reports F (violation early announced) := by
  intro s x s' hs
  cases hs
  refine ⟨rfl, rfl, fun x hx => (mem_append.mp hx).imp_right fun hx => ?_⟩
  rw [mem_singleton.mp hx]
  exact h

/-- A fault is taken down on a condition. -/
theorem reports_unless {b : Bool} (h : b = false → F (faultText early announced)) :
    Reports F (if (!b) = true then violation early announced else Pure.pure ()) := by
  split
  · rename_i hb
    exact reports_violation (h (by simpa using hb))
  · exact .pure

end Reports

theorem told_checkVariable {p : PtrId} {delta : Objects} {c : CtxId} {v : Var}
    (hp : s.registry.pointers.get? p = some (.var c v)) (h : checkVariable g c v s = .ok x s') :
    Checker.Told g s (.grown p delta) s'.checker := by
  rw [checkVariable, get_bind_eq] at h
  dsimp only at h
  split at h
  · rename_i hr
    have hr : ¬ g.program.IsReceiver v := by simpa [Program.IsReceiver] using hr
    have hin : ∀ {b : Bool}, (∀ m, s.registry.method? c v.method = some m →
        m ∈ s.checker.methodsIn → b = true) → Reports (s.Fault g (.grown p delta))
          (if (!b) = true then violation (s.registry.pointerText g.program (.var c v))
            (s.registry.contextText c ++ ":" ++ v.method.text) else Pure.pure ()) := by
      intro b hb
      refine reports_unless fun hfalse => .varIn hp hr fun m hm hmem => ?_
      rw [hb m hm hmem] at hfalse
      cases hfalse
    obtain ⟨hm, hmIn, hv⟩ : s'.checker.methods = s.checker.methods ∧
        s'.checker.methodsIn = s.checker.methodsIn ∧
        ∀ x ∈ s'.checker.violations, x ∈ s.checker.violations ∨ s.Fault g (.grown p delta) x := by
      split at h
      · rename_i hnew
        exact (reports_violation (.var hp hr (by simpa using hnew))).bind
          (hin fun m hm hmem => by simp [hm, hmem]) _ _ _ h
      · exact hin (fun m hm hmem => by simp [hm, hmem]) _ _ _ h
    exact ⟨by simp [hm], by simp [hmIn], hv⟩
  · cases h
    exact ⟨by simp, by simp, fun _ => .inl⟩

/-- **What the checker remembers of an event.** -/
theorem told_check {e : Event} (h : check g e s = .ok x s') : Checker.Told g s e s'.checker := by
  cases e with
  | method m =>
    cases h
    exact ⟨by simp [eq_comm, or_comm], by simp, fun _ => .inl⟩
  | methodIn m => exact told_checkMethod h
  | grown p delta =>
    rw [check, checkPointer, get_bind_eq] at h
    cases hp : s.registry.pointers.get? p with
    | none =>
      rw [hp] at h
      cases h
    | some x =>
      rw [hp] at h
      cases x with
      | var c v => exact told_checkVariable hp h
      | _ => cases h
  | _ =>
    cases h
    exact ⟨by simp, by simp, fun _ => .inl⟩

end Act

/-! ### Class initializers -/

/-- A static class initializer, where classes are initialized. -/
def Setup.Clinit (g : Setup) (m : MethodId) : Prop :=
  .classInit ∈ g.observers ∧ m.subsig = Class.clinitSubsig ∧
    ∃ d, g.program.method? m = some d ∧ d.isStatic = true

/-- A call edge to a static method is that of a static call, or registers an object with a
finalizer. -/
theorem Derivable.static_call {g : Setup} (hp : g.program.WellFormed)
    {E : CallEdge (At CallSite) (At MethodId)} (h : Derivable g (.call E)) {n : Method}
    (hn : g.program.method? E.callee.item = some n) (hs : n.isStatic = true) :
    E.callee.item.subsig = finalizerRegister.subsig ∨
      ∃ d c k, g.Translates E.home.item ∧ g.program.method? E.home.item = some d ∧
        .invoke c ∈ d.body ∧ c.kind = .static ∧ g.program.resolve c.target = some k ∧
        k.id = E.callee.item := by
  have hinstance : ∀ {m : Method}, g.program.method? m.id = some m → m.isStatic = false →
      m.id ≠ E.callee.item := by
    intro m hm hstatic hid
    rw [hid, hn] at hm
    cases hm
    rw [hs] at hstatic
    cases hstatic
  cases h with
  | infer hF h =>
    cases h with
    | given h =>
      obtain ⟨b, -, hf⟩ := h
      cases hf with
      | args _ hf => cases hf
    | follow hh _ hf =>
      cases hf with
      | stmt ht hd hst hf =>
        cases hf with
        | register dst n ht' hm => exact .inl (hp.staticCallee?_spec hm).1
        | call hk hm =>
          exact .inr ⟨_, _, _, ht, hd, mem_of_getElem? hst, hk,
            (Option.filter_eq_some_iff.mp hm).1, rfl⟩
      | wire hf => cases hf
      | use ht hf =>
        cases hf with
        | call _ _ _ hk hf =>
          cases hf
          exact absurd rfl (hinstance (hp.callee?_spec hk).2 (Program.isStatic_of_instance hk))
        | run _ _ hk hf =>
          cases hf
          exact absurd rfl (hinstance (hp.runMethod?_spec hk) (Program.isStatic_of_instance hk))
    | copy _ _ _ _ hf => cases hf

namespace Machine

variable {g : Setup} {m : Machine}

/-- **A static class initializer is reached in the empty context first.** -/
structure Primed (g : Setup) (m : Machine) : Prop where
  reached : ∀ {C M}, g.Clinit M → m.state.Settled (.reached ⟨C, M⟩) →
    m.state.Settled (.reached ⟨[], M⟩)
  /-- If it is to be reached in another context, it is reached in the empty context. -/
  pending : ∀ {cm C M}, g.Clinit M → .reach cm ∈ m.agenda → m.state.registry.MethodIs cm ⟨C, M⟩ →
    C = [] ∨ m.state.Settled (.reached ⟨[], M⟩)

/-- When a call edge to a class initializer is taken up, it has been reached. -/
theorem Timely.clinit_reached (hg : g.Tame) (hm : m.Steady g) (ht : m.Timely g) {rest : List Task}
    (hA : m.agenda = .drain :: rest) {e : CCallEdge} {l : List CCallEdge}
    (hl : m.state.work.calls.toList = e :: l) {E : CallEdge (At CallSite) (At MethodId)}
    (hE : m.state.registry.EdgeIs e E) (hM : g.Clinit E.callee.item) :
    m.state.Settled (.reached ⟨[], E.callee.item⟩) := by
  obtain ⟨ho, hsub, n, hn, hstatic⟩ := hM
  have hsettled : ∀ {f}, m.Due g f → ¬ f.Waits → m.state.Settled f :=
    fun hf => (hm.has_of_due hA hf).settled
  have hhome := ht.home_reached hm hA hl hE
  have hwaits : e ∈ m.state.work.calls.toList := hl ▸ .head _
  have hderivable : Derivable g (.call E) :=
    hm.sound.derivable _ ⟨.call e, .inr hwaits, .call hE⟩
  rcases hderivable.static_call hg.wellFormed hn hstatic with
    hreg | ⟨d, c, k, htr, hd, hc, hkind, hk, hid⟩
  · rw [hsub] at hreg
    exact absurd hreg (by decide)
  · -- the caller is told, so the class of the callee has been initialized
    have hannounced : m.state.Settled (.announced E.home.item) :=
      hsettled (hm.mindful.follow (Fact.kept_of_ne_flow (by simp)) hhome (.announce htr)) id
    obtain ⟨cls, hcls, hclinit⟩ := Program.method?_eq_some hn
    have huse : E.callee.item.cls ∈ g.program.activeUses d := by
      refine mem_append_right _ (mem_flatMap.mpr ⟨_, hc, ?_⟩)
      simp [Program.stmtUses, hkind, hk, hid]
    have hfollows : Follows g _ (.initialized E.callee.item.cls) :=
      .init ho hd huse (by simp [hcls])
    have hinit :=
      hsettled (hm.mindful.follow (Fact.kept_of_ne_flow (by simp)) hannounced hfollows) id
    rw [hsub] at hclinit
    have hreached : m.state.Settled (.reached ⟨[], n.id⟩) := hsettled
      (hm.mindful.follow (Fact.kept_of_ne_flow (by simp)) hinit (.clinit hcls hclinit)) id
    rwa [hg.wellFormed.id_eq hn] at hreached

section Step

variable {t : Task} {rest ts : List Task} {s' : State} (hg : g.Tame) (hm : m.Steady g)
  (hp : m.Performs g t rest ts s')

include hp

theorem Performs.reach_cases {cm : CMethodId} (h : .reach cm ∈ ts) :
    (∃ M, s'.registry.MethodIs cm ⟨[], M⟩) ∨
      t = .drain ∧ ∃ e w, m.state.work.poll = some (.call e, w) ∧ cm = e.callee := by
  cases hp.leaves.stems h with
  | reachEntry hM | reachClinit _ _ hM => exact .inl ⟨_, hM⟩
  | reachCallee hpoll => exact .inr ⟨rfl, _, _, hpoll, rfl⟩
  | other _ h => exact absurd trivial h.not_leads

include hg hm

/-- A step keeps this. -/
theorem Primed.step (ht : m.Timely g) (h : m.Primed g) :
    Primed g { state := s', agenda := ts ++ rest } := by
  have hmem : t ∈ m.agenda := hp.agenda ▸ .head _
  -- the number of a method to be reached means what it meant before
  have hback : ∀ {cm M}, .reach cm ∈ m.agenda → s'.registry.MethodIs cm M →
      m.state.registry.MethodIs cm M := by
    intro cm M hcm hM
    obtain ⟨N, hN⟩ := (hm.sound.supported _ hcm).means
    rwa [(hN.mono hp.effect.le).unique hM] at hN
  refine ⟨fun {C M} hM hreached => ?_, fun {cm C M} hM hcm hcM => ?_⟩
  · obtain ⟨x, hx, hxf⟩ := hreached
    cases hxf with
    | @reached cm _ hcM =>
      rcases hp.reachable hx with hold | ⟨rfl, -⟩
      · exact hp.effect.settled (h.reached hM
          (State.Settled.back hm.sound.wf hp.effect.le (x := .reached cm) hold (.reached hcM)))
      · rcases h.pending hM hmem (hback hmem hcM) with rfl | hprimed
        · exact ⟨.reached cm, hx, .reached hcM⟩
        · exact hp.effect.settled hprimed
  · rcases mem_append.mp hcm with hcm | hcm
    · rcases hp.reach_cases hcm with ⟨N, hN⟩ | ⟨rfl, e, w, hpoll, rfl⟩
      · cases hN.unique hcM
        exact .inl rfl
      · obtain ⟨-, -, -, hl⟩ := hm.known.state.work.of_poll_call hpoll
        have hwaits : e ∈ m.state.work.calls.toList := hl ▸ .head _
        obtain ⟨E, hE⟩ := hm.sound.wf.edgeIs (.inr hwaits)
        have hcallee : E.callee = ⟨C, M⟩ := (hE.callee.mono hp.effect.le).unique hcM
        have hprimed := ht.clinit_reached hg hm hp.agenda hl hE (by rwa [hcallee])
        rw [hcallee] at hprimed
        exact .inr (hp.effect.settled hprimed)
    · have hold : .reach cm ∈ m.agenda := hp.agenda ▸ .tail _ hcm
      exact (h.pending hM hold (hback hold hcM)).imp_right hp.effect.settled

end Step

theorem primed_initial (g : Setup) (script : Script) : (g.initial script).Primed g where
  reached _ h := absurd h.has (State.not_has_initial script _)
  pending _ h := by simp [Setup.initial] at h

end Machine

/-! ### The order of news -/

/-- A method is not told behind the news of it in a context, class initializers that are not static
apart. -/
def Task.Tidy (g : Setup) (r : Registry) (t u : Task) : Prop :=
  ∀ {cm os os'}, t = .notify (.methodIn cm) os → u = .notify (.method (r.methodId cm)) os' →
    g.program.InstanceClinit (r.methodId cm)

/-- What the checker remembers after a task. -/
structure Checker.Heard (g : Setup) (s : State) (t : Task) (k : Checker) : Prop where
  methods : ∀ {m}, m ∈ s.checker.methods → m ∈ k.methods
  method : ∀ {m os}, t = .notify (.method m) (.checker :: os) → m ∈ k.methods
  methodsIn : ∀ {m}, m ∈ s.checker.methodsIn → m ∈ k.methodsIn
  methodIn : ∀ {m os}, t = .notify (.methodIn m) (.checker :: os) → m ∈ k.methodsIn
  /-- A fault is an old one, or one that the event shows of which it is told. -/
  violations : ∀ x ∈ k.violations, x ∈ s.checker.violations ∨
    ∃ e os, t = .notify e (.checker :: os) ∧ s.Fault g e x

namespace Machine

variable {g : Setup} {m : Machine}

/-- **What the checker has been told and will be told.** -/
structure Checked (g : Setup) (m : Machine) : Prop where
  methods : ∀ {id}, id ∈ m.state.methods →
    id ∈ m.state.checker.methods ∨ m.Pending (.method id) .checker
  methodsIn : ∀ {cm}, cm ∈ m.state.calls.reachable → g.Translates (m.state.registry.methodId cm) →
    cm ∈ m.state.checker.methodsIn ∨ m.Pending (.methodIn cm) .checker
  ordered : m.agenda.Pairwise (Task.Tidy g m.state.registry)
  /-- When a variable that is not early grows, its method has been told, and in its context. -/
  grown : ∀ {p delta os c v}, .notify (.grown p delta) os ∈ m.agenda →
    m.state.registry.pointers.get? p = some (.var c v) → g.program.Early v ∨
      v.method ∈ m.state.checker.methods ∧ ∃ C cm, m.state.registry.CtxIs c C ∧
        m.state.registry.MethodIs cm ⟨C, v.method⟩ ∧ cm ∈ m.state.checker.methodsIn
  violations : ∀ x ∈ m.state.checker.violations, g.program.Hasty x

section Step

variable {t : Task} {rest ts : List Task} {s' : State} (hg : g.Tame) (hm : m.Steady g)
  (hp : m.Performs g t rest ts s') (hm' : Steady g { state := s', agenda := ts ++ rest })

include hp

theorem Performs.heard : Checker.Heard g m.state t s'.checker := by
  by_cases htells : ∃ e os, t = .notify e (.checker :: os)
  · obtain ⟨e, os, rfl⟩ := htells
    have htold : Checker.Told g m.state e s'.checker := by
      have hrun : ((Act.check g e >>= fun _ => pure []) >>= fun us => pure (us ++ [.notify e os]))
        m.state = .ok ts s' := hp.run
      simp only [Bind.bind, EStateM.bind] at hrun
      split at hrun
      · rename_i heq
        split at heq
        · rename_i hcheck
          cases hrun
          cases heq
          exact Act.told_check hcheck
        · cases heq
      · cases hrun
    refine ⟨fun h => htold.methods _ (.inl h), ?_, fun h => htold.methodsIn _ (.inl h), ?_,
      fun x hx => (htold.violations x hx).imp_right fun h => ⟨e, os, rfl, h⟩⟩
    · rintro m os ⟨⟩
      exact htold.methods _ (.inr rfl)
    · rintro m os ⟨⟩
      exact htold.methodsIn _ (.inr rfl)
  · have hsame : s'.checker = m.state.checker := by
      refine hp.outcome.memory.1 fun htold => ?_
      cases hp.leaves with
      | enter | init => cases htold
      | tell e o os =>
        cases htold
        exact htells ⟨e, os, rfl⟩
      | _ => exact htold
    rw [hsame]
    exact ⟨id, fun h => absurd ⟨_, _, h⟩ htells, id, fun h => absurd ⟨_, _, h⟩ htells,
      fun _ => .inl⟩

/-- The news that a task leaves is in order. -/
theorem Performs.tidy : ts.Pairwise (Task.Tidy g s'.registry) := by
  by_cases hreach : ∃ cm, t = .reach cm
  · obtain ⟨cm, rfl⟩ := hreach
    cases hp.leaves with
    | again => exact .nil
    | reach =>
      -- the news of the method in its context comes last
      have hfirst : ∀ a ∈ (if m.state.methods.contains (m.state.registry.methodId cm) then []
          else [Task.notify (.method (m.state.registry.methodId cm)) g.observers]) ++
          (List.range (g.program.bodySize (m.state.registry.methodId cm))).map (Task.enact cm),
          ∀ u, a.Tidy g s'.registry u := by
        rintro a ha u cm' os os' rfl
        split at ha <;> simp at ha
      exact pairwise_append.mpr
        ⟨pairwise_of_forall_mem_list fun a ha u _ => hfirst a ha u,
          pairwise_singleton _ _, fun a ha u _ => hfirst a ha u⟩
  · refine pairwise_of_forall_mem_list fun a ha u hu => ?_
    rintro cm os os' rfl rfl
    cases hp.leaves.arises ha with
    | again =>
      cases hp.leaves.arises hu with
      | quiet _ h => exact h.elim
    | quiet _ h => exact h.elim
    | methodIn => exact absurd ⟨_, rfl⟩ hreach

include hm

variable {os : List Observer}

theorem Performs.methodId_eq {cm : CMethodId} (h : .notify (.methodIn cm) os ∈ m.agenda) :
    s'.registry.methodId cm = m.state.registry.methodId cm := by
  obtain ⟨-, M, hM⟩ := (hm.sound.supported _ h).means
  rw [hM.methodId, (hM.mono hp.effect.le).methodId]

/-- News of a variable comes when its method has been told, or the variable is early. -/
theorem Checked.grown_step (hm' : Steady g { state := s', agenda := ts ++ rest })
    (hnews : m.Truthful g) (ht : m.Timely g) (h : m.Checked g) {p : PtrId} {delta : Objects}
    {c : CtxId} {v : Var} (hmem : .notify (.grown p delta) os ∈ ts ++ rest)
    (hv : s'.registry.pointers.get? p = some (.var c v)) :
    g.program.Early v ∨ v.method ∈ s'.checker.methods ∧ ∃ C cm, s'.registry.CtxIs c C ∧
      s'.registry.MethodIs cm ⟨C, v.method⟩ ∧ cm ∈ s'.checker.methodsIn := by
  have hheard := hp.heard
  -- news from before
  have hold : ∀ {os'}, .notify (.grown p delta) os' ∈ m.agenda →
      g.program.Early v ∨ v.method ∈ s'.checker.methods ∧ ∃ C cm, s'.registry.CtxIs c C ∧
        s'.registry.MethodIs cm ⟨C, v.method⟩ ∧ cm ∈ s'.checker.methodsIn := by
    intro os' hos'
    obtain ⟨⟨c', v', hv', -⟩, -⟩ := hnews hos'
    cases Option.some.inj ((hp.effect.le.pointers _ _ hv').symm.trans hv)
    refine (h.grown hos' hv').imp_right fun ⟨hmethod, C, cm, hC, hcm, hin⟩ => ?_
    exact ⟨hheard.methods hmethod, C, cm, hC.mono hp.effect.le, hcm.mono hp.effect.le,
      hheard.methodsIn hin⟩
  rcases mem_append.mp hmem with hts | hrest
  · cases hp.leaves.arises hts with
    | again => exact hold (hp.agenda ▸ mem_cons_self ..)
    | quiet _ h => exact h.elim
    | grown =>
      obtain ⟨⟨c', v', hv', htr⟩, hsub⟩ := hp.saw_of_grow rfl hts
      cases hv'.symm.trans hv
      have hnonempty : delta.toList.isEmpty = false := (hm'.known.agenda _ hmem).2.1
      obtain ⟨o, ho⟩ := isEmpty_eq_false_iff_exists_mem.mp hnonempty
      obtain ⟨⟨P, x, hx, hP⟩, O, hO⟩ := hm'.sound.wf.ptrIs (hsub o ho)
      cases hx.symm.trans hv
      cases hP with
      | @var _ C _ hC =>
        have hholds : s'.Settled (.holds (.var C v) O) :=
          ⟨.holds p o, hsub o ho, .holds ⟨_, hv, .var v hC⟩ hO⟩
        rcases ht.held_step hm hp hholds with ⟨x, hreach, hx⟩ | ⟨hearly, -⟩
        · -- waiting work is done, so the checker has been told of the method
          cases hx with
          | @reached cm _ hcm =>
            have hreach : cm ∈ m.state.calls.reachable :=
              (hp.reachable hreach).resolve_right fun h => by cases h.1
            have hid : m.state.registry.methodId cm = v.method := by
              rw [← (hm.known.state.reachable cm hreach).methodId_eq hp.effect.le, hcm.methodId]
            have hmethod := (hm.announced v.method).mpr ⟨cm, hreach, hid, htr⟩
            have hnone := fun {e o} => hm.not_pending (e := e) (o := o) hp.agenda
            have htold := (h.methods hmethod).resolve_right hnone
            have htoldIn := (h.methodsIn hreach (hid ▸ htr)).resolve_right hnone
            exact .inr ⟨hheard.methods htold, C, cm, hC, hcm, hheard.methodsIn htoldIn⟩
        · exact .inl hearly
  · exact hold (hp.agenda ▸ mem_cons_of_mem _ hrest)

/-- **A fault is found about early variables and odd class initializers only.** -/
theorem Checked.violations_step (hnews : m.Truthful g) (h : m.Checked g) :
    ∀ x ∈ s'.checker.violations, g.program.Hasty x := by
  intro x hx
  rcases hp.heard.violations x hx with hx | ⟨e, os, rfl, hfault⟩
  · exact h.violations x hx
  · have hmem : .notify e (.checker :: os) ∈ m.agenda := hp.agenda ▸ .head _
    cases hfault with
    | @method cm hnot =>
      obtain ⟨hreach, htr⟩ := hnews hmem
      have hmethod := (hm.announced _).mpr ⟨cm, hreach, rfl, htr⟩
      obtain ⟨os', hpending, -⟩ := (h.methods hmethod).resolve_left hnot
      -- the method is still to be told, behind the news of it in a context
      rw [hp.agenda] at hpending
      have hrest := (mem_cons.mp hpending).resolve_left (by nofun)
      have hord : (_ :: rest).Pairwise (Task.Tidy g m.state.registry) := hp.agenda ▸ h.ordered
      exact .method _ ((pairwise_cons.mp hord).1 _ hrest rfl rfl)
    | var hv hr hnot =>
      rcases h.grown hmem hv with hearly | ⟨htold, -⟩
      · exact .var hearly hr
      · exact absurd htold hnot
    | varIn hv hr hnot =>
      rcases h.grown hmem hv with hearly | ⟨-, C, cm, hC, hcm, hin⟩
      · exact .varIn _ hearly hr
      · exact absurd hin (hnot cm (hcm.method? hC))

include hg

theorem Checked.ordered_step (hnews : m.Truthful g) (hprimed : m.Primed g) (h : m.Checked g) :
    (ts ++ rest).Pairwise (Task.Tidy g s'.registry) := by
  have hord : (t :: rest).Pairwise (Task.Tidy g m.state.registry) := hp.agenda ▸ h.ordered
  have hmem : t ∈ m.agenda := hp.agenda ▸ .head _
  have hrest : ∀ {u}, u ∈ rest → u ∈ m.agenda := fun hu => hp.agenda ▸ .tail _ hu
  refine pairwise_append.mpr ⟨hp.tidy, ?_, fun a ha u hu => ?_⟩
  · refine hord.tail.imp_of_mem fun {a u} ha _ hau => ?_
    rintro cm os os' rfl rfl
    rw [hp.methodId_eq hm (hrest ha)] at hau ⊢
    exact hau rfl rfl
  · rintro cm os os' rfl rfl
    cases hp.leaves.arises ha with
    | again o os =>
      rw [hp.methodId_eq hm hmem] at hu ⊢
      exact (pairwise_cons.mp hord).1 _ hu rfl rfl
    | quiet _ h => exact h.elim
    | methodIn hcm ht =>
      -- only an initializer is reached while a method is to be told, and for the second time
      obtain ⟨ho, c, k, d, hc, hd, hM⟩ :=
        ((pairwise_cons.mp (hp.agenda ▸ hm.ordered)).1 _ hu).reach cm rfl trivial
      rw [(hM.mono hp.effect.le).methodId] at hu ⊢
      obtain ⟨hsub, hmethod⟩ := hg.wellFormed.method?_id (Program.name_of_class? hc ▸ hc) hd
      refine ⟨hsub, d, hmethod, Bool.eq_false_iff.mpr fun hstatic => hcm ?_⟩
      obtain ⟨cm', hcm', hid', -⟩ := (hm.announced d.id).mp (hnews (hrest hu))
      obtain ⟨M', hM'⟩ := hm.sound.wf.methodIs hcm'
      have hreached : m.state.Settled (.reached ⟨M'.ctx, d.id⟩) := by
        rw [← hid', hM'.methodId]
        exact ⟨.reached cm', hcm', .reached hM'⟩
      have hprimed' := hprimed.reached ⟨ho, hsub, d, hmethod, hstatic⟩ hreached
      exact State.notes_of_settled (.reached hM) hprimed'

/-- A step keeps what the checker has been told. -/
theorem Checked.step (ho : .checker ∈ g.observers)
    (hm' : Steady g { state := s', agenda := ts ++ rest }) (hnews : m.Truthful g)
    (ht : m.Timely g) (hprimed : m.Primed g) (h : m.Checked g) :
    Checked g { state := s', agenda := ts ++ rest } where
  methods {id} hid := by
    rcases hp.methods hid with hold | hnew
    · rcases h.methods hold with htold | hpending
      · exact .inl (hp.heard.methods htold)
      · exact (hp.pending hpending).imp_left fun ⟨_, h⟩ => hp.heard.method h
    · exact .inr (pending_of_mem ho hnew)
  methodsIn {cm} hcm htr := by
    rcases hp.reachable hcm with hold | ⟨rfl, hnew⟩
    · have hid := (hm.known.state.reachable cm hold).methodId_eq hp.effect.le
      dsimp only at htr
      rw [hid] at htr
      rcases h.methodsIn hold htr with htold | hpending
      · exact .inl (hp.heard.methodsIn htold)
      · exact (hp.pending hpending).imp_left fun ⟨_, h⟩ => hp.heard.methodIn h
    · have hmem : .reach cm ∈ m.agenda := hp.agenda ▸ .head _
      obtain ⟨M, hM⟩ := (hm.sound.supported _ hmem).means
      dsimp only at htr
      rw [(hM.mono hp.effect.le).methodId, ← hM.methodId] at htr
      exact .inr (pending_of_mem ho (hnew htr))
  ordered := h.ordered_step hg hm hp hnews hprimed
  grown := h.grown_step hm hp hm' hnews ht
  violations := h.violations_step hm hp hnews

end Step

theorem checked_initial (g : Setup) (script : Script) : (g.initial script).Checked g where
  methods h := by simp [Setup.initial] at h
  methodsIn h := by simp [Setup.initial] at h
  ordered := by
    refine pairwise_of_forall_mem_list fun a ha u _ => ?_
    rintro cm os os' rfl
    simp [Setup.initial] at ha
  grown h := by simp [Setup.initial] at h
  violations x hx := by simp [Setup.initial] at hx

/-- **So it holds throughout a run.** -/
theorem checked_run (hg : g.Tame) (ho : .checker ∈ g.observers) (script : Script) (n : Nat) :
    ((g.initial script).run g n).Checked g := by
  have hstart : (g.initial script).Timely g ∧ (g.initial script).Truthful g ∧
      (g.initial script).Primed g ∧ (g.initial script).Checked g :=
    ⟨timely_initial g script, truthful_initial g script, primed_initial g script,
      checked_initial g script⟩
  refine (Steady.induction (I := fun m => m.Timely g ∧ m.Truthful g ∧ m.Primed g ∧ m.Checked g)
    hg hstart ?_ n).2.2.2.2
  rintro m t rest ts s' hm hp hm' ⟨htimely, hnews, hprimed, hchecked⟩
  exact ⟨htimely.step hg hm hp hm', hnews.step hp hm, hprimed.step hg hm hp htimely,
    hchecked.step hg hm hp ho hm' hnews htimely hprimed⟩

end Machine

/-! ### Programs without faults -/

namespace Program

/-- Whether a statement of an instance method loads nothing through the receiver. -/
def sparesReceiver (p : Program) (d : Method) : Stmt → Bool
  | .load y v _ => v != 0 || !(d.varType y).holdsObjects
  | .loadElem y v => v != 0 || !(d.varType y).holdsObjects
  | .invoke c => !p.isArrayCopy c || c.args[0]? != some 0
  | _ => true

/-- **Whether a program gives the checker nothing to find**: no instance method loads an object
through its receiver, or copies its elements, and class initializers are static. -/
def unhurried (p : Program) : Bool :=
  p.classes.all fun k => k.methods.all fun d =>
    d.isStatic || d.id.subsig != Class.clinitSubsig && d.body.all (p.sparesReceiver d)

section Unhurried

variable {p : Program} (h : p.unhurried = true)

include h

theorem unhurried_method {m : MethodId} {d : Method} (hd : p.method? m = some d)
    (hs : d.isStatic = false) :
    m.subsig ≠ Class.clinitSubsig ∧ ∀ s ∈ d.body, p.sparesReceiver d s = true := by
  obtain ⟨k, hk, hkd⟩ := method?_eq_some hd
  have hmem := all_eq_true.mp h k (mem_of_class? hk)
  have hd := all_eq_true.mp hmem d (mem_of_find?_eq_some hkd)
  have hsub : d.id.subsig = m.subsig := by simpa using find?_some hkd
  simpa [hs, hsub] using hd

theorem Early.isReceiver {v : Var} (hv : p.Early v) : p.IsReceiver v := by
  -- what is loaded through an early variable is loaded through a receiver
  have hnone : ∀ {m d x s}, p.method? m = some d → s ∈ d.body → p.IsReceiver (.declared m x) →
      p.sparesReceiver d s = true ∧ x = 0 := by
    intro m d x s hd hs hx
    simp only [IsReceiver, Var.method, hd, Option.any_some, Method.receiver?, Var.slot?] at hx
    cases hstatic : d.isStatic with
    | true => simp [hstatic] at hx
    | false =>
      refine ⟨(unhurried_method h hd hstatic).2 s hs, ?_⟩
      simpa [hstatic] using hx
  induction hv with
  | receiver hd hs => simp [IsReceiver, Var.method, hd, Method.receiver?, hs, Var.slot?]
  | load hd hs hy _ ih | loadElem hd hs hy _ ih =>
    obtain ⟨hspares, rfl⟩ := hnone hd hs ih
    simp [sparesReceiver, hy] at hspares
  | copy n hd hs hc hx _ ih =>
    obtain ⟨hspares, rfl⟩ := hnone hd hs ih
    simp [sparesReceiver, hc, hx] at hspares

/-- Such programs have no faults to find. -/
theorem not_hasty (x : String) : ¬ p.Hasty x := by
  intro hx
  cases hx with
  | method _ hm =>
    obtain ⟨hsub, d, hd, hs⟩ := hm
    exact (unhurried_method h hd hs).1 hsub
  | var hv hr | varIn _ hv hr => exact hr (hv.isReceiver h)

end Unhurried

end Program

/-- **What the checker finds.** An analysis of an accepted program runs to its end, and the faults
taken down by then are about variables that are loaded, directly or not, through the receiver of
their method, or about class initializers that are not static. In programs without these it finds
nothing. -/
theorem checker_finds_hasty_only {p : Program} (h : p.Accepted) (o : Options) (policy : Policy) :
    let m := (o.setup p policy [.checker]).solve []
    m.failure = none ∧ m.agenda = [] ∧ (∀ x ∈ m.state.checker.violations, p.Hasty x) ∧
      (p.unhurried = true → m.state.checker.violations = []) := by
  intro m
  have hmore : ∀ w ∈ [Observer.checker], w.Watches := by simp [Observer.Watches]
  have hg := Options.tame_setup h o policy hmore
  obtain ⟨n, hn, hA⟩ := Setup.exists_solve_eq_run hg.wellFormed hg.unscripted []
  have hobs := mem_append_right o.observers (mem_singleton_self Observer.checker)
  have hchecked := Machine.checked_run hg hobs [] n
  obtain ⟨hsound, hend⟩ := Setup.sound_solve hg.wellFormed hg.unscripted []
  have hhasty : ∀ x ∈ m.state.checker.violations, p.Hasty x := by
    rw [← hn] at hchecked
    exact hchecked.violations
  refine ⟨hsound.fine, hend, hhasty, fun hp => eq_nil_iff_forall_not_mem.mpr fun x hx => ?_⟩
  exact Program.not_hasty hp x (hhasty x hx)

/-- A program in which nothing is loaded through a receiver, with a static class initializer. -/
def shapeSource : ProgramSource where
  classes := [
    { name := "Shape"
      fields := ["static Shape last", "Shape next"]
      methods := [
        { sig := "static void <clinit>()", locals := ["Shape s"]
          body := ["s = new Shape", "Shape.last = s"] },
        { sig := "void draw(Shape x)", locals := ["Shape y"]
          body := ["this.next = x", "y = x.next", "Shape.last = y"] }] },
    { name := "Main"
      methods := [
        { sig := "static void main()"
          locals := ["Shape s", "Shape t"]
          body := ["s = new Shape", "t = Shape.last", "s.draw(t)", "t.draw(s)"] }] }]
  entries := ["Main.main"]

theorem checker_finds_hasty_only_shape : ∃ p, Program.load shapeSource = .ok p ∧
    p.unhurried = true ∧
    (Options.setup {} p (.obj 2) [.checker] |>.solve []).state.checker.violations = [] := by
  obtain ⟨p, hp, hun⟩ : ∃ p, Program.load shapeSource = .ok p ∧ p.unhurried = true :=
    exists_of_any_toOption (by decide +kernel)
  exact ⟨p, hp, hun, (checker_finds_hasty_only ⟨_, hp⟩ {} (.obj 2)).2.2.2 hun⟩

/-- A program in which a method loads a field through its receiver. -/
def selfLoadSource : ProgramSource where
  classes := [{
    name := "A"
    fields := ["A f"]
    methods := [
      { sig := "void m()", locals := ["A y"], body := ["y = this.f"] },
      { sig := "static void main()", locals := ["A a"]
        body := ["a = new A", "a.f = a", "a.m()"] }] }]
  entries := ["A.main"]

/-- A program with a class initializer that is not static and is called before its class is used. -/
def instanceClinitSource : ProgramSource where
  classes := [
    { name := "A"
      methods := [{ sig := "static void main()", locals := ["A a"]
                    body := ["a = new A", "special a.B::<clinit>()"] }] },
    { name := "B"
      methods := [{ sig := "void <clinit>()", locals := ["B y"], body := ["y = new B"] }] }]
  entries := ["A.main"]

set_option maxRecDepth 100000 in
/-- **The checker does find such faults.** In the first example `y` grows when the object has been
bound to the receiver, and the call edge to its method still waits. In the second one the news of
the initializer is pending when the initializer is reached a second time. -/
theorem checker_finds_hasty :
    (∃ p, Program.load selfLoadSource = .ok p ∧
      ((Options.setup {} p .insensitive [.checker]).solve []).state.checker.violations =
        ["hit A.m()/y before processing A.m()", "hit []:A.m()/y before processing []:A.m()"]) ∧
    ∃ p, Program.load instanceClinitSource = .ok p ∧
      ((Options.setup {} p (.obj 1) [.checker]).solve []).state.checker.violations =
        ["hit []:B.<clinit>() before processing B.<clinit>()"] := by
  constructor
  · obtain ⟨p, hp, hA, hv⟩ : ∃ p, Program.load selfLoadSource = .ok p ∧
        let g := Options.setup {} p .insensitive [.checker]
        ((g.initial []).run g 200).agenda.isEmpty = true ∧
        ((g.initial []).run g 200).state.checker.violations =
          ["hit A.m()/y before processing A.m()", "hit []:A.m()/y before processing []:A.m()"] :=
      exists_of_any_toOption (by decide +kernel)
    exact ⟨p, hp, by rw [Setup.solve, Machine.settle_eq_run (List.isEmpty_iff.mp hA), hv]⟩
  · obtain ⟨p, hp, hA, hv⟩ : ∃ p, Program.load instanceClinitSource = .ok p ∧
        let g := Options.setup {} p (.obj 1) [.checker]
        ((g.initial []).run g 200).agenda.isEmpty = true ∧
        ((g.initial []).run g 200).state.checker.violations =
          ["hit []:B.<clinit>() before processing B.<clinit>()"] :=
      exists_of_any_toOption (by decide +kernel)
    exact ⟨p, hp, by rw [Setup.solve, Machine.settle_eq_run (List.isEmpty_iff.mp hA), hv]⟩

end HeapFlow
