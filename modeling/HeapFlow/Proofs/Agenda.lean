import HeapFlow.Proofs.Delivery

/-!
# What stands on the agenda

The agenda is a stack. This file says once which tasks each task leaves to do (`Task.Leaves`) and
draws from it an order in which tasks stand on the agenda (`Task.Precedes`). `Machine.Steady`
collects what holds at every moment of a run; a step of such a machine is described by
`Machine.Performs`.
-/

namespace HeapFlow

open List

/-- **A call has no target**: a static call without a static method that has a body, a call that
names the class of its method without an instance method that has one, or a call that is dispatched.
-/
inductive Program.Lacks (p : Program) : Option CObjId → CallSite → Prop where
  | static {site : CallSite} {c : Call} (hc : p.call? site = some c) (hkind : c.kind = .static)
      (h : p.staticCallee? c.target = none) : Lacks p none site
  | special {o : CObjId} {site : CallSite} {c : Call} (hc : p.call? site = some c)
      (hkind : c.kind = .special)
      (h : ((p.resolve c.target).filter fun m => !m.isAbstract && !m.isStatic) = none) :
      Lacks p (some o) site
  | dispatched {o : CObjId} {site : CallSite} {c : Call} (hc : p.call? site = some c)
      (hkind : c.kind = .virtual ∨ c.kind = .interface) : Lacks p (some o) site

/-- There is nothing to do but to tell of a call that has no target. -/
def Setup.Reports (g : Setup) (ts : List Task) : Prop :=
  ts = [] ∨ ∃ o c site, ts = [.notify (.unresolved o c site) g.observers] ∧ g.program.Lacks o site

theorem Setup.Reports.onlyUnresolved {g : Setup} {ts : List Task} (h : g.Reports ts) :
    g.OnlyUnresolved ts := by
  rcases h with rfl | ⟨o, c, site, rfl, -⟩
  · exact .inl rfl
  · exact .inr ⟨o, c, site, rfl⟩

/-! ### What actions return -/

namespace Act

/-- Whatever an action returns, if it returns anything, has a property. -/
def Returns {α : Type} (a : Act α) (Q : α → Prop) : Prop :=
  ∀ s x s', a s = .ok x s' → Q x

section Returns

variable {α β : Type} {a : Act α} {f : α → Act β} {P : α → Prop} {Q : β → Prop}

theorem Returns.pure {x : β} (h : Q x) : Returns (Pure.pure x) Q := by
  intro s y s' hy
  cases hy
  exact h

theorem Returns.throw (e : Failure) : Returns (MonadExcept.throw e : Act β) Q := by
  intro s y s' hy
  cases hy

/-- Actions one after the other return what the last one does. -/
theorem Returns.andThen (ha : Returns a P) (h : ∀ x, P x → Returns (f x) Q) :
    Returns (a >>= f) Q := by
  intro s y s' hy
  simp only [Bind.bind, EStateM.bind] at hy
  split at hy
  · next hx => exact h _ (ha _ _ _ hx) _ _ _ hy
  · cases hy

theorem Returns.bind (h : ∀ x, Returns (f x) Q) : Returns (a >>= f) Q :=
  .andThen (P := fun _ => True) (fun _ _ _ _ => trivial) fun x _ => h x

theorem Returns.then_pure {y : β} (h : Q y) : Returns (a >>= fun _ => Pure.pure y) Q :=
  .bind fun _ => .pure h

end Returns

variable {g : Setup} {site : CallSite} {d : Method}

/-- A static call reports itself if it has no target. -/
theorem returns_staticCall {ctx : CtxId} {c : Call} (hc : g.program.call? site = some c)
    (hkind : c.kind = .static) : Returns (staticCall g ctx site c.target) g.Reports := by
  have htold : g.program.staticCallee? c.target = none →
      g.Reports [.notify (.unresolved none ctx site) g.observers] :=
    fun hnone => .inr ⟨none, ctx, site, rfl, .static hc hkind hnone⟩
  unfold staticCall
  dsimp only
  split
  · next hnone => exact .pure (htold (by simp [Program.staticCallee?, hnone]))
  · next callee hcallee =>
    split
    · next hunfit =>
      refine .pure (htold ?_)
      simp only [Bool.or_eq_true, Bool.not_eq_true'] at hunfit
      rcases hunfit with h | h <;> simp [Program.staticCallee?, hcallee, Option.filter_some, h]
    · exact .bind fun _ => .bind fun _ => .bind fun _ => .then_pure (.inl rfl)

theorem returns_allocation {i : Nat} {dst : Slot} {t : Ty} {n : Nat}
    (hs : g.program.stmt? d.id i = some (.new dst t n)) (m : CMethodId) (c : CtxId) :
    Returns (allocation g m c d i dst t n) g.Reports := by
  have hcall : g.program.call? (.register d.id i) =
      some { kind := .static, target := finalizerRegister, args := [dst] } := by
    simp [Program.call?, hs]
  have hregister : Returns (if g.program.needsFinalizer t then do
      setContainer (← register (·.site c (.register d.id i))) m
      staticCall g c (.register d.id i) finalizerRegister
    else Pure.pure []) g.Reports := by
    split
    · exact .bind fun _ => .bind fun _ => returns_staticCall hcall rfl
    · exact .pure (.inl rfl)
  refine .bind fun _ => .bind fun _ => .bind fun _ => ?_
  dsimp only
  split
  · exact .bind fun _ => .bind fun _ => hregister
  · exact hregister

theorem returns_enact {i : Nat} {st : Stmt} (hs : g.program.stmt? d.id i = some st)
    (m : CMethodId) : Returns (enact g m d i st) g.Reports := by
  have hnone : g.Reports [] := .inl rfl
  refine .bind fun _ => ?_
  dsimp only
  split
  · exact returns_allocation hs _ _
  · exact .then_pure hnone
  all_goals try exact .pure hnone
  all_goals
    try
      split
      · exact .bind fun _ => .bind fun _ => .then_pure hnone
      · exact .pure hnone
  · refine .bind fun _ => .bind fun _ => ?_
    split
    · next hkind => exact returns_staticCall (by simp [Program.call?, hs, Stmt.call?]) hkind
    · exact .pure hnone

/-- If no method is found, the call has no target for that receiver. -/
theorem returns_callee {c : Call} (hc : g.program.call? site = some c) (o : CObjId) :
    Returns (callee g site c o) fun found => found = none → g.program.Lacks (some o) site := by
  unfold callee
  dsimp only
  split
  · next hkind => exact .pure (.special hc hkind)
  · next hkind => exact .bind fun _ => .pure fun _ => .dispatched hc (.inl hkind)
  · next hkind => exact .bind fun _ => .pure fun _ => .dispatched hc (.inr hkind)
  · exact .throw _

/-- So does a call on a receiver. -/
theorem returns_dispatch (i : CSiteId) (o : CObjId) : Returns (dispatch g i o) g.Reports := by
  refine .bind fun s => ?_
  dsimp only
  split
  · exact .pure (.inl rfl)
  · next c hc =>
    refine (returns_callee hc o).andThen fun found hfound => ?_
    split
    · exact .then_pure (.inl rfl)
    · exact .pure (.inr ⟨some o, _, _, rfl, hfound rfl⟩)

/-- **A statement or a receiver leaves nothing to do**, but to tell of a call that has no target. -/
theorem returns_perform_enact (hp : g.program.WellFormed) (m : CMethodId) (i : Nat) :
    Returns (perform g (.enact m i)) g.Reports := by
  refine .bind fun s => ?_
  dsimp only
  split
  · next d st hd hs =>
    rw [← hp.id_eq hd] at hs
    exact returns_enact hs m
  · exact .pure (.inl rfl)

end Act

/-! ### What tasks leave to do -/

/-- **What a task leaves to do**, in a run without scripts. -/
inductive Task.Leaves (g : Setup) (s s' : State) : Task → List Task → Prop where
  | told (e : Event) : Leaves g s s' (.notify e []) []
  | enter (b : Bool) (os : List Observer) :
      Leaves g s s' (.notify .start (.entryPoints b :: os))
        ((g.program.entries ++ (if b then g.program.implicitEntries else [])).map .entry ++
          (g.program.entries.filter g.program.takesArguments).map .arguments ++ [.notify .start os])
  | init (m : MethodId) (os : List Observer) :
      Leaves g s s' (.notify (.method m) (.classInit :: os))
        (g.program.initializations m ++ [.notify (.method m) os])
  | tell (e : Event) (o : Observer) (os : List Observer) :
      Leaves g s s' (.notify e (o :: os)) [.notify e os]
  | entry {m : MethodId} {cm : CMethodId} (h : s'.registry.MethodIs cm ⟨[], m⟩) :
      Leaves g s s' (.entry m) [.reach cm]
  | arguments (m : MethodId) : Leaves g s s' (.arguments m) []
  /-- Nothing is to be done for a method that is reachable already, or does not count. -/
  | again (m : CMethodId) : Leaves g s s' (.reach m) []
  | reach {m : CMethodId} (hm : m ∉ s.calls.reachable)
      (ht : g.Translates (s.registry.methodId m)) : Leaves g s s' (.reach m) (g.bodyTasks s m)
  | enact (m : CMethodId) (i : Nat) {ts : List Task} (h : g.OnlyUnresolved ts) :
      Leaves g s s' (.enact m i) ts
  /-- Nothing is to be done for a class that is initialized already, or does not exist. -/
  | initialized (c : String) : Leaves g s s' (.initClass c) []
  | initClass (c : String) {above : List Task} (h : ∀ u ∈ above, ∃ b, u = .initClass b) :
      Leaves g s s' (.initClass c) (.notify (.initialized c) g.observers :: above ++ [.clinit c])
  | blank (c : String) : Leaves g s s' (.clinit c) []
  | clinit {c : String} {k : Class} {d : Method} {cm : CMethodId}
      (hc : g.program.class? c = some k) (hd : k.clinit? = some d)
      (h : s'.registry.MethodIs cm ⟨[], d.id⟩) : Leaves g s s' (.clinit c) [.reach cm]
  | receive (c : CtxId) (site : CallSite) (l : List CObjId) (i : CSiteId) :
      Leaves g s s' (.receive c site l) (l.map (.dispatch i))
  | dispatch (i : CSiteId) (o : CObjId) {ts : List Task} (h : g.OnlyUnresolved ts) :
      Leaves g s s' (.dispatch i o) ts
  | wire (e : CCallEdge) : Leaves g s s' (.wire e) [.notify (.call e) g.observers]
  | idle : Leaves g s s' .drain []
  | deliver : Leaves g s s' .drain [.drain]
  /-- The calls on a variable that grows have new receivers, and then it is told. -/
  | grow (p : PtrId) (delta : Objects) {us : List Task}
      (h : ∀ u ∈ us, ∃ c i l, u = .receive c i l) :
      Leaves g s s' .drain (us ++ [.notify (.grown p delta) g.observers, .drain])
  | connect {e : CCallEdge} {w : WorkList} (h : s.work.poll = some (.call e, w)) :
      Leaves g s s' .drain [.reach e.callee, .wire e, .drain]
  | finish : Leaves g s s' .finish [.notify .finish g.observers]

namespace Act

variable {g : Setup} {s s' : State} {ts : List Task}

/-- News goes to the next observer, behind what this one leaves to do. -/
theorem leaves_notify (hscript : g.Unscripted) {e : Event} {os : List Observer}
    (hos : os ⊆ g.observers) (hrun : notify g e os s = .ok ts s') :
    (Task.notify e os).Leaves g s s' ts := by
  cases os with
  | nil =>
    cases hrun
    exact .told e
  | cons o os =>
    have htell : ∀ {a : Act (List Task)},
        (a >>= fun us => pure (us ++ [.notify e os])) s = .ok ts s' → Returns a (· = []) →
        (Task.notify e (o :: os)).Leaves g s s' ts := by
      intro a ha hnone
      simp only [Bind.bind, EStateM.bind] at ha
      split at ha
      · rename_i us s₁ hus
        cases ha
        rw [hnone _ _ _ hus]
        exact .tell e o os
      · cases ha
    have hpure : Returns (pure [] : Act (List Task)) (· = []) := .pure rfl
    change (react g e o >>= fun us => pure (us ++ [.notify e os])) s = .ok ts s' at hrun
    cases o with
    | entryPoints b =>
      cases e with
      | start =>
        cases hrun
        exact .enter b os
      | _ => exact htell hrun hpure
    | classInit =>
      cases e with
      | method m =>
        cases hrun
        exact .init m os
      | _ => exact htell hrun hpure
    | threads | arrayCopy =>
      cases e <;> exact htell hrun (by first | exact hpure | exact .then_pure rfl)
    | checker | profiler => exact htell hrun (.then_pure rfl)
    | recorder lead scripted =>
      cases scripted with
      | true => exact absurd (hos (.head _)) (hscript lead)
      | false => exact htell hrun (.bind fun _ => .then_pure rfl)

/-- **What each task leaves to do.** -/
theorem leaves_perform (hp : g.program.WellFormed) (hs : s.Wf g) (hscript : g.Unscripted) {t : Task}
    (ht : t.Means g s.registry) (hrun : perform g t s = .ok ts s')
    (hout : Outcome g s t (some ts) s') : t.Leaves g s s' ts := by
  cases t with
  | notify e os => exact leaves_notify hscript ht.1 hrun
  | entry m =>
    cases hrun
    exact .entry (Registry.answers_method hs.registry (Registry.ctxIs_empty _) m).means
  | arguments m =>
    have hnone : Returns (perform g (.arguments m)) (· = []) := .then_pure rfl
    rw [hnone _ _ _ hrun]
    exact .arguments m
  | reach m =>
    cases hout with
    | routine hr => exact hr.elim
    | again | skip => exact .again m
    | reach hm ht => exact .reach hm ht
  | enact m i => exact .enact m i (returns_perform_enact hp m i _ _ _ hrun).onlyUnresolved
  | initClass c =>
    rcases initClass_cases hrun with ⟨rfl, -⟩ | ⟨k, above, -, -, -, rfl, habove⟩
    · exact .initialized c
    · refine .initClass c fun u hu => ?_
      obtain ⟨b, -, rfl⟩ := habove u hu
      exact ⟨b, rfl⟩
  | clinit c =>
    simp only [perform, Act.clinit] at hrun
    cases hd : (g.program.class? c).bind Class.clinit? with
    | none =>
      rw [hd] at hrun
      cases hrun
      exact .blank c
    | some d =>
      obtain ⟨k, hk, hkd⟩ := Option.bind_eq_some_iff.mp hd
      rw [hd] at hrun
      cases hrun
      exact .clinit hk hkd (Registry.answers_method hs.registry (Registry.ctxIs_empty _) d.id).means
  | receive c site l =>
    cases hrun
    exact .receive c site l _
  | dispatch i o => exact .dispatch i o (returns_dispatch i o _ _ _ hrun).onlyUnresolved
  | wire e =>
    cases hout with
    | routine hr => exact hr.elim
    | wire hc hr =>
      rw [hr ts rfl]
      exact .wire e
  | op | answer => exact ht.elim
  | drain =>
    cases hout with
    | routine hr => exact hr.elim
    | idle => exact .idle
    | deliver | known => exact .deliver
    | grow _ _ _ _ _ hr =>
      obtain ⟨us, rfl, -, hus⟩ := hr ts rfl
      refine .grow _ _ fun u hu => ?_
      obtain ⟨i, rfl⟩ := hus u hu
      exact ⟨_, i, _, rfl⟩
    | connect h _ _ hr =>
      rw [hr ts rfl]
      exact .connect h
  | finish =>
    cases hrun
    exact .finish

end Act

/-! ### The order of tasks -/

namespace Task

/-- The task tells of a method that has been reached for the first time. -/
def Announces : Task → Prop
  | .notify (.method _) _ => True
  | _ => False

/-- A run branches out from the task. -/
def Opens : Task → Prop
  | .notify .start _ => True
  | .entry _ => True
  | .drain => True
  | _ => False

/-- The task initializes a class. -/
def Initializes : Task → Prop
  | .initClass _ => True
  | .clinit _ => True
  | _ => False

/-- The task leads to a method that becomes reachable. -/
def Leads : Task → Prop
  | .entry _ => True
  | .clinit _ => True
  | .reach _ => True
  | _ => False

/-- The task is none of these. -/
structure Plain (t : Task) : Prop where
  not_opens : ¬ t.Opens
  not_leads : ¬ t.Leads
  not_initializes : ¬ t.Initializes

end Task

/-- **Where a task comes from**: a task, and one that it leaves. -/
inductive Task.Stems (g : Setup) (s s' : State) : Task → Task → Prop where
  | tell (e : Event) (o : Observer) (os : List Observer) :
      Stems g s s' (.notify e (o :: os)) (.notify e os)
  | entry {b : Bool} (os : List Observer) {m : MethodId}
      (h : m ∈ g.program.entries ++ (if b then g.program.implicitEntries else [])) :
      Stems g s s' (.notify .start (.entryPoints b :: os)) (.entry m)
  | init (m : MethodId) (os : List Observer) (c : String) :
      Stems g s s' (.notify (.method m) (.classInit :: os)) (.initClass c)
  | above (c b : String) : Stems g s s' (.initClass c) (.initClass b)
  | clinit (c : String) : Stems g s s' (.initClass c) (.clinit c)
  | reachEntry {m : MethodId} {cm : CMethodId} (h : s'.registry.MethodIs cm ⟨[], m⟩) :
      Stems g s s' (.entry m) (.reach cm)
  | reachClinit {c : String} {k : Class} {d : Method} {cm : CMethodId}
      (hc : g.program.class? c = some k) (hd : k.clinit? = some d)
      (h : s'.registry.MethodIs cm ⟨[], d.id⟩) : Stems g s s' (.clinit c) (.reach cm)
  | reachCallee {e : CCallEdge} {w : WorkList} (h : s.work.poll = some (.call e, w)) :
      Stems g s s' .drain (.reach e.callee)
  | more : Stems g s s' .drain .drain
  | other (t : Task) {u : Task} (h : u.Plain) : Stems g s s' t u

/-- Every task left is one that its task may leave. -/
theorem Task.Leaves.stems {g : Setup} {s s' : State} {t : Task} {ts : List Task}
    (h : t.Leaves g s s' ts) {u : Task} (hu : u ∈ ts) : t.Stems g s s' u := by
  have hplain : ∀ {t u : Task}, ¬ u.Opens → ¬ u.Leads → ¬ u.Initializes → t.Stems g s s' u :=
    fun h₁ h₂ h₃ => .other _ ⟨h₁, h₂, h₃⟩
  cases h with
  | told | arguments | again | initialized | blank | idle => cases hu
  | tell e o os =>
    rw [mem_singleton.mp hu]
    exact .tell e o os
  | deliver =>
    rw [mem_singleton.mp hu]
    exact .more
  | finish | wire =>
    rw [mem_singleton.mp hu]
    exact hplain id id id
  | enter b os =>
    simp only [mem_append, mem_map, mem_singleton] at hu
    rcases hu with (⟨m, hm, rfl⟩ | ⟨m, -, rfl⟩) | rfl
    · exact .entry os (mem_append.mpr hm)
    · exact hplain id id id
    · exact .tell ..
  | init m os =>
    rcases mem_append.mp hu with hu | hu
    · obtain ⟨d, -, c, -, rfl⟩ := Program.mem_initializations_iff.mp hu
      exact .init m os c
    · rw [mem_singleton.mp hu]
      exact .tell ..
  | entry h =>
    rw [mem_singleton.mp hu]
    exact .reachEntry h
  | reach =>
    rcases g.mem_bodyTasks hu with ⟨-, rfl⟩ | ⟨i, rfl⟩ | rfl <;> exact hplain id id id
  | enact _ _ h | dispatch _ _ h =>
    rcases h with rfl | ⟨o, c, i, rfl⟩
    · cases hu
    · rw [mem_singleton.mp hu]
      exact hplain id id id
  | initClass c h =>
    rcases mem_between.mp hu with rfl | hu | rfl
    · exact hplain id id id
    · obtain ⟨b, rfl⟩ := h u hu
      exact .above c b
    · exact .clinit c
  | clinit hc hd h =>
    rw [mem_singleton.mp hu]
    exact .reachClinit hc hd h
  | receive c site l i =>
    obtain ⟨o, -, rfl⟩ := mem_map.mp hu
    exact hplain id id id
  | @grow p delta us hus =>
    rcases mem_append.mp hu with hu | hu
    · obtain ⟨c, i, l, rfl⟩ := hus u hu
      exact hplain id id id
    · rcases mem_pair.mp hu with rfl | rfl
      · exact hplain id id id
      · exact .more
  | connect hpoll =>
    rcases mem_triple.mp hu with rfl | rfl | rfl
    · exact .reachCallee hpoll
    · exact hplain id id id
    · exact .more

/-- A number stands for the initializer of a class in the empty context, and classes are
initialized. -/
def Setup.Initializer (g : Setup) (r : Registry) (cm : CMethodId) : Prop :=
  .classInit ∈ g.observers ∧ ∃ c k d, g.program.class? c = some k ∧ k.clinit? = some d ∧
    r.MethodIs cm ⟨[], d.id⟩

/-- **A task may stand in front of another one on the agenda**: behind the waiting work comes only
the end; where a run branches out, no news of a method is behind; and a method to be reached while
such news is pending initializes a class. -/
structure Task.Precedes (g : Setup) (r : Registry) (t u : Task) : Prop where
  drain : t = .drain → u = .finish
  opens : t.Opens → ¬ u.Announces
  reach : ∀ cm, t = .reach cm → u.Announces → g.Initializer r cm

section Precedes

variable {g : Setup} {r r' : Registry} {s s' : State} {t u : Task} {ts : List Task}

/-- Numbers given out later change nothing. -/
theorem Task.Precedes.mono (h : t.Precedes g r u) (hle : r ≤ r') : t.Precedes g r' u where
  drain := h.drain
  opens := h.opens
  reach cm hcm hu := by
    obtain ⟨ho, c, k, d, hc, hd, hM⟩ := h.reach cm hcm hu
    exact ⟨ho, c, k, d, hc, hd, hM.mono hle⟩

theorem Task.precedes_of_plain (hopens : ¬ t.Opens) (hreach : ∀ cm, t ≠ .reach cm) (u : Task) :
    t.Precedes g r u :=
  ⟨fun h => absurd (h ▸ trivial) hopens, fun h => absurd h hopens, fun cm h => absurd h (hreach cm)⟩

theorem Task.Plain.precedes (h : t.Plain) (u : Task) : t.Precedes g r u :=
  precedes_of_plain h.not_opens (fun _ hreach => h.not_leads (hreach ▸ trivial)) u

theorem Task.precedes_of_not_announces (hdrain : t ≠ .drain) (hu : ¬ u.Announces) :
    t.Precedes g r u :=
  ⟨fun h => absurd h hdrain, fun _ => hu, fun _ _ h => absurd h hu⟩

theorem Setup.OnlyUnresolved.precedes (h : g.OnlyUnresolved ts) (ht : t ∈ ts) :
    t.Precedes g r u := by
  rcases h with rfl | ⟨o, c, i, rfl⟩
  · cases ht
  · rw [mem_singleton.mp ht]
    exact Task.precedes_of_plain id (by simp) u

theorem Setup.plain_bodyTasks {m : CMethodId} (ht : t ∈ g.bodyTasks s m) : t.Precedes g r u := by
  rcases g.mem_bodyTasks ht with ⟨-, rfl⟩ | ⟨i, rfl⟩ | rfl <;>
    exact Task.precedes_of_plain id (by simp) u

/-- The tasks that one task leaves are in order. -/
theorem Task.Leaves.pairwise (h : t.Leaves g s s' ts) : ts.Pairwise (Precedes g r) := by
  have hplain : ∀ {t u : Task}, ¬ t.Opens → (∀ cm, t ≠ .reach cm) → t.Precedes g r u :=
    fun h₁ h₂ => precedes_of_plain h₁ h₂ _
  have hsilent : ∀ {t u : Task}, t ≠ .drain → ¬ u.Announces → t.Precedes g r u :=
    precedes_of_not_announces
  cases h with
  | told | arguments | again | initialized | blank | idle => exact .nil
  | tell | entry | clinit | wire | deliver | finish => exact pairwise_singleton _ _
  | enter b os =>
    refine pairwise_of_forall_mem_list fun t ht u hu => hsilent ?_ ?_
    · rintro rfl
      simp at ht
    · simp only [mem_append, mem_map, mem_singleton] at hu
      rcases hu with (⟨m, -, rfl⟩ | ⟨m, -, rfl⟩) | rfl <;> exact id
  | init m os =>
    unfold Program.initializations
    split
    · refine pairwise_append.mpr ⟨pairwise_map.mpr (pairwise_of_forall ?_),
        pairwise_singleton _ _, fun t ht u _ => ?_⟩
      · exact fun a b => hplain id (by simp)
      · obtain ⟨c, -, rfl⟩ := mem_map.mp ht
        exact hplain id (by simp)
    · exact pairwise_singleton _ _
  | reach => exact pairwise_of_forall_mem_list fun _ ht _ _ => g.plain_bodyTasks ht
  | enact _ _ h | dispatch _ _ h =>
    exact pairwise_of_forall_mem_list fun _ ht _ _ => h.precedes ht
  | initClass c h =>
    refine pairwise_of_forall_mem_list fun t ht u _ => ?_
    rcases mem_between.mp ht with rfl | ht | rfl
    · exact hplain id (by simp)
    · obtain ⟨b, rfl⟩ := h t ht
      exact hplain id (by simp)
    · exact hplain id (by simp)
  | receive c site l i =>
    exact pairwise_map.mpr (pairwise_of_forall fun a b => hplain id (by simp))
  | @grow p delta us hus =>
    refine pairwise_append.mpr ⟨pairwise_of_forall_mem_list fun t ht u _ => ?_, ?_,
      fun t ht u _ => ?_⟩
    · obtain ⟨c, i, l, rfl⟩ := hus t ht
      exact hplain id (by simp)
    · exact pairwise_pair.mpr (hplain id (by simp))
    · obtain ⟨c, i, l, rfl⟩ := hus t ht
      exact hplain id (by simp)
  | connect =>
    refine pairwise_cons.mpr ⟨fun u hu => hsilent (by simp) ?_, pairwise_pair.mpr
      (hplain id (by simp))⟩
    rcases mem_pair.mp hu with rfl | rfl <;> exact id

/-- What a task leaves may stand where the task stood. -/
theorem Task.Stems.precedes {a : Task} (h : t.Stems g s s' a) (hle : s.registry ≤ s'.registry)
    (hinit : t.Initializes → .classInit ∈ g.observers) (hu : t.Precedes g s.registry u) :
    a.Precedes g s'.registry u := by
  cases h with
  | tell e o os =>
    refine ⟨by simp, fun hopens => hu.opens ?_, by simp⟩
    cases e with
    | start => trivial
    | _ => exact hopens.elim
  | entry | reachEntry | reachCallee =>
    exact precedes_of_not_announces (by simp) (hu.opens trivial)
  | reachClinit hc hd hM =>
    refine ⟨by simp, False.elim, fun cm hcm _ => ⟨hinit trivial, _, _, _, hc, hd, ?_⟩⟩
    cases hcm
    exact hM
  | more => exact hu.mono hle
  | init | above | clinit => exact precedes_of_plain id (by simp) u
  | other _ h => exact h.precedes u

theorem Task.Stems.initializes {a : Task} (h : t.Stems g s s' a) (ht : t.Means g r)
    (hinit : t.Initializes → .classInit ∈ g.observers) (ha : a.Initializes) :
    .classInit ∈ g.observers := by
  cases h with
  | init => exact ht.1 (.head _)
  | above | clinit => exact hinit trivial
  | other _ h => exact absurd ha h.not_initializes
  | _ => exact ha.elim

end Precedes

/-! ### Steady runs -/

/-- What a run without scripts relies on. -/
structure Setup.Tame (g : Setup) : Prop where
  wellFormed : g.program.WellFormed
  unscripted : g.Unscripted
  honest : g.Honest

/-- Such are the analyses of accepted programs with observers that only watch. -/
theorem Options.tame_setup {p : Program} (h : p.Accepted) (o : Options) (policy : Policy)
    {more : List Observer} (hmore : ∀ w ∈ more, w.Watches) : (o.setup p policy more).Tame where
  wellFormed := h.wellFormed
  unscripted := unscripted_setup hmore
  honest _ _ _ _ hx := (OrderedSet.mem_empty hx).elim

namespace Machine

/-- **What holds at every moment of a run** without scripts. -/
structure Steady (g : Setup) (m : Machine) : Prop where
  sound : m.Sound g
  mindful : m.Mindful g
  known : m.Known g
  announced : m.state.Announced g
  ordered : m.agenda.Pairwise (Task.Precedes g m.state.registry)
  initializes : ∀ t ∈ m.agenda, t.Initializes → .classInit ∈ g.observers

/-- **A step of a run**: the first task is performed and leads to the state `s'`, and the tasks `ts`
are put in front of the rest. -/
structure Performs (g : Setup) (m : Machine) (t : Task) (rest ts : List Task) (s' : State) :
    Prop where
  agenda : m.agenda = t :: rest
  run : Act.perform g t m.state = .ok ts s'
  next : m.step g = { state := s', agenda := ts ++ rest }
  effect : Effect g {f | t.Owes g m.state.registry f} t.announcing (t.weight g) m.state ts s'
  outcome : Outcome g m.state t (some ts) s'
  leaves : t.Leaves g m.state s' ts

variable {g : Setup} {m : Machine}

/-- A run starts so. -/
theorem steady_initial (g : Setup) (script : Script) : (g.initial script).Steady g where
  sound := sound_initial g script
  mindful := (dutiful_initial g script).mindful
  known := .initial g script
  announced id := by simp [Setup.initial]
  ordered := by
    refine pairwise_cons.mpr ⟨fun u hu => ?_, pairwise_pair.mpr ⟨fun _ => rfl, ?_, ?_⟩⟩
    · refine Task.precedes_of_not_announces (by simp) ?_
      rcases mem_pair.mp hu with rfl | rfl <;> exact id
    · exact fun _ => id
    · exact fun _ _ => False.elim
  initializes t ht hti := by
    rcases mem_triple.mp ht with rfl | rfl | rfl <;> exact hti.elim

variable {rest : List Task}

/-- **A step succeeds** and keeps what holds at every moment. -/
theorem Steady.performs (hg : g.Tame) (h : m.Steady g) {t : Task} (hA : m.agenda = t :: rest) :
    ∃ ts s', m.Performs g t rest ts s' ∧ (m.step g).Steady g := by
  obtain ⟨ts, s', hrun, hnext, hsound, heff⟩ :=
    h.sound.step_effect hg.wellFormed hg.unscripted hA
  have hmem : t ∈ m.agenda := hA ▸ .head _
  have hout := (Act.outcome_perform hg.honest h.known.state (h.known.agenda t hmem)).of_ok hrun
  have hmeans := (h.sound.supported t hmem).means
  have hleaves := Act.leaves_perform hg.wellFormed h.sound.wf hg.unscripted hmeans hrun hout
  have hinit := h.initializes t hmem
  have hord : (t :: rest).Pairwise (Task.Precedes g m.state.registry) := hA ▸ h.ordered
  refine ⟨ts, s', ⟨hA, hrun, hnext, heff, hout, hleaves⟩, hsound,
    h.mindful.step hg.wellFormed hg.unscripted h.sound, Moves.known hg.honest h.known .step,
    ?_, ?_, ?_⟩
  · rw [hnext]
    exact h.announced.outcome hg.honest h.known.state hout
  · rw [hnext]
    refine pairwise_append.mpr ⟨hleaves.pairwise, ?_, fun a ha u hu => ?_⟩
    · exact hord.tail.imp fun h => h.mono heff.le
    · exact (hleaves.stems ha).precedes heff.le hinit ((pairwise_cons.mp hord).1 u hu)
  · rw [hnext]
    intro u hu hui
    rcases mem_append.mp hu with hu | hu
    · exact (hleaves.stems hu).initializes hmeans hinit hui
    · exact h.initializes u (hA ▸ .tail _ hu) hui

/-- **What holds at the start and is kept by a step holds throughout a run.** -/
theorem Steady.induction (hg : g.Tame) {I : Machine → Prop} {script : Script}
    (h : I (g.initial script))
    (hstep : ∀ {m t rest ts s'}, m.Steady g → m.Performs g t rest ts s' →
      Steady g { state := s', agenda := ts ++ rest } → I m →
      I { state := s', agenda := ts ++ rest }) (n : Nat) :
    ((g.initial script).run g n).Steady g ∧ I ((g.initial script).run g n) := by
  refine run_induction (I := fun m => m.Steady g ∧ I m) ⟨steady_initial g script, h⟩ ?_ n
  rintro m ⟨hm, hI⟩
  cases hA : m.agenda with
  | nil =>
    rw [step_of_nil hA]
    exact ⟨hm, hI⟩
  | cons t rest =>
    obtain ⟨ts, s', hperf, hnext⟩ := hm.performs hg hA
    rw [hperf.next] at hnext ⊢
    exact ⟨hnext, hstep hm hperf hnext hI⟩

/-- Behind the waiting work stands only the end of the analysis. -/
theorem Steady.drain_last (h : m.Steady g) (hA : m.agenda = .drain :: rest) : rest = [.finish] := by
  have hord := (pairwise_cons.mp (hA ▸ h.ordered)).1
  have hends : m.state.Ends (.drain :: rest) := hA ▸ h.sound.ends
  generalize hB : Task.drain :: rest = B at hends
  cases hends with
  | working us =>
    cases us with
    | nil =>
      cases hB
      rfl
    | cons u us =>
      -- otherwise waiting work would stand behind waiting work
      cases hB
      cases (hord .drain (by simp)).drain rfl
  | finishing | telling | done => cases hB

/-- When the waiting work is taken up, nothing else is due. -/
theorem Steady.has_of_due (h : m.Steady g) (hA : m.agenda = .drain :: rest) {f : Fact}
    (hf : m.Due g f) : m.state.Has f := by
  rcases hf with hf | ⟨u, hu, hf⟩
  · exact hf
  · rw [hA, h.drain_last hA] at hu
    rcases mem_pair.mp hu with rfl | rfl <;> cases hf

end Machine

/-! ### The end of a run -/

section End

variable {g : Setup} (hg : g.Tame)

include hg

theorem Setup.Tame.steady_solve (script : Script) : (g.solve script).Steady g := by
  obtain ⟨n, hn, -⟩ := Setup.exists_solve_eq_run hg.wellFormed hg.unscripted script
  rw [hn]
  exact (Machine.Steady.induction hg (I := fun _ => True) trivial (fun _ _ _ _ => trivial) n).1

/-- **At the end all that follows has been found**, copies of array elements apart. -/
theorem Setup.Tame.settled_of_follows {script : Script} {h f : Fact} (hk : f.Kept g)
    (hh : (g.solve script).state.Settled h) (hf : Follows g h f) :
    (g.solve script).state.Settled f := by
  obtain ⟨-, hA⟩ := Setup.sound_solve hg.wellFormed hg.unscripted script
  obtain ⟨hidle, -⟩ := Setup.listed_solve hg.wellFormed hg.unscripted script
  rcases (hg.steady_solve script).mindful.follow hk hh hf with hhas | ⟨t, ht, -⟩
  · exact hidle.settled_of_has hhas
  · rw [hA] at ht
    exact absurd ht not_mem_nil

end End

end HeapFlow
