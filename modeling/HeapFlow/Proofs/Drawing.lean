import HeapFlow.Proofs.Agenda

/-!
# What tasks do to the call graph

Four tasks touch the call graph: an entry method is taken down, a method becomes reachable, a
waiting call edge is added, and a statement that calls something records which method its call site
is in. `Task.Draws` is the list of all that can happen, and everything about the history of the call
graph is shown from it. The other actions leave the call graph and the list of initialized classes
as they are (`Act.Spares`).
-/

namespace HeapFlow

open Option CallGraph

namespace Program

/-- The call site that a statement enters: that of a call, or that where an object with a finalizer
is registered. -/
def stmtSite? (p : Program) (m : MethodId) (i : Nat) : Stmt → Option CallSite
  | .invoke _ => some (.body m i)
  | .new _ t _ => if p.needsFinalizer t then some (.register m i) else none
  | _ => none

/-- The call site at a position of a method, if there is one. -/
def siteAt? (p : Program) (m : MethodId) (i : Nat) : Option CallSite :=
  (p.stmt? m i).bind (p.stmtSite? m i)

theorem method_of_siteAt? {p : Program} {m : MethodId} {i : Nat} {site : CallSite}
    (h : p.siteAt? m i = some site) : site.method = m := by
  obtain ⟨st, -, hst⟩ := Option.bind_eq_some_iff.mp h
  cases st with
  | invoke =>
    cases hst
    rfl
  | new _ t =>
    rw [stmtSite?, ite_none_right_eq_some] at hst
    cases hst.2
    rfl
  | _ => cases hst

end Program

namespace Act

/-! ### Actions that leave the call graph as it is -/

/-- **An action that succeeds leaves the call graph and the initialized classes as they are.** -/
structure Spares {α : Type} (a : Act α) (s : State) : Prop where
  calls : ∀ {x s'}, a s = .ok x s' → s'.calls = s.calls
  initialized : ∀ {x s'}, a s = .ok x s' → s'.initialized = s.initialized

theorem exists_of_bind_eq_ok {α β : Type} {a : Act α} {f : α → Act β} {s s' : State} {y : β}
    (h : (a >>= f) s = .ok y s') : ∃ x s₁, a s = .ok x s₁ ∧ f x s₁ = .ok y s' := by
  simp only [bind, EStateM.bind] at h
  cases hx : a s with
  | ok x s₁ =>
    rw [hx] at h
    exact ⟨x, s₁, rfl, h⟩
  | error e s₁ =>
    rw [hx] at h
    cases h

section Spares

variable {α : Type} {g : Setup} {s : State} {a : Act α}

theorem Results.spares (h : Results a s fun _ s' => s.Minds none False s') : Spares a s where
  calls hx := ((h.of_ok hx).drawn.resolve_left id).1
  initialized hx := ((h.of_ok hx).drawn.resolve_left id).2

/-- The licence to touch nothing that can be left alone. -/
abbrev Licence.least : Licence :=
  ⟨fun _ => False, False, none⟩

/-- Without a licence to draw, the call graph stays as it is. -/
theorem Does.spares {Q : α → State → Prop} (h : Does g .least a s Q) : Spares a s :=
  (h.results fun _ _ hc _ => hc.minds).spares

end Spares

/-- **An action leaves the call graph as it is, or only records** that `m` contains a call site in
the context `c`; it depends on `site?` which of the two. -/
structure Places {α : Type} (c : CtxId) (site? : Option CallSite) (m : CMethodId) (a : Act α)
    (s : State) : Prop where
  nothing : ∀ {x s'}, a s = .ok x s' → site? = none → s'.calls = s.calls
  placed : ∀ {x s' site}, a s = .ok x s' → site? = some site →
    ∃ i, s'.registry.sites.get? i = some ⟨c, site⟩ ∧ s'.calls = (s.calls.setContainer i m).2
  initialized : ∀ {x s'}, a s = .ok x s' → s'.initialized = s.initialized

section Places

variable {g : Setup} {s s' : State} {α β : Type} {c : CtxId} {site? : Option CallSite}
  {m : CMethodId} {a : Act α} {f : α → Act β} {x : α} {Q : α → State → Prop}

theorem Does.places (h : Does g .least a s Q) : Places c none m a s where
  nothing hx _ := h.spares.calls hx
  placed _ hnone := by cases hnone
  initialized := h.spares.initialized

theorem Places.get_bind {f : State → Act β} (h : Places c site? m (f s) s) :
    Places c site? m (get >>= f) s :=
  ⟨h.nothing, h.placed, h.initialized⟩

variable {l : Licence}

theorem Does.of_ok (h : Does g l a s Q) (hx : a s = .ok x s') : Q x s' := by
  unfold Does at h
  rw [hx] at h
  exact h.2

theorem Does.le_of_ok (h : Does g l a s Q) (hx : a s = .ok x s') : s.registry ≤ s'.registry :=
  (h.results (P := fun _ s' => s.registry ≤ s'.registry) fun _ _ hc _ => hc.le).of_ok hx

theorem Does.bind_places (h : Does g .least a s Q)
    (hf : ∀ x s', s.registry ≤ s'.registry → Q x s' → Places c site? m (f x) s') :
    Places c site? m (a >>= f) s := by
  have ha := h.spares
  have hrest : ∀ {x s₁}, a s = .ok x s₁ → Places c site? m (f x) s₁ :=
    fun hx => hf _ _ (h.le_of_ok hx) (h.of_ok hx)
  constructor
  · intro y s' h hnone
    obtain ⟨x, s₁, hx, hy⟩ := exists_of_bind_eq_ok h
    rw [← ha.calls hx]
    exact (hrest hx).nothing hy hnone
  · intro y s' site h hsite
    obtain ⟨x, s₁, hx, hy⟩ := exists_of_bind_eq_ok h
    rw [← ha.calls hx]
    exact (hrest hx).placed hy hsite
  · intro y s' h
    obtain ⟨x, s₁, hx, hy⟩ := exists_of_bind_eq_ok h
    rw [(hrest hx).initialized hy, ha.initialized hx]

theorem places_site (site : CallSite) {b : Act α} (hb : ∀ s, Does g .least b s Q) :
    Places c (some site) m (do
      setContainer (← register (·.site c site)) m
      b) s := by
  -- the second part starts where the site has been entered and its container recorded
  constructor
  · intro _ _ _ hnone
    cases hnone
  · intro y s' _ h hsite
    cases hsite
    refine ⟨(s.registry.site c site).1, ?_, (hb _).spares.calls h⟩
    exact ((hb _).le_of_ok h).sites _ _ (Table.get?_intern _ _)
  · intro y s' h
    exact ((hb _).spares.initialized h).trans rfl

/-- The site of an allocation is that of its finalizer. -/
theorem places_allocation (d : Method) (i : Nat) (dst : Slot) (t : Ty) (n : Nat) :
    Places c (g.program.stmtSite? d.id i (.new dst t n)) m (allocation g m c d i dst t n) s := by
  refine (does_request (g := g) rfl (by simp)).bind_places fun _ _ _ ho => ?_
  refine (does_allocate ho m).bind_places fun array _ h₁ harray => ?_
  refine (does_addToVar (g := g) harray _ _).bind_places fun _ s₁ h₂ _ => ?_
  have hregister : ∀ s, Places c (g.program.stmtSite? d.id i (.new dst t n)) m
      (if g.program.needsFinalizer t then do
        setContainer (← register (·.site c (.register d.id i))) m
        staticCall g c (.register d.id i) finalizerRegister
      else Pure.pure []) s := by
    intro s
    by_cases ht : g.program.needsFinalizer t = true
    · simp only [Program.stmtSite?, if_pos ht]
      exact places_site (.register d.id i) fun _ => does_staticCall _ _ _
    · simp only [Program.stmtSite?, if_neg ht]
      exact (Does.pure (g := g) (Q := fun _ _ => True) trivial).places
  dsimp only
  split
  · refine (does_innerArrays (g := g) (ho.mono (Registry.le_trans h₁ h₂)) _ _ _).bind_places
      fun l _ _ hl => ?_
    exact (does_chainArrays m array l hl).bind_places fun _ _ _ _ => hregister _
  · exact hregister s₁

/-- **A statement records its call site only.** -/
theorem places_enact (d : Method) (i : Nat) (st : Stmt) :
    Places (s.registry.methodContext m) (g.program.stmtSite? d.id i st) m (enact g m d i st) s := by
  unfold enact
  refine .get_bind ?_
  dsimp only
  split
  · exact places_allocation ..
  · exact ((does_constant ..).then_pure (R := fun _ _ => True) fun _ _ => trivial).places
  · exact (does_flowWhen (fun _ => does_variablePtr _ _) (fun _ => does_variablePtr _ _)
      (by simp)).places
  · exact (does_flowWhen (fun _ => does_variablePtr _ _) (fun _ => does_variablePtr _ _)
      (by simp)).places
  · exact (does_flowWhen (fun _ => does_pointer _) (fun _ => does_variablePtr _ _) (by simp)).places
  · exact (does_flowWhen (fun _ => does_variablePtr _ _) (fun _ => does_pointer _) (by simp)).places
  · exact places_site (.body d.id i) fun _ => .guard (fun _ => does_staticCall _ _ _) calm_nil
  all_goals exact (Does.pure (g := g) (Q := fun _ _ => True) trivial).places

end Places

end Act

/-! ### Call graphs grow -/

/-- **A call graph has everything that another one has.** -/
structure CallGraph.Extends {σ μ : Type} [DecidableEq σ] (c c' : CallGraph σ μ) : Prop where
  entries : c.entries ⊆ c'.entries
  reachable : c.reachable ⊆ c'.reachable
  edges : c.edges ⊆ c'.edges
  container? : ∀ {i m}, c.container? i = some m → c'.container? i = some m

namespace CallGraph

variable {σ μ : Type} [DecidableEq σ] (c : CallGraph σ μ)

theorem Extends.refl : c.Extends c :=
  ⟨List.Subset.refl _, List.Subset.refl _, List.Subset.refl _, id⟩

theorem Extends.trans {c c' c'' : CallGraph σ μ} (h : c.Extends c') (h' : c'.Extends c'') :
    c.Extends c'' :=
  ⟨List.Subset.trans h.entries h'.entries, List.Subset.trans h.reachable h'.reachable,
    List.Subset.trans h.edges h'.edges, fun hm => h'.container? (h.container? hm)⟩

variable [DecidableEq μ]

/-- The first container of a site stays. -/
theorem container?_setContainer (i j : σ) (m : μ) :
    (c.setContainer i m).2.container? j = (c.container? j).or (if j = i then some m else none) := by
  unfold setContainer
  split
  · rename_i hi
    by_cases hj : j = i
    · obtain ⟨x, hx⟩ := Option.isSome_iff_exists.mp hi
      rw [hj, hx, some_or]
    · rw [if_neg hj, or_none]
  · by_cases hj : j = i
    · simp [container?, List.lookup_append, hj]
    · have hne : (j == i) = false := beq_eq_false_iff_ne.mpr hj
      simp [container?, List.lookup_append, List.lookup_cons, hj, hne]

theorem of_container?_setContainer {i j : σ} {m n : μ}
    (h : (c.setContainer i m).2.container? j = some n) :
    c.container? j = some n ∨ j = i ∧ n = m := by
  rw [container?_setContainer, or_eq_some_iff, ite_none_right_eq_some, Option.some.injEq] at h
  exact h.imp_right fun ⟨_, hij, hmn⟩ => ⟨hij, hmn.symm⟩

theorem extends_setContainer (i : σ) (m : μ) : c.Extends (c.setContainer i m).2 where
  entries := by rw [entries_setContainer]; exact List.Subset.refl _
  reachable := by rw [reachable_setContainer]; exact List.Subset.refl _
  edges := by rw [edges_setContainer]; exact List.Subset.refl _
  container? h := by rw [container?_setContainer, h, some_or]

theorem extends_addEntry (m : μ) : c.Extends (c.addEntry m) where
  entries x hx := by
    rw [entries_addEntry, mem_added]
    exact .inl hx
  reachable := by rw [reachable_addEntry]; exact List.Subset.refl _
  edges := by rw [edges_addEntry]; exact List.Subset.refl _
  container? h := by rwa [container?, containers_addEntry]

theorem extends_addReachable (m : μ) : c.Extends (c.addReachable m).2 where
  entries := by rw [entries_addReachable]; exact List.Subset.refl _
  reachable x hx := (mem_reachable_addReachable c).mpr (.inl hx)
  edges := by rw [edges_addReachable]; exact List.Subset.refl _
  container? h := by rwa [container?, containers_addReachable]

theorem container?_addEdge (e : CallEdge σ μ) (i : σ) :
    (c.addEdge e).2.container? i = c.container? i := by
  rw [container?, containers_addEdge, container?]

theorem extends_addEdge (e : CallEdge σ μ) : c.Extends (c.addEdge e).2 where
  entries := by rw [entries_addEdge]; exact List.Subset.refl _
  reachable := by rw [reachable_addEdge]; exact List.Subset.refl _
  edges x hx := (mem_edges_addEdge c).mpr (.inl hx)
  container? h := by rw [container?_addEdge, h]

end CallGraph

/-! ### What tasks do -/

/-- A method in a context contains a call site in a context. -/
def Registry.Houses (r : Registry) (i : CSiteId) (m : CMethodId) : Prop :=
  ∃ S : At CallSite, r.SiteIs i S ∧ r.MethodIs m ⟨S.ctx, S.item.method⟩

theorem Registry.Houses.mono {r r' : Registry} {i : CSiteId} {m : CMethodId} (h : r.Houses i m)
    (hle : r ≤ r') : r'.Houses i m := by
  obtain ⟨S, hS, hm⟩ := h
  exact ⟨S, hS.mono hle, hm.mono hle⟩

/-- **What a task does to the call graph.** -/
inductive Task.Draws (s s' : State) : Task → Prop where
  | nothing (t : Task) (h : s'.calls = s.calls) : Draws s s' t
  | entry {m : MethodId} {cm : CMethodId} (hcm : s'.registry.MethodIs cm ⟨[], m⟩)
      (h : s'.calls = s.calls.addEntry cm) : Draws s s' (.entry m)
  | reach (m : CMethodId) (h : s'.calls = (s.calls.addReachable m).2) : Draws s s' (.reach m)
  | enact {m : CMethodId} (index : Nat) {i : CSiteId} (hi : s'.registry.Houses i m)
      (h : s'.calls = (s.calls.setContainer i m).2) : Draws s s' (.enact m index)
  /-- A waiting call edge is added, and it is known where its call site is. -/
  | connect {e : CCallEdge} {w : WorkList} (hpoll : s.work.poll = some (.call e, w))
      (hsite : (s.calls.container? e.site).isSome = true) (h : s'.calls = (s.calls.addEdge e).2) :
      Draws s s' .drain
  /-- A waiting call edge is added, and now it is known where its call site is. -/
  | place {e : CCallEdge} {w : WorkList} {m : CMethodId}
      (hpoll : s.work.poll = some (.call e, w)) (hm : s'.registry.Houses e.site m)
      (h : s'.calls = ((s.calls.addEdge e).2.setContainer e.site m).2) : Draws s s' .drain

/-- Tasks that touch neither the call graph nor the initialized classes. -/
def Task.Bystander : Task → Prop
  | .notify _ _ => True
  | .arguments _ => True
  | .clinit _ => True
  | .receive _ _ _ => True
  | .dispatch _ _ => True
  | .wire _ => True
  | .finish => True
  | _ => False

namespace Act

variable {g : Setup} {s s' : State} {ts : List Task}

/-- An entry method is taken down. -/
theorem draws_entry (hs : s.Wf g) {m : MethodId} (h : entry m s = .ok ts s') :
    Task.Draws s s' (.entry m) := by
  cases h
  exact .entry (Registry.answers_method hs.registry (Registry.ctxIs_empty _) m).means rfl

theorem mem_entries_of_entry {m : MethodId} {cm : CMethodId} (h : entry m s = .ok ts s')
    (hcm : .reach cm ∈ ts) : cm ∈ s'.calls.entries := by
  cases h
  cases List.mem_singleton.mp hcm
  rw [entries_addEntry, mem_added]
  exact .inr rfl

theorem mem_initialized_of_initClass {c u : String} (h : initClass g c s = .ok ts s')
    (hu : .clinit u ∈ ts) : u ∈ s'.initialized := by
  rcases initClass_cases h with ⟨rfl, -⟩ | ⟨k, above, -, -, rfl, rfl, habove⟩
  · cases hu
  · rcases mem_between.mp hu with hu | hu | hu
    · cases hu
    · obtain ⟨b, -, hb⟩ := habove _ hu
      cases hb
    · cases hu
      simp

variable {m : CMethodId} {M : At MethodId} {e : CCallEdge} {t : Task}

theorem draws_reach (h : reach g m s = .ok ts s') : Task.Draws s s' (.reach m) := by
  have hout : Task.Performed g none True s (.reach m) (some ts) s' :=
    (performed_reach trivial m).of_ok h
  cases hout.outcome with
  | routine ht => exact ht.elim
  | again hm => exact .nothing _ rfl
  | skip | reach => exact .reach m rfl

theorem places_perform_enact (hp : g.program.WellFormed) (hM : s.registry.MethodIs m M)
    (index : Nat) :
    Places (s.registry.methodContext m) (g.program.siteAt? M.item index) m
      (perform g (.enact m index)) s := by
  refine .get_bind ?_
  dsimp only
  rw [hM.methodId, Program.siteAt?]
  split
  · rename_i d st hd hst
    rw [hst, bind_some, ← hp.id_eq hd]
    exact places_enact d index st
  · rename_i hnone
    have hst : g.program.stmt? M.item index = none := by
      rw [Program.stmt?, bind_eq_none_iff]
      intro d hd
      refine Option.eq_none_iff_forall_ne_some.mpr fun st hst => hnone d st hd ?_
      rw [Program.stmt?, hd, bind_some, hst]
    rw [hst, bind_none]
    exact (Does.pure (g := g) (Q := fun _ _ => True) trivial).places

/-- A statement records where its call site is. -/
theorem draws_enact (hp : g.program.WellFormed) {index : Nat} (hM : s.registry.MethodIs m M)
    (hle : s.registry ≤ s'.registry) (h : perform g (.enact m index) s = .ok ts s') :
    Task.Draws s s' (.enact m index) := by
  have hplaces := places_perform_enact hp hM index
  cases hsite : g.program.siteAt? M.item index with
  | none => exact .nothing _ (hplaces.nothing h hsite)
  | some site =>
    obtain ⟨i, hi, hcalls⟩ := hplaces.placed h hsite
    refine .enact index ⟨⟨M.ctx, site⟩, ⟨_, hi, hM.ctx.mono hle, rfl⟩, ?_⟩ hcalls
    rw [Program.method_of_siteAt? hsite]
    exact hM.mono hle

/-- A call edge that is new is added; if it is not known where its call site is, this is worked out
from the site. -/
theorem calls_of_connect {S : At CallSite} (hS : s.registry.SiteIs e.site S)
    (h : connect e s = .ok ts s') : s'.calls = s.calls ∨
      (s.calls.container? e.site).isSome = true ∧ s'.calls = (s.calls.addEdge e).2 ∨
      ∃ m, s'.registry.Houses e.site m ∧
        s'.calls = ((s.calls.addEdge e).2.setContainer e.site m).2 := by
  by_cases he : e ∈ s.calls.edges
  · rw [connect_of_mem he] at h
    cases h
    exact .inl rfl
  rw [connect_of_not_mem he] at h
  split at h
  · cases h
    have hle := Registry.le_method s.registry (s.registry.siteContext e.site)
      (s.registry.callSite e.site).method
    refine .inr (.inr ⟨_, ⟨S, hS.mono hle, ⟨_, Table.get?_intern _ _, hS.ctx.mono hle, ?_⟩⟩, rfl⟩)
    rw [hS.callSite]
  · rename_i hsite
    cases h
    rw [container?_addEdge, isNone_iff_eq_none] at hsite
    exact .inr (.inl ⟨Option.isSome_iff_ne_none.mpr hsite, rfl⟩)

theorem initialized_connect (h : connect e s = .ok ts s') : s'.initialized = s.initialized := by
  by_cases he : e ∈ s.calls.edges
  · rw [connect_of_mem he] at h
    cases h
    rfl
  · rw [connect_of_not_mem he] at h
    split at h <;> cases h <;> rfl

theorem spares_deliver (hs : s.Known) {p : PtrId} {t : Objects} {w : WorkList}
    (h : s.work.poll = some (.objects p t, w)) : Spares (drain g) s := by
  obtain ⟨-, hmem, -⟩ := hs.work.of_poll_objects h
  exact ((performed_deliver hs h hmem).imp fun _ _ h => h.minds).spares

/-- Waiting work adds a call edge, or leaves the call graph alone. It initializes no class. -/
theorem draws_drain (hknown : s.Known) (hs : s.Wf g) (h : drain g s = .ok ts s') :
    Task.Draws s s' .drain ∧ s'.initialized = s.initialized := by
  cases hpoll : s.work.poll with
  | none =>
    rw [drain_of_none hpoll] at h
    cases h
    exact ⟨.nothing _ rfl, rfl⟩
  | some x =>
    obtain ⟨work, w⟩ := x
    cases work with
    | objects p t =>
      have hspares := spares_deliver (g := g) hknown hpoll
      exact ⟨.nothing _ (hspares.calls h), hspares.initialized h⟩
    | call e =>
      rw [drain_of_call hpoll] at h
      obtain ⟨us, s₁, hconnect, hrest⟩ := exists_of_bind_eq_ok h
      cases hrest
      obtain ⟨-, -, -, hcalls⟩ := hs.work.of_poll_call hpoll
      have hwaits : e ∈ s.work.calls.toList := hcalls ▸ .head _
      obtain ⟨E, hE⟩ := hs.edgeIs (.inr hwaits)
      refine ⟨?_, initialized_connect (s := { s with work := w }) hconnect⟩
      rcases calls_of_connect (s := { s with work := w }) hE.site hconnect with
        hsame | ⟨hsite, hadd⟩ | ⟨m, hm, hadd⟩
      · exact .nothing _ hsame
      · exact .connect hpoll hsite hadd
      · exact .place hpoll hm hadd

theorem spares_perform (hg : g.Honest) (hs : s.Known) (ht : t.Known g s.registry)
    (hb : t.Bystander) : Spares (perform g t) s := by
  cases t with
  | notify e os => exact ((performed_notify hg hs ht.2).imp fun _ _ h => h.minds).spares
  | arguments m =>
    exact ((does_giveArguments m).then_pure (R := fun _ _ => True) fun _ _ => trivial).spares
  | clinit c => exact (does_clinit c).spares
  | receive c site l => exact (does_receive (g := g) ht c site).spares
  | dispatch i o => exact (does_dispatch ht i).spares
  | wire e => exact (does_wire e).spares
  | finish => constructor <;> rintro _ _ ⟨⟩ <;> rfl
  | _ => exact hb.elim

/-- **Every task does one of these things to the call graph.** -/
theorem draws_perform (hp : g.program.WellFormed) (hg : g.Honest) (hknown : s.Known) (hs : s.Wf g)
    (htask : t.Known g s.registry) (ht : t.Means g s.registry) (hle : s.registry ≤ s'.registry)
    (h : perform g t s = .ok ts s') : t.Draws s s' := by
  have hspares : t.Bystander → s'.calls = s.calls :=
    fun hb => (spares_perform hg hknown htask hb).calls h
  cases t with
  | entry m => exact draws_entry hs h
  | reach m => exact draws_reach h
  | enact m i =>
    obtain ⟨M, hM⟩ := ht
    exact draws_enact hp hM hle h
  | initClass c =>
    rcases initClass_cases h with ⟨-, rfl⟩ | ⟨k, above, -, -, rfl, -⟩
    · exact .nothing _ rfl
    · exact .nothing _ rfl
  | op | answer => exact ht.elim
  | drain => exact (draws_drain hknown hs h).1
  | _ => exact .nothing _ (hspares trivial)

/-- **Only the task that initializes a class initializes one.** -/
theorem initialized_perform (hp : g.program.WellFormed) (hg : g.Honest) (hknown : s.Known)
    (hs : s.Wf g) (htask : t.Known g s.registry) (ht : t.Means g s.registry)
    (hne : ∀ c, t ≠ .initClass c) (h : perform g t s = .ok ts s') :
    s'.initialized = s.initialized := by
  have hspares : t.Bystander → s'.initialized = s.initialized :=
    fun hb => (spares_perform hg hknown htask hb).initialized h
  cases t with
  | entry m =>
    cases h
    rfl
  | reach m =>
    have hout : Task.Performed g none True s (.reach m) (some ts) s' :=
      (performed_reach trivial m).of_ok h
    cases hout.outcome with
    | routine ht => exact ht.elim
    | again | skip | reach => rfl
  | enact m i =>
    obtain ⟨M, hM⟩ := ht
    exact (places_perform_enact hp hM i).initialized h
  | initClass c => exact absurd rfl (hne c)
  | op | answer => exact ht.elim
  | drain => exact (draws_drain hknown hs h).2
  | _ => exact hspares trivial

end Act

section Draws

variable {s s' : State} {t : Task}

/-- **The call graph only grows.** -/
theorem Task.Draws.extends (h : t.Draws s s') : s.calls.Extends s'.calls := by
  cases h with
  | nothing _ h => rw [h]; exact .refl _
  | entry _ h => rw [h]; exact extends_addEntry _ _
  | reach _ h => rw [h]; exact extends_addReachable _ _
  | enact _ _ h => rw [h]; exact extends_setContainer _ _ _
  | connect _ _ h => rw [h]; exact extends_addEdge _ _
  | place _ _ h =>
    rw [h]
    exact (extends_addEdge _ _).trans (extends_setContainer _ _ _)

theorem Task.Draws.reachable (h : t.Draws s s') :
    s'.calls.reachable = s.calls.reachable ∨
      ∃ m, t = .reach m ∧ s'.calls.reachable = s.calls.reachable ++ [m] := by
  cases h with
  | nothing _ h => rw [h]; exact .inl rfl
  | entry _ h => rw [h, reachable_addEntry]; exact .inl rfl
  | enact _ _ h => rw [h, reachable_setContainer]; exact .inl rfl
  | connect _ _ h => rw [h, reachable_addEdge]; exact .inl rfl
  | place _ _ h =>
    rw [h, reachable_setContainer, reachable_addEdge]
    exact .inl rfl
  | reach m h =>
    rw [h, CallGraph.addReachable]
    split
    · exact .inl rfl
    · exact .inr ⟨m, rfl, rfl⟩

/-- What is recorded of a call site is true. -/
theorem Task.Draws.houses (h : t.Draws s s') {i : CSiteId} {m : CMethodId}
    (hi : s'.calls.container? i = some m) :
    s.calls.container? i = some m ∨ s'.registry.Houses i m := by
  have hset : ∀ {c : CallGraph CSiteId CMethodId} {j n}, s'.registry.Houses j n →
      (c.setContainer j n).2.container? i = some m →
      c.container? i = some m ∨ s'.registry.Houses i m := by
    intro c j n hn hi
    refine (c.of_container?_setContainer hi).imp_right ?_
    rintro ⟨rfl, rfl⟩
    exact hn
  cases h with
  | nothing _ h => exact .inl (h ▸ hi)
  | entry _ h =>
    rw [h, CallGraph.addEntry] at hi
    split at hi <;> exact .inl hi
  | reach _ h =>
    rw [h, CallGraph.addReachable] at hi
    split at hi <;> exact .inl hi
  | enact _ hn h => exact hset hn (h ▸ hi)
  | connect _ _ h =>
    rw [h, container?_addEdge] at hi
    exact .inl hi
  | place _ hn h =>
    refine (hset hn (h ▸ hi)).imp_left fun hi => ?_
    rwa [container?_addEdge] at hi

/-- It is known where the call sites of edges are. -/
theorem Task.Draws.container (h : t.Draws s s') {e : CCallEdge} (he : e ∈ s'.calls.edges) :
    e ∈ s.calls.edges ∨ (s'.calls.container? e.site).isSome = true := by
  cases h with
  | nothing _ h => exact .inl (h ▸ he)
  | entry _ h => exact .inl (edges_addEntry s.calls _ ▸ h ▸ he)
  | reach _ h => exact .inl (edges_addReachable s.calls _ ▸ h ▸ he)
  | enact _ _ h => exact .inl (edges_setContainer s.calls _ _ ▸ h ▸ he)
  | connect _ hsite h =>
    rw [h] at he ⊢
    refine ((mem_edges_addEdge _).mp he).imp_right ?_
    rintro rfl
    rwa [container?_addEdge]
  | place _ _ h =>
    rw [h] at he ⊢
    rw [edges_setContainer] at he
    refine ((mem_edges_addEdge _).mp he).imp_right ?_
    rintro rfl
    rw [container?_setContainer, if_pos rfl, isSome_or, isSome_some, Bool.or_true]

end Draws

end HeapFlow
