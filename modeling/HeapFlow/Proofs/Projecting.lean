import HeapFlow.Proofs.Precision
import HeapFlow.Proofs.Recording
import HeapFlow.Proofs.Rooting

/-!
# The call graph without contexts

A result has two call graphs: the one that the analysis draws, with contexts, and the one that is
made of it by forgetting the contexts (`Result.Projects`). The containers of call sites are recorded
at different times, when a statement is looked at in a context, or when an edge is added at a call
site that nobody has recorded. By the end every call site of a reachable method has been recorded in
each context, and no call site but these and the ones with an edge (`Machine.Sited`).
-/

namespace HeapFlow

open List CallGraph Result

/-- **A task keeps the lists of a call graph in agreement.** -/
theorem Task.Draws.indexed {s s' : State} {t : Task} (h : t.Draws s s') (hs : s.calls.Indexed) :
    s'.calls.Indexed := by
  cases h with
  | nothing _ h => exact h ▸ hs
  | entry _ h => exact h ▸ hs.addEntry _
  | reach _ h => exact h ▸ hs.addReachable _
  | enact _ _ h => exact h ▸ hs.setContainer _ _
  | connect _ _ h => exact h ▸ hs.addEdge _
  | place _ _ h => exact h ▸ (hs.addEdge _).setContainer _ _

theorem Task.Leaves.reach_of_enact {g : Setup} {s s' : State} {t : Task} {ts : List Task}
    (h : t.Leaves g s s' ts) {m : CMethodId} {i : Nat} (hi : .enact m i ∈ ts) :
    t = .reach m ∧ g.Translates (s.registry.methodId m) := by
  cases h with
  | reach hm ht =>
    rcases g.mem_bodyTasks hi with ⟨-, hi⟩ | ⟨j, hi⟩ | hi
    · cases hi
    · cases hi
      exact ⟨rfl, ht⟩
    · cases hi
  | enter b os => simp at hi
  | init m os =>
    simp only [mem_append, mem_singleton] at hi
    rcases hi with hi | hi
    · obtain ⟨d, -, c, -, hc⟩ := Program.mem_initializations_iff.mp hi
      cases hc
    · cases hi
  | enact _ _ h | dispatch _ _ h =>
    rcases h with rfl | ⟨o, c, j, rfl⟩
    · cases hi
    · cases mem_singleton.mp hi
  | initClass c h =>
    rcases mem_between.mp hi with hi | hi | hi
    · cases hi
    · obtain ⟨b, hb⟩ := h _ hi
      cases hb
    · cases hi
  | receive c site l i => simp at hi
  | grow p delta h =>
    rcases mem_append.mp hi with hi | hi
    · obtain ⟨c, j, l, hu⟩ := h _ hi
      cases hu
    · simp at hi
  | _ => simp at hi

namespace Machine

variable {g : Setup} {m : Machine}

/-- **Call sites are recorded as they should be**: those of reachable methods whose bodies count, as
soon as their statements have been looked at, and apart from them only those with an edge. -/
structure Sited (g : Setup) (m : Machine) : Prop where
  indexed : m.state.calls.Indexed
  looked : ∀ {cm i}, .enact cm i ∈ m.agenda → cm ∈ m.state.calls.reachable ∧
    ∃ M, m.state.registry.MethodIs cm M ∧ g.Translates M.item
  /-- A call site of such a method is recorded, or its statement is to be looked at. -/
  placed : ∀ {cm M i site}, cm ∈ m.state.calls.reachable → m.state.registry.MethodIs cm M →
    g.Translates M.item → g.program.siteAt? M.item i = some site → .enact cm i ∈ m.agenda ∨
      ∃ j, m.state.registry.SiteIs j ⟨M.ctx, site⟩ ∧ m.state.calls.container? j = some cm
  origin : ∀ {j cm}, m.state.calls.container? j = some cm →
    (∃ e ∈ m.state.calls.edges, e.site = j) ∨ cm ∈ m.state.calls.reachable ∧
      ∃ M S i, m.state.registry.MethodIs cm M ∧ m.state.registry.SiteIs j S ∧
        g.Translates M.item ∧ g.program.siteAt? M.item i = some S.item

theorem sited_initial (g : Setup) (script : Script) : (g.initial script).Sited g where
  indexed := indexed_empty
  looked h := by simp [Setup.initial] at h
  placed h := by cases h
  origin h := by cases h

section Step

variable {t : Task} {rest ts : List Task} {s' : State} (hg : g.Tame) (hm : m.Steady g)
  (hp : m.Performs g t rest ts s') {cm : CMethodId} {M : At MethodId} {site : CallSite}

include hm hp

theorem Performs.methodIs_back (hcm : cm ∈ m.state.calls.reachable)
    (hM : s'.registry.MethodIs cm M) : m.state.registry.MethodIs cm M := by
  obtain ⟨N, hN⟩ := hm.sound.wf.methodIs hcm
  exact (hN.mono hp.effect.le).unique hM ▸ hN

include hg

omit hm in
/-- A statement that has been looked at has its call site recorded. -/
theorem Performs.placed {i : Nat} (ht : t = .enact cm i) (hM : m.state.registry.MethodIs cm M)
    (hsite : g.program.siteAt? M.item i = some site) :
    ∃ j, s'.registry.SiteIs j ⟨M.ctx, site⟩ ∧ s'.calls = (m.state.calls.setContainer j cm).2 := by
  subst ht
  obtain ⟨j, hj, hcalls⟩ := (Act.places_perform_enact hg.wellFormed hM i).placed hp.run hsite
  exact ⟨j, ⟨_, hj, hM.ctx.mono hp.effect.le, rfl⟩, hcalls⟩

/-- **Where containers come from**: from an edge, or from a statement that is looked at. -/
theorem Performs.container_cases {j : CSiteId} (h : s'.calls.container? j = some cm) :
    m.state.calls.container? j = some cm ∨
      (∃ e ∈ s'.calls.edges, e.site = j) ∨ ∃ i, t = .enact cm i ∧
        ∃ M site, m.state.registry.MethodIs cm M ∧ s'.registry.SiteIs j ⟨M.ctx, site⟩ ∧
          g.program.siteAt? M.item i = some site := by
  have hmem : t ∈ m.agenda := hp.agenda ▸ .head _
  have hsame : s'.calls.containers = m.state.calls.containers →
      m.state.calls.container? j = some cm := fun heq => by
    rwa [CallGraph.container?, ← heq]
  cases hp.draws hg hm with
  | nothing _ hcalls => exact .inl (hsame (by rw [hcalls]))
  | entry _ hcalls => exact .inl (hsame (by rw [hcalls, containers_addEntry]))
  | reach _ hcalls => exact .inl (hsame (by rw [hcalls, containers_addReachable]))
  | connect _ _ hcalls => exact .inl (hsame (by rw [hcalls, containers_addEdge]))
  | place hpoll _ hcalls =>
    rw [hcalls] at h
    rcases of_container?_setContainer _ h with h | ⟨rfl, rfl⟩
    · rw [container?_addEdge] at h
      exact .inl h
    · exact .inr (.inl ⟨_, hp.outcome.mem_edges_of_poll hpoll, rfl⟩)
  | @enact n i _ _ _ =>
    obtain ⟨M, hM⟩ := (hm.sound.supported _ hmem).means
    cases hsite : g.program.siteAt? M.item i with
    | none =>
      have hcalls := (Act.places_perform_enact hg.wellFormed hM i).nothing hp.run hsite
      exact .inl (hsame (by rw [hcalls]))
    | some site =>
      obtain ⟨k, hk, hcalls⟩ := hp.placed hg rfl hM hsite
      rw [hcalls] at h
      rcases of_container?_setContainer _ h with h | ⟨rfl, rfl⟩
      · exact .inl h
      · exact .inr (.inr ⟨i, rfl, M, site, hM, hk, hsite⟩)

theorem Sited.placed_step (h : m.Sited g)
    (hcharted' : Charted g { state := s', agenda := ts ++ rest }) {i : Nat}
    (hcm : cm ∈ s'.calls.reachable) (hM : s'.registry.MethodIs cm M) (ht : g.Translates M.item)
    (hsite : g.program.siteAt? M.item i = some site) :
    .enact cm i ∈ ts ++ rest ∨
      ∃ j, s'.registry.SiteIs j ⟨M.ctx, site⟩ ∧ s'.calls.container? j = some cm := by
  have hext := (hp.draws hg hm).extends
  by_cases hold : cm ∈ m.state.calls.reachable
  · have hM₀ := hp.methodIs_back hm hold hM
    rcases h.placed hold hM₀ ht hsite with hmem | ⟨j, hj, hcm⟩
    · rw [hp.agenda] at hmem
      rcases mem_cons.mp hmem with rfl | hmem
      · -- the statement is being looked at; an earlier container would be the same
        obtain ⟨j, hj, hcalls⟩ := hp.placed hg rfl hM₀ hsite
        refine .inr ⟨j, hj, ?_⟩
        have hsome : (s'.calls.container? j).isSome = true := by
          rw [hcalls, container?_setContainer, if_pos rfl, Option.isSome_or,
            Option.isSome_some, Bool.or_true]
        obtain ⟨n, hn⟩ := Option.isSome_iff_exists.mp hsome
        have hhouses : s'.registry.Houses j cm :=
          ⟨_, hj, by rwa [Program.method_of_siteAt? hsite]⟩
        exact (hcharted'.housed hn).unique hhouses ▸ hn
      · exact .inl (mem_append_right _ hmem)
    · exact .inr ⟨j, hj.mono hp.effect.le, hext.container? hcm⟩
  · obtain ⟨rfl, -⟩ := (hp.reachable hcm).resolve_left hold
    have hmem : .reach cm ∈ m.agenda := hp.agenda ▸ .head _
    obtain ⟨N, hN⟩ := (hm.sound.supported _ hmem).means
    cases (hN.mono hp.effect.le).unique hM
    obtain ⟨rfl, -⟩ := hp.of_reach rfl hold (hN.methodId ▸ ht)
    refine .inl (mem_append_left _ ?_)
    have hi : i < g.program.bodySize (m.state.registry.methodId cm) := by
      obtain ⟨st, hst, -⟩ := Option.bind_eq_some_iff.mp hsite
      obtain ⟨d, hd, hst⟩ := Option.bind_eq_some_iff.mp hst
      rw [hN.methodId, Program.bodySize, hd]
      exact (List.getElem?_eq_some_iff.mp hst).1
    simp [Setup.bodyTasks, hi]

/-- A step keeps this. -/
theorem Sited.step (h : m.Sited g) (hcharted' : Charted g { state := s', agenda := ts ++ rest }) :
    Sited g { state := s', agenda := ts ++ rest } := by
  have hdraws := hp.draws hg hm
  have hext := hdraws.extends
  have hle := hp.effect.le
  have hhead : t ∈ m.agenda := hp.agenda ▸ .head _
  refine ⟨hdraws.indexed h.indexed, fun {cm i} hi => ?_, h.placed_step hg hm hp hcharted',
    fun {j cm} hj => ?_⟩
  · rcases mem_append.mp hi with hi | hi
    · obtain ⟨rfl, ht⟩ := hp.leaves.reach_of_enact hi
      obtain ⟨M, hM⟩ := (hm.sound.supported _ hhead).means
      refine ⟨?_, M, hM.mono hle, hM.methodId ▸ ht⟩
      by_cases hold : cm ∈ m.state.calls.reachable
      · exact hext.reachable hold
      · rw [(hp.of_reach rfl hold ht).2]
        exact (mem_reachable_addReachable _).mpr (.inr rfl)
    · obtain ⟨hcm, M, hM, ht⟩ := h.looked (hp.agenda ▸ mem_cons_of_mem _ hi)
      exact ⟨hext.reachable hcm, M, hM.mono hle, ht⟩
  · rcases hp.container_cases hg hm hj with hold | hedge | ⟨i, rfl, M, site, hM, hS, hsite⟩
    · rcases h.origin hold with ⟨e, he, rfl⟩ | ⟨hcm, M, S, i, hM, hS, ht, hsite⟩
      · exact .inl ⟨e, hext.edges he, rfl⟩
      · exact .inr ⟨hext.reachable hcm, M, S, i, hM.mono hle, hS.mono hle, ht, hsite⟩
    · exact .inl hedge
    · obtain ⟨hcm, N, hN, ht⟩ := h.looked hhead
      cases hN.unique hM
      exact .inr ⟨hext.reachable hcm, M, _, i, hM.mono hle, hS, ht, hsite⟩

end Step

theorem sited_run (hg : g.Tame) (script : Script) (n : Nat) :
    let m := (g.initial script).run g n
    m.Steady g ∧ m.Timely g ∧ m.Charted g ∧ m.Sited g :=
  Steady.induction hg (I := fun m => m.Timely g ∧ m.Charted g ∧ m.Sited g)
    ⟨timely_initial g script, charted_initial g script, sited_initial g script⟩
    (fun hm hp hm' ⟨ht, hc, h⟩ =>
      have hc' := hc.step hg hm hp ht
      ⟨ht.step hg hm hp hm', hc', h.step hg hm hp hc'⟩) n

end Machine

/-! ### Forgetting the contexts -/

theorem CallGraph.container?_foldl_setContainer {σ μ α : Type} [DecidableEq σ] [DecidableEq μ]
    (f : α → σ) (m : μ) (l : List α) (c : CallGraph σ μ) (j : σ) :
    (l.foldl (fun c a => (c.setContainer (f a) m).2) c).container? j =
      (c.container? j).or (if j ∈ l.map f then some m else none) := by
  induction l generalizing c with
  | nil => simp
  | cons a l ih =>
    rw [foldl_cons, ih, container?_setContainer, Option.or_assoc]
    by_cases ha : j = f a <;> by_cases hl : j ∈ l.map f <;> simp [ha, hl]

namespace Result

variable {r : Result}

/-- A call site without contexts keeps its first container. -/
theorem container?_placeSites (c : MethodCallGraph) (m : CMethodId) (site : CallSite) :
    (r.placeSites c m).container? site = (c.container? site).or
      (if site ∈ (r.state.calls.sitesIn m).map r.registry.callSite then some (r.registry.methodId m)
        else none) := by
  rw [placeSites, container?_foldl_setContainer, CallGraph.container?,
    containers_addReachable, ← CallGraph.container?]

/-- The call sites with contexts are recorded for the methods that they say. -/
def Homed (r : Result) : Prop :=
  ∀ m, ∀ i ∈ r.state.calls.sitesIn m, (r.registry.callSite i).method = r.registry.methodId m

theorem Homed.container?_foldl_placeSites (h : r.Homed) (l : List CMethodId) (c : MethodCallGraph)
    (site : CallSite) : (l.foldl r.placeSites c).container? site = (c.container? site).or
      (if ∃ m ∈ l, site ∈ (r.state.calls.sitesIn m).map r.registry.callSite then some site.method
        else none) := by
  induction l generalizing c with
  | nil => simp
  | cons m l ih =>
    rw [foldl_cons, ih, container?_placeSites, Option.or_assoc]
    by_cases hm : site ∈ (r.state.calls.sitesIn m).map r.registry.callSite
    · obtain ⟨i, hi, rfl⟩ := mem_map.mp hm
      rw [if_pos hm, Option.some_or, if_pos ⟨m, .head _, hm⟩, h m i hi]
    · simp only [hm, if_false, Option.none_or, exists_mem_cons_iff, false_or]

/-- **Containers without contexts** are what the call sites say. -/
theorem Homed.container?_callGraph (h : r.Homed) {site : CallSite} {m : MethodId} :
    r.callGraph.container? site = some m ↔ site.method = m ∧
      ∃ x ∈ r.state.calls.reachable, ∃ i ∈ r.state.calls.sitesIn x,
        r.registry.callSite i = site := by
  have hnone : (r.state.calls.entries.foldl (fun c x => c.addEntry (r.registry.methodId x))
      ({} : MethodCallGraph)).container? site = none := by
    rw [CallGraph.container?, foldl_keeps (P := CallGraph.containers)
      fun c x => containers_addEntry c (r.registry.methodId x)]
    rfl
  rw [callGraph_eq, CallGraph.container?, foldl_keeps (P := CallGraph.containers)
    (fun c e => containers_addEdge c (r.plainEdge e)), ← CallGraph.container?,
    h.container?_foldl_placeSites, hnone, Option.none_or, Option.ite_none_right_eq_some,
    Option.some.injEq, and_comm]
  simp only [mem_map]

theorem indexed_callGraph (r : Result) : r.callGraph.Indexed := by
  rw [callGraph_eq]
  refine List.foldlRecOn _ _ (List.foldlRecOn _ _ (List.foldlRecOn _ _ indexed_empty ?_)
    fun c hc m _ => ?_) fun c hc e _ => hc.addEdge _
  · exact fun c hc m _ => hc.addEntry _
  · exact List.foldlRecOn _ _ (hc.addReachable _) fun c hc i _ => hc.setContainer _ _

end Result

namespace CallGraph

variable {σ μ : Type} [DecidableEq σ] [DecidableEq μ]

/-- **The answers of a call graph agree with its edges**, and none has anything twice. -/
structure Coherent (c : CallGraph σ μ) : Prop where
  outOf : ∀ i, (c.outOf i).Nodup ∧ ∀ e, e ∈ c.outOf i ↔ e ∈ c.edges ∧ e.site = i
  into : ∀ m, (c.into m).Nodup ∧ ∀ e, e ∈ c.into m ↔ e ∈ c.edges ∧ e.callee = m
  calleesOf : ∀ i, (c.calleesOf i).Nodup ∧
    ∀ m, m ∈ c.calleesOf i ↔ ∃ e ∈ c.edges, e.site = i ∧ e.callee = m
  callersOf : ∀ m, (c.callersOf m).Nodup ∧
    ∀ i, i ∈ c.callersOf m ↔ ∃ e ∈ c.edges, e.callee = m ∧ e.site = i
  sitesIn : ∀ m, (c.sitesIn m).Nodup ∧ ∀ i, i ∈ c.sitesIn m ↔ c.container? i = some m

theorem Indexed.coherent {c : CallGraph σ μ} (h : c.Indexed) : c.Coherent where
  outOf i := by simp [h.outOf, h.edges.filter]
  into m := by simp [h.into, h.edges.filter]
  calleesOf i := by
    refine ⟨nodup_eraseDups _, fun m => ?_⟩
    simp [CallGraph.calleesOf, h.outOf, and_assoc]
  callersOf m := by
    refine ⟨nodup_eraseDups _, fun i => ?_⟩
    simp [CallGraph.callersOf, h.into, and_assoc]
  sitesIn m := ⟨h.nodup_sitesIn m, fun _ => h.mem_sitesIn⟩

end CallGraph

/-! ### The two call graphs of a result -/

/-- **The call graph without contexts is the one with contexts, the contexts being forgotten.** -/
structure Result.Projects (r : Result) (g : Setup) : Prop where
  edges : ∀ e, e ∈ r.callGraph.edges ↔ ∃ x ∈ r.state.calls.edges,
    e = ⟨x.kind, r.registry.callSite x.site, r.registry.methodId x.callee⟩
  reachable : ∀ m, m ∈ r.callGraph.reachable ↔
    ∃ x ∈ r.state.calls.reachable, r.registry.methodId x = m
  entries : ∀ m, m ∈ r.callGraph.entries ↔ ∃ x ∈ r.state.calls.entries, r.registry.methodId x = m
  nodup : r.callGraph.edges.Nodup ∧ r.callGraph.reachable.Nodup ∧ r.callGraph.entries.Nodup
  order : r.callGraph.reachable = r.reachable
  /-- A call site of a reachable method whose body counts has a container: with contexts the method
  in the context of the call site, without contexts the method. -/
  placed : ∀ x ∈ r.state.calls.reachable, ∀ i site, g.Translates (r.registry.methodId x) →
    g.program.siteAt? (r.registry.methodId x) i = some site →
    (∃ j, r.registry.sites.get? j = some ⟨r.registry.methodContext x, site⟩ ∧
      r.state.calls.container? j = some x) ∧
    r.callGraph.container? site = some (r.registry.methodId x)
  called : ∀ e ∈ r.callGraph.edges, r.callGraph.container? e.site = some e.site.method
  /-- No other call site has a container, and none has any but the method that it belongs to. -/
  container : ∀ site m, r.callGraph.container? site = some m ↔ site.method = m ∧
    ((∃ e ∈ r.callGraph.edges, e.site = site) ∨
      m ∈ r.callGraph.reachable ∧ g.Translates m ∧ ∃ i, g.program.siteAt? m i = some site)
  coherent : r.callGraph.Coherent

section Projects

variable {g : Setup} {r : Result} {x : CMethodId} {site : CallSite}

theorem Registry.Houses.method_eq {reg : Registry} {i : CSiteId} (h : reg.Houses i x) :
    (reg.callSite i).method = reg.methodId x := by
  obtain ⟨S, hS, hx⟩ := h
  rw [hS.callSite, hx.methodId]

variable {m : Machine} (hstate : r.state = m.state) (hA : m.agenda = []) (hm : m.Steady g)
  (ht : m.Timely g) (hc : m.Charted g) (hs : m.Sited g)

include hstate hc hs

theorem Machine.Sited.homed : r.Homed := by
  intro x i hi
  rw [Result.registry]
  rw [hstate] at hi ⊢
  exact (hc.housed (hs.indexed.mem_sitesIn.mp hi)).method_eq

include hA hm

omit hc in
/-- At the end, a call site of a reachable method whose body counts is recorded in the context of
the method. -/
theorem Machine.Sited.exists_site {i : Nat} (hx : x ∈ r.state.calls.reachable)
    (htr : g.Translates (r.registry.methodId x))
    (hsite : g.program.siteAt? (r.registry.methodId x) i = some site) :
    ∃ j, r.registry.sites.get? j = some ⟨r.registry.methodContext x, site⟩ ∧
      r.state.calls.container? j = some x := by
  rw [Result.registry] at htr hsite ⊢
  rw [hstate] at hx htr hsite ⊢
  obtain ⟨M, hM⟩ := hm.sound.wf.methodIs hx
  rw [hM.methodId] at htr hsite
  rcases hs.placed hx hM htr hsite with hmem | ⟨j, ⟨k, hk, hkS⟩, hj⟩
  · rw [hA] at hmem
    cases hmem
  · have hkey : k = ⟨m.state.registry.methodContext x, site⟩ :=
      hkS.inj ⟨hM.ctx, rfl⟩
    exact ⟨j, hkey ▸ hk, hj⟩

include ht

/-- **At the end, the call sites that are recorded** are those with an edge and those of reachable
methods whose bodies count. -/
theorem Machine.Sited.container?_iff {n : MethodId} :
    r.callGraph.container? site = some n ↔ site.method = n ∧
      ((∃ e ∈ r.callGraph.edges, e.site = site) ∨
        n ∈ r.callGraph.reachable ∧ g.Translates n ∧ ∃ i, g.program.siteAt? n i = some site) := by
  have hindexed : r.state.calls.Indexed := hstate ▸ hs.indexed
  have hhomed : r.Homed := hs.homed hstate hc
  rw [hhomed.container?_callGraph]
  refine and_congr_right fun hn => ?_
  constructor
  · rintro ⟨x, hx, j, hj, rfl⟩
    have hj' : m.state.calls.container? j = some x := hstate ▸ hindexed.mem_sitesIn.mp hj
    rcases hs.origin hj' with ⟨e, he, rfl⟩ | ⟨-, M, S, i, hM, hS, htr, hsite⟩
    · exact .inl ⟨_, mem_edges_callGraph.mpr ⟨e, hstate ▸ he, rfl⟩, rfl⟩
    · have hMn : M.item = n := by
        rw [← hn, hhomed x j hj, Result.registry, hstate, hM.methodId]
      refine .inr ⟨?_, hMn ▸ htr, i, ?_⟩
      · rw [reachable_callGraph, mem_eraseDups, ← hn, hhomed x j hj]
        exact mem_map_of_mem hx
      · rw [Result.registry, hstate, hS.callSite, ← hMn, hsite]
  · rintro (⟨e, he, rfl⟩ | ⟨hreach, htr, i, hsite⟩)
    · obtain ⟨x, hx, rfl⟩ := mem_edges_callGraph.mp he
      obtain ⟨y, hy, hcontainer, -⟩ := hc.container_reachable hA ht hm (hstate ▸ hx)
      refine ⟨y, hstate ▸ hy, x.site, ?_, rfl⟩
      exact hindexed.mem_sitesIn.mpr (hstate ▸ hcontainer)
    · rw [reachable_callGraph, mem_eraseDups] at hreach
      obtain ⟨x, hx, rfl⟩ := mem_map.mp hreach
      obtain ⟨j, hj, hcontainer⟩ := hs.exists_site hstate hA hm hx htr hsite
      refine ⟨x, hx, j, hindexed.mem_sitesIn.mpr hcontainer, ?_⟩
      simp [Registry.callSite, hj]

theorem Machine.Sited.projects
    (hlist : r.reachable = (Snapshot.of r.registry r.state.calls).reachable) : r.Projects g where
  edges e := by
    simp only [mem_edges_callGraph, Result.plainEdge, eq_comm]
  reachable n := by rw [reachable_callGraph, mem_eraseDups, mem_map]
  entries n := by rw [entries_callGraph, mem_eraseDups, mem_map]
  nodup := by
    rw [edges_callGraph, reachable_callGraph, entries_callGraph]
    exact ⟨nodup_eraseDups _, nodup_eraseDups _, nodup_eraseDups _⟩
  order := by rw [reachable_callGraph, hlist, Snapshot.of]
  placed x hx i site htr hsite := by
    refine ⟨hs.exists_site hstate hA hm hx htr hsite, ?_⟩
    refine (hs.container?_iff hstate hA hm ht hc).mpr ⟨Program.method_of_siteAt? hsite, .inr ?_⟩
    rw [reachable_callGraph, mem_eraseDups]
    exact ⟨mem_map_of_mem hx, htr, i, hsite⟩
  called e he := (hs.container?_iff hstate hA hm ht hc).mpr ⟨rfl, .inl ⟨e, he, rfl⟩⟩
  container site n := hs.container?_iff hstate hA hm ht hc
  coherent := r.indexed_callGraph.coherent

end Projects

/-- **So it is at the end of a run.** -/
theorem Setup.Tame.projects {g : Setup} (hg : g.Tame) {r : Result}
    (hstate : r.state = (g.solve []).state)
    (hlist : r.reachable = (Snapshot.of r.registry r.state.calls).reachable) : r.Projects g := by
  obtain ⟨n, hn, hA⟩ := Setup.exists_solve_eq_run hg.wellFormed hg.unscripted []
  obtain ⟨hm, ht, hc, hs⟩ := Machine.sited_run hg [] n
  refine hs.projects ?_ hA hm ht hc hlist
  rw [hstate, hn]

/-- **The call graph without contexts is an exact projection.** An analysis has a result, and with
the call graph of the run at its end and the one without contexts it is as `Result.Projects` says:
entry methods, reachable methods and edges are the images of those with contexts, each listed once,
and the methods in the order of the result; every call site of a reachable method whose body counts,
and every call site with an edge, has the method that it belongs to for its container, and no other
has one; and all questions are answered accordingly. -/
theorem call_graph_projected {p : Program} (h : p.Accepted) (o : Options) (policy : Policy)
    {more : List Observer} (hmore : ∀ w ∈ more, w.Watches) :
    let g := o.setup p policy more
    ∃ r, analyze p o policy more = .ok r ∧ r.state = (g.solve []).state ∧ r.Projects g := by
  intro g
  obtain ⟨r, hr, hstate, -, hlist⟩ := exists_analyze_eq_ok h o policy hmore
  exact ⟨r, hr, hstate, (Options.tame_setup h o policy hmore).projects hstate hlist⟩

/-- A method that makes an object with a finalizer, and is called at two places. -/
def leaseSource : ProgramSource where
  classes := [
    { name := "Object", methods := [{ sig := "void finalize()" }] },
    { name := "Finalizer", methods := [{ sig := "static void register(Object o)" }] },
    { name := "Lease", methods := [{ sig := "void finalize()" }] },
    { name := "Main"
      methods := [
        { sig := "static void make()", locals := ["Object x"], body := ["x = new Lease"] },
        { sig := "static void main()", body := ["Main.make()", "Main.make()"] }] }]
  entries := ["Main.main"]

def leaseMake : MethodId := ⟨"Main", "make()"⟩

/-- With contexts of one call site the method is reachable in two contexts and so is its call site,
with an edge in each of them; without contexts there is one of each. -/
theorem call_graph_projected_lease : ∃ p r, Program.load leaseSource = .ok p ∧
    analyze p {} (.call 1) [] = .ok r ∧ r.Projects (Options.setup {} p (.call 1) []) ∧
    r.state.calls.reachable.map r.registry.methodId =
      [⟨"Main", "main()"⟩, leaseMake, leaseMake, finalizerRegister] ∧
    r.callGraph.reachable = [⟨"Main", "main()"⟩, leaseMake, finalizerRegister] ∧
    (r.state.calls.edges.map (r.registry.callSite ·.site)).count (.register leaseMake 0) = 2 ∧
    r.callGraph.outOf (.register leaseMake 0) =
      [⟨.static, .register leaseMake 0, finalizerRegister⟩] ∧
    r.callGraph.sitesIn leaseMake = [.register leaseMake 0] := by
  obtain ⟨p, hload, r, hr, hreach, hplain, hedges, hout, hsites⟩ :
      ∃ p, Program.load leaseSource = .ok p ∧ ∃ r ∈ resultWithin 200 p {} (.call 1),
          r.state.calls.reachable.map r.registry.methodId =
            [⟨"Main", "main()"⟩, leaseMake, leaseMake, finalizerRegister] ∧
          r.callGraph.reachable = [⟨"Main", "main()"⟩, leaseMake, finalizerRegister] ∧
          (r.state.calls.edges.map (r.registry.callSite ·.site)).count (.register leaseMake 0) = 2 ∧
          r.callGraph.outOf (.register leaseMake 0) =
            [⟨.static, .register leaseMake 0, finalizerRegister⟩] ∧
          r.callGraph.sitesIn leaseMake = [.register leaseMake 0] :=
    exists_of_any_toOption (by decide +kernel)
  have hr := analyze_of_resultWithin hr
  have hmore : ∀ w ∈ ([] : List Observer), w.Watches := by simp
  obtain ⟨r', hr', -, hprojects⟩ := call_graph_projected ⟨_, hload⟩ {} (.call 1) hmore
  cases Except.ok.inj (hr.symm.trans hr')
  exact ⟨p, r, hload, hr, hprojects, hreach, hplain, hedges, hout, hsites⟩

end HeapFlow
