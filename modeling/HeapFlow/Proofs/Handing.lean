import HeapFlow.Proofs.Propagation

/-!
# Every object is handed to every transfer once

A transfer that an observer brings along may count what it is handed. Objects are handed to it when
it is attached to an edge, all that the source has by then, and when new objects arrive at the
source. The two do not overlap and leave no gap (`State.HandedOnce`). What a transfer has been
handed is written down together with what it gave, and both are what they should be
(`State.Accounted`).
-/

namespace HeapFlow

open List

/-- What an edge is determined by. -/
def FlowEdge.ends (e : FlowEdge) : PtrId × PtrId × FlowKind :=
  (e.src, e.dst, e.kind)

theorem FlowEdge.ends_eq_iff {e : FlowEdge} {src dst : PtrId} {kind : FlowKind} :
    e.ends = (src, dst, kind) ↔ e.joins src dst kind = true := by
  simp [ends, joins, and_assoc]

namespace FlowGraph

/-- No edge occurs twice, and no transfer twice at an edge. -/
structure Distinct (G : FlowGraph) : Prop where
  edges : (G.edges.map FlowEdge.ends).Nodup
  transfers : ∀ e ∈ G.edges, e.transfers.Nodup

variable {G : FlowGraph} {src dst : PtrId} {kind : FlowKind} {t : Transfer}

theorem Distinct.empty : Distinct {} :=
  ⟨nodup_nil, fun _ h => by cases h⟩

/-- There is one edge of a kind between two pointers. -/
theorem Distinct.eq_of_joins (hG : G.Distinct) {e e' : FlowEdge} (he : e ∈ G.edges)
    (he' : e' ∈ G.edges) (h : e.joins src dst kind = true) (h' : e'.joins src dst kind = true) :
    e = e' :=
  inj_on_of_nodup_map hG.edges he he'
    ((FlowEdge.ends_eq_iff.mpr h).trans (FlowEdge.ends_eq_iff.mpr h').symm)

theorem Distinct.addEdge (hG : G.Distinct) : (G.addEdge src dst kind).2.Distinct := by
  unfold FlowGraph.addEdge
  split
  · exact hG
  · rename_i hnone
    refine ⟨?_, fun e he => ?_⟩
    · rw [map_append]
      refine nodup_append'.mpr ⟨hG.edges, nodup_singleton _,
        disjoint_singleton.mpr fun hmem => hnone ?_⟩
      obtain ⟨e, he, hends⟩ := mem_map.mp hmem
      exact find?_isSome.mpr ⟨e, he, FlowEdge.ends_eq_iff.mp hends⟩
    · rcases mem_append.mp he with he | he
      · exact hG.transfers e he
      · rw [mem_singleton.mp he]
        exact nodup_nil

theorem Distinct.not_joins_of_new (hG : G.Distinct)
    (h : (G.addTransfer src dst kind t).1 = true) : ¬ G.Joins src dst kind t := by
  rintro ⟨e', he', hsrc, hdst, hkind, ht⟩
  have hjoins : e'.joins src dst kind = true := joins_iff.mpr ⟨hsrc, hdst, hkind⟩
  unfold addTransfer at h
  split at h
  · cases h
  · rename_i e hfound
    have he : e ∈ G.edges := mem_of_find?_eq_some hfound
    have hfits : e.joins src dst kind = true := by
      have hfits := find?_some hfound
      exact hfits
    rw [hG.eq_of_joins he he' hfits hjoins] at h
    simp [ht] at h

/-- Adding a transfer keeps this. -/
theorem Distinct.addTransfer (hG : G.Distinct) : (G.addTransfer src dst kind t).2.Distinct := by
  have hnew : (G.addTransfer src dst kind t).1 = true → ¬ G.Joins src dst kind t :=
    hG.not_joins_of_new
  unfold FlowGraph.addTransfer at hnew ⊢
  split
  · exact hG
  · rename_i e hfound
    rw [hfound] at hnew
    dsimp only at hnew
    split
    · exact hG
    · rename_i hc
      rw [if_neg hc] at hnew
      refine ⟨?_, ?_⟩
      · have hends : (G.edges.map fun x => if x.joins src dst kind then
            { x with transfers := x.transfers ++ [t] } else x).map FlowEdge.ends =
            G.edges.map FlowEdge.ends := by
          rw [map_map]
          refine map_congr_left fun x _ => ?_
          rw [Function.comp_apply]
          split <;> rfl
        rw [hends]
        exact hG.edges
      · intro x hx
        obtain ⟨y, hy, rfl⟩ := mem_map.mp hx
        split
        · rename_i hjoins
          obtain ⟨hsrc, hdst, hkind⟩ := joins_iff.mp hjoins
          refine nodup_append'.mpr ⟨hG.transfers y hy, nodup_singleton _,
            disjoint_singleton.mpr fun ht => ?_⟩
          exact hnew rfl ⟨y, hy, hsrc, hdst, hkind, ht⟩
        · exact hG.transfers y hy

theorem Distinct.attach (hG : G.Distinct) : (G.attach src dst kind t).2.Distinct :=
  hG.addEdge.addTransfer

/-- What is attached anew was not there before. -/
theorem Distinct.not_joins_of_attach (hG : G.Distinct) (h : (G.attach src dst kind t).1 = true) :
    ¬ G.Joins src dst kind t :=
  fun hj => hG.addEdge.not_joins_of_new h (joins_addEdge.mpr hj)

theorem Distinct.nodup_passages (hG : G.Distinct) (p : PtrId) (S : Objects) :
    (G.passages p S).Nodup := by
  have hout : ((G.outOf p).map FlowEdge.ends).Nodup := by
    refine hG.edges.sublist ?_
    exact List.Sublist.map _ filter_sublist
  refine nodup_flatMap.mpr ⟨fun e he => ?_, ?_⟩
  · refine (hG.transfers e (mem_filter.mp he).1).map fun t u h => ?_
    exact (Passage.mk.inj h).2.2.2.1
  · refine (pairwise_map.mp hout).imp ?_
    intro e e' hne x hx hx'
    obtain ⟨t, -, rfl⟩ := mem_map.mp hx
    obtain ⟨u, -, heq⟩ := mem_map.mp hx'
    obtain ⟨hsrc, hdst, hkind, -⟩ := Passage.mk.inj heq
    exact hne (by rw [FlowEdge.ends, FlowEdge.ends, hsrc, hdst, hkind])

end FlowGraph

/-- Objects are handed to a transfer of an edge, and one of them is `o`. -/
def Passage.hands (src dst : PtrId) (kind : FlowKind) (t : Transfer) (o : CObjId) (x : Passage) :
    Bool :=
  x.src = src && x.dst = dst && x.kind = kind && x.transfer = t && x.objects.contains o

/-- How often an object has been handed to a transfer of an edge. -/
def State.timesHanded (s : State) (src dst : PtrId) (kind : FlowKind) (t : Transfer) (o : CObjId) :
    Nat :=
  s.passed.countP fun x => x.toPassage.hands src dst kind t o

variable {G : FlowGraph} {a b : PtrId} {k : FlowKind} {t : Transfer} {o : CObjId}

theorem Passage.hands_iff {x : Passage} : x.hands a b k t o = true ↔
    x.src = a ∧ x.dst = b ∧ x.kind = k ∧ x.transfer = t ∧ o ∈ x.objects := by
  simp [hands, OrderedSet.contains_iff, and_assoc]

/-- When objects arrive at a pointer, each is handed to each transfer of each edge that leaves it
once. -/
theorem FlowGraph.Distinct.countP_passages (hG : G.Distinct) (p : PtrId) (S : Objects)
    (hj : G.Joins a b k t) :
    (G.passages p S).countP (Passage.hands a b k t o) = if a = p ∧ o ∈ S then 1 else 0 := by
  split
  · rename_i h
    obtain ⟨rfl, ho⟩ := h
    have hmem : (⟨a, b, k, t, S⟩ : Passage) ∈ G.passages a S := mem_passages.mpr ⟨rfl, rfl, hj⟩
    have hcount : (G.passages a S).countP (Passage.hands a b k t o) =
        (G.passages a S).count ⟨a, b, k, t, S⟩ := by
      refine countP_congr fun x hx => ?_
      obtain ⟨hsrc, hobjs, -⟩ := mem_passages.mp hx
      rw [Passage.hands_iff, beq_iff_eq]
      constructor
      · rintro ⟨rfl, rfl, rfl, rfl, -⟩
        rw [← hobjs]
      · rintro rfl
        exact ⟨rfl, rfl, rfl, rfl, ho⟩
    rw [hcount]
    exact count_eq_one_of_mem (hG.nodup_passages a S) hmem
  · rename_i h
    refine countP_eq_zero.mpr fun x hx => ?_
    obtain ⟨hsrc, hobjs, -⟩ := mem_passages.mp hx
    rw [Passage.hands_iff]
    rintro ⟨rfl, -, -, -, ho⟩
    exact h ⟨hsrc, hobjs ▸ ho⟩

theorem FlowGraph.countP_passages_of_not_joins (p : PtrId) (S : Objects) (hj : ¬ G.Joins a b k t) :
    (G.passages p S).countP (Passage.hands a b k t o) = 0 := by
  refine countP_eq_zero.mpr fun x hx => ?_
  obtain ⟨hsrc, -, hjoins⟩ := mem_passages.mp hx
  rw [Passage.hands_iff]
  rintro ⟨rfl, rfl, rfl, rfl, -⟩
  rw [hsrc] at hj
  exact hj hjoins

/-! ### Once -/

namespace State

/-- **Every object of a pointer has been handed to every transfer of every edge that leaves the
pointer, once**, and nothing else has been handed to a transfer. -/
structure HandedOnce (s : State) : Prop where
  distinct : s.flow.Distinct
  once : ∀ {a b k t o}, s.flow.Joins a b k t → o ∈ s.pointsTo a → s.timesHanded a b k t o = 1
  never : ∀ {a b k t o}, (s.flow.Joins a b k t → o ∉ s.pointsTo a) → s.timesHanded a b k t o = 0

variable {g : Setup} {mem : Observer → Prop} {s s' : State}

theorem HandedOnce.initial (script : Script) : HandedOnce { script := script } where
  distinct := .empty
  once h := by
    obtain ⟨_, h, -⟩ := h
    cases h
  never _ := rfl

theorem HandedOnce.of_same (h : s.HandedOnce) (hsets : s'.sets = s.sets) (hflow : s'.flow = s.flow)
    (hpassed : s'.passed = s.passed) : s'.HandedOnce := by
  have hpts : ∀ q, s'.pointsTo q = s.pointsTo q := fun q => by rw [pointsTo, pointsTo, hsets]
  have htimes : ∀ {a b k t o}, s'.timesHanded a b k t o = s.timesHanded a b k t o := by
    intro a b k t o
    rw [timesHanded, timesHanded, hpassed]
  refine ⟨hflow ▸ h.distinct, fun hj ho => ?_, fun hnot => ?_⟩
  · rw [htimes]
    exact h.once (hflow ▸ hj) (hpts _ ▸ ho)
  · rw [htimes]
    exact h.never fun hj => hpts _ ▸ hnot (hflow ▸ hj)

/-- A transfer is attached: if it is new, it has been handed nothing before, and it is handed what
the source has. -/
theorem HandedOnce.attach (h : s.HandedOnce) (src dst : PtrId) (kind : FlowKind) (t : Transfer) :
    (s.joined g src dst kind t).HandedOnce := by
  obtain ⟨hjoins, hold⟩ := s.flow.attach_cases src dst kind t
  unfold joined
  split
  · rename_i hnew
    obtain ⟨hnew, -⟩ := Bool.and_eq_true_iff.mp hnew
    have hfresh := h.distinct.not_joins_of_attach hnew
    have htimes : ∀ {a b k u o}, ((s.attached src dst kind t).handed g
        ⟨src, dst, kind, t, s.pointsTo src⟩).timesHanded a b k u o = s.timesHanded a b k u o +
          if a = src ∧ b = dst ∧ k = kind ∧ u = t ∧ o ∈ s.pointsTo src then 1 else 0 := by
      intro a b k u o
      rw [timesHanded, State.handed, countP_cons]
      refine congrArg₂ _ rfl (if_congr (Passage.hands_iff.trans ?_) rfl rfl)
      simp only [eq_comm]
    refine ⟨h.distinct.attach, fun {a b k u o} hj ho => ?_, fun {a b k u o} hnot => ?_⟩
    · rw [htimes]
      rcases (hjoins a b k u).mp hj with hbefore | ⟨rfl, rfl, rfl, rfl⟩
      · rw [h.once hbefore ho, if_neg]
        rintro ⟨rfl, rfl, rfl, rfl, -⟩
        exact hfresh hbefore
      · rw [h.never fun hj => (hfresh hj).elim, if_pos ⟨rfl, rfl, rfl, rfl, ho⟩]
    · rw [htimes, h.never fun hj => hnot ((hjoins a b k u).mpr (.inl hj)), if_neg]
      rintro ⟨rfl, rfl, rfl, rfl, ho⟩
      exact hnot ((hjoins a b k u).mpr (.inr ⟨rfl, rfl, rfl, rfl⟩)) ho
  · rename_i hnot
    refine ⟨h.distinct.attach, fun {a b k u o} hj ho => ?_, fun {a b k u o} hnever => ?_⟩
    · rcases (hjoins a b k u).mp hj with hj | ⟨rfl, rfl, rfl, rfl⟩
      · exact h.once hj ho
      · -- the source is not empty, so the transfer was there before
        have hsome : (s.pointsTo a).isEmpty = false := OrderedSet.isEmpty_of_mem ho
        rw [hsome] at hnot
        exact h.once (hold (by simpa using hnot)) ho
    · exact h.never fun hj => hnever ((hjoins a b k u).mpr (.inl hj))

/-- **A change keeps this.** -/
theorem HandedOnce.change (h : s.HandedOnce) (hc : Change g mem s s') : s'.HandedOnce := by
  cases hc with
  | registry | objects | call | threads => exact h.of_same rfl rfl rfl
  | flow => exact h.attach _ _ _ _
  | other ha => exact h.of_same ha.sets ha.flow ha.passed

theorem HandedOnce.changes (h : s.HandedOnce) (hc : Changes g mem s s') : s'.HandedOnce := by
  induction hc with
  | refl => exact h
  | tail _ hc ih => exact ih.change hc

/-- New objects arrive at a pointer: they have not been handed to its transfers before. -/
theorem HandedOnce.propagated (h : s.HandedOnce) {p : PtrId} {delta : Objects}
    (hnew : ∀ o ∈ delta, o ∉ s.pointsTo p) : (s.propagated g p delta).HandedOnce := by
  have htimes : ∀ {a b k t o}, (s.propagated g p delta).timesHanded a b k t o =
      (s.flow.passages p delta).countP (Passage.hands a b k t o) + s.timesHanded a b k t o := by
    intro a b k t o
    rw [timesHanded, timesHanded, State.propagated, countP_append, countP_reverse]
    nth_rewrite 2 [← map_handings (g := g) (s.arrived p delta) (s.flow.passages p delta)]
    rw [countP_map]
    rfl
  refine ⟨h.distinct, fun {a b k t o} hj ho => ?_, fun {a b k t o} hnot => ?_⟩
  · rw [htimes, h.distinct.countP_passages p delta hj]
    rcases mem_pointsTo_propagated.mp ho with hbefore | ⟨rfl, hdelta⟩
    · rw [h.once hj hbefore, if_neg]
      rintro ⟨rfl, hdelta⟩
      exact hnew o hdelta hbefore
    · rw [h.never fun _ => hnew o hdelta, if_pos ⟨rfl, hdelta⟩]
  · rw [htimes]
    have hout : s.flow.Joins a b k t → o ∉ s.pointsTo a ∧ ¬ (a = p ∧ o ∈ delta) := by
      intro hj
      have hmem := hnot hj
      rw [mem_pointsTo_propagated] at hmem
      exact not_or.mp hmem
    rw [h.never fun hj => (hout hj).1]
    by_cases hj : s.flow.Joins a b k t
    · rw [h.distinct.countP_passages p delta hj, if_neg (hout hj).2]
    · rw [FlowGraph.countP_passages_of_not_joins p delta hj]

/-- **So does what a task settles.** -/
theorem HandedOnce.settles (h : s.HandedOnce) (hc : Settles g s s') : s'.HandedOnce := by
  cases hc with
  | nothing => exact h
  | @objects p t w =>
    have htaken : HandedOnce { s with work := w } := h.of_same rfl rfl rfl
    unfold delivered
    split
    · exact htaken
    · exact htaken.propagated fun o ho => (OrderedSet.mem_diff.mp ho).2
  | call | reach => exact h.of_same rfl rfl rfl

end State

/-! ### What a transfer is handed, it is applied to -/

/-- What a transfer makes of the objects that it is handed in a state. -/
def Setup.Makes (g : Setup) (s : State) (x : Handing) : Prop :=
  match x.transfer with
  | .all => x.given = x.objects
  | .ofType t =>
    ∀ o, o ∈ x.given ↔ o ∈ x.objects ∧ g.program.isSubtype (s.registry.objType o) t = true
  | .least => ∀ o, o ∈ x.given ↔ o ∈ x.objects ∧ ∀ o' ∈ x.objects, o ≤ o'
  | .nothing => ∀ o, o ∉ x.given
  | .always o => ∀ o', o' ∈ x.given ↔ o' = o
  | .custom key => x.given = g.custom key s x.toPassage

theorem Setup.makes_passOn (g : Setup) (s : State) (x : Passage) : g.Makes s ⟨x, g.passOn s x⟩ := by
  obtain ⟨src, dst, kind, t, S⟩ := x
  cases t with
  | all | custom => rfl
  | ofType => exact fun _ => OrderedSet.mem_filter
  | nothing => exact fun _ => OrderedSet.mem_empty
  | always => exact fun _ => OrderedSet.mem_singleton
  | least =>
    intro o
    change o ∈ Transfer.apply (s.fits g.program) .least S ↔ _
    obtain ⟨l, hl⟩ := S
    cases l with
    | nil => exact iff_of_false OrderedSet.mem_empty fun h => OrderedSet.mem_empty h.1
    | cons a l =>
      have hleast : ∀ o' ∈ a :: l, a ≤ o' := by
        intro o' ho'
        rcases mem_cons.mp ho' with rfl | ho'
        · exact Nat.le_refl _
        · exact Nat.le_of_lt ((pairwise_cons.mp hl).1 o' ho')
      refine OrderedSet.mem_singleton.trans ⟨?_, fun h => ?_⟩
      · rintro rfl
        exact ⟨mem_cons_self, hleast⟩
      · exact Nat.le_antisymm (h.2 a mem_cons_self) (hleast o h.1)

namespace State

/-- **Every handing is accounted for**: the transfer was applied to the objects in the state that
the run had reached by then, and what it gave is in the target or waits for it. -/
structure Accounted (g : Setup) (s : State) : Prop where
  made : ∀ {later x earlier}, s.passed = later ++ x :: earlier →
    ∃ s₀ : State, s₀.passed = earlier ∧ s₀.Keeps s ∧ g.Makes s₀ x
  given : ∀ {x : Handing}, x ∈ s.passed → ∀ o ∈ x.given, s.Reaches x.dst o

variable {g : Setup} {mem : Observer → Prop} {s s' : State}

theorem Accounted.initial (g : Setup) (script : Script) : Accounted g { script := script } where
  made h := absurd h (by simp)
  given h := by cases h

theorem Accounted.of_keeps (h : s.Accounted g) (hpassed : s'.passed = s.passed) (hk : s.Keeps s')
    (hreach : ∀ q o, s.Reaches q o → s'.Reaches q o) : s'.Accounted g where
  made heq := by
    obtain ⟨s₀, hlog, hkeeps, hmakes⟩ := h.made (hpassed.symm.trans heq)
    exact ⟨s₀, hlog, hkeeps.trans hk, hmakes⟩
  given hx o ho := hreach _ o (h.given (hpassed ▸ hx) o ho)

/-- One handing more. -/
theorem Accounted.handed (h : s.Accounted g) (hw : s.work.Wf) (x : Passage) :
    (s.handed g x).Accounted g where
  made {later y earlier} heq := by
    have hkeeps : s.Keeps (s.handed g x) := { Keeps.refl s with }
    cases later with
    | nil =>
      cases heq
      exact ⟨s, rfl, hkeeps, g.makes_passOn s x⟩
    | cons z later =>
      obtain ⟨s₀, hlog, hbefore, hmakes⟩ := h.made (List.cons.inj heq).2
      exact ⟨s₀, hlog, hbefore.trans hkeeps, hmakes⟩
  given {y} hy o ho := by
    rcases mem_cons.mp hy with rfl | hy
    · exact .inr ((waits_handed hw).mpr (.inr ⟨rfl, ho⟩))
    · exact (h.given hy o ho).imp_right fun hq => (waits_handed hw).mpr (.inl hq)

theorem Accounted.foldl_handed (h : s.Accounted g) (hw : s.work.Wf) (l : List Passage) :
    (l.foldl (State.handed g) s).Accounted g := by
  induction l generalizing s with
  | nil => exact h
  | cons x l ih => exact ih (h.handed hw x) (hw.addAll (l := [(x.dst, g.passOn s x)]))

theorem Accounted.change (h : s.Accounted g) (hs : s.Known) (hc : Change g mem s s') :
    s'.Accounted g := by
  have hreach : ∀ q o, s.Reaches q o → s'.Reaches q o := fun q o hq => hq.change hs hc
  have hkeeps := hc.keeps
  cases hc with
  | registry | objects | call | threads => exact h.of_keeps rfl hkeeps hreach
  | @flow src dst kind t =>
    have hattached : (s.attached src dst kind t).Accounted g :=
      h.of_keeps rfl { Keeps.refl s with flow := s.flow.keeps_attach _ _ _ _ } fun _ _ hq => hq
    unfold joined
    split
    · exact hattached.handed hs.work _
    · exact hattached
  | other ha => exact h.of_keeps ha.passed hkeeps hreach

theorem Accounted.changes (h : s.Accounted g) (hg : g.Honest) (hs : s.Known)
    (hc : Changes g mem s s') : s'.Accounted g := by
  induction hc with
  | refl => exact h
  | tail h₁ hc ih => exact ih.change (hs.changes hg h₁) hc

/-- What is settled is written down. -/
theorem Accounted.settles (h : s.Accounted g) (hs : s.Known) (hc : Settles g s s') :
    s'.Accounted g := by
  have hreach : ∀ q o, s.Reaches q o → s'.Reaches q o := fun q o hq => hq.settles hs hc
  have hkeeps := hc.keeps
  cases hc with
  | nothing | call | reach => exact h.of_keeps rfl hkeeps hreach
  | @objects p t w hpoll =>
    obtain ⟨hw, -⟩ := hs.work.of_poll_objects hpoll
    unfold delivered at hreach hkeeps ⊢
    split
    · rename_i hempty
      rw [if_pos hempty] at hreach
      exact h.of_keeps rfl (s.keeps_work w) hreach
    · -- what was taken is in the pointer before it flows on
      have hmem {q o} : o ∈ (arrived { s with work := w } p (t.diff (s.pointsTo p))).pointsTo q ↔
          o ∈ s.pointsTo q ∨ q = p ∧ o ∈ t.diff (s.pointsTo p) := mem_pointsTo_propagated (g := g)
      have harrived : (arrived { s with work := w } p (t.diff (s.pointsTo p))).Accounted g := by
        refine h.of_keeps rfl { Keeps.refl s with objects := fun q o ho => hmem.mpr (.inl ho) } ?_
        intro q o hq
        rcases hq.taken hs hpoll with (hin | hq) | htaken
        · exact .inl (hmem.mpr (.inl hin))
        · exact .inr hq
        · exact .inl (hmem.mpr (.inr htaken))
      have hall := harrived.foldl_handed hw (s.flow.passages p (t.diff (s.pointsTo p)))
      rwa [State.foldl_handed] at hall

end State

/-- **In every run with any observers, every object is handed to every transfer once**, and the
transfer is applied to it. -/
theorem Machine.Leads.handedOnce {g : Setup} (hg : g.Honest) {m m' : Machine} (hm : m.Known g)
    (h : m.state.HandedOnce ∧ m.state.Accounted g) (hlead : m.Leads g m') :
    m'.state.HandedOnce ∧ m'.state.Accounted g := by
  induction hlead with
  | refl => exact h
  | tail h₁ hmove ih =>
    have hknown := Leads.known hg hm h₁
    obtain ⟨⟨s₁, hs₁, hc⟩, -⟩ := hmove.cases hg hknown
    exact ⟨(ih.1.settles hs₁).changes hc,
      (ih.2.settles hknown.state hs₁).changes hg (hknown.state.settles hg hs₁) hc⟩

end HeapFlow
