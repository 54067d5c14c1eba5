import HeapFlow.Proofs.Outcomes
import HeapFlow.Proofs.Solving

/-!
# Objects flow, whatever the observers do

A run with any observers keeps the promise of the flow graph: along every edge whose transfer
selects objects one by one, what the source has is in the target or waits for it (`State.Flowed`).
It does not matter whether the edge or the object came first, nor at which event an observer added
either of them. One step keeps this, be it a task or an intervention, so it holds throughout.
-/

namespace HeapFlow

open List

section Moves

variable {g : Setup} {mem : Observer → Prop} {s s' : State}

/-- **A task settles at most one thing and then makes changes.** -/
theorem Outcome.settles {t : Task} {r : Option (List Task)} (h : Outcome g s t r s')
    (ht : t.Known g s.registry) : ∃ s₁, Settles g s s₁ ∧ Changes g t.Tells s₁ s' := by
  cases h with
  | routine _ hc | tell hc | wire hc => exact ⟨s, .nothing, hc⟩
  | told | again | idle => exact ⟨s, .nothing, .refl⟩
  | skip | reach => exact ⟨_, .reach ht, .refl⟩
  | deliver h => exact ⟨_, .objects h, .refl⟩
  | grow h _ _ _ hc => exact ⟨_, .objects h, hc⟩
  | known h he =>
    refine ⟨_, .call h, ?_⟩
    rw [CallGraph.addEdge_of_mem _ he]
    exact .refl
  | connect h _ hc => exact ⟨_, .call h, hc⟩

variable {ts : List Task}

theorem Setup.Calm.known (h : g.Calm ts s) : ∀ u ∈ ts, u.Known g s.registry :=
  fun u hu => (h u hu).known

/-- What a task leaves to do speaks of known numbers. -/
theorem Outcome.known_tasks {t : Task} (hs : s.Known) (h : Outcome g s t (some ts) s')
    (ht : t.Known g s.registry) : ∀ u ∈ ts, u.Known g s'.registry := by
  obtain ⟨s₁, hsettles, hchanges⟩ := h.settles ht
  have hle : s.registry ≤ s'.registry := Registry.le_trans hsettles.keeps.registry hchanges.le
  have hobservers : g.observers <:+ g.observers := suffix_refl _
  cases h with
  | routine _ _ hr => exact (hr ts rfl).known
  | told | again | skip | idle => exact fun _ h => by cases h
  | tell _ hr =>
    obtain ⟨us, rfl, hus⟩ := hr ts rfl
    intro u hu
    rcases mem_append.mp hu with hu | hu
    · exact (hus u hu).known
    · rw [mem_singleton.mp hu]
      exact ⟨(suffix_cons _ _).trans ht.1, (Task.Known.mono ht hle).2⟩
  | wire _ hr =>
    rw [hr ts rfl]
    intro u hu
    rw [mem_singleton.mp hu]
    exact ⟨hobservers, trivial⟩
  | reach =>
    intro u hu
    rcases g.mem_bodyTasks hu with ⟨-, rfl⟩ | ⟨i, rfl⟩ | rfl
    · exact ⟨hobservers, trivial⟩
    · trivial
    · exact ⟨hobservers, trivial⟩
  | deliver | known =>
    intro u hu
    rw [mem_singleton.mp hu]
    trivial
  | @grow p t w c v _ _ hpoll hnew hp _ _ hr =>
    obtain ⟨us, rfl, hus, -⟩ := hr _ rfl
    intro u hu
    rcases mem_append.mp hu with hu | hu
    · exact (hus u hu).known
    · rcases mem_pair.mp hu with rfl | rfl
      · refine ⟨hobservers, hnew, Registry.HasPointer.mono hle ⟨_, hp⟩, fun o ho => ?_⟩
        obtain ⟨-, hmem, -⟩ := hs.work.of_poll_objects hpoll
        exact (hs.waiting p o ⟨t, hmem, (OrderedSet.mem_diff.mp ho).1⟩).mono hle
      · trivial
  | @connect e w _ _ hpoll _ _ hr =>
    rw [hr _ rfl]
    intro u hu
    rcases mem_triple.mp hu with rfl | rfl | rfl
    · obtain ⟨-, -, -, hcalls⟩ := hs.work.of_poll_call hpoll
      refine Registry.HasMethod.mono hle (hs.calls e ?_)
      rw [hcalls]
      exact .head _
    · trivial
    · trivial

/-- **An intervention makes changes** and leaves quiet tasks to do. -/
theorem Mutation.does {lic : Act.Licence} (hd : lic.draws) {x : Mutation}
    (hx : x.Known s.registry) : Act.Does g lic (x.act g) s g.Calm := by
  cases x with
  | addObjects p t => exact (Act.does_addObjects hx.1 hx.2).then_pure fun _ _ => Act.calm_nil
  | addFlow src dst kind t => exact (Act.does_addFlow hx.1 hx.2).then_pure fun _ _ => Act.calm_nil
  | addCall e => exact (Act.does_addCall hx).then_pure fun _ _ => Act.calm_nil
  | reach m =>
    refine .pure fun u hu => ?_
    rw [mem_singleton.mp hu]
    exact hx
  | entry m => exact Act.does_entry hd m
  | init c =>
    refine .pure fun u hu => ?_
    rw [mem_singleton.mp hu]
    trivial

namespace Machine

variable {m m' : Machine} {rest ts : List Task}

theorem suffix_of_giveUp (h : giveUp ts = some rest) : rest <:+ ts := by
  induction ts with
  | nil => cases h
  | cons u ts ih =>
    unfold giveUp at h
    split at h
    · cases h
    · rename_i heq
      cases heq
      cases h
      exact suffix_cons _ _
    · rename_i heq
      cases heq
      exact (ih h).trans (suffix_cons _ _)

theorem mem_of_giveUp (h : giveUp ts = some rest) : ∀ t ∈ rest, t ∈ ts :=
  fun _ ht => (suffix_of_giveUp h).subset ht

/-- **The numbers that a machine holds have been given out.** -/
structure Known (g : Setup) (m : Machine) : Prop where
  state : m.state.Known
  agenda : ∀ t ∈ m.agenda, t.Known g m.state.registry

theorem Known.initial (g : Setup) (script : Script) : (g.initial script).Known g where
  state := State.Known.initial script
  agenda t ht := by
    rcases mem_triple.mp ht with rfl | rfl | rfl
    · exact ⟨suffix_refl _, trivial⟩
    · trivial
    · trivial

theorem Intervenes.cases (h : m.Intervenes g m') :
    Changes g (fun _ => False) m.state m'.state ∧
      ∃ us, m'.agenda = us ++ m.agenda ∧ g.Calm us m'.state := by
  cases h with
  | consult _ hr => exact ⟨.single (.registry hr), [], rfl, Act.calm_nil⟩
  | @mutate x ts s _ hx hok =>
    have h : Act.Does g ⟨fun _ => False, True, none⟩ (x.act g) m.state g.Calm :=
      Mutation.does trivial hx
    unfold Act.Does at h
    rw [hok] at h
    exact ⟨h.1.changes, ts, rfl, h.2⟩

/-- **A move settles at most one thing and then makes changes**, and what is on the agenda speaks of
known numbers. -/
theorem Moves.cases (hg : g.Honest) (hm : m.Known g) (h : m.Moves g m') :
    (∃ s₁, Settles g m.state s₁ ∧ Changes g (fun _ => True) s₁ m'.state) ∧
      ∀ t ∈ m'.agenda, t.Known g m'.state.registry := by
  cases h with
  | intervene h =>
    obtain ⟨hc, us, hagenda, hus⟩ := h.cases
    refine ⟨⟨_, .nothing, hc.mono fun _ => False.elim⟩, fun t ht => ?_⟩
    rw [hagenda] at ht
    rcases mem_append.mp ht with ht | ht
    · exact (hus t ht).known
    · exact (hm.agenda t ht).mono hc.le
  | step =>
    unfold Machine.step
    split
    · exact ⟨⟨_, .nothing, .refl⟩, hm.agenda⟩
    · rename_i t rest hagenda
      have ht := hm.agenda t (hagenda ▸ .head _)
      have hrest : ∀ u ∈ rest, u.Known g m.state.registry :=
        fun u hu => hm.agenda u (hagenda ▸ .tail _ hu)
      have hresults := Act.outcome_perform hg hm.state ht
      split
      · rename_i ts s hok
        have houtcome := hresults.of_ok hok
        obtain ⟨s₁, hs₁, hc⟩ := houtcome.settles ht
        refine ⟨⟨s₁, hs₁, hc.mono fun _ _ => trivial⟩, fun u hu => ?_⟩
        rcases mem_append.mp hu with hu | hu
        · exact houtcome.known_tasks hm.state ht u hu
        · exact (hrest u hu).mono (Registry.le_trans hs₁.keeps.registry hc.le)
      · rename_i e s herr
        obtain ⟨s₁, hs₁, hcs⟩ := (hresults.of_error herr).settles ht
        have hc : Changes g (fun _ => True) s₁ s := hcs.mono fun _ _ => trivial
        split
        · rename_i rest' hgive
          refine ⟨⟨s₁, hs₁, hc.tail (.other (by constructor <;> intros <;> rfl))⟩, fun u hu => ?_⟩
          exact (hrest u (mem_of_giveUp hgive u hu)).mono
            (Registry.le_trans hs₁.keeps.registry hc.le)
        · exact ⟨⟨s₁, hs₁, hc⟩, fun u hu => by cases hu⟩

theorem Moves.known (hg : g.Honest) (hm : m.Known g) (h : m.Moves g m') : m'.Known g := by
  obtain ⟨⟨s₁, hs₁, hc⟩, hagenda⟩ := h.cases hg hm
  exact ⟨(hm.state.settles hg hs₁).changes hg hc, hagenda⟩

theorem Moves.keeps (hg : g.Honest) (hm : m.Known g) (h : m.Moves g m') :
    m.state.Keeps m'.state := by
  obtain ⟨⟨s₁, hs₁, hc⟩, -⟩ := h.cases hg hm
  exact hs₁.keeps.trans hc.keeps

/-- A run keeps to known numbers. -/
theorem Leads.known (hg : g.Honest) (hm : m.Known g) (h : m.Leads g m') : m'.Known g := by
  induction h with
  | refl => exact hm
  | tail _ h ih => exact h.known hg ih

theorem Leads.keeps (hg : g.Honest) (hm : m.Known g) (h : m.Leads g m') :
    m.state.Keeps m'.state := by
  induction h with
  | refl => exact .refl _
  | tail h₁ h ih => exact ih.trans (h.keeps hg (Leads.known hg hm h₁))

end Machine

end Moves

/-! ### Transfers that select objects -/

namespace Transfer

/-- A transfer selects objects one by one: it passes all on, or those of a type. -/
def Selects : Transfer → Prop
  | all => True
  | ofType _ => True
  | _ => False

/-- A transfer passes an object on, whatever arrives with it. -/
def Passes (fits : Ty → CObjId → Bool) : Transfer → CObjId → Prop
  | all, _ => True
  | ofType t, o => fits t o = true
  | _, _ => False

variable {t : Transfer} {o : CObjId} {S : Objects}

/-- What a selecting transfer passes on. -/
theorem mem_apply_iff (h : t.Selects) {fits : Ty → CObjId → Bool} :
    o ∈ t.apply fits S ↔ o ∈ S ∧ t.Passes fits o := by
  cases t with
  | all | ofType => simp [apply, Passes]
  | _ => exact h.elim

theorem Passes.of_objType {p : Program} {s s' : State} (h : t.Passes (s'.fits p) o)
    (htype : s'.registry.objType o = s.registry.objType o) : t.Passes (s.fits p) o := by
  cases t with
  | all => trivial
  | ofType ty =>
    have hfits : s'.fits p ty o = true := h
    rw [State.fits, htype] at hfits
    exact hfits
  | _ => exact h.elim

theorem Passes.mem_passOn {g : Setup} {s : State} {src dst : PtrId} {kind : FlowKind}
    (h : t.Passes (s.fits g.program) o) (ho : o ∈ S) : o ∈ g.passOn s ⟨src, dst, kind, t, S⟩ := by
  cases t with
  | all => exact ho
  | ofType ty => exact (mem_apply_iff (t := .ofType ty) trivial).mpr ⟨ho, h⟩
  | _ => exact h.elim

end Transfer

/-! ### The promise of the flow graph -/

namespace State

variable {g : Setup} {mem : Observer → Prop} {s s' : State} {w : WorkList} {q : PtrId} {o : CObjId}

/-- An object is in a pointer, or waits for it. -/
def Reaches (s : State) (q : PtrId) (o : CObjId) : Prop :=
  o ∈ s.pointsTo q ∨ s.work.Waits q o

theorem waits_handed (hw : s.work.Wf) {x : Passage} :
    (s.handed g x).work.Waits q o ↔ s.work.Waits q o ∨ q = x.dst ∧ o ∈ g.passOn s x := by
  refine (WorkList.waits_addAll (l := [(x.dst, g.passOn s x)]) hw).trans (or_congr_right ?_)
  simp only [mem_singleton, Prod.mk.injEq]
  constructor
  · rintro ⟨u, ⟨rfl, rfl⟩, ho⟩
    exact ⟨rfl, ho⟩
  · rintro ⟨rfl, ho⟩
    exact ⟨_, ⟨rfl, rfl⟩, ho⟩

/-- What is in a pointer or waits for it stays so. -/
theorem Reaches.change (h : s.Reaches q o) (hs : s.Known) (hc : Change g mem s s') :
    s'.Reaches q o := by
  refine h.imp (hc.keeps.objects q o) fun hq => ?_
  cases hc with
  | registry | call | threads => exact hq
  | objects => exact (WorkList.waits_addAll hs.work).mpr (.inl hq)
  | flow =>
    unfold joined
    split
    · exact (waits_handed (s := s.attached ..) hs.work).mpr (.inl hq)
    · exact hq
  | other ha =>
    rw [ha.work]
    exact hq

/-- Waiting objects are taken: those that are not in their pointer are new to it. -/
theorem Reaches.taken (h : s.Reaches q o) (hs : s.Known) {p : PtrId} {t : Objects}
    (hpoll : s.work.poll = some (.objects p t, w)) :
    Reaches { s with work := w } q o ∨ q = p ∧ o ∈ t.diff (s.pointsTo p) := by
  obtain ⟨hw, hmem, hpend, -⟩ := hs.work.of_poll_objects hpoll
  by_cases hin : o ∈ s.pointsTo q
  · exact .inl (.inl hin)
  · obtain ⟨u, hu, ho⟩ := h.resolve_left hin
    by_cases hq : q = p
    · subst hq
      rw [hs.work.entry_unique hu hmem] at ho
      exact .inr ⟨rfl, OrderedSet.mem_diff.mpr ⟨ho, hin⟩⟩
    · refine .inl (.inr ⟨u, ?_, ho⟩)
      rw [hpend]
      exact mem_filter.mpr ⟨hu, by simpa using hq⟩

theorem Reaches.settles (h : s.Reaches q o) (hs : s.Known) (hc : Settles g s s') :
    s'.Reaches q o := by
  cases hc with
  | nothing | reach => exact h
  | @objects p t w hpoll =>
    obtain ⟨hw, -⟩ := hs.work.of_poll_objects hpoll
    rcases h.taken hs hpoll with (hin | hq) | ⟨rfl, ho⟩
    · exact .inl (mem_pointsTo_delivered.mpr (.inl hin))
    · right
      unfold delivered
      split
      · exact hq
      · exact (WorkList.waits_addAll hw).mpr (.inl hq)
    · exact .inl (mem_pointsTo_delivered.mpr (.inr ⟨rfl, ho⟩))
  | @call e w hpoll =>
    obtain ⟨-, -, hpend, -⟩ := hs.work.of_poll_call hpoll
    refine h.imp_right ?_
    rintro ⟨u, hu, ho⟩
    exact ⟨u, hpend ▸ hu, ho⟩

/-- **Objects flow**: what a selecting transfer passes on is in the target or waits for it. -/
def Flowed (g : Setup) (s : State) : Prop :=
  ∀ a b k t o, s.flow.Joins a b k t → t.Passes (s.fits g.program) o → o ∈ s.pointsTo a →
    s.Reaches b o

theorem Flowed.initial (g : Setup) (script : Script) : Flowed g { script := script } := by
  rintro a b k t o ⟨e, he, -⟩
  cases he

theorem Flowed.of_reaches (h : s.Flowed g) (hs : s.Known) (hreg : s.registry ≤ s'.registry)
    (hsets : s'.sets = s.sets) (hflow : s'.flow = s.flow)
    (hreach : ∀ q o, s.Reaches q o → s'.Reaches q o) : s'.Flowed g := by
  intro a b k t o hj hpass ho
  rw [hflow] at hj
  rw [pointsTo, hsets] at ho
  exact hreach b o (h a b k t o hj (hpass.of_objType ((hs.settled a o ho).objType_eq hreg)) ho)

/-- A transfer is attached: if it is new, what the source has is passed on at once. -/
theorem Flowed.attach (h : s.Flowed g) (hs : s.Known) (src dst : PtrId) (kind : FlowKind)
    (t : Transfer) : (s.joined g src dst kind t).Flowed g := by
  obtain ⟨hjoins, hold⟩ := s.flow.attach_cases src dst kind t
  unfold joined
  have hwaits {x : Passage} {b : PtrId} {o : CObjId} :=
    waits_handed (g := g) (s := s.attached src dst kind t) (x := x) (q := b) (o := o) hs.work
  split
  · intro a b k u o hj hpass ho
    rcases (hjoins a b k u).mp hj with hj | ⟨rfl, rfl, rfl, rfl⟩
    · rcases h a b k u o hj (hpass.of_objType rfl) ho with hb | hb
      · exact .inl hb
      · exact .inr (hwaits.mpr (.inl hb))
    · refine .inr (hwaits.mpr (.inr ⟨rfl, ?_⟩))
      exact (hpass.of_objType (s := s.attached a b k u) rfl).mem_passOn ho
  · rename_i hnot
    intro a b k u o hj hpass ho
    rcases (hjoins a b k u).mp hj with hj | ⟨rfl, rfl, rfl, rfl⟩
    · exact h a b k u o hj (hpass.of_objType rfl) ho
    · -- the transfer was there before, because the source is not empty
      have hsome : (s.pointsTo a).isEmpty = false := OrderedSet.isEmpty_of_mem ho
      have hthere : (s.flow.attach a b k u).1 = false := by
        rw [hsome] at hnot
        simpa using hnot
      exact h a b k u o (hold hthere) (hpass.of_objType rfl) ho

/-- **A change keeps the promise.** -/
theorem Flowed.change (h : s.Flowed g) (hs : s.Known) (hc : Change g mem s s') : s'.Flowed g := by
  have hreach : ∀ q o, s.Reaches q o → s'.Reaches q o := fun q o hq => hq.change hs hc
  have hreg := hc.keeps.registry
  cases hc with
  | registry | objects | call | threads => exact h.of_reaches hs hreg rfl rfl hreach
  | flow => exact h.attach hs _ _ _ _
  | other ha => exact h.of_reaches hs hreg ha.sets ha.flow hreach

theorem Flowed.changes (h : s.Flowed g) (hg : g.Honest) (hs : s.Known) (hc : Changes g mem s s') :
    s'.Flowed g := by
  induction hc with
  | refl => exact h
  | tail h₁ hc ih => exact ih.change (hs.changes hg h₁) hc

/-- Waiting objects reach their pointer: those that are new flow on, so nothing is missed. -/
theorem Flowed.deliver (h : s.Flowed g) (hs : s.Known) {p : PtrId} {t : Objects}
    (hpoll : s.work.poll = some (.objects p t, w)) :
    (State.delivered g { s with work := w } p t).Flowed g := by
  have hreach : ∀ q o, s.Reaches q o → (State.delivered g { s with work := w } p t).Reaches q o :=
    fun q o hq => hq.settles hs (.objects hpoll)
  obtain ⟨hw, -⟩ := hs.work.of_poll_objects hpoll
  unfold delivered at hreach ⊢
  split
  · rename_i hempty
    rw [if_pos hempty] at hreach
    exact h.of_reaches hs (Registry.le_refl _) rfl rfl hreach
  · rename_i hsome
    rw [if_neg hsome] at hreach
    intro a b k u o hj hpass ho
    rcases mem_pointsTo_propagated.mp ho with ho | ⟨rfl, ho⟩
    · exact hreach b o (h a b k u o hj (hpass.of_objType rfl) ho)
    · -- a new object of the source is passed on
      obtain ⟨s', hreg, hmem⟩ := exists_flow (s := { s with work := w }) hj
      refine .inr ((WorkList.waits_addAll hw).mpr (.inr ⟨_, hmem, ?_⟩))
      exact (hpass.of_objType (s := s') (by rw [hreg]; rfl)).mem_passOn ho

/-- **So does what a task settles.** -/
theorem Flowed.settles (h : s.Flowed g) (hs : s.Known) (hc : Settles g s s') : s'.Flowed g := by
  have hreach : ∀ q o, s.Reaches q o → s'.Reaches q o := fun q o hq => hq.settles hs hc
  cases hc with
  | nothing => exact h
  | objects hpoll => exact h.deliver hs hpoll
  | call | reach => exact h.of_reaches hs (Registry.le_refl _) rfl rfl hreach

end State

namespace Machine

variable {g : Setup} {m m' : Machine}

theorem Moves.flowed (hg : g.Honest) (hm : m.Known g) (hf : m.state.Flowed g) (h : m.Moves g m') :
    m'.state.Flowed g := by
  obtain ⟨⟨s₁, hs₁, hc⟩, -⟩ := h.cases hg hm
  exact (hf.settles hm.state hs₁).changes hg (hm.state.settles hg hs₁) hc

/-- **So the promise is kept throughout a run.** -/
theorem Leads.flowed (hg : g.Honest) (hm : m.Known g) (hf : m.state.Flowed g) (h : m.Leads g m') :
    m'.state.Flowed g := by
  induction h with
  | refl => exact hf
  | tail h₁ h ih => exact h.flowed hg (Leads.known hg hm h₁) ih

end Machine

variable {w : WorkList} {o : CObjId}

theorem WorkList.Wf.waits_iff (hw : w.Wf) {p : PtrId} :
    w.Waits p o ↔ o ∈ (w.waiting? p).getD ∅ := by
  constructor
  · rintro ⟨t, ht, ho⟩
    rw [hw.waiting?_eq_some_iff.mpr ht]
    exact ho
  · intro h
    cases hp : w.waiting? p with
    | none =>
      rw [hp] at h
      exact (OrderedSet.mem_empty h).elim
    | some t =>
      rw [hp] at h
      exact ⟨t, hw.waiting?_eq_some_iff.mp hp, h⟩

theorem WorkList.Wf.not_waits_of_isEmpty (hw : w.Wf) (h : w.isEmpty = true) {p : PtrId} :
    ¬ w.Waits p o := by
  rintro ⟨t, ht, -⟩
  have hpointers : w.pointers.isEmpty = true := (Bool.and_eq_true_iff.mp h).1
  have hlist : w.pointers.toList = [] := by
    rw [← length_eq_zero_iff, Fifo.length_toList, Fifo.size, beq_iff_eq.mp hpointers, Nat.sub_self]
  rw [hw.order, map_eq_nil_iff] at hlist
  rw [hlist] at ht
  cases ht

/-- **The inclusions hold under any observers.** Whatever observers do at the events they are told
of, and whatever transfers they bring along, at every moment of a run between two tasks: for every
flow edge and each of its transfers that selects objects, what the transfer passes on of the objects
of the source is in the target or waits for it; when no work waits, it is in the target. And
whatever happens afterwards, no pointer loses an object, and no flow edge, transfer, reachable
method or call edge is lost. -/
theorem inclusions_hold_throughout (g : Setup) (hg : g.Honest) (script : Script) {m : Machine}
    (h : (g.initial script).Leads g m) :
    (∀ e ∈ m.state.flow.edges, ∀ t ∈ e.transfers, t.Selects →
      ∀ o ∈ t.apply (m.state.fits g.program) (m.state.pointsTo e.src),
        o ∈ m.state.pointsTo e.dst ∨ o ∈ (m.state.work.waiting? e.dst).getD ∅) ∧
    (m.state.work.isEmpty = true → ∀ e ∈ m.state.flow.edges, ∀ t ∈ e.transfers, t.Selects →
      ∀ o ∈ t.apply (m.state.fits g.program) (m.state.pointsTo e.src), o ∈ m.state.pointsTo e.dst) ∧
    ∀ m', m.Leads g m' → m.state.Keeps m'.state := by
  have hknown : m.Known g := h.known hg (.initial g script)
  have hflowed : ∀ e ∈ m.state.flow.edges, ∀ t ∈ e.transfers, t.Selects →
      ∀ o ∈ t.apply (m.state.fits g.program) (m.state.pointsTo e.src),
        o ∈ m.state.pointsTo e.dst ∨ m.state.work.Waits e.dst o := by
    intro e he t ht hselects o ho
    obtain ⟨hsrc, hpass⟩ := (Transfer.mem_apply_iff hselects).mp ho
    exact h.flowed hg (.initial g script) (.initial g script) e.src e.dst e.kind t o
      ⟨e, he, rfl, rfl, rfl, ht⟩ hpass hsrc
  refine ⟨fun e he t ht hselects o ho => ?_, fun hempty e he t ht hselects o ho => ?_,
    fun m' h' => h'.keeps hg hknown⟩
  · rcases hflowed e he t ht hselects o ho with hin | hwaits
    · exact .inl hin
    · exact .inr (hknown.state.work.waits_iff.mp hwaits)
  · rcases hflowed e he t ht hselects o ho with hin | hwaits
    · exact hin
    · exact (hknown.state.work.not_waits_of_isEmpty hempty hwaits).elim

/-! ### An observer that meddles -/

/-- An analysis with a transfer of an observer: it passes on what exists. -/
def meddledSetup (p : Program) : Setup :=
  { Options.setup {} p (.obj 2) [.profiler] with
    custom := fun _ s x => x.objects.filter fun o => (s.registry.obj? o).isSome }

theorem honest_meddledSetup (p : Program) : (meddledSetup p).Honest := by
  intro key s x o ho
  exact Option.isSome_iff_exists.mp (OrderedSet.mem_filter.mp ho).2

/-- The registry of an observer that knows the first two variables of a main method. -/
def meddledRegistry : Registry :=
  ((({} : Registry).pointer (.var Contexts.emptyCtx (.declared ⟨"Main", "main()"⟩ 0))).2.pointer
    (.var Contexts.emptyCtx (.declared ⟨"Main", "main()"⟩ 1))).2

theorem Machine.Telling.attach {g : Setup} {m : Machine} (h : m.Telling) (src : PtrId) {dst : PtrId}
    (hdst : m.state.registry.HasPointer dst) (kind : FlowKind) {t : Transfer}
    (ht : ∀ o, t = .always o → m.state.registry.HasObject o) :
    m.Intervenes g { m with state := m.state.joined g src dst kind t } :=
  .mutate (x := .addFlow src dst kind t) h ⟨hdst, ht⟩
    ((Act.bind_of_ok (Act.addFlow_apply ..)).trans rfl)

/-- The start of an analysis in which an observer lets the first variable flow into the second one,
by the transfer of its own and then by one that selects. -/
def meddledStart (p : Program) : Machine :=
  let g := meddledSetup p
  let s : State := { registry := meddledRegistry }
  { g.initial [] with
    state := (s.joined g 0 1 .other (.custom 0)).joined g 0 1 .other (.ofType (.cls objectClass)) }

/-- The observer only does what observers may do. -/
theorem intervenes_meddledStart (p : Program) :
    Relation.ReflTransGen (Machine.Intervenes (meddledSetup p)) ((meddledSetup p).initial [])
      (meddledStart p) := by
  have htelling : ∀ m : Machine, m.agenda = ((meddledSetup p).initial []).agenda → m.Telling :=
    fun m hm => ⟨.start, _, _, _, hm⟩
  have hr : ({} : Registry) ≤ meddledRegistry :=
    Registry.le_trans (Registry.le_pointer _ _) (Registry.le_pointer _ _)
  have hdst : meddledRegistry.HasPointer 1 :=
    ⟨.var Contexts.emptyCtx (.declared ⟨"Main", "main()"⟩ 1), by decide +kernel⟩
  let m₁ : Machine := { (meddledSetup p).initial [] with state := { registry := meddledRegistry } }
  let m₂ : Machine := { m₁ with state := m₁.state.joined (meddledSetup p) 0 1 .other (.custom 0) }
  have h₁ : ((meddledSetup p).initial []).Intervenes (meddledSetup p) m₁ :=
    .consult (htelling _ rfl) hr
  have h₂ : m₁.Intervenes (meddledSetup p) m₂ := (htelling m₁ rfl).attach 0 hdst .other (by nofun)
  have hdst₂ : m₂.state.registry.HasPointer 1 := hdst.mono (State.joined_keeps ..).registry
  exact ((Relation.ReflTransGen.single h₁).tail h₂).tail
    ((htelling m₂ rfl).attach 0 hdst₂ .other (by nofun))

theorem Machine.leads_of_intervenes {g : Setup} {m m' : Machine}
    (h : Relation.ReflTransGen (Intervenes g) m m') : m.Leads g m' := by
  induction h with
  | refl => exact .refl
  | tail _ h ih => exact ih.tail (.intervene h)

theorem Machine.leads_run (g : Setup) (n : Nat) (m : Machine) : m.Leads g (m.run g n) := by
  induction n generalizing m with
  | zero => exact .refl
  | succ n ih =>
    unfold run
    split
    · exact .refl
    · exact .head .step (ih _)

/-- The theorem at the example, when an observer meddles with its main method: in the end the second
variable holds the object of the first, which only the observer lets flow there. -/
theorem inclusions_hold_throughout_box : ∃ p m, Program.load boxSource = .ok p ∧
    ((meddledSetup p).initial []).Leads (meddledSetup p) m ∧ m.agenda = [] ∧
    0 ∈ (m.state.pointsTo 0).toList ∧ 0 ∈ (m.state.pointsTo 1).toList ∧
    (m.state.work.isEmpty = true → ∀ e ∈ m.state.flow.edges, ∀ t ∈ e.transfers, t.Selects →
      ∀ o ∈ t.apply (m.state.fits p) (m.state.pointsTo e.src), o ∈ m.state.pointsTo e.dst) := by
  obtain ⟨p, hp, hend, hfirst, hsecond⟩ : ∃ p, Program.load boxSource = .ok p ∧
      ((meddledStart p).run (meddledSetup p) 400).agenda = [] ∧
      0 ∈ (((meddledStart p).run (meddledSetup p) 400).state.pointsTo 0).toList ∧
      0 ∈ (((meddledStart p).run (meddledSetup p) 400).state.pointsTo 1).toList :=
    exists_of_any_toOption (by decide +kernel)
  have hleads := (Machine.leads_of_intervenes (intervenes_meddledStart p)).trans
    (Machine.leads_run (meddledSetup p) 400 _)
  exact ⟨p, _, hp, hleads, hend, hfirst, hsecond,
    (inclusions_hold_throughout (meddledSetup p) (honest_meddledSetup p) [] hleads).2.1⟩

end HeapFlow
