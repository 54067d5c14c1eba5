import HeapFlow.Proofs.Canonical
import HeapFlow.Proofs.Delivery

/-!
# What a dump shows

The lists of a result are taken down when no work waits any more. Observers may still intervene
then; but as no waiting work is done behind the end (`Machine.Concluding`), the lists still cover
every variable that holds something (`Snapshot.Covers`). So the dump of a result depends on nothing
but what is reachable, called and held. Two runs number their objects differently, so what is held
is compared by the origins of the objects.
-/

namespace HeapFlow

open List

/-! ### The end of a run -/

/-- The waiting work is done, or the lists of the result are taken down. -/
def Task.Concludes : Task → Prop
  | .drain => True
  | .finish => True
  | _ => False

/-- **The lists of a result cover a state**: they have every variable that holds something. -/
structure Snapshot.Covers (x : Snapshot) (s : State) : Prop where
  reachable : x.reachable.Nodup
  vars : ∀ {q c v o}, s.registry.pointers.get? q = some (.var c v) → o ∈ s.pointsTo q → v ∈ x.vars

theorem Snapshot.covers_of (s : State) : (Snapshot.of s.registry s.calls).Covers s where
  reachable := nodup_eraseDups _
  vars hq _ := mem_eraseDups.mpr
    (mem_filterMap.mpr ⟨_, Array.mem_toList_iff.mpr (Array.mem_of_getElem? hq), rfl⟩)

/-- Lists that cover a state cover later ones with the same points-to sets. -/
theorem Snapshot.Covers.mono {x : Snapshot} {s s' : State} (h : x.Covers s) (hs : s.Known)
    (hle : s.registry ≤ s'.registry) (hsets : s'.sets = s.sets) : x.Covers s' where
  reachable := h.reachable
  vars {q c v o} hq ho := by
    rw [State.pointsTo, hsets] at ho
    rw [(hs.holder q o ho).get?_eq hle] at hq
    exact h.vars hq ho

section Outcomes

variable {g : Setup} {s s' : State} {t : Task} {r : Option (List Task)}

theorem Task.Quiet.not_concludes {reg : Registry} (h : t.Quiet g reg) : ¬ t.Concludes := by
  cases t with
  | drain | finish => exact h.elim
  | _ => exact id

/-- Points-to sets change only when waiting work is done. -/
theorem Outcome.sets_eq (h : Outcome g s t r s') (ht : t ≠ .drain) : s'.sets = s.sets := by
  cases h with
  | routine _ hc _ | tell hc _ | wire hc _ => exact hc.frame.sets
  | told | again | skip | reach => rfl
  | idle | deliver | grow | known | connect => exact absurd rfl ht

/-- A task leaves nothing to do that concludes a run, but that waiting work is done on and on. -/
theorem Outcome.of_concludes (h : Outcome g s t r s') {ts : List Task} (hr : ts ∈ r) {u : Task}
    (hu : u ∈ ts) (hc : u.Concludes) : t = .drain ∧ u = .drain := by
  cases h with
  | routine _ _ hcalm => exact absurd hc (hcalm ts hr u hu).not_concludes
  | told | again | skip | idle =>
    cases hr
    cases hu
  | tell _ hcalm =>
    obtain ⟨us, rfl, hus⟩ := hcalm ts hr
    rcases mem_append.mp hu with hu | hu
    · exact absurd hc (hus u hu).not_concludes
    · rw [mem_singleton.mp hu] at hc
      exact hc.elim
  | wire _ hts =>
    rw [hts ts hr, mem_singleton] at hu
    rw [hu] at hc
    exact hc.elim
  | reach =>
    cases hr
    rcases g.mem_bodyTasks hu with ⟨-, rfl⟩ | ⟨i, rfl⟩ | rfl <;> exact hc.elim
  | deliver | known =>
    cases hr
    exact ⟨rfl, mem_singleton.mp hu⟩
  | grow _ _ _ _ _ hts =>
    obtain ⟨us, rfl, hus, -⟩ := hts ts hr
    rcases mem_append.mp hu with hu | hu
    · exact absurd hc (hus u hu).not_concludes
    · rcases mem_pair.mp hu with rfl | rfl
      · exact hc.elim
      · exact ⟨rfl, rfl⟩
  | connect _ _ _ hts =>
    rw [hts ts hr] at hu
    rcases mem_triple.mp hu with rfl | rfl | rfl
    · exact hc.elim
    · exact hc.elim
    · exact ⟨rfl, rfl⟩

end Outcomes

namespace Machine

variable {g : Setup} {m m' : Machine}

/-- **The run comes to its end in order**: behind the end no work is done, and the lists that have
been taken down cover the state. -/
structure Concluding (m : Machine) : Prop where
  order : m.agenda.Pairwise fun t u => t = .finish → ¬ u.Concludes
  done : ∀ x, m.state.snapshot = some x → ∀ t ∈ m.agenda, ¬ t.Concludes
  covers : ∀ x, m.state.snapshot = some x → x.Covers m.state

theorem Concluding.initial (g : Setup) (script : Script) : (g.initial script).Concluding where
  order := by simp [Setup.initial, Task.Concludes]
  done x hx := by cases hx
  covers x hx := by cases hx

variable {rest : List Task}

theorem Concluding.go_on (hm : m.Concluding) (hknown : m.state.Known) {ts : List Task}
    (hagenda : m'.agenda = ts ++ rest) (hrest : rest.Sublist m.agenda)
    (hsnapshot : m'.state.snapshot = m.state.snapshot)
    (hle : m.state.registry ≤ m'.state.registry) (hfinish : .finish ∉ ts)
    (hdone : (∀ t ∈ m.agenda, ¬ t.Concludes) →
      m'.state.sets = m.state.sets ∧ ∀ t ∈ ts, ¬ t.Concludes) : m'.Concluding := by
  refine ⟨?_, fun x hx => ?_, fun x hx => ?_⟩
  · rw [hagenda, pairwise_append]
    refine ⟨pairwise_of_forall_mem_list fun t ht u _ hf => ?_, hm.order.sublist hrest,
      fun t ht u _ hf => ?_⟩
    · exact absurd (hf ▸ ht) hfinish
    · exact absurd (hf ▸ ht) hfinish
  · rw [hsnapshot] at hx
    rw [hagenda]
    intro t ht
    rcases mem_append.mp ht with ht | ht
    · exact (hdone (hm.done x hx)).2 t ht
    · exact hm.done x hx t (hrest.subset ht)
  · rw [hsnapshot] at hx
    exact (hm.covers x hx).mono hknown hle (hdone (hm.done x hx)).1

/-- Interventions keep the end in order. -/
theorem Concluding.intervene (hm : m.Concluding) (hknown : m.state.Known)
    (h : m.Intervenes g m') : m'.Concluding := by
  obtain ⟨hchanges, us, hagenda, hus⟩ := h.cases
  have hsnapshot : m'.state.snapshot = m.state.snapshot := by
    cases h with
    | consult => rfl
    | @mutate x _ s' _ hx hok =>
      have hdoes : Act.Does g ⟨fun _ => False, True, none⟩ (x.act g) m.state g.Calm :=
        Mutation.does trivial hx
      have hminds : Act.Results (x.act g) m.state fun _ s => m.state.Minds none True s :=
        hdoes.results fun _ _ hc _ => hc.minds
      exact (hminds.of_ok hok).snapshot
  exact hm.go_on hknown hagenda (.refl _) hsnapshot hchanges.le
    (fun hf => (hus _ hf).not_concludes trivial)
    fun _ => ⟨hchanges.frame.sets, fun t ht => (hus t ht).not_concludes⟩

theorem Concluding.finish (hm : m.Concluding) (hagenda : m.agenda = .finish :: rest) :
    (m.step g).Concluding := by
  have horder := hm.order
  rw [hagenda, pairwise_cons] at horder
  have hrest : ∀ u ∈ rest, ¬ u.Concludes := fun u hu => horder.1 u hu rfl
  have hstep : m.step g = { m with
      state := { m.state with snapshot := some (.of m.state.registry m.state.calls) }
      agenda := .notify .finish g.observers :: rest } := by
    simp only [Machine.step, hagenda]
    rfl
  rw [hstep]
  refine ⟨pairwise_cons.mpr ⟨fun u _ hf => ?_, horder.2⟩, fun x _ t ht => ?_, fun x hx => ?_⟩
  · cases hf
  · rcases mem_cons.mp ht with rfl | ht
    · exact id
    · exact hrest t ht
  · cases hx
    have hcovers := Snapshot.covers_of m.state
    exact ⟨hcovers.reachable, hcovers.vars⟩

/-- **So does a step.** -/
theorem Concluding.step (hg : g.Honest) (hknown : m.Known g) (hm : m.Concluding) :
    (m.step g).Concluding := by
  have hle : m.state.registry ≤ (m.step g).state.registry :=
    (Moves.step.keeps hg hknown).registry
  cases hagenda : m.agenda with
  | nil =>
    simpa only [Machine.step, hagenda] using hm
  | cons t rest =>
    by_cases ht : t = .finish
    · subst ht
      exact hm.finish hagenda
    have hresults : Act.Results (Act.perform g t) m.state (t.Performed g none True m.state) :=
      Act.performed_perform (by simp) hg hknown.state (hknown.agenda t (hagenda ▸ .head _)) ht
    have hrest : rest.Sublist m.agenda := hagenda ▸ sublist_cons_self t rest
    -- once the end is over, the sets stay: only draining the work changes them
    have hdrain : (∀ u ∈ m.agenda, ¬ u.Concludes) → t ≠ .drain := by
      rintro hnone rfl
      exact hnone .drain (hagenda ▸ .head _) trivial
    cases hx : Act.perform g t m.state with
    | ok ts s =>
      obtain ⟨houtcome, hminds⟩ := hresults.of_ok hx
      have hstep : m.step g = { m with state := s, agenda := ts ++ rest } := by
        simp only [Machine.step, hagenda, hx]
      rw [hstep] at hle ⊢
      refine hm.go_on hknown.state rfl hrest hminds.snapshot hle (fun hf => ?_)
        fun hnone => ⟨houtcome.sets_eq (hdrain hnone), fun u hu hc => ?_⟩
      · cases (houtcome.of_concludes rfl hf trivial).2
      · exact hdrain hnone (houtcome.of_concludes rfl hu hc).1
    | error e s =>
      obtain ⟨houtcome, hminds⟩ := hresults.of_error hx
      have hsnapshot := hminds.snapshot
      cases hgive : giveUp rest with
      | none =>
        have hstep : m.step g = { state := s, agenda := [], failure := some e } := by
          simp only [Machine.step, hagenda, hx, hgive]
        rw [hstep] at hle ⊢
        exact hm.go_on hknown.state (append_nil []).symm (nil_sublist _) hsnapshot hle
          (fun hf => by cases hf)
          fun hnone => ⟨houtcome.sets_eq (hdrain hnone), fun u hu => by cases hu⟩
      | some rest' =>
        have hstep : m.step g = { m with state := s.write (.failed e), agenda := rest' } := by
          simp only [Machine.step, hagenda, hx, hgive]
        rw [hstep] at hle ⊢
        exact hm.go_on hknown.state (nil_append _).symm
          ((suffix_of_giveUp hgive).sublist.trans hrest) hsnapshot hle (fun hf => by cases hf)
          fun hnone => ⟨houtcome.sets_eq (hdrain hnone), fun u hu => by cases hu⟩

/-- **However a run goes on, it comes to its end in order.** -/
theorem Leads.concluding (hg : g.Honest) (hknown : m.Known g) (hm : m.Concluding)
    (h : m.Leads g m') : m'.Concluding := by
  induction h with
  | refl => exact hm
  | tail h₁ h ih =>
    have hk := Leads.known hg hknown h₁
    cases h with
    | step => exact ih.step hg hk
    | intervene h => exact ih.intervene hk.state h

theorem interned_step (hp : g.program.WellFormed) (hg : g.Honest) (hknown : m.Known g)
    (hm : m.state.registry.heap.Interned g.program) :
    (m.step g).state.registry.heap.Interned g.program := by
  cases hagenda : m.agenda with
  | nil => simpa only [Machine.step, hagenda] using hm
  | cons t rest =>
    have hresults : Act.Results (Act.perform g t) m.state
        fun _ s => s.registry.heap.Interned g.program := by
      by_cases ht : t = .finish
      · subst ht
        exact hm
      · have h : Act.Results (Act.perform g t) m.state
            (t.Performed g (some g.program) True m.state) :=
          Act.performed_perform (by simp [hp]) hg hknown.state
            (hknown.agenda t (hagenda ▸ .head _)) ht
        exact h.imp fun _ _ h => h.minds.heap _ rfl hm
    simp only [Machine.step, hagenda]
    split
    · rename_i hok
      exact hresults.of_ok hok
    · rename_i herr
      have hs := hresults.of_error herr
      split <;> exact hs

/-- **The heap of a run is interned**, whatever its observers and its script ask for. -/
theorem interned_run (hp : g.program.WellFormed) (hg : g.Honest) (n : Nat) (hknown : m.Known g)
    (hm : m.state.registry.heap.Interned g.program) :
    (m.run g n).state.registry.heap.Interned g.program := by
  induction n generalizing m with
  | zero => exact hm
  | succ n ih =>
    unfold run
    split
    · exact hm
    · exact ih (Moves.step.known hg hknown) (interned_step hp hg hknown hm)

end Machine

/-! ### The results of runs -/

/-- **A run yields a result**: whoever intervenes, as long as the heap is asked for the objects that
get into it. -/
def Setup.Yields (g : Setup) (r : Result) : Prop :=
  g.Honest ∧ ∃ script m, (g.initial script).Leads g m ∧ m.state.registry.heap.Interned g.program ∧
    m.result g = .ok r

/-- A run in which nobody intervenes, but by the operations of a script, yields its result. -/
theorem Setup.yields_run {g : Setup} (hp : g.program.WellFormed) (hg : g.Honest) {script : Script}
    {n : Nat} {r : Result} (hr : ((g.initial script).run g n).result g = .ok r) : g.Yields r :=
  ⟨hg, script, _, Machine.leads_run g n _,
    Machine.interned_run hp hg n (Machine.Known.initial g script) (fun _ _ hi => by cases hi), hr⟩

namespace Setup.Yields

variable {g : Setup} {r : Result} (h : g.Yields r)

include h

theorem program : r.program = g.program := by
  obtain ⟨-, script, m, -, -, hr⟩ := h
  exact (Machine.of_result_eq_ok hr).2.2.1

theorem interned : r.registry.heap.Interned g.program := by
  obtain ⟨-, script, m, -, hinterned, hr⟩ := h
  rw [Result.registry, (Machine.of_result_eq_ok hr).2.2.2]
  exact hinterned

/-- The lists of a result have no repetitions. -/
theorem orderly : r.Orderly := by
  obtain ⟨hg, script, m, hlead, -, hr⟩ := h
  obtain ⟨-, hsnapshot, -, hstate⟩ := Machine.of_result_eq_ok hr
  have hknown := Machine.Leads.known hg (Machine.Known.initial g script) hlead
  have hcovers := (Machine.Leads.concluding hg (Machine.Known.initial g script)
    (Machine.Concluding.initial g script) hlead).covers _ hsnapshot
  rw [← hstate] at hcovers
  refine ⟨hcovers.reachable, fun {v} hv => ?_, fun {ps i} hi => ?_⟩
  · obtain ⟨i, hi⟩ := exists_mem_of_ne_nil _ hv
    obtain ⟨q, hq, o, ho, -⟩ := Result.mem_collapse.mp hi
    obtain ⟨c, hc⟩ := Registry.mem_pointersOf.mp hq
    exact hcovers.vars hc ho
  · obtain ⟨q, -, o, ho, rfl⟩ := Result.mem_collapse.mp hi
    rw [hstate] at ho
    obtain ⟨x, hx⟩ := hknown.state.settled q o ho
    obtain ⟨k, hk, hitem⟩ := Option.bind_eq_some_iff.mp hx
    rw [← hstate] at hk hitem
    refine ⟨x, ?_⟩
    rw [Registry.objId, Result.registry, hk]
    exact hitem

end Setup.Yields

/-! ### What is held -/

namespace Result

def origin? (r : Result) (i : ObjId) : Option Origin :=
  (r.registry.heap.get? i).map Obj.origin

def origins (r : Result) (objs : List ObjId) : List Origin :=
  objs.filterMap r.origin?

/-- **Two results say the same**, whatever the order and the numbers in which they say it: the same
methods are reachable, the same calls are made, and variables and static fields hold objects of the
same origins. -/
structure SaysSame (r r' : Result) : Prop where
  reachable : ∀ m, m ∈ r.reachable ↔ m ∈ r'.reachable
  calls : ∀ e, e ∈ r.callGraph.edges ↔ e ∈ r'.callGraph.edges
  vars : ∀ v x, x ∈ r.origins (r.pointsTo v) ↔ x ∈ r'.origins (r'.pointsTo v)
  statics : ∀ f x, x ∈ r.origins (r.staticPointsTo f) ↔ x ∈ r'.origins (r'.staticPointsTo f)

variable {r : Result} {p : Program}

theorem mem_origins {objs : List ObjId} {x : Origin} :
    x ∈ r.origins objs ↔ r.HasKey Obj.origin objs x := by
  simp only [origins, origin?, mem_filterMap, Option.map_eq_some_iff, HasKey, Lists]
  constructor
  · rintro ⟨i, hi, o, ho, rfl⟩
    exact ⟨o, ⟨i, hi, ho⟩, rfl⟩
  · rintro ⟨o, ⟨i, hi, ho⟩, rfl⟩
    exact ⟨i, hi, o, ho, rfl⟩

/-- The origin of an object says how it is shown. -/
theorem keyed_of_interned (h : r.registry.heap.Interned p) : r.Keyed Obj.origin p.originLabel :=
  ⟨fun hi hj heq => Heap.origin_inj _ hi hj heq, fun hi => h _ _ hi⟩

theorem SaysSame.dump_eq {r' : Result} (h : r.SaysSame r') (hr : r.Orderly) (hr' : r'.Orderly)
    (hheap : r.registry.heap.Interned p) (hheap' : r'.registry.heap.Interned p)
    (hprogram : r'.program = r.program) : r.dump = r'.dump := by
  refine dump_congr hr hr' (keyed_of_interned hheap) (keyed_of_interned hheap') (hprogram ▸ .refl _)
    h.reachable h.calls (fun v a => ?_) fun f a => ?_
  · rw [← mem_origins, ← mem_origins, h.vars]
  · rw [← mem_origins, ← mem_origins, h.statics]

/-- **The lines of a dump**, section by section: one for every reachable method, and one for every
call, variable and static field of which there is something to show. -/
structure Lines (r : Result) (methods edges vars statics : List String) : Prop where
  sorted : ∀ l ∈ [methods, edges, vars, statics], l.Pairwise (· ≤ ·)
  once : edges.Nodup ∧ vars.Nodup
  methods : methods.Perm (r.reachable.map MethodId.text)
  edges : ∀ x, x ∈ edges ↔ ∃ e ∈ r.callGraph.edges, e.plainText = x
  vars : ∀ x, x ∈ vars ↔ ∃ v, r.heldLine (r.program.varText v) (r.pointsTo v) = some x
  statics : ∀ x, x ∈ statics ↔ ∃ f ∈ r.staticFields, r.heldLine f.text (r.staticPointsTo f) = some x

/-- The lines are those that there should be. -/
theorem Orderly.lines (hr : r.Orderly) :
    r.Lines r.methodLines r.edgeLines r.varLines r.staticLines := by
  have hsorted : ∀ {l : List String}, l.Pairwise (Text.textLE · ·) → l.Pairwise (· ≤ ·) :=
    fun h => h.imp Text.textLE_iff.mp
  obtain ⟨hedges, hedges'⟩ := Text.pairwise_compact
    (Text.pairwise_sortTexts (r.callGraph.edges.map CallEdge.plainText))
  obtain ⟨hvars, hvars'⟩ := Text.pairwise_compact (Text.pairwise_sortTexts
    (r.vars.filterMap fun v => r.heldLine (r.program.varText v) (r.pointsTo v)))
  refine ⟨fun l hl => hsorted ?_, ⟨hedges', hvars'⟩, mergeSort_perm _ _, fun x => ?_,
    fun x => ?_, fun x => ?_⟩
  · simp only [mem_cons, not_mem_nil, or_false] at hl
    rcases hl with rfl | rfl | rfl | rfl
    · exact Text.pairwise_sortTexts _
    · exact hedges
    · exact hvars
    · exact Text.pairwise_sortTexts _
  · rw [edgeLines, Text.mem_compact, Text.mem_sortTexts, mem_map]
  · rw [varLines, Text.mem_compact, Text.mem_sortTexts, mem_heldLines_vars hr.vars]
  · rw [staticLines, Text.mem_sortTexts, mem_filterMap]

end Result

/-- **Dumps are canonical.** The dump of a result has its lines in order, for every method, call,
variable and static field of which there is something to show; and a result of another run over the
same program that says the same has the same dump, whatever the policies, the options, the observers
and the scripts of the two runs. -/
theorem dumps_canonical {g : Setup} {r : Result} (hr : g.Yields r) :
    (∃ methods edges vars statics, r.Lines methods edges vars statics ∧
      r.dump = dumpSection "reachable methods" methods ++ dumpSection "call edges" edges ++
        dumpSection "points-to sets" vars ++ dumpSection "static fields" statics) ∧
    ∀ (g' : Setup) (r' : Result), g'.program = g.program → g'.Yields r' → r.SaysSame r' →
      r.dump = r'.dump := by
  refine ⟨⟨_, _, _, _, hr.orderly.lines, rfl⟩, fun g' r' hprogram hr' hsame => ?_⟩
  have hheap' := hr'.interned
  rw [hprogram] at hheap'
  refine hsame.dump_eq hr.orderly hr'.orderly hr.interned hheap' ?_
  rw [hr.program, hr'.program, hprogram]

namespace Result

/-- The origins of what a variable or a static field holds, by a pointer of it. -/
def heldBy (r : Result) : Pointer → List Origin
  | .var _ v => r.origins (r.pointsTo v)
  | .static f => r.origins (r.staticPointsTo f)
  | _ => []

variable {r r' : Result} {x : Origin}

theorem exists_of_mem_origins {ps : List PtrId} (h : x ∈ r.origins (r.collapse ps)) :
    ∃ q ∈ ps, ∃ o, o ∈ r.state.pointsTo q := by
  obtain ⟨i, hi, -⟩ := mem_filterMap.mp h
  obtain ⟨q, hq, o, ho, -⟩ := mem_collapse.mp hi
  exact ⟨q, hq, o, ho⟩

theorem exists_pointer_of_var {v : Var} (h : x ∈ r.origins (r.pointsTo v)) :
    ∃ c, .var c v ∈ r.registry.pointers.toList := by
  obtain ⟨q, hq, -⟩ := exists_of_mem_origins h
  obtain ⟨c, hc⟩ := Registry.mem_pointersOf.mp hq
  exact ⟨c, Array.mem_toList_iff.mpr (Array.mem_of_getElem? hc)⟩

theorem pointer_of_static {f : FieldId} (h : x ∈ r.origins (r.staticPointsTo f)) :
    .static f ∈ r.registry.pointers.toList := by
  obtain ⟨q, hq, -⟩ := exists_of_mem_origins h
  rw [Option.mem_toList, Registry.pointer?, Table.find?_eq_some_iff] at hq
  exact Array.mem_toList_iff.mpr (Array.mem_of_getElem? hq)

/-- It suffices to compare what pointers hold. -/
theorem saysSame_of_pointers (hreachable : r.reachable.Perm r'.reachable)
    (hcalls : r.callGraph.edges.Perm r'.callGraph.edges)
    (h : ∀ q ∈ r.registry.pointers.toList ++ r'.registry.pointers.toList,
      (r.heldBy q).Perm (r'.heldBy q)) : r.SaysSame r' where
  reachable _ := hreachable.mem_iff
  calls _ := hcalls.mem_iff
  vars v x := by
    constructor
    · intro hx
      obtain ⟨c, hc⟩ := exists_pointer_of_var hx
      exact (h _ (mem_append_left _ hc)).mem_iff.mp hx
    · intro hx
      obtain ⟨c, hc⟩ := exists_pointer_of_var hx
      exact (h _ (mem_append_right _ hc)).mem_iff.mpr hx
  statics f x := by
    constructor
    · intro hx
      exact (h _ (mem_append_left _ (pointer_of_static hx))).mem_iff.mp hx
    · intro hx
      exact (h _ (mem_append_right _ (pointer_of_static hx))).mem_iff.mpr hx

end Result

/-- A method that makes a cell, and a main method that makes one, too; both cells get into a static
field. -/
def cellSource : ProgramSource where
  classes := [
    { name := "Cell"
      fields := ["static Cell last"]
      methods := [
        { sig := "Cell self()", body := ["return this"] },
        { sig := "static Cell make()"
          locals := ["Cell c"]
          body := ["c = new Cell", "return c"] }] },
    { name := "Main"
      methods := [{
        sig := "static void main()"
        locals := ["Cell a", "Cell b", "String s"]
        body := ["a = new Cell", "b = a.self()", "Cell.last = b", "b = Cell.make()",
          "Cell.last = b", "s = \"spare\""] }] }]
  entries := ["Main.main()"]

/-- Before anything else, a method is made reachable that will be called later, and an object is
asked for that nothing will hold. -/
def cellScript : Script :=
  [("start", [.reach ⟨[], ⟨"Cell", "make()"⟩⟩,
    .look (.elems ⟨[], .mock "Spare" none (.array (.cls "Cell")) none⟩)])]

/-- Two runs over that program: one without contexts, and one with contexts of one object in which
the script is carried out. The methods are reached in another order, and the objects have other
numbers. -/
theorem dumps_canonical_cellSource : ∃ p r r', Program.load cellSource = .ok p ∧
    (let g := Options.setup {} p .insensitive []
    ((g.initial []).run g 200).result g = .ok r) ∧
    (let g := { Options.setup {} p (.obj 1) [] with
      observers := .recorder "" true :: ({} : Options).observers }
    ((g.initial cellScript).run g 300).result g = .ok r') ∧
    r.reachable ≠ r'.reachable ∧ r.label 0 ≠ r'.label 0 ∧ r.dump = r'.dump := by
  obtain ⟨p, hp, r, hr, r', hr', hne, hlabel, hreachable, hcalls, hheld⟩ :
      ∃ p, Program.load cellSource = .ok p ∧
        let g := Options.setup {} p .insensitive []
        let g' := { Options.setup {} p (.obj 1) [] with
          observers := .recorder "" true :: ({} : Options).observers }
        ∃ r ∈ (((g.initial []).run g 200).result g).toOption,
          ∃ r' ∈ (((g'.initial cellScript).run g' 300).result g').toOption,
            r.reachable ≠ r'.reachable ∧ r.label 0 ≠ r'.label 0 ∧
            r.reachable.Perm r'.reachable ∧ r.callGraph.edges.Perm r'.callGraph.edges ∧
            ∀ q ∈ r.registry.pointers.toList ++ r'.registry.pointers.toList,
              (r.heldBy q).Perm (r'.heldBy q) :=
    exists_of_any_toOption (by decide +kernel)
  have hwf : p.WellFormed := Program.Accepted.wellFormed ⟨_, hp⟩
  have hrun := eq_ok_of_mem_toOption hr
  have hrun' := eq_ok_of_mem_toOption hr'
  have hyields := Setup.yields_run hwf (fun _ _ _ _ ho => (OrderedSet.mem_empty ho).elim) hrun
  have hyields' := Setup.yields_run hwf (fun _ _ _ _ ho => (OrderedSet.mem_empty ho).elim) hrun'
  have hsame := Result.saysSame_of_pointers hreachable hcalls hheld
  obtain ⟨-, hdump⟩ := dumps_canonical hyields
  exact ⟨p, r, r', hp, hrun, hrun', hne, hlabel, hdump _ r' (by rfl) hyields' hsame⟩

end HeapFlow
