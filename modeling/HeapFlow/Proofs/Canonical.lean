import Mathlib.Data.List.Sort
import Mathlib.Logic.Equiv.Defs
import HeapFlow.Proofs.Alike
import HeapFlow.Proofs.Findings
import HeapFlow.Result.Dump

/-!
# Dumps are canonical

A dump shows what a result says and not how it was found: two results that say the same have the
same dump (`Result.dump_congr`), even if their objects only correspond to each other. Sorting
forgets the order of a list, and leaving out repetitions how often something occurs; where
repetitions stay, each member is there once (`Result.Orderly`).
-/

namespace HeapFlow

open List

namespace Text

theorem textLE_iff {a b : String} : textLE a b = true ↔ a ≤ b := by
  rw [textLE, Bool.not_eq_true', decide_eq_false_iff_not, String.not_lt]

instance : IsTrans String (textLE · ·) where
  trans a b c hab hbc := by
    rw [textLE_iff] at hab hbc ⊢
    exact String.le_trans hab hbc

instance : Std.Total (α := String) (textLE · ·) where
  total a b := by
    rw [textLE_iff, textLE_iff]
    exact String.le_total a b

instance : Std.Antisymm (α := String) (textLE · ·) where
  antisymm _ _ hab hba := String.le_antisymm (textLE_iff.mp hab) (textLE_iff.mp hba)

/-- How texts are sorted makes no difference. -/
theorem sortTexts_eq_insertionSort (l : List String) :
    sortTexts l = l.insertionSort (textLE · ·) := by
  have hsort := mergeSort_eq_insertionSort (textLE · ·) l
  simpa only [sortTexts, Bool.decide_eq_true] using hsort

theorem pairwise_sortTexts (l : List String) : (sortTexts l).Pairwise (textLE · ·) := by
  rw [sortTexts_eq_insertionSort]
  exact pairwise_insertionSort _ l

variable {l l' : List String}

theorem mem_sortTexts {x : String} : x ∈ sortTexts l ↔ x ∈ l :=
  (mergeSort_perm l textLE).mem_iff

theorem sortTexts_congr (h : l.Perm l') : sortTexts l = sortTexts l' := by
  have hperm : (sortTexts l).Perm (sortTexts l') :=
    (mergeSort_perm l textLE).trans (h.trans (mergeSort_perm l' textLE).symm)
  exact hperm.eq_of_pairwise' (pairwise_sortTexts l) (pairwise_sortTexts l')

theorem mem_compact {α : Type} [DecidableEq α] {x : α} {l : List α} : x ∈ compact l ↔ x ∈ l := by
  induction l using compact.induct with
  | case1 | case2 => rfl
  | case3 b rest ih =>
    rw [compact, if_pos rfl, ih]
    simp
  | case4 a b rest hab ih => rw [compact, if_neg hab, mem_cons, ih, ← mem_cons]

/-- Sorted texts without repetitions. -/
theorem pairwise_compact (h : l.Pairwise (textLE · ·)) :
    (compact l).Pairwise (textLE · ·) ∧ (compact l).Nodup := by
  induction l using compact.induct with
  | case1 => exact ⟨.nil, .nil⟩
  | case2 a => exact ⟨pairwise_singleton _ a, nodup_singleton a⟩
  | case3 b rest ih =>
    rw [compact, if_pos rfl]
    exact ih (pairwise_cons.mp h).2
  | case4 a b rest hab ih =>
    obtain ⟨ha, hrest⟩ := pairwise_cons.mp h
    obtain ⟨hsorted, hnodup⟩ := ih hrest
    rw [compact, if_neg hab]
    refine ⟨pairwise_cons.mpr ⟨fun x hx => ha x (mem_compact.mp hx), hsorted⟩,
      nodup_cons.mpr ⟨fun hmem => ?_, hnodup⟩⟩
    -- if `a` came again, it would stand behind its neighbour, which would be both
    rcases mem_cons.mp (mem_compact.mp hmem) with heq | hmem
    · exact hab heq
    · exact hab (antisymm_of (textLE · ·) (ha b (.head _)) ((pairwise_cons.mp hrest).1 a hmem))

/-- **Without repetitions, sorting forgets also how often something occurs.** -/
theorem compact_sortTexts_congr (h : ∀ x, x ∈ l ↔ x ∈ l') :
    compact (sortTexts l) = compact (sortTexts l') := by
  obtain ⟨hsorted, hnodup⟩ := pairwise_compact (pairwise_sortTexts l)
  obtain ⟨hsorted', hnodup'⟩ := pairwise_compact (pairwise_sortTexts l')
  refine List.Perm.eq_of_pairwise' hsorted hsorted' ?_
  rw [perm_ext_iff_of_nodup hnodup hnodup']
  intro x
  rw [mem_compact, mem_compact, mem_sortTexts, mem_sortTexts, h]

end Text

theorem nodup_eraseDups {α : Type} [DecidableEq α] : (l : List α) → l.eraseDups.Nodup
  | [] => nodup_nil
  | a :: l => by
    rw [eraseDups_cons, nodup_cons]
    refine ⟨fun ha => ?_, nodup_eraseDups _⟩
    simp [mem_eraseDups] at ha
termination_by l => l.length
decreasing_by exact Nat.lt_succ_of_le (length_filter_le _ _)

namespace Result

/-- **What is known of the lists and numbers of a result**, whatever the analysis. -/
structure Orderly (r : Result) : Prop where
  reachable : r.reachable.Nodup
  vars : ∀ {v}, r.pointsTo v ≠ [] → v ∈ r.vars
  named : ∀ {ps i}, i ∈ r.collapse ps → ∃ o, r.registry.heap.get? i = some o

theorem nodup_collapse (r : Result) (ps : List PtrId) : (r.collapse ps).Nodup :=
  (OrderedSet.sorted _).imp Nat.ne_of_lt

/-- **Two results agree**: they say the same of programs with the same classes, but for the objects,
which correspond to each other and are shown alike. -/
structure Agree (e : Obj ≃ Obj) (r r' : Result) : Prop where
  program : r.program.Alike r'.program
  label : ∀ o, (e o).label = o.label
  reachable : ∀ m, m ∈ r.reachable ↔ m ∈ r'.reachable
  calls : ∀ c, c ∈ r.callGraph.edges ↔ c ∈ r'.callGraph.edges
  vars : ∀ v o, r.Lists (r.pointsTo v) o ↔ r'.Lists (r'.pointsTo v) (e o)
  statics : ∀ f o, r.Lists (r.staticPointsTo f) o ↔ r'.Lists (r'.staticPointsTo f) (e o)

/-! ### Lines -/

section Lines

variable {r r' : Result}

/-- **Objects are told by keys** that also say how they are shown. -/
structure Keyed (r : Result) {α : Type} (k : Obj → α) (t : α → String) : Prop where
  inj : ∀ {i j x y}, r.registry.heap.get? i = some x → r.registry.heap.get? j = some y →
    k x = k y → i = j
  label : ∀ {i x}, r.registry.heap.get? i = some x → x.label = t (k x)

/-- A list has an object with a key. -/
def HasKey (r : Result) {α : Type} (k : Obj → α) (objs : List ObjId) (a : α) : Prop :=
  ∃ o, r.Lists objs o ∧ k o = a

section Keys

variable {α : Type} {k l : Obj → α} {t : α → String} {ps : List PtrId}

theorem Orderly.mem_keys (hr : r.Orderly) {a : Option α} :
    a ∈ (r.collapse ps).map (fun i => (r.registry.heap.get? i).map k) ↔
      ∃ x, r.HasKey k (r.collapse ps) x ∧ a = some x := by
  rw [mem_map]
  constructor
  · rintro ⟨i, hi, rfl⟩
    obtain ⟨o, ho⟩ := hr.named hi
    exact ⟨k o, ⟨o, ⟨i, hi, ho⟩, rfl⟩, by rw [ho, Option.map_some]⟩
  · rintro ⟨_, ⟨o, ⟨i, hi, ho⟩, rfl⟩, rfl⟩
    exact ⟨i, hi, by rw [ho, Option.map_some]⟩

/-- Each key is there once. -/
theorem Orderly.nodup_keys (hr : r.Orderly) (hk : r.Keyed k t) (ps : List PtrId) :
    ((r.collapse ps).map fun i => (r.registry.heap.get? i).map k).Nodup := by
  refine List.Nodup.map_on (fun i hi j hj heq => ?_) (r.nodup_collapse ps)
  obtain ⟨x, hx⟩ := hr.named hi
  obtain ⟨y, hy⟩ := hr.named hj
  rw [hx, hy] at heq
  exact hk.inj hx hy (Option.some.inj heq)

/-- Objects are shown by their keys. -/
theorem Orderly.map_label (hr : r.Orderly) (hk : r.Keyed k t) (ps : List PtrId) :
    (r.collapse ps).map r.label = ((r.collapse ps).map fun i => (r.registry.heap.get? i).map k).map
      fun a => a.elim "" t := by
  rw [map_map]
  refine map_congr_left fun i hi => ?_
  obtain ⟨o, ho⟩ := hr.named hi
  rw [label, Function.comp, ho]
  exact hk.label ho

/-- **What is held is shown alike** if it has the same keys. -/
theorem heldLine_congr (hr : r.Orderly) (hr' : r'.Orderly) (hk : r.Keyed k t) (hl : r'.Keyed l t)
    {ps' : List PtrId} (h : ∀ a, r.HasKey k (r.collapse ps) a ↔ r'.HasKey l (r'.collapse ps') a)
    (what : String) : r.heldLine what (r.collapse ps) = r'.heldLine what (r'.collapse ps') := by
  have hperm : ((r.collapse ps).map fun i => (r.registry.heap.get? i).map k).Perm
      ((r'.collapse ps').map fun i => (r'.registry.heap.get? i).map l) := by
    refine (perm_ext_iff_of_nodup (hr.nodup_keys hk ps) (hr'.nodup_keys hl ps')).mpr fun a => ?_
    rw [hr.mem_keys, hr'.mem_keys]
    simp only [h]
  have hlabels : r.labels (r.collapse ps) = r'.labels (r'.collapse ps') := by
    refine Text.sortTexts_congr ?_
    rw [hr.map_label hk, hr'.map_label hl]
    exact hperm.map _
  have hempty : (r.collapse ps).isEmpty = (r'.collapse ps').isEmpty := by
    have hlength := hperm.length_eq
    rw [length_map, length_map] at hlength
    rw [Bool.eq_iff_iff, isEmpty_iff_length_eq_zero, isEmpty_iff_length_eq_zero, hlength]
  rw [heldLine, heldLine, hempty, hlabels]

end Keys

theorem methodLines_congr (h : r.reachable.Perm r'.reachable) : r.methodLines = r'.methodLines :=
  Text.sortTexts_congr (h.map _)

/-- The lines of call edges depend on what edges there are only. -/
theorem edgeLines_congr (h : ∀ c, c ∈ r.callGraph.edges ↔ c ∈ r'.callGraph.edges) :
    r.edgeLines = r'.edgeLines := by
  refine Text.compact_sortTexts_congr fun x => ?_
  simp only [mem_map, h]

/-- Variables without objects have no line. -/
theorem mem_heldLines_vars (hlisted : ∀ {v}, r.pointsTo v ≠ [] → v ∈ r.vars) {x : String} :
    x ∈ r.vars.filterMap (fun v => r.heldLine (r.program.varText v) (r.pointsTo v)) ↔
      ∃ v, r.heldLine (r.program.varText v) (r.pointsTo v) = some x := by
  rw [mem_filterMap]
  constructor
  · rintro ⟨v, -, hx⟩
    exact ⟨v, hx⟩
  · rintro ⟨v, hx⟩
    refine ⟨v, hlisted fun hnil => ?_, hx⟩
    rw [hnil, heldLine] at hx
    cases hx

theorem varLines_congr (hlisted : ∀ {v}, r.pointsTo v ≠ [] → v ∈ r.vars)
    (hlisted' : ∀ {v}, r'.pointsTo v ≠ [] → v ∈ r'.vars)
    (h : ∀ v, r.heldLine (r.program.varText v) (r.pointsTo v) =
      r'.heldLine (r'.program.varText v) (r'.pointsTo v)) : r.varLines = r'.varLines := by
  refine Text.compact_sortTexts_congr fun x => ?_
  rw [mem_heldLines_vars hlisted, mem_heldLines_vars hlisted']
  simp only [h]

theorem staticLines_congr (hprogram : r.program.Alike r'.program)
    (hreachable : ∀ m, m ∈ r.reachable ↔ m ∈ r'.reachable)
    (h : ∀ f : FieldId, r.heldLine f.text (r.staticPointsTo f) =
      r'.heldLine f.text (r'.staticPointsTo f)) : r.staticLines = r'.staticLines := by
  have hfields : r.staticFields.Perm r'.staticFields := by
    refine (perm_ext_iff_of_nodup (nodup_eraseDups _) (nodup_eraseDups _)).mpr fun f => ?_
    simp only [mem_eraseDups, mem_flatMap, hprogram.method?, hreachable]
  rw [staticLines, staticLines, funext h]
  exact Text.sortTexts_congr (hfields.filterMap _)

/-- **Dumps are canonical**: results of which all is the same but the numbers have the same dump. -/
theorem dump_congr {α : Type} {k l : Obj → α} {t : α → String} (hr : r.Orderly) (hr' : r'.Orderly)
    (hk : r.Keyed k t) (hl : r'.Keyed l t) (hprogram : r.program.Alike r'.program)
    (hreachable : ∀ m, m ∈ r.reachable ↔ m ∈ r'.reachable)
    (hcalls : ∀ c, c ∈ r.callGraph.edges ↔ c ∈ r'.callGraph.edges)
    (hvars : ∀ v a, r.HasKey k (r.pointsTo v) a ↔ r'.HasKey l (r'.pointsTo v) a)
    (hstatics : ∀ f a, r.HasKey k (r.staticPointsTo f) a ↔ r'.HasKey l (r'.staticPointsTo f) a) :
    r.dump = r'.dump := by
  have hperm : r.reachable.Perm r'.reachable :=
    (perm_ext_iff_of_nodup hr.reachable hr'.reachable).mpr hreachable
  have hvars' : ∀ v, r.heldLine (r.program.varText v) (r.pointsTo v) =
      r'.heldLine (r'.program.varText v) (r'.pointsTo v) := by
    intro v
    rw [hprogram.varText]
    exact heldLine_congr hr hr' hk hl (hvars v) _
  have hstatics' : ∀ f : FieldId, r.heldLine f.text (r.staticPointsTo f) =
      r'.heldLine f.text (r'.staticPointsTo f) :=
    fun f => heldLine_congr hr hr' hk hl (hstatics f) _
  rw [dump, dump, methodLines_congr hperm, edgeLines_congr hcalls,
    varLines_congr hr.vars hr'.vars hvars', staticLines_congr hprogram hreachable hstatics']

end Lines

/-- Results that agree have the same dump. -/
theorem Agree.dump_eq {r r' : Result} {e : Obj ≃ Obj} (h : Agree e r r') (hr : r.Orderly)
    (hr' : r'.Orderly) : r.dump = r'.dump := by
  have hkeys : ∀ {ps ps' : List PtrId}, (∀ o, r.Lists ps o ↔ r'.Lists ps' (e o)) →
      ∀ a, r.HasKey e ps a ↔ r'.HasKey id ps' a := by
    intro ps ps' hlists a
    simp only [HasKey, hlists]
    exact (e.surjective.exists (p := fun o => r'.Lists ps' o ∧ id o = a)).symm
  refine dump_congr (k := e) (l := id) (t := Obj.label) hr hr'
    ⟨fun hi hj heq => ?_, fun _ => (h.label _).symm⟩ ⟨fun hi hj heq => ?_, fun _ => rfl⟩ h.program
    h.reachable h.calls (fun v => hkeys (h.vars v)) fun f => hkeys (h.statics f)
  · obtain rfl := e.injective heq
    exact Registry.heap_inj hi hj
  · obtain rfl : _ = _ := heq
    exact Registry.heap_inj hi hj

end Result

/-- **The results of analyses are orderly.** -/
theorem orderly_of_analyze {p : Program} (h : p.Accepted) {o : Options} {policy : Policy}
    {more : List Observer} (hmore : ∀ w ∈ more, w.Watches) {r : Result}
    (hr : analyze p o policy more = .ok r) : r.Orderly := by
  obtain ⟨hs, hlists⟩ := snapshot_of_analyze h hmore hr
  obtain ⟨hvars, -, hreachable⟩ := Snapshot.mk.inj hlists
  refine ⟨hreachable ▸ nodup_eraseDups _, fun {v} hv => ?_, fun {ps i} hi => ?_⟩
  · obtain ⟨i, hi⟩ := exists_mem_of_ne_nil _ hv
    obtain ⟨q, hq, -⟩ := Result.mem_collapse.mp hi
    obtain ⟨c, hc⟩ := Registry.mem_pointersOf.mp hq
    rw [← hvars, mem_eraseDups, mem_filterMap]
    exact ⟨_, Array.mem_toList_iff.mpr (Array.mem_of_getElem? hc), rfl⟩
  · obtain ⟨q, -, x, hx, rfl⟩ := Result.mem_collapse.mp hi
    obtain ⟨-, O, hO⟩ := hs.ptrIs hx
    exact ⟨_, hO.objId⟩

end HeapFlow
