import Mathlib.Data.List.Nodup
import HeapFlow.Solver.State

/-!
# The parts of a state

What the parts of a state do, still in numbers: the queue, the work list, the flow graph, the
objects of the pointers. Each part has a view, and each operation has one lemma that says what it
does to the view.
-/

namespace HeapFlow

open List

namespace Fifo

variable {α : Type}

theorem pop?_eq_none {q : Fifo α} (h : q.pop? = none) : q.toList = [] := by
  unfold pop? at h
  split at h
  · cases h
  · rename_i hlt
    rw [toList, drop_eq_nil_iff, Array.length_toList]
    omega

theorem pop?_eq_some {q q' : Fifo α} {a : α} (h : q.pop? = some (a, q')) :
    q.toList = a :: q'.toList := by
  unfold pop? at h
  split at h
  · rename_i hlt
    cases h
    rw [toList_reclaim, toList, toList]
    exact drop_eq_getElem_cons (by simpa using hlt)
  · cases h

end Fifo

/-! ### The work list -/

namespace WorkList

/-- The queue and the waiting objects belong to the same pointers, and to each of them once. -/
structure Wf (w : WorkList) : Prop where
  order : w.pointers.toList = w.pending.map Prod.fst
  nodup : (w.pending.map Prod.fst).Nodup

def Waits (w : WorkList) (p : PtrId) (o : CObjId) : Prop :=
  ∃ t, (p, t) ∈ w.pending ∧ o ∈ t

variable {w : WorkList} {p q : PtrId} {t : Objects} {o : CObjId}

theorem wf_empty : Wf {} :=
  ⟨rfl, nodup_nil⟩

theorem Wf.entry_unique (hw : w.Wf) {t u : Objects} (ht : (p, t) ∈ w.pending)
    (hu : (p, u) ∈ w.pending) : t = u :=
  (Prod.mk.inj (inj_on_of_nodup_map hw.nodup ht hu rfl)).2

theorem Wf.waiting?_eq_some_iff (hw : w.Wf) : w.waiting? p = some t ↔ (p, t) ∈ w.pending := by
  constructor
  · intro h
    obtain ⟨l₁, l₂, hl, -⟩ := lookup_eq_some_iff.mp h
    rw [hl]
    exact mem_append_right _ (.head _)
  · intro h
    cases hp : w.waiting? p with
    | none =>
      have hne := lookup_eq_none_iff.mp hp (p, t) h
      simp at hne
    | some u =>
      obtain ⟨l₁, l₂, hl, -⟩ := lookup_eq_some_iff.mp hp
      have hu : (p, u) ∈ w.pending := by
        rw [hl]
        exact mem_append_right _ (.head _)
      rw [hw.entry_unique h hu]

theorem addObjects_wf (hw : w.Wf) (p : PtrId) (t : Objects) : (w.addObjects p t).Wf := by
  have hkeys : (w.pending.map fun e => (e.1, if e.1 = p then e.2.union t else e.2)).map Prod.fst =
      w.pending.map Prod.fst := by
    rw [map_map]
    rfl
  unfold addObjects
  split
  · exact ⟨hw.order.trans hkeys.symm, hkeys ▸ hw.nodup⟩
  · rename_i hnone
    have hp : p ∉ w.pending.map Prod.fst := by
      intro hmem
      obtain ⟨e, he, rfl⟩ := mem_map.mp hmem
      have hne := lookup_eq_none_iff.mp hnone e he
      simp at hne
    refine ⟨by simp [hw.order], ?_⟩
    rw [map_append]
    exact nodup_append'.mpr ⟨hw.nodup, nodup_singleton _, disjoint_singleton.mpr hp⟩

/-- Objects are let wait for a pointer. -/
theorem waits_addObjects (hw : w.Wf) :
    (w.addObjects p t).Waits q o ↔ w.Waits q o ∨ q = p ∧ o ∈ t := by
  unfold addObjects
  split
  · rename_i u hu
    have hu := hw.waiting?_eq_some_iff.mp hu
    constructor
    · rintro ⟨x, hx, ho⟩
      obtain ⟨⟨q', y⟩, hy, heq⟩ := mem_map.mp hx
      obtain ⟨rfl, rfl⟩ := Prod.mk.inj heq
      split at ho
      · rename_i hqp
        rcases OrderedSet.mem_union.mp ho with ho | ho
        · exact .inl ⟨y, hy, ho⟩
        · exact .inr ⟨hqp, ho⟩
      · exact .inl ⟨y, hy, ho⟩
    · rintro (⟨x, hx, ho⟩ | ⟨rfl, ho⟩)
      · refine ⟨_, mem_map.mpr ⟨(q, x), hx, rfl⟩, ?_⟩
        split
        · exact OrderedSet.mem_union.mpr (.inl ho)
        · exact ho
      · refine ⟨_, mem_map.mpr ⟨(q, u), hu, rfl⟩, ?_⟩
        rw [if_pos rfl]
        exact OrderedSet.mem_union.mpr (.inr ho)
  · constructor
    · rintro ⟨x, hx, ho⟩
      rcases mem_append.mp hx with hx | hx
      · exact .inl ⟨x, hx, ho⟩
      · obtain ⟨rfl, rfl⟩ := Prod.mk.inj (mem_singleton.mp hx)
        exact .inr ⟨rfl, ho⟩
    · rintro (⟨x, hx, ho⟩ | ⟨rfl, ho⟩)
      · exact ⟨x, mem_append_left _ hx, ho⟩
      · exact ⟨t, mem_append_right _ (mem_singleton_self _), ho⟩

theorem calls_addObjects (w : WorkList) (p : PtrId) (t : Objects) :
    (w.addObjects p t).calls = w.calls := by
  unfold addObjects
  split <;> rfl

theorem mem_pending_addObjects {x : PtrId × Objects} (h : x ∈ (w.addObjects p t).pending) :
    (∃ u, (x.1, u) ∈ w.pending) ∨ x.1 = p := by
  unfold addObjects at h
  split at h
  · obtain ⟨y, hy, rfl⟩ := mem_map.mp h
    exact .inl ⟨y.2, hy⟩
  · rcases mem_append.mp h with h | h
    · exact .inl ⟨x.2, h⟩
    · rw [mem_singleton.mp h]
      exact .inr rfl

theorem Wf.addCall (hw : w.Wf) (e : CCallEdge) : (w.addCall e).Wf :=
  ⟨hw.order, hw.nodup⟩

/-- **A poll takes one entry away**, and nothing is taken only if nothing waits. -/
theorem Wf.poll_cases (hw : w.Wf) :
    (w.poll = none ∧ w.pending = [] ∧ w.calls.toList = []) ∨
    (∃ p t w', w.poll = some (.objects p t, w') ∧ w'.Wf ∧ (p, t) ∈ w.pending ∧
      w'.pending = w.pending.filter (fun e => e.1 ≠ p) ∧ w'.calls = w.calls) ∨
    (∃ e w', w.poll = some (.call e, w') ∧ w'.Wf ∧ w.pending = [] ∧
      w'.pending = w.pending ∧ w.calls.toList = e :: w'.calls.toList) := by
  unfold poll
  cases hpop : w.pointers.pop? with
  | some x =>
    obtain ⟨p, rest⟩ := x
    right
    left
    have hlist := Fifo.pop?_eq_some hpop
    rw [hw.order] at hlist
    have hnodup := hw.nodup
    rw [hlist, nodup_cons] at hnodup
    -- the first entry is the one of the pointer taken, the others stay
    obtain ⟨e, l, hpend⟩ : ∃ e l, w.pending = e :: l :=
      exists_cons_of_ne_nil fun hnil => by simp [hnil] at hlist
    rw [hpend, map_cons, List.cons.injEq] at hlist
    obtain ⟨rfl, hl⟩ := hlist
    have hmem : (e.1, e.2) ∈ w.pending := hpend ▸ .head _
    have hkeep : w.pending.filter (fun x => decide (x.1 ≠ e.1)) = l := by
      rw [hpend, filter_cons_of_neg (by simp)]
      refine filter_eq_self.mpr fun x hx => ?_
      have hne : x.1 ≠ e.1 := fun hx' => hnodup.1 (hl ▸ hx' ▸ mem_map_of_mem hx)
      simpa using hne
    have hget : (w.waiting? e.1).getD ∅ = e.2 := by
      rw [hw.waiting?_eq_some_iff.mpr hmem, Option.getD_some]
    refine ⟨e.1, e.2, { w with
      pointers := rest, pending := w.pending.filter fun x => x.1 ≠ e.1 }, ?_, ⟨?_, ?_⟩, hmem, rfl,
      rfl⟩
    · dsimp only
      rw [hget]
    · rw [hkeep, hl]
    · rw [hkeep, hl]
      exact hnodup.2
  | none =>
    have hempty : w.pending = [] := by
      have hlist := Fifo.pop?_eq_none hpop
      rw [hw.order] at hlist
      exact map_eq_nil_iff.mp hlist
    cases hcall : w.calls.pop? with
    | none => exact .inl ⟨rfl, hempty, Fifo.pop?_eq_none hcall⟩
    | some x =>
      obtain ⟨e, rest⟩ := x
      exact .inr (.inr ⟨e, _, rfl, ⟨hw.order, hw.nodup⟩, hempty, rfl, Fifo.pop?_eq_some hcall⟩)

/-- Objects are polled in the order of their pointers. -/
theorem Wf.of_poll_objects (hw : w.Wf) {w' : WorkList} (h : w.poll = some (.objects p t, w')) :
    w'.Wf ∧ (p, t) ∈ w.pending ∧ w'.pending = w.pending.filter (fun e => e.1 ≠ p) ∧
      w'.calls = w.calls := by
  rcases hw.poll_cases with ⟨hnone, -⟩ | ⟨p', t', w'', hsome, h'⟩ | ⟨e, w'', hcall, -⟩
  · rw [h] at hnone
    cases hnone
  · rw [h] at hsome
    cases hsome
    exact h'
  · rw [h] at hcall
    cases hcall

/-- Call edges are polled when no objects wait. -/
theorem Wf.of_poll_call (hw : w.Wf) {e : CCallEdge} {w' : WorkList}
    (h : w.poll = some (.call e, w')) :
    w'.Wf ∧ w.pending = [] ∧ w'.pending = w.pending ∧ w.calls.toList = e :: w'.calls.toList := by
  rcases hw.poll_cases with ⟨hnone, -⟩ | ⟨p', t', w'', hsome, -⟩ | ⟨e', w'', hcall, h'⟩
  · rw [h] at hnone
    cases hnone
  · rw [h] at hsome
    cases hsome
  · rw [h] at hcall
    cases hcall
    exact h'

end WorkList

/-! ### The flow graph -/

namespace FlowGraph

/-- Two pointers are joined by an edge of a kind that has a transfer. -/
def Joins (g : FlowGraph) (src dst : PtrId) (kind : FlowKind) (t : Transfer) : Prop :=
  ∃ e ∈ g.edges, e.src = src ∧ e.dst = dst ∧ e.kind = kind ∧ t ∈ e.transfers

variable {g : FlowGraph} {a b src dst : PtrId} {k kind : FlowKind} {t u : Transfer}

theorem joins_iff {e : FlowEdge} :
    e.joins src dst kind = true ↔ e.src = src ∧ e.dst = dst ∧ e.kind = kind := by
  simp [FlowEdge.joins, and_assoc]

theorem joins_addEdge : (g.addEdge src dst kind).2.Joins a b k u ↔ g.Joins a b k u := by
  unfold addEdge
  split
  · rfl
  · constructor
    · rintro ⟨e, he, rfl, rfl, rfl, hu⟩
      rcases mem_append.mp he with he | he
      · exact ⟨e, he, rfl, rfl, rfl, hu⟩
      · rw [mem_singleton.mp he] at hu
        simp at hu
    · rintro ⟨e, he, h⟩
      exact ⟨e, mem_append_left _ he, h⟩

theorem find?_addEdge : ((g.addEdge src dst kind).2.find? src dst kind).isSome = true := by
  unfold addEdge
  split
  · assumption
  · rw [find?, find?_isSome]
    exact ⟨_, mem_append_right _ (mem_singleton_self _), by simp [FlowEdge.joins]⟩

/-- Attaching a transfer to an edge that is there: nothing happens if the edge has it, and otherwise
it gets it. -/
theorem addTransfer_cases (h : (g.find? src dst kind).isSome = true) :
    ((g.addTransfer src dst kind t).1 = false ∧ (g.addTransfer src dst kind t).2 = g ∧
      g.Joins src dst kind t) ∨
    ((g.addTransfer src dst kind t).1 = true ∧ ∀ a b k u,
      (g.addTransfer src dst kind t).2.Joins a b k u ↔
        g.Joins a b k u ∨ a = src ∧ b = dst ∧ k = kind ∧ u = t) := by
  obtain ⟨e, he⟩ := Option.isSome_iff_exists.mp h
  have hmem : e ∈ g.edges := mem_of_find?_eq_some he
  have hj : e.joins src dst kind = true := by
    have hfound := find?_some he
    exact hfound
  unfold addTransfer
  rw [he]
  dsimp only
  split
  · rename_i hc
    obtain ⟨h₁, h₂, h₃⟩ := joins_iff.mp hj
    exact .inl ⟨rfl, rfl, e, hmem, h₁, h₂, h₃, by simpa using hc⟩
  · refine .inr ⟨rfl, fun a b k u => ⟨?_, ?_⟩⟩
    · rintro ⟨x, hx, rfl, rfl, rfl, hu⟩
      obtain ⟨y, hy, rfl⟩ := mem_map.mp hx
      split at hu
      · rename_i hyj
        rw [if_pos hyj]
        rcases mem_append.mp hu with hu | hu
        · exact .inl ⟨y, hy, rfl, rfl, rfl, hu⟩
        · obtain ⟨h₁, h₂, h₃⟩ := joins_iff.mp hyj
          exact .inr ⟨h₁, h₂, h₃, mem_singleton.mp hu⟩
      · rename_i hyj
        rw [if_neg hyj]
        exact .inl ⟨y, hy, rfl, rfl, rfl, hu⟩
    · rintro (⟨x, hx, rfl, rfl, rfl, hu⟩ | ⟨rfl, rfl, rfl, rfl⟩)
      · refine ⟨_, mem_map.mpr ⟨x, hx, rfl⟩, ?_⟩
        split
        · exact ⟨rfl, rfl, rfl, mem_append_left _ hu⟩
        · exact ⟨rfl, rfl, rfl, hu⟩
      · refine ⟨_, mem_map.mpr ⟨e, hmem, rfl⟩, ?_⟩
        obtain ⟨h₁, h₂, h₃⟩ := joins_iff.mp hj
        rw [if_pos hj]
        exact ⟨h₁, h₂, h₃, mem_append_right _ (mem_singleton_self _)⟩

/-- **Attaching a transfer** joins its two pointers, and the answer says whether they were not
joined by it before. -/
theorem attach_cases (g : FlowGraph) (src dst : PtrId) (kind : FlowKind) (t : Transfer) :
    (∀ a b k u, (g.attach src dst kind t).2.Joins a b k u ↔
      g.Joins a b k u ∨ a = src ∧ b = dst ∧ k = kind ∧ u = t) ∧
    ((g.attach src dst kind t).1 = false → g.Joins src dst kind t) := by
  have hedge : ((g.addEdge src dst kind).2.find? src dst kind).isSome = true := find?_addEdge
  unfold attach
  rcases addTransfer_cases (t := t) hedge with ⟨hfalse, hsame, hj⟩ | ⟨htrue, hiff⟩
  · refine ⟨fun a b k u => ?_, fun _ => joins_addEdge.mp hj⟩
    rw [hsame, joins_addEdge]
    constructor
    · exact .inl
    · rintro (h | ⟨rfl, rfl, rfl, rfl⟩)
      · exact h
      · exact joins_addEdge.mp hj
  · refine ⟨fun a b k u => ?_, fun hf => ?_⟩
    · rw [hiff, joins_addEdge]
    · rw [htrue] at hf
      cases hf

/-- What is passed on when objects arrive. -/
theorem mem_passages {p : PtrId} {s : Objects} {x : Passage} :
    x ∈ g.passages p s ↔ x.src = p ∧ x.objects = s ∧ g.Joins p x.dst x.kind x.transfer := by
  simp only [passages, outOf, mem_flatMap, mem_filter, decide_eq_true_eq, mem_map]
  constructor
  · rintro ⟨e, ⟨he, rfl⟩, t, ht, rfl⟩
    exact ⟨rfl, rfl, e, he, rfl, rfl, rfl, ht⟩
  · obtain ⟨src, dst, kind, t, objs⟩ := x
    rintro ⟨rfl, rfl, e, he, rfl, rfl, rfl, ht⟩
    exact ⟨e, ⟨he, rfl⟩, t, ht, rfl⟩

end FlowGraph

/-! ### The call graph -/

section Added

variable {α : Type} [DecidableEq α] {l : List α} {a x : α}

theorem mem_added : x ∈ (if a ∈ l then l else l ++ [a]) ↔ x ∈ l ∨ x = a := by
  split
  · rename_i ha
    refine ⟨.inl, ?_⟩
    rintro (hx | rfl)
    · exact hx
    · exact ha
  · simp

theorem nodup_added (h : l.Nodup) : (if a ∈ l then l else l ++ [a]).Nodup := by
  split
  · exact h
  · rename_i ha
    exact nodup_append'.mpr ⟨h, nodup_singleton a, disjoint_singleton.mpr ha⟩

end Added

namespace CallGraph

variable {σ μ : Type} [DecidableEq μ] (c : CallGraph σ μ) (m : μ)

theorem entries_addEntry :
    (c.addEntry m).entries = if m ∈ c.entries then c.entries else c.entries ++ [m] := by
  by_cases hm : m ∈ c.entries <;> simp [addEntry, hm]

theorem reachable_addEntry : (c.addEntry m).reachable = c.reachable := by
  unfold addEntry
  split <;> rfl

theorem edges_addEntry : (c.addEntry m).edges = c.edges := by
  unfold addEntry
  split <;> rfl

theorem containers_addEntry : (c.addEntry m).containers = c.containers := by
  unfold addEntry
  split <;> rfl

theorem entries_addReachable : (c.addReachable m).2.entries = c.entries := by
  unfold addReachable
  split <;> rfl

theorem reachable_addReachable : (c.addReachable m).2.reachable =
    if m ∈ c.reachable then c.reachable else c.reachable ++ [m] := by
  by_cases hm : m ∈ c.reachable <;> simp [addReachable, hm]

/-- A method is made reachable. -/
theorem mem_reachable_addReachable {m x : μ} :
    x ∈ (c.addReachable m).2.reachable ↔ x ∈ c.reachable ∨ x = m := by
  rw [reachable_addReachable, mem_added]

theorem edges_addReachable : (c.addReachable m).2.edges = c.edges := by
  unfold addReachable
  split <;> rfl

theorem containers_addReachable : (c.addReachable m).2.containers = c.containers := by
  unfold addReachable
  split <;> rfl

theorem addReachable_of_mem {m : μ} (h : m ∈ c.reachable) : c.addReachable m = (false, c) := by
  simp [addReachable, h]

theorem addReachable_of_not_mem {m : μ} (h : m ∉ c.reachable) :
    ∃ c', c.addReachable m = (true, c') ∧ c'.edges = c.edges ∧
      ∀ x, x ∈ c'.reachable ↔ x ∈ c.reachable ∨ x = m :=
  ⟨_, if_neg (by simpa using h), rfl, by simp⟩

variable [DecidableEq σ] (e : CallEdge σ μ)

theorem entries_addEdge : (c.addEdge e).2.entries = c.entries := by
  unfold addEdge
  split <;> rfl

theorem reachable_addEdge : (c.addEdge e).2.reachable = c.reachable := by
  unfold addEdge
  split <;> rfl

theorem edges_addEdge :
    (c.addEdge e).2.edges = if e ∈ c.edges then c.edges else c.edges ++ [e] := by
  by_cases he : e ∈ c.edges <;> simp [addEdge, he]

/-- An edge is added. -/
theorem mem_edges_addEdge {e x : CallEdge σ μ} :
    x ∈ (c.addEdge e).2.edges ↔ x ∈ c.edges ∨ x = e := by
  rw [edges_addEdge, mem_added]

theorem containers_addEdge : (c.addEdge e).2.containers = c.containers := by
  unfold addEdge
  split <;> rfl

theorem addEdge_of_mem {e : CallEdge σ μ} (h : e ∈ c.edges) : c.addEdge e = (false, c) := by
  simp [addEdge, h]

theorem addEdge_of_not_mem {e : CallEdge σ μ} (h : e ∉ c.edges) :
    ∃ c', c.addEdge e = (true, c') ∧ c'.reachable = c.reachable ∧
      ∀ x, x ∈ c'.edges ↔ x ∈ c.edges ∨ x = e :=
  ⟨_, if_neg (by simpa using h), rfl, by simp⟩

theorem entries_setContainer (i : σ) (m : μ) : (c.setContainer i m).2.entries = c.entries := by
  unfold setContainer
  split <;> rfl

theorem reachable_setContainer (i : σ) (m : μ) :
    (c.setContainer i m).2.reachable = c.reachable := by
  unfold setContainer
  split <;> rfl

theorem edges_setContainer (i : σ) (m : μ) : (c.setContainer i m).2.edges = c.edges := by
  unfold setContainer
  split <;> rfl

end CallGraph

theorem OrderedSet.not_mem_of_isEmpty {t : Objects} (h : t.isEmpty = true) (o : CObjId) :
    ¬ o ∈ t := by
  intro ho
  rw [mem_def, List.isEmpty_iff.mp h] at ho
  cases ho

theorem OrderedSet.isEmpty_of_mem {t : Objects} {o : CObjId} (h : o ∈ t) : t.isEmpty = false :=
  Bool.eq_false_iff.mpr fun hempty => not_mem_of_isEmpty hempty o h

namespace State

theorem pointsTo_setObjects_self (s : State) (p : PtrId) (t : Objects) :
    (s.setObjects p t).pointsTo p = t := by
  simp only [setObjects, pointsTo, Array.getElem?_setIfInBounds]
  split
  · split
    · rfl
    · rename_i h
      exact absurd (by simp; omega) h
  · contradiction

theorem pointsTo_setObjects_of_ne (s : State) {p q : PtrId} (t : Objects) (h : q ≠ p) :
    (s.setObjects p t).pointsTo q = s.pointsTo q := by
  simp only [setObjects, pointsTo, Array.getElem?_setIfInBounds, if_neg h.symm,
    Array.getElem?_append, Array.getElem?_replicate]
  split
  · rfl
  · rename_i hlt
    have hnone : s.sets[q]? = none := Array.getElem?_eq_none (by omega)
    rw [hnone]
    split <;> rfl

/-- The objects of one pointer are set. -/
theorem mem_pointsTo_setObjects {s : State} {p q : PtrId} {t : Objects} {o : CObjId} :
    o ∈ (s.setObjects p t).pointsTo q ↔ if q = p then o ∈ t else o ∈ s.pointsTo q := by
  split
  · rename_i h
    rw [h, pointsTo_setObjects_self]
  · rename_i h
    rw [pointsTo_setObjects_of_ne s t h]

end State

end HeapFlow
