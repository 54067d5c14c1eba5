import HeapFlow.Proofs.Canonical
import HeapFlow.Proofs.Drawing

/-!
# What a call graph records

A call graph lists the same things more than once: the edges as a whole, by call site and by method;
the call sites with their containers and by these. That the lists agree, and that none has anything
twice, is the invariant `CallGraph.Indexed`. What there is to be listed is told by the history of a
call graph alone.
-/

namespace HeapFlow

open List

theorem eraseDups_sublist {α : Type} [DecidableEq α] (l : List α) : l.eraseDups.Sublist l := by
  induction l using List.reverseRecOn with
  | nil => exact List.Sublist.refl _
  | append_singleton l a ih =>
    rw [eraseDups_concat]
    split
    · exact ih.trans (sublist_append_left l [a])
    · exact ih.append (List.Sublist.refl [a])

namespace CallGraph

variable {σ μ : Type} [DecidableEq σ] [DecidableEq μ] {c : CallGraph σ μ}

/-- **The lists of a call graph agree**, and none has anything twice. -/
structure Indexed (c : CallGraph σ μ) : Prop where
  entries : c.entries.Nodup
  reachable : c.reachable.Nodup
  edges : c.edges.Nodup
  /-- No call site has two containers. -/
  containers : (c.containers.map (·.1)).Nodup
  outOf : ∀ i, c.outOf i = c.edges.filter (·.site = i)
  into : ∀ m, c.into m = c.edges.filter (·.callee = m)
  sitesIn : ∀ m, c.sitesIn m = (c.containers.filter (·.2 = m)).map (·.1)

theorem indexed_empty : ({} : CallGraph σ μ).Indexed :=
  ⟨.nil, .nil, .nil, .nil, fun _ => rfl, fun _ => rfl, fun _ => rfl⟩

namespace Indexed

variable (h : c.Indexed)

include h

theorem addEntry (m : μ) : (c.addEntry m).Indexed := by
  have hentries := nodup_added (a := m) h.entries
  rw [← entries_addEntry] at hentries
  unfold CallGraph.addEntry at hentries ⊢
  split at hentries
  · rwa [if_pos ‹_›]
  · rw [if_neg ‹_›]
    exact { h with entries := hentries }

theorem addReachable (m : μ) : (c.addReachable m).2.Indexed := by
  have hreachable := nodup_added (a := m) h.reachable
  rw [← reachable_addReachable] at hreachable
  unfold CallGraph.addReachable at hreachable ⊢
  split at hreachable
  · rwa [if_pos ‹_›]
  · rw [if_neg ‹_›]
    exact { h with reachable := hreachable }

/-- An edge is listed once, by its site and by its callee. -/
theorem addEdge (e : CallEdge σ μ) : (c.addEdge e).2.Indexed := by
  have hedges := nodup_added (a := e) h.edges
  rw [← edges_addEdge] at hedges
  unfold CallGraph.addEdge at hedges ⊢
  split at hedges
  · rwa [if_pos ‹_›]
  · rw [if_neg ‹_›]
    refine { h with edges := hedges, outOf := fun i => ?_, into := fun m => ?_ }
    · rw [CallGraph.outOf, membersIn_enlist, ← CallGraph.outOf, h.outOf, filter_append]
      simp [filter_cons]
    · rw [CallGraph.into, membersIn_enlist, ← CallGraph.into, h.into, filter_append]
      simp [filter_cons]

theorem setContainer (i : σ) (m : μ) : (c.setContainer i m).2.Indexed := by
  unfold CallGraph.setContainer
  split
  · exact h
  · rename_i hnone
    rw [Option.not_isSome_iff_eq_none, container?, lookup_eq_none_iff] at hnone
    refine { h with containers := ?_, sitesIn := fun n => ?_ }
    · rw [map_append, map_singleton]
      refine nodup_append'.mpr ⟨h.containers, nodup_singleton _, ?_⟩
      rw [disjoint_singleton]
      intro hi
      obtain ⟨x, hx, rfl⟩ := mem_map.mp hi
      simpa using hnone x hx
    · rw [CallGraph.sitesIn, membersIn_enlist, ← CallGraph.sitesIn, h.sitesIn, filter_append,
        map_append]
      by_cases hn : m = n <;> simp [hn]

theorem mem_containers {i : σ} {m : μ} : (i, m) ∈ c.containers ↔ c.container? i = some m := by
  rw [container?, lookup_eq_some_iff]
  constructor
  · intro hmem
    obtain ⟨l, l', hl⟩ := append_of_mem hmem
    refine ⟨l, l', hl, fun x hx => ?_⟩
    have hnodup := h.containers
    rw [hl, map_append, nodup_append'] at hnodup
    rw [bne_iff_ne]
    rintro rfl
    exact hnodup.2.2 (mem_map_of_mem hx) (.head _)
  · rintro ⟨l, l', hl, -⟩
    rw [hl]
    simp

/-- The call sites in a method are those that it contains. -/
theorem mem_sitesIn {i : σ} {m : μ} : i ∈ c.sitesIn m ↔ c.container? i = some m := by
  rw [← h.mem_containers, h.sitesIn, mem_map]
  constructor
  · rintro ⟨⟨j, n⟩, hx, rfl⟩
    obtain ⟨hx, hn⟩ := mem_filter.mp hx
    exact of_decide_eq_true hn ▸ hx
  · exact fun hx => ⟨_, mem_filter.mpr ⟨hx, decide_eq_true rfl⟩, rfl⟩

theorem nodup_sitesIn (m : μ) : (c.sitesIn m).Nodup := by
  rw [h.sitesIn]
  exact h.containers.sublist (List.Sublist.map _ filter_sublist)

end Indexed

/-! ### Histories -/

end CallGraph

/-- A use of a call graph. -/
inductive GraphUse (σ μ : Type) where
  | entry (m : μ)
  | reach (m : μ)
  | edge (e : CallEdge σ μ)
  | contain (i : σ) (m : μ)

namespace GraphUse

variable {σ μ : Type}

def entry? : GraphUse σ μ → Option μ
  | entry m => some m
  | _ => none

def reach? : GraphUse σ μ → Option μ
  | reach m => some m
  | _ => none

def edge? : GraphUse σ μ → Option (CallEdge σ μ)
  | edge e => some e
  | _ => none

/-- The container that is given to a call site. -/
def container? [DecidableEq σ] (i : σ) : GraphUse σ μ → Option μ
  | contain j m => if i = j then some m else none
  | _ => none

end GraphUse

/-- What members of a history, given youngest first, stand for: oldest first, each once. -/
def firsts {α κ : Type} [DecidableEq κ] (f : α → Option κ) (h : List α) : List κ :=
  (h.reverse.filterMap f).eraseDups

theorem firsts_cons {α κ : Type} [DecidableEq κ] (f : α → Option κ) (u : α) (h : List α) :
    firsts f (u :: h) = (f u).elim (firsts f h) fun k =>
      if k ∈ firsts f h then firsts f h else firsts f h ++ [k] := by
  rw [firsts, reverse_cons, filterMap_append]
  cases hu : f u with
  | none => simp [hu, firsts]
  | some k =>
    rw [filterMap_cons_some hu, filterMap_nil, eraseDups_concat]
    simp only [Option.elim_some, firsts, mem_eraseDups]

namespace CallGraph

variable {σ μ : Type} [DecidableEq σ] [DecidableEq μ]

/-- The call graph after a use, and what the use reports: adding an entry method reports nothing. -/
def use (c : CallGraph σ μ) : GraphUse σ μ → Option Bool × CallGraph σ μ
  | .entry m => (none, c.addEntry m)
  | .reach m => (some (c.addReachable m).1, (c.addReachable m).2)
  | .edge e => (some (c.addEdge e).1, (c.addEdge e).2)
  | .contain i m => (some (c.setContainer i m).1, (c.setContainer i m).2)

/-- The call graph after a history of uses, youngest first. -/
def after : List (GraphUse σ μ) → CallGraph σ μ
  | [] => {}
  | u :: h => ((after h).use u).2

variable (h : List (GraphUse σ μ))

/-- The lists agree after every history. -/
theorem indexed_after : (after h).Indexed := by
  induction h with
  | nil => exact indexed_empty
  | cons u h ih =>
    cases u with
    | entry m => exact ih.addEntry m
    | reach m => exact ih.addReachable m
    | edge e => exact ih.addEdge e
    | contain i m => exact ih.setContainer i m

/-- **A list has what was added to it**, if a use adds what it stands for, unless it is there. -/
theorem list_after {κ : Type} [DecidableEq κ] {list : CallGraph σ μ → List κ}
    {f : GraphUse σ μ → Option κ} (hnil : list {} = [])
    (hstep : ∀ c u, list (c.use u).2 = (f u).elim (list c) fun k =>
      if k ∈ list c then list c else list c ++ [k]) (h : List (GraphUse σ μ)) :
    list (after h) = firsts f h := by
  induction h with
  | nil => exact hnil
  | cons u h ih => rw [after, hstep, ih, firsts_cons]

theorem entries_after : (after h).entries = firsts GraphUse.entry? h := by
  refine list_after rfl (fun c u => ?_) h
  cases u with
  | entry m => exact c.entries_addEntry m
  | reach m => exact c.entries_addReachable m
  | edge e => exact c.entries_addEdge e
  | contain i m => exact c.entries_setContainer i m

theorem reachable_after : (after h).reachable = firsts GraphUse.reach? h := by
  refine list_after rfl (fun c u => ?_) h
  cases u with
  | entry m => exact c.reachable_addEntry m
  | reach m => exact c.reachable_addReachable m
  | edge e => exact c.reachable_addEdge e
  | contain i m => exact c.reachable_setContainer i m

theorem edges_after : (after h).edges = firsts GraphUse.edge? h := by
  refine list_after rfl (fun c u => ?_) h
  cases u with
  | entry m => exact c.edges_addEntry m
  | reach m => exact c.edges_addReachable m
  | edge e => exact c.edges_addEdge e
  | contain i m => exact c.edges_setContainer i m

theorem container?_after (i : σ) :
    (after h).container? i = h.reverse.findSome? (GraphUse.container? i) := by
  induction h with
  | nil => rfl
  | cons u h ih =>
    rw [reverse_cons, findSome?_append, findSome?_singleton, ← ih, after]
    cases u with
    | entry m => rw [use, container?, containers_addEntry]; exact (Option.or_none).symm
    | reach m => rw [use, container?, containers_addReachable]; exact (Option.or_none).symm
    | edge e => rw [use, container?_addEdge]; exact (Option.or_none).symm
    | contain j m => exact container?_setContainer _ j i m

/-- **A use reports whether it changed the call graph.** -/
theorem changed_of_use (c : CallGraph σ μ) {u : GraphUse σ μ} {b : Bool}
    (h : (c.use u).1 = some b) : b = true ↔ (c.use u).2 ≠ c := by
  cases u with
  | entry m => cases h
  | reach m =>
    cases h
    by_cases hm : m ∈ c.reachable
    · simp [use, addReachable_of_mem c hm]
    · obtain ⟨c', hc', -, hmem⟩ := addReachable_of_not_mem c hm
      simp only [use, hc', true_iff]
      rintro rfl
      exact hm ((hmem m).mpr (.inr rfl))
  | edge e =>
    cases h
    by_cases he : e ∈ c.edges
    · simp [use, addEdge_of_mem c he]
    · obtain ⟨c', hc', -, hmem⟩ := addEdge_of_not_mem c he
      simp only [use, hc', true_iff]
      rintro rfl
      exact he ((hmem e).mpr (.inr rfl))
  | contain i m =>
    cases h
    have hset := container?_setContainer c i i m
    cases hi : c.container? i with
    | some n => simp [use, CallGraph.setContainer, hi]
    | none =>
      have hreport : (c.setContainer i m).1 = true := by simp [CallGraph.setContainer, hi]
      rw [hi, if_pos rfl] at hset
      simp only [use, hreport, true_iff]
      intro heq
      rw [heq, hi] at hset
      cases hset

/-- **A call graph records its history.** -/
structure Records (h : List (GraphUse σ μ)) (c : CallGraph σ μ) : Prop where
  entries : c.entries.Nodup ∧ c.entries = firsts GraphUse.entry? h
  reachable : c.reachable.Nodup ∧ c.reachable = firsts GraphUse.reach? h
  edges : c.edges.Nodup ∧ c.edges = firsts GraphUse.edge? h
  reaches : ∀ m, c.reaches m = true ↔ m ∈ c.reachable
  hasEdge : ∀ e, c.hasEdge e = true ↔ e ∈ c.edges
  outOf : ∀ i, c.outOf i = c.edges.filter (·.site = i)
  into : ∀ m, c.into m = c.edges.filter (·.callee = m)
  calleesOf : ∀ i, (c.calleesOf i).Nodup ∧
    (c.calleesOf i).Sublist ((c.outOf i).map (·.callee)) ∧
    ∀ m, m ∈ c.calleesOf i ↔ ∃ e ∈ c.outOf i, e.callee = m
  callersOf : ∀ m, (c.callersOf m).Nodup ∧
    (c.callersOf m).Sublist ((c.into m).map (·.site)) ∧
    ∀ i, i ∈ c.callersOf m ↔ ∃ e ∈ c.into m, e.site = i
  /-- The container of a call site is the first one that was given to it. -/
  container? : ∀ i, c.container? i = h.reverse.findSome? (GraphUse.container? i)
  sitesIn : ∀ i m, (c.sitesIn m).count i = if c.container? i = some m then 1 else 0
  reports : ∀ u b, (c.use u).1 = some b → (b = true ↔ (c.use u).2 ≠ c)

end CallGraph

open CallGraph in
/-- **A call graph records what was added to it**, after every history of uses: everything once and
in the order in which it was added first, each call site with its first container; the lists for
single call sites and methods are cut out of the lists of everything; and every use reports whether
it changed anything. -/
theorem graph_recorded {σ μ : Type} [DecidableEq σ] [DecidableEq μ] (h : List (GraphUse σ μ)) :
    Records h (after h) where
  entries := ⟨(indexed_after h).entries, entries_after h⟩
  reachable := ⟨(indexed_after h).reachable, reachable_after h⟩
  edges := ⟨(indexed_after h).edges, edges_after h⟩
  reaches _ := reaches_iff
  hasEdge _ := hasEdge_iff
  outOf := (indexed_after h).outOf
  into := (indexed_after h).into
  calleesOf i := by
    refine ⟨nodup_eraseDups _, eraseDups_sublist _, fun m => ?_⟩
    rw [calleesOf, mem_eraseDups, mem_map]
  callersOf m := by
    refine ⟨nodup_eraseDups _, eraseDups_sublist _, fun i => ?_⟩
    rw [callersOf, mem_eraseDups, mem_map]
  container? := container?_after h
  sitesIn i m := by
    rw [((indexed_after h).nodup_sitesIn m).count]
    simp only [(indexed_after h).mem_sitesIn]
  reports u b := changed_of_use _

end HeapFlow
