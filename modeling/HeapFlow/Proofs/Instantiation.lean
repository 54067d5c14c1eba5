import Mathlib.Order.Bounds.Defs
import HeapFlow.Proofs.Rapid
import HeapFlow.Proofs.Solving

/-!
# The rules of the analysis by instantiated types

The facts of the analysis by instantiated types (`RapidFact`) obey rules that say nothing about the
order in which they are found (`RapidRule`), and the analysis finds the least set closed under them
(`RapidTypes.least_closed`). One half is completeness, from `RapidTypes.visited_analyze`; the other
an invariant of the run (`RapidTypes.Backed`).

What counts as a use of a class is a parameter of the rules. Visits pass over static calls that name
an abstract method, although such a call is a use (`RapidTypes.abstract_call_not_closed`).
-/

namespace HeapFlow

open List Relation CallGraph

/-- What an analysis by instantiated types finds. -/
inductive RapidFact where
  | reached (m : MethodId)
  | instantiated (t : Ty)
  | called (e : CallEdge CallSite MethodId)

/-- A static `main` is given an array with elements of a type. -/
def Method.GivenArray (d : Method) (t : Ty) : Prop :=
  d.name = "main" ∧ d.isStatic = true ∧ d.params.head?.map d.varType = some (.array t)

/-- **The rules of the analysis by instantiated types**: the facts inferred in one step from a set
of facts, where `use` says which classes a method uses. -/
inductive RapidRule (p : Program) (o : RapidOptions) (use : Method → String → Prop)
    (F : Set RapidFact) : RapidFact → Prop where
  | entry {m : MethodId} (h : m ∈ RapidTypes.entries p o) : RapidRule p o use F (.reached m)
  | array {m : MethodId} {d : Method} {t : Ty} (h : m ∈ RapidTypes.entries p o)
      (hd : p.method? m = some d) (ha : d.GivenArray t) :
      RapidRule p o use F (.instantiated (.array t))
  | elem {m : MethodId} {d : Method} {t : Ty} (h : m ∈ RapidTypes.entries p o)
      (hd : p.method? m = some d) (ha : d.GivenArray t) (ht : t.holdsObjects = true) :
      RapidRule p o use F (.instantiated t)
  | new {m : MethodId} {d : Method} {dst : Slot} {t : Ty} {n : Nat} (hm : .reached m ∈ F)
      (hd : p.method? m = some d) (hs : .new dst t n ∈ d.body) (ht : t.holdsObjects = true) :
      RapidRule p o use F (.instantiated t)
  | const {m : MethodId} {d : Method} {dst : Slot} {l : Literal} (hm : .reached m ∈ F)
      (hd : p.method? m = some d) (hs : .const dst l ∈ d.body) (ht : l.type.holdsObjects = true) :
      RapidRule p o use F (.instantiated l.type)
  | direct {m : MethodId} {d k : Method} {i : Nat} {c : Call} (hm : .reached m ∈ F)
      (hd : p.method? m = some d) (hs : d.body[i]? = some (.invoke c))
      (hkind : c.kind = .static ∨ c.kind = .special) (hk : p.resolve c.target = some k)
      (habstract : k.isAbstract = false) : RapidRule p o use F (.called ⟨c.kind, .body m i, k.id⟩)
  | virtual {m : MethodId} {d k : Method} {i : Nat} {c : Call} {t : Ty} (hm : .reached m ∈ F)
      (hd : p.method? m = some d) (hs : d.body[i]? = some (.invoke c))
      (hkind : c.kind = .virtual ∨ c.kind = .interface) (ht : .instantiated t ∈ F)
      (hsub : p.isSubtype t (.cls c.target.cls) = true)
      (hk : p.dispatch t c.target.subsig = some k) :
      RapidRule p o use F (.called ⟨c.kind, .body m i, k.id⟩)
  | callee {e : CallEdge CallSite MethodId} (he : .called e ∈ F) :
      RapidRule p o use F (.reached e.callee)
  /-- So are the static initializers of the classes that a method uses and of those above. -/
  | clinit {m : MethodId} {d n : Method} {u c : String} {k : Class} (ho : o.classInit = true)
      (hm : .reached m ∈ F) (hd : p.method? m = some d) (hu : use d u)
      (habove : ReflTransGen p.Super u c) (hk : p.class? c = some k) (hn : k.clinit? = some n) :
      RapidRule p o use F (.reached n.id)

/-- The sets of facts that are closed under the rules. -/
def RapidClosed (p : Program) (o : RapidOptions) (use : Method → String → Prop) :
    Set (Set RapidFact) :=
  {F | ∀ f, RapidRule p o use F f → f ∈ F}

/-- With fewer uses more sets are closed. -/
theorem RapidClosed.anti {p : Program} {o : RapidOptions} {use use' : Method → String → Prop}
    (huse : ∀ d u, use d u → use' d u) {F : Set RapidFact} (hF : F ∈ RapidClosed p o use') :
    F ∈ RapidClosed p o use := by
  intro f hf
  refine hF f ?_
  cases hf with
  | entry h => exact .entry h
  | array h hd ha => exact .array h hd ha
  | elem h hd ha ht => exact .elem h hd ha ht
  | new hm hd hs ht => exact .new hm hd hs ht
  | const hm hd hs ht => exact .const hm hd hs ht
  | direct hm hd hs hkind hk habs => exact .direct hm hd hs hkind hk habs
  | virtual hm hd hs hkind ht hsub hk => exact .virtual hm hd hs hkind ht hsub hk
  | callee he => exact .callee he
  | clinit ho hm hd hu habove hk hn => exact .clinit ho hm hd (huse _ _ hu) habove hk hn

namespace RapidTypes

variable {p : Program} {o : RapidOptions} {s : RapidTypes} {F : Set RapidFact}

/-- Whether a fact has been found. -/
def Finds (s : RapidTypes) : RapidFact → Prop
  | .reached m => m ∈ s.graph.reachable
  | .instantiated t => t ∈ s.types
  | .called e => e ∈ s.graph.edges

def found (s : RapidTypes) : Set RapidFact :=
  {f | s.Finds f}

/-- **What the analysis finds is closed under the rules**, if the uses that count for methods that
are reachable are those that a visit sees. -/
theorem found_analyze_closed (h : p.Accepted) {use : Method → String → Prop}
    (huse : ∀ m ∈ (analyze p o).graph.reachable, ∀ d u, p.method? m = some d → use d u →
      p.VisitUse d u) : (analyze p o).found ∈ RapidClosed p o use := by
  obtain ⟨hclosed, hvisited, hentered⟩ := visited_analyze h o
  intro f hf
  cases hf with
  | entry hm => exact (hentered _ hm).reachable
  | array hm hd ha => exact ((hentered _ hm).types hd ha.1 ha.2.1 ha.2.2).1
  | elem hm hd ha ht => exact ((hentered _ hm).types hd ha.1 ha.2.1 ha.2.2).2 ht
  | new hm hd hs ht | const hm hd hs ht =>
    obtain ⟨i, hi⟩ := mem_iff_getElem?.mp hs
    exact (hvisited _ hm).stmt hd hi ht
  | direct hm hd hs hkind hk habs => exact ((hvisited _ hm).stmt hd hs).2 hkind _ hk habs
  | virtual hm hd hs hkind ht hsub hk =>
    exact hclosed.paired _ (((hvisited _ hm).stmt hd hs).1 hkind) _ ht _ hsub hk
  | callee he => exact hclosed.graph.callee _ he
  | @clinit m d n u c k ho hm hd hu habove hk hn =>
    obtain ⟨k', hk', hname⟩ :=
      Program.exists_mem_chain_iff.mpr ⟨Option.isSome_iff_exists.mpr ⟨k, hk⟩, habove⟩
    cases Option.some.inj (hk.symm.trans (hname ▸ Program.class?_of_mem_chainFrom hk'))
    have hinit := (hvisited _ hm).inits ho hd (huse m hm d u hd hu) hk'
    exact hclosed.rooted.clinit hinit (hname.symm ▸ hk) hn

/-- A virtual call belongs to a method that is reachable. -/
def CallIn (p : Program) (F : Set RapidFact) (call : CallSite × CallKind × MethodId) : Prop :=
  ∃ m d i c, .reached m ∈ F ∧ p.method? m = some d ∧ d.body[i]? = some (.invoke c) ∧
    (c.kind = .virtual ∨ c.kind = .interface) ∧ call = (.body m i, c.kind, c.target)

/-- **A set of facts backs what has been found.** -/
structure Backed (p : Program) (F : Set RapidFact) (s : RapidTypes) : Prop where
  reached : ∀ m ∈ s.graph.reachable, .reached m ∈ F
  types : ∀ t ∈ s.types, .instantiated t ∈ F
  edges : ∀ e ∈ s.graph.edges, .called e ∈ F
  calls : ∀ call ∈ s.virtualCalls, CallIn p F call

theorem Backed.found_subset (hs : s.Backed p F) : s.found ⊆ F := by
  intro f hf
  cases f with
  | reached m => exact hs.reached m hf
  | instantiated t => exact hs.types t hf
  | called e => exact hs.edges e hf

theorem Backed.foldl {α : Type} {f : RapidTypes → α → RapidTypes} {l : List α}
    (hf : ∀ a ∈ l, ∀ s : RapidTypes, s.Backed p F → (f s a).Backed p F) {s : RapidTypes}
    (hs : s.Backed p F) : (l.foldl f s).Backed p F :=
  List.foldlRecOn l f hs fun s hs a ha => hf a ha s hs

theorem Backed.reach (hs : s.Backed p F) {m : MethodId} (hm : .reached m ∈ F) :
    (s.reach m).Backed p F where
  reached n hn := by
    rcases (mem_reachable_addReachable _).mp hn with hn | rfl
    · exact hs.reached n hn
    · exact hm
  types := hs.types
  edges e he := by
    rw [RapidTypes.reach, edges_addReachable] at he
    exact hs.edges e he
  calls := hs.calls

section Least

variable (hF : F ∈ RapidClosed p o p.VisitUse)

include hF

theorem Backed.connect (hs : s.Backed p F) {kind : CallKind} {site : CallSite} {m : MethodId}
    (he : .called ⟨kind, site, m⟩ ∈ F) : (s.connect kind site m).Backed p F := by
  have hadd : Backed p F { s with graph := (s.graph.addEdge ⟨kind, site, m⟩).2 } := {
    reached := fun n hn => by
      rw [reachable_addEdge] at hn
      exact hs.reached n hn
    types := hs.types
    edges := fun e he' => by
      rcases (mem_edges_addEdge _).mp he' with he' | rfl
      · exact hs.edges e he'
      · exact he
    calls := hs.calls }
  exact hadd.reach (hF _ (.callee he))

variable {call : CallSite × CallKind × MethodId}

/-- A virtual call meets a type that is instantiated. -/
theorem Backed.pair (hs : s.Backed p F) (hcall : CallIn p F call) {t : Ty}
    (ht : .instantiated t ∈ F) : (s.pair p call t).Backed p F := by
  obtain ⟨m, d, i, c, hm, hd, hi, hkind, rfl⟩ := hcall
  unfold RapidTypes.pair
  dsimp only
  split
  · next hsub =>
    split
    · next k hk => exact hs.connect hF (hF _ (.virtual hm hd hi hkind ht hsub hk))
    · exact hs
  · exact hs

/-- A type meets all virtual calls found so far. -/
theorem Backed.instantiate (hs : s.Backed p F) {t : Ty}
    (ht : t.holdsObjects = true → .instantiated t ∈ F) : (s.instantiate p t).Backed p F := by
  unfold RapidTypes.instantiate
  split
  · exact hs
  · next hnew =>
    simp only [Bool.or_eq_true, Bool.not_eq_true', not_or, Bool.not_eq_false] at hnew
    have ht : .instantiated t ∈ F := ht hnew.1
    have hadd : Backed p F { s with types := s.types ++ [t] } := { hs with
      types := fun u hu => by
        rcases mem_append.mp hu with hu | hu
        · exact hs.types u hu
        · exact mem_singleton.mp hu ▸ ht }
    exact .foldl (fun call hcall s hs' => hs'.pair hF (hs.calls call hcall) ht) hadd

theorem Backed.meet (hs : s.Backed p F) (hcall : CallIn p F call) : (s.meet p call).Backed p F := by
  have hadd : Backed p F { s with virtualCalls := s.virtualCalls ++ [call] } := { hs with
    calls := fun x hx => by
      rcases mem_append.mp hx with hx | hx
      · exact hs.calls x hx
      · exact mem_singleton.mp hx ▸ hcall }
  exact .foldl (fun t ht s hs' => hs'.pair hF hcall (hs.types t ht)) hadd

section Method

variable {m : MethodId} {d : Method} (hm : .reached m ∈ F) (hd : p.method? m = some d)

include hm hd

/-- A class is initialized with those above it. -/
theorem Backed.initClass (hs : s.Backed p F) {u : String} (hu : p.VisitUse d u) :
    (s.initClass p o u).Backed p F := by
  unfold RapidTypes.initClass
  split
  · exact hs
  · next ho =>
    refine .foldl (fun n hn s hs => hs.reach ?_) ⟨hs.reached, hs.types, hs.edges, hs.calls⟩
    obtain ⟨k, hk, hkn⟩ := mem_filterMap.mp hn
    have hchain : k ∈ p.chain u := (takeWhile_sublist _).subset (mem_reverse.mp hk)
    obtain ⟨-, habove⟩ := Program.exists_mem_chain_iff.mp ⟨k, hchain, rfl⟩
    exact hF _ (.clinit (by simpa using ho) hm hd hu habove
      (Program.class?_of_mem_chainFrom hchain) hkn)

theorem Backed.initType (hs : s.Backed p F) {t : Ty}
    (ht : ∀ u ∈ Program.classOfType t, p.VisitUse d u) : (s.initType p o t).Backed p F := by
  unfold RapidTypes.initType
  split
  · next c hc => exact hs.initClass hF hm hd (ht c (by simp [Program.classOfType, hc]))
  · exact hs

theorem Backed.visitDirect (hs : s.Backed p F) {i : Nat} {c : Call}
    (hi : d.body[i]? = some (.invoke c)) (hkind : c.kind = .static ∨ c.kind = .special) :
    (s.visitDirect p o (.body m i) c).Backed p F := by
  unfold RapidTypes.visitDirect
  split
  · exact hs
  · next k hk =>
    split
    · exact hs
    · next habs =>
      have he := hF _ (.direct hm hd hi hkind hk (by simpa using habs))
      dsimp only
      split
      · next hstatic =>
        have huse : p.VisitUse d k.id.cls := by
          refine .inr ⟨_, mem_of_getElem? hi, ?_, ?_⟩
          · simpa [Program.callsAbstract, hk] using fun _ => habs
          · simp [Program.stmtUses, hstatic, hk]
        exact (hs.initClass hF hm hd huse).connect hF he
      · exact hs.connect hF he

/-- **A statement of a reachable method.** -/
theorem Backed.visitStmt (hs : s.Backed p F) {i : Nat} {stmt : Stmt}
    (hi : d.body[i]? = some stmt) : (s.visitStmt p o m i stmt).Backed p F := by
  have hmem := mem_of_getElem? hi
  have huse : p.callsAbstract stmt = false → ∀ u ∈ p.stmtUses stmt, p.VisitUse d u :=
    fun habs u hu => .inr ⟨stmt, hmem, habs, hu⟩
  cases stmt with
  | new dst t n =>
    exact (hs.instantiate hF fun ht => hF _ (.new hm hd hmem ht)).initType hF hm hd (huse rfl)
  | const dst l =>
    have hinit : (∀ u ∈ Program.classOfType l.type, p.VisitUse d u) →
        ((s.instantiate p l.type).initType p o l.type).Backed p F :=
      (hs.instantiate hF fun ht => hF _ (.const hm hd hmem ht)).initType hF hm hd
    cases l with
    | cls t =>
      exact (hinit fun u hu => huse rfl u (mem_append_left _ hu)).initType hF hm hd
        fun u hu => huse rfl u (mem_append_right _ hu)
    | _ => exact hinit (huse rfl)
  | loadStatic | storeStatic => exact hs.initClass hF hm hd (huse rfl _ (mem_singleton_self _))
  | invoke c =>
    have hplaced : Backed p F { s with graph := (s.graph.setContainer (.body m i) m).2 } :=
      { hs with
        reached := by simpa only [reachable_setContainer] using hs.reached
        edges := by simpa only [edges_setContainer] using hs.edges }
    have hcall : c.kind = .virtual ∨ c.kind = .interface →
        CallIn p F (.body m i, c.kind, c.target) := fun hkind =>
      ⟨m, d, i, c, hm, hd, hi, hkind, rfl⟩
    unfold RapidTypes.visitStmt
    dsimp only
    split
    · next hkind => exact hplaced.meet hF (hcall (.inl hkind))
    · next hkind => exact hplaced.meet hF (hcall (.inr hkind))
    · next hkind => exact hplaced.visitDirect hF hm hd hi (.inl hkind)
    · next hkind => exact hplaced.visitDirect hF hm hd hi (.inr hkind)
    · exact hplaced
  | _ => exact hs

end Method

theorem Backed.visitMethod (hp : p.WellFormed) (hs : s.Backed p F) {m : MethodId}
    (hm : .reached m ∈ F) : (s.visitMethod p o m).Backed p F := by
  unfold RapidTypes.visitMethod
  split
  · exact hs
  · next d hd =>
    refine .foldl (fun x hx s hs => hs.visitStmt hF hm hd (Method.mem_indexedBody.mp hx)) ?_
    split
    · next hstatic => exact hs.initClass hF hm hd (.inl ⟨hstatic, by rw [hp.id_eq hd]⟩)
    · exact hs

theorem Backed.enter (hs : s.Backed p F) {m : MethodId} (hm : m ∈ entries p o) :
    (s.enter p m).Backed p F := by
  have hentry : Backed p F { s with graph := s.graph.addEntry m } := { hs with
    reached := by simpa only [reachable_addEntry] using hs.reached
    edges := by simpa only [edges_addEntry] using hs.edges }
  have hreach := hentry.reach (hF _ (.entry hm))
  unfold RapidTypes.enter
  dsimp only
  split
  · exact hreach
  · next d hd =>
    split
    · next hmain =>
      split
      · next t harg =>
        simp only [Bool.and_eq_true, beq_iff_eq] at hmain
        have hgiven : d.GivenArray t := ⟨hmain.1, hmain.2, harg⟩
        exact (hreach.instantiate hF fun _ => hF _ (.array hm hd hgiven)).instantiate hF
          fun ht => hF _ (.elem hm hd hgiven ht)
      · exact hreach
    · exact hreach

/-- **A closed set backs what is found at every moment**: the methods visited are reachable. -/
theorem Backed.visitFrom (hp : p.WellFormed) (hs : s.Backed p F) (n i : Nat) :
    (visitFrom p o n i s).Backed p F := by
  induction n generalizing i s with
  | zero => exact hs
  | succ n ih =>
    unfold RapidTypes.visitFrom
    split
    · exact hs
    · next m hm => exact ih (hs.visitMethod hF hp (hs.reached m (mem_of_getElem? hm))) (i + 1)

/-- What is found in the end is backed. -/
theorem backed_analyze (hp : p.WellFormed) : (analyze p o).Backed p F :=
  (Backed.foldl (fun _ hm _ hs => hs.enter hF hm) ⟨by simp, by simp, by simp, by simp⟩).visitFrom
    hF hp _ 0

end Least

/-! ### Each method is visited once -/

section Once

variable (hp : p.WellFormed)

include hp

theorem within_visitFrom (n i : Nat) (s : RapidTypes) : s.Within (visitFrom p o n i s) := by
  induction n generalizing i s with
  | zero => exact .refl s
  | succ n ih =>
    unfold visitFrom
    cases s.graph.reachable[i]? with
    | none => exact .refl s
    | some m => exact (leads_visitMethod hp s m).within.trans (ih (i + 1) _)

/-- The number of visits that are allowed does not matter if it is large enough. -/
theorem visitFrom_eq {n n' i : Nat} (hs : s.Closed p)
    (hn : total (p.classes.map fun c => c.methods.length) ≤ n + i) (hle : n ≤ n') :
    visitFrom p o n' i s = visitFrom p o n i s := by
  induction n generalizing n' i s with
  | zero =>
    have hend : s.graph.reachable[i]? = none :=
      getElem?_eq_none ((hs.graph.length_le hp).trans (by omega))
    cases n' with
    | zero => rfl
    | succ n' => simp only [visitFrom, hend]
  | succ n ih =>
    obtain ⟨n', rfl⟩ := Nat.exists_eq_add_one_of_ne_zero (by omega : n' ≠ 0)
    unfold visitFrom
    cases s.graph.reachable[i]? with
    | none => rfl
    | some m => exact ih ((leads_visitMethod hp s m).closed hs) (by omega) (by omega)

/-- **The reachable methods are visited one after the other**, also those that become reachable on
the way. -/
theorem visitFrom_eq_foldl {n i : Nat} (hs : s.Closed p)
    (hn : total (p.classes.map fun c => c.methods.length) ≤ n + i) :
    visitFrom p o n i s =
      ((visitFrom p o n i s).graph.reachable.drop i).foldl (visitMethod p o) s := by
  have hstop : ∀ {i} {s : RapidTypes}, s.graph.reachable.length ≤ i →
      s = (s.graph.reachable.drop i).foldl (visitMethod p o) s := by
    intro i s hlen
    rw [drop_eq_nil_of_le hlen, foldl_nil]
  induction n generalizing i s with
  | zero => exact hstop ((hs.graph.length_le hp).trans (by omega))
  | succ n ih =>
    cases hi : s.graph.reachable[i]? with
    | none =>
      simp only [visitFrom, hi]
      exact hstop (List.getElem?_eq_none_iff.mp hi)
    | some m =>
      simp only [visitFrom, hi]
      have hleads := leads_visitMethod (o := o) hp s m
      -- the method stays at its place
      have hat : (visitFrom p o n (i + 1) (s.visitMethod p o m)).graph.reachable[i]? = some m := by
        obtain ⟨l, hl⟩ := (hleads.within.trans (within_visitFrom hp n (i + 1) _)).reachable
        rw [← hl, getElem?_append_left (List.getElem?_eq_some_iff.mp hi).1, hi]
      obtain ⟨hlt, hget⟩ := List.getElem?_eq_some_iff.mp hat
      rw [drop_eq_getElem_cons hlt, hget, foldl_cons]
      exact ih (hleads.closed hs) (by omega)

end Once

/-! ### The least closed set -/

/-- **What an analysis by instantiated types is to do.** -/
structure Solves (p : Program) (o : RapidOptions) (s : RapidTypes) : Prop where
  least : IsLeast (RapidClosed p o p.VisitUse) s.found
  /-- It does so for all uses, if no static call of a reachable method names an abstract method. -/
  full : (∀ m ∈ s.graph.reachable, ∀ d, p.method? m = some d →
      ∀ stmt ∈ d.body, p.callsAbstract stmt = false) →
    IsLeast (RapidClosed p o fun d u => u ∈ p.activeUses d) s.found
  nodup : s.graph.reachable.Nodup
  visits : s = s.graph.reachable.foldl (visitMethod p o) (start p o)
  ends : ∀ n, total (p.classes.map fun c => c.methods.length) ≤ n →
    visitFrom p o n 0 (start p o) = s

/-- **The analysis by instantiated types finds the least closed set of facts**, and visits each
reachable method once. -/
theorem least_closed (h : p.Accepted) (o : RapidOptions) : (analyze p o).Solves p o where
  least := ⟨found_analyze_closed h fun _ _ _ _ _ hu => hu,
    fun _ hF => (backed_analyze hF h.wellFormed).found_subset⟩
  full hcalls := by
    refine ⟨found_analyze_closed h fun m hm d u hd hu =>
      Program.visitUse_of_mem_activeUses hu (hcalls m hm d hd), fun F hF => ?_⟩
    have hF := RapidClosed.anti (fun _ _ hu => Program.VisitUse.mem_activeUses hu) hF
    exact (backed_analyze hF h.wellFormed).found_subset
  nodup := (visited_analyze h o).1.graph.nodup
  visits := visitFrom_eq_foldl h.wellFormed (closed_start h) le_rfl
  ends _ hn := visitFrom_eq h.wellFormed (closed_start h) le_rfl hn

/-- A program in which a virtual call is met before the type that it is for is instantiated. -/
def lateSource : ProgramSource where
  classes := [
    { name := "A", methods := [{ sig := "void foo()" }] },
    { name := "B", superclass := "A"
      methods := [{ sig := "void foo()" }, { sig := "static void <clinit>()" }] },
    { name := "Factory", methods := [
      { sig := "static A make()", locals := ["A b"], body := ["b = new B", "return b"] }] },
    { name := "Main", methods := [
      { sig := "static void main(String[] args)", locals := ["A a"],
        body := ["a.foo()", "a = Factory.make()"] }] }]
  entries := ["Main.main"]

/-- The theorem at the example. The call in `main` gets its edge when `make` is visited, where the
class is initialized as well. -/
theorem least_closed_late : ∃ p, Program.load lateSource = .ok p ∧ (analyze p {}).Solves p {} ∧
    (analyze p {}).graph.reachable = [⟨"Main", "main(String[])"⟩, ⟨"Factory", "make()"⟩,
      ⟨"B", "foo()"⟩, ⟨"B", Class.clinitSubsig⟩] ∧
    (analyze p {}).types = [.array (.cls "String"), .cls "String", .cls "B"] ∧
    (analyze p {}).graph.edges =
      [⟨.static, .body ⟨"Main", "main(String[])"⟩ 1, ⟨"Factory", "make()"⟩⟩,
        ⟨.virtual, .body ⟨"Main", "main(String[])"⟩ 0, ⟨"B", "foo()"⟩⟩] := by
  obtain ⟨p, hload, hfound⟩ : ∃ p, Program.load lateSource = .ok p ∧
      (analyze p {}).graph.reachable = [⟨"Main", "main(String[])"⟩, ⟨"Factory", "make()"⟩,
        ⟨"B", "foo()"⟩, ⟨"B", Class.clinitSubsig⟩] ∧
      (analyze p {}).types = [.array (.cls "String"), .cls "String", .cls "B"] ∧
      (analyze p {}).graph.edges =
        [⟨.static, .body ⟨"Main", "main(String[])"⟩ 1, ⟨"Factory", "make()"⟩⟩,
          ⟨.virtual, .body ⟨"Main", "main(String[])"⟩ 0, ⟨"B", "foo()"⟩⟩] :=
    exists_of_any_toOption (by decide +kernel)
  exact ⟨p, hload, least_closed ⟨_, hload⟩ {}, hfound⟩

/-- A program in which a static call names an abstract method of a class with an initializer. -/
def templateSource : ProgramSource where
  classes := [
    { name := "S", isAbstract := true, methods := [
      { sig := "static abstract void f()" },
      { sig := "static void <clinit>()", locals := ["T t"], body := ["t = new T"] }] },
    { name := "T" },
    { name := "Main", methods := [{ sig := "static void main()", body := ["S.f()"] }] }]
  entries := ["Main.main"]

/-- **A call of an abstract method is a use of its class that is not seen**: what is found is not
closed under the rules, for lack of the initializer. -/
theorem abstract_call_not_closed : ∃ p, Program.load templateSource = .ok p ∧
    (analyze p {}).found ∉ RapidClosed p {} (fun d u => u ∈ p.activeUses d) := by
  obtain ⟨p, hload, d, hd, hu, k, hk, n, hn, hmain, hclinit⟩ :
      ∃ p, Program.load templateSource = .ok p ∧
        ∃ d ∈ p.method? ⟨"Main", "main()"⟩, "S" ∈ p.activeUses d ∧
          ∃ k ∈ p.class? "S", ∃ n ∈ k.clinit?,
            ⟨"Main", "main()"⟩ ∈ (analyze p {}).graph.reachable ∧
              n.id ∉ (analyze p {}).graph.reachable :=
    exists_of_any_toOption (by decide +kernel)
  refine ⟨p, hload, fun hclosed => hclinit ?_⟩
  exact hclosed _ (.clinit rfl hmain hd hu .refl hk hn)

end RapidTypes

end HeapFlow
