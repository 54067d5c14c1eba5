import HeapFlow.Collection.Catalog
import HeapFlow.Program.Basic

/-!
# Call graphs

A call graph records entry methods, reachable methods, call edges, and for every call site the
method that contains it. It only grows, and everything is listed in the order in which it was added.
Call sites and methods are of any type, so the graphs with and without contexts are one structure.

Edges are also listed by call site and by method, and call sites by the methods that contain them.
Marks tell what is reachable and which edges there are, and a call graph carries the proof that just
the members of the lists are marked.
-/

namespace HeapFlow

/-! ### Marks -/

section Marks

variable {α : Type}

/-- The members of a list are marked with `true`, and nothing else is marked. -/
def Marked (marks : List (α × Bool)) (l : List α) : Prop :=
  ∀ a b, (a, b) ∈ marks ↔ b = true ∧ a ∈ l

theorem marked_nil : Marked ([] : List (α × Bool)) [] := by
  simp [Marked]

theorem Marked.concat {marks : List (α × Bool)} {l : List α} (h : Marked marks l) (a : α) :
    Marked ((a, true) :: marks) (l ++ [a]) := by
  intro c b
  rw [List.mem_cons, h c b, List.mem_append, List.mem_singleton, Prod.mk.injEq]
  constructor
  · rintro (⟨rfl, rfl⟩ | ⟨rfl, hc⟩)
    · exact ⟨rfl, .inr rfl⟩
    · exact ⟨rfl, .inl hc⟩
  · rintro ⟨rfl, hc | rfl⟩
    · exact .inr ⟨rfl, hc⟩
    · exact .inl ⟨rfl, rfl⟩

variable [DecidableEq α]

def hasMark (marks : List (α × Bool)) (a : α) : Bool :=
  (marks.lookup a).getD false

theorem Marked.hasMark_iff {marks : List (α × Bool)} {l : List α} (h : Marked marks l) (a : α) :
    hasMark marks a = true ↔ a ∈ l := by
  rw [hasMark]
  cases hb : marks.lookup a with
  | none =>
    refine ⟨by simp, fun ha => ?_⟩
    simpa using List.lookup_eq_none_iff.mp hb _ ((h a true).mpr ⟨rfl, ha⟩)
  | some b =>
    obtain ⟨l₁, l₂, hl, -⟩ := List.lookup_eq_some_iff.mp hb
    obtain ⟨rfl, ha⟩ := (h a b).mp (hl ▸ List.mem_append_right l₁ (.head l₂))
    exact ⟨fun _ => ha, fun _ => rfl⟩

end Marks

/-! ### Graphs -/

/-- An edge from a call site to a method it may call. -/
structure CallEdge (σ μ : Type) where
  kind : CallKind
  site : σ
  callee : μ
deriving DecidableEq, Repr, Inhabited

structure CallGraph (σ μ : Type) where
  entries : List μ
  reachable : List μ
  isReachable : List (μ × Bool)
  marked_reachable : Marked isReachable reachable
  edges : List (CallEdge σ μ)
  isEdge : List (CallEdge σ μ × Bool)
  marked_edges : Marked isEdge edges
  /-- The edges by the call sites that they leave. -/
  leaving : List (σ × List (CallEdge σ μ))
  /-- The edges by the methods that they enter. -/
  entering : List (μ × List (CallEdge σ μ))
  /-- The call sites with the methods that contain them. -/
  containers : List (σ × μ)
  /-- The call sites by the methods that contain them. -/
  contained : List (μ × List σ)

namespace CallGraph

variable {σ μ : Type}

def empty : CallGraph σ μ where
  entries := []
  reachable := []
  isReachable := []
  marked_reachable := marked_nil
  edges := []
  isEdge := []
  marked_edges := marked_nil
  leaving := []
  entering := []
  containers := []
  contained := []

instance : EmptyCollection (CallGraph σ μ) := ⟨empty⟩

instance : Inhabited (CallGraph σ μ) := ⟨empty⟩

@[simp] theorem reachable_empty : (∅ : CallGraph σ μ).reachable = [] := rfl

@[simp] theorem edges_empty : (∅ : CallGraph σ μ).edges = [] := rfl

variable [DecidableEq σ] [DecidableEq μ]

variable (g : CallGraph σ μ)

def reaches (m : μ) : Bool :=
  hasMark g.isReachable m

def hasEdge (e : CallEdge σ μ) : Bool :=
  hasMark g.isEdge e

omit [DecidableEq σ] in
@[simp] theorem reaches_iff {g : CallGraph σ μ} {m : μ} : g.reaches m = true ↔ m ∈ g.reachable :=
  g.marked_reachable.hasMark_iff m

@[simp] theorem hasEdge_iff {g : CallGraph σ μ} {e : CallEdge σ μ} :
    g.hasEdge e = true ↔ e ∈ g.edges :=
  g.marked_edges.hasMark_iff e

/-- Adds an entry method, which does not make it reachable. -/
def addEntry (m : μ) : CallGraph σ μ :=
  if g.entries.contains m then g else { g with entries := g.entries ++ [m] }

/-- Makes a method reachable and says whether it was not before. -/
def addReachable (m : μ) : Bool × CallGraph σ μ :=
  if g.reaches m then (false, g)
  else (true, { g with
    reachable := g.reachable ++ [m]
    isReachable := (m, true) :: g.isReachable
    marked_reachable := g.marked_reachable.concat m })

/-- Adds an edge and says whether it is new. -/
def addEdge (e : CallEdge σ μ) : Bool × CallGraph σ μ :=
  if g.hasEdge e then (false, g)
  else (true, { g with
    edges := g.edges ++ [e]
    isEdge := (e, true) :: g.isEdge
    marked_edges := g.marked_edges.concat e
    leaving := enlist e.site e g.leaving
    entering := enlist e.callee e g.entering })

def container? (s : σ) : Option μ :=
  g.containers.lookup s

/-- Records the method that contains a call site, unless one is recorded; says whether it did. -/
def setContainer (s : σ) (m : μ) : Bool × CallGraph σ μ :=
  if (g.container? s).isSome then (false, g)
  else (true, { g with
    containers := g.containers ++ [(s, m)]
    contained := enlist m s g.contained })

def sitesIn (m : μ) : List σ :=
  membersIn g.contained m

/-- The edges that leave a call site. -/
def outOf (s : σ) : List (CallEdge σ μ) :=
  membersIn g.leaving s

/-- The edges that enter a method. -/
def into (m : μ) : List (CallEdge σ μ) :=
  membersIn g.entering m

def calleesOf (s : σ) : List μ :=
  ((g.outOf s).map (·.callee)).eraseDups

def callersOf (m : μ) : List σ :=
  ((g.into m).map (·.site)).eraseDups

end CallGraph

def CallEdge.text {σ μ : Type} (site : σ → String) (method : μ → String) (e : CallEdge σ μ) :
    String :=
  site e.site ++ " -> " ++ method e.callee ++ " (" ++ e.kind.text ++ ")"

/-- A call graph without contexts. -/
abbrev MethodCallGraph := CallGraph CallSite MethodId

def CallEdge.plainText (e : CallEdge CallSite MethodId) : String :=
  e.text CallSite.label MethodId.text

end HeapFlow
