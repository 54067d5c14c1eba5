import HeapFlow.Proofs.Coarsening
import HeapFlow.Proofs.Findings

/-!
# Finer contexts find less

Whatever an analysis with contexts finds, the one without contexts finds as well. The same holds of
contexts that are longer against such that are shorter, and of contexts of objects against those of
types. All are instances of one comparison: when the contexts of a policy can be turned into those
of another one, then so can the derivations (`Policy.Coarsening.finer`).
-/

namespace HeapFlow

/-- A finding with objects replaced. -/
def Finding.map (φ : Obj → Obj) : Finding → Finding
  | .var v o => .var v (φ o)
  | .varField v f o => .varField v f (φ o)
  | .field base f o => .field (φ base) f (φ o)
  | .elems array o => .elems (φ array) (φ o)
  | .static f o => .static f (φ o)
  | .reached m => .reached m
  | .call e => .call e

theorem Finding.map_id (x : Finding) : x.map id = x := by
  cases x <;> rfl

/-- Findings are turned along with facts. -/
theorem Finding.In.turn {T : Turn} {D E : Fact → Prop} (h : ∀ f, D f → E (T.fact f)) {x : Finding}
    (hx : x.In D) : (x.map T.item).In E := by
  cases x with
  | var | field | elems | call =>
    obtain ⟨C, C', hx⟩ := hx
    exact ⟨_, _, h _ hx⟩
  | varField v f o =>
    obtain ⟨C, B, C', hB, hx⟩ := hx
    exact ⟨_, _, _, h _ hB, h _ hx⟩
  | static | reached =>
    obtain ⟨C, hx⟩ := hx
    exact ⟨_, h _ hx⟩

/-- **A policy is at least as precise as another one** for a program: the analyses with both have
results, and what the result of the first says, the result of the second says as well. -/
def Policy.Finer (p : Program) (o : Options) (more : List Observer) (P Q : Policy) : Prop :=
  ∃ r r', analyze p o P more = .ok r ∧ analyze p o Q more = .ok r' ∧ ∀ x, r.Finds x → r'.Finds x

namespace Policy.Coarsening

/-- What is found with a policy is found with a coarser one, for forgetting contexts leaves no trace
of how they were turned. -/
theorem finding {g : Setup} {Q : Policy} (F : Coarsening g.policy Q) {x : Finding}
    (h : x.In (Derivable g)) : x.In (Derivable (g.under Q)) := by
  have hx := h.turn (T := .ofContexts F.method F.object) fun _ => F.between.derivable
  rwa [show x.map (Turn.ofContexts F.method F.object).item = x from x.map_id] at hx

/-- **A coarser policy is at most as precise**, if array elements are not copied. -/
theorem finer {P Q : Policy} (F : Coarsening P Q) {p : Program} (h : p.Accepted) {o : Options}
    (ho : o.arrayCopy = false) {more : List Observer} (hmore : ∀ w ∈ more, w.Watches) :
    P.Finer p o more Q := by
  obtain ⟨r, hr, hfinds⟩ := exists_analyze_finds_iff h ho P hmore
  obtain ⟨r', hr', hfinds'⟩ := exists_analyze_finds_iff h ho Q hmore
  refine ⟨r, r', hr, hr', fun x hx => (hfinds' x).mpr ?_⟩
  exact finding (g := o.setup p P more) F ((hfinds x).mp hx)

end Policy.Coarsening

/-- **Without contexts everything is found that is found with some.** The objects of variables, of
fields and of arrays, the reachable methods and the call edges of an analysis with any policy are
among those of the analysis without contexts. -/
theorem insensitive_finds_all {p : Program} (h : p.Accepted) {o : Options}
    (ho : o.arrayCopy = false) (policy : Policy) {more : List Observer}
    (hmore : ∀ w ∈ more, w.Watches) :
    policy.Finer p o more .insensitive :=
  (Policy.Coarsening.forget policy).finer h ho hmore

/-- Two boxes that have nothing to do with each other: only their methods are the same. -/
def twoBoxesSource : ProgramSource where
  classes := [
    { name := "Box"
      fields := ["Object item"]
      methods := [
        { sig := "void put(Object x)", body := ["this.item = x"] },
        { sig := "Object get()", locals := ["Object y"], body := ["y = this.item", "return y"] }] },
    { name := "Main"
      methods := [
        { sig := "static void main()"
          locals := ["Object o", "Object s", "Box a", "Box b", "Object c"]
          body := ["o = new Object", "s = new Main", "a = new Box", "b = new Box", "a.put(o)",
            "b.put(s)", "c = b.get()"] }] }]
  entries := ["Main.main"]

def twoBoxesVar : Var :=
  .declared ⟨"Main", "main()"⟩ 4

/-- The result of an analysis that ends within `n` steps. -/
def resultWithin (n : Nat) (p : Program) (o : Options) (policy : Policy) : Option Result :=
  let g := o.setup p policy []
  let m := (g.initial []).run g n
  if m.agenda = [] then (m.result g).toOption else none

theorem analyze_of_resultWithin {n : Nat} {p : Program} {o : Options} {policy : Policy} {r : Result}
    (h : r ∈ resultWithin n p o policy) : analyze p o policy [] = .ok r := by
  unfold resultWithin at h
  dsimp only at h
  split at h
  · next hend =>
    have hsolve : (o.setup p policy []).solve [] = _ := Machine.settle_eq_run hend
    change ((o.setup p policy []).solve []).result _ = .ok r
    rw [hsolve]
    exact eq_ok_of_mem_toOption h
  · cases h

/-- Without contexts the variable also holds what is in the other box, which it does not with
contexts of one object. -/
theorem insensitive_finds_all_twoBoxes : ∃ p r r', Program.load twoBoxesSource = .ok p ∧
    analyze p { arrayCopy := false } (.obj 1) [] = .ok r ∧
    analyze p { arrayCopy := false } .insensitive [] = .ok r' ∧
    (∀ x, r.Finds x → r'.Finds x) ∧
    ∃ o, r'.Finds (.var twoBoxesVar o) ∧ ¬ r.Finds (.var twoBoxesVar o) := by
  let options : Options := { arrayCopy := false }
  obtain ⟨p, hload, r, hr, r', hr', o, -, hfinds', hfinds⟩ :
      ∃ p, Program.load twoBoxesSource = .ok p ∧ ∃ r ∈ resultWithin 200 p options (.obj 1),
        ∃ r' ∈ resultWithin 200 p options .insensitive,
        ∃ o ∈ r'.registry.heap.get? 0, r'.Lists (r'.pointsTo twoBoxesVar) o ∧
          ¬ r.Lists (r.pointsTo twoBoxesVar) o :=
    exists_of_any_toOption (by decide +kernel)
  have hr := analyze_of_resultWithin hr
  have hr' := analyze_of_resultWithin hr'
  have hwatch : ∀ w ∈ ([] : List Observer), w.Watches := by simp
  obtain ⟨s, s', hs, hs', hall⟩ :=
    insensitive_finds_all (o := options) ⟨_, hload⟩ rfl (.obj 1) hwatch
  cases hr.symm.trans hs
  cases hr'.symm.trans hs'
  exact ⟨p, r, r', hload, hr, hr', hall, o, hfinds', hfinds⟩

/-- **Longer contexts are at least as precise as shorter ones**, whether they are made of calls, of
objects or of types, and **contexts of objects at least as precise as those of types**. -/
theorem precision_grows {p : Program} (h : p.Accepted) {o : Options} (ho : o.arrayCopy = false)
    {more : List Observer} (hmore : ∀ w ∈ more, w.Watches) (k : Nat) :
    (Policy.call (k + 1)).Finer p o more (.call k) ∧ (Policy.obj (k + 1)).Finer p o more (.obj k) ∧
    (Policy.type (k + 1)).Finer p o more (.type k) ∧ (Policy.obj k).Finer p o more (.type k) :=
  ⟨(Policy.Coarsening.cutCalls k).finer h ho hmore,
    (Policy.Coarsening.cutObjects k).finer h ho hmore,
    (Policy.Coarsening.cutTypes k).finer h ho hmore,
    (Policy.Coarsening.typeObjects k).finer h ho hmore⟩

/-- An object in a box, with one element and two. -/
theorem precision_grows_box : ∃ p, Program.load boxSource = .ok p ∧
    (Policy.call 2).Finer p { arrayCopy := false } [.checker] (.call 1) ∧
    (Policy.obj 2).Finer p { arrayCopy := false } [.checker] (.obj 1) ∧
    (Policy.type 2).Finer p { arrayCopy := false } [.checker] (.type 1) ∧
    (Policy.obj 1).Finer p { arrayCopy := false } [.checker] (.type 1) := by
  obtain ⟨p, hp, -⟩ := exists_load_boxSource
  exact ⟨p, hp, precision_grows ⟨_, hp⟩ rfl (by simp [Observer.Watches]) 1⟩

end HeapFlow
