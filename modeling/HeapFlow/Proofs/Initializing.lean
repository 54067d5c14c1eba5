import HeapFlow.Proofs.Rapid
import HeapFlow.Proofs.Solving

/-!
# Which classes a method initializes

Both analyses initialize classes when they come to a method, and they go over the statements
separately, each with its own conditions on what is called. The observer asks for the classes that
the method uses, and each initialization asks for the superclass in turn (`Setup.Triggers`). A visit
initializes the same classes, unless the method makes a static call that names an abstract method
(`RapidTypes.visitMethod_initializes`). Such a call is a use for the observer and is passed over by
the visit; so an initializer may be reachable for one analysis and not for the other
(`RapidTypes.abstract_call_not_initialized`).
-/

namespace HeapFlow

open Program

/-- **The classes whose initialization the observer triggers** when it is told of a method: those
that it asks for, and those that their initializations ask for. -/
inductive Setup.Triggers (g : Setup) (m : MethodId) : String → Prop where
  | use {s s' : State} {ts : List Task} {c : String}
      (h : Act.react g (.method m) .classInit s = .ok ts s') (hc : .initClass c ∈ ts)
      (hk : (g.program.class? c).isSome = true) : Triggers g m c
  | super {s s' : State} {ts : List Task} {c u : String} (h : Triggers g m c)
      (hc : Act.perform g (.initClass c) s = .ok ts s') (hu : .initClass u ∈ ts)
      (hk : (g.program.class? u).isSome = true) : Triggers g m u

section Tasks

variable {g : Setup} {s s' : State}

/-- An initialization asks for the superclass only. -/
theorem Act.super_of_mem_initClass {ts : List Task} {c u : String}
    (h : Act.perform g (.initClass c) s = .ok ts s') (hu : .initClass u ∈ ts) :
    ∃ k, g.program.class? c = some k ∧ k.super = some u := by
  rcases Act.initClass_cases h with ⟨rfl, -⟩ | ⟨k, above, hk, -, -, rfl, habove⟩
  · cases hu
  · rcases mem_between.mp hu with hu | hu | hu
    · cases hu
    · obtain ⟨a, hsuper, ha⟩ := habove _ hu
      cases ha
      exact ⟨k, hk, hsuper⟩
    · cases hu

theorem Act.exists_perform_initClass {c u : String} {k : Class} (hk : g.program.class? c = some k)
    (hu : k.super = some u) :
    ∃ ts s', Act.perform g (.initClass c) {} = .ok ts s' ∧ .initClass u ∈ ts := by
  refine ⟨[.notify (.initialized c) g.observers, .initClass u, .clinit c],
    { initialized := [c] }, ?_, by simp⟩
  simp only [Act.perform, Act.initClass, Act.get_bind_eq, hk, hu]
  rfl

theorem Act.exists_perform_clinit {c : String} {k : Class} {d : Method}
    (hk : g.program.class? c = some k) (hd : k.clinit? = some d) (s : State) :
    ∃ i s', Act.perform g (.clinit c) s = .ok [.reach i] s' ∧
      s'.registry.methods.get? i = some ⟨Contexts.emptyCtx, d.id⟩ := by
  refine ⟨(s.registry.method Contexts.emptyCtx d.id).1,
    { s with registry := (s.registry.method Contexts.emptyCtx d.id).2 }, ?_, ?_⟩
  · simp only [Act.perform, Act.clinit, hk, Option.bind_some, hd]
    rfl
  · exact Table.get?_intern _ _

end Tasks

/-- The classes whose initialization is triggered are those used, with those above. -/
theorem Setup.triggers_iff {g : Setup} {m : MethodId} {c : String} :
    g.Triggers m c ↔
      ∃ d, g.program.method? m = some d ∧ g.program.InChains (g.program.activeUses d) c := by
  have hreact : ∀ s, Act.react g (.method m) .classInit s = .ok (g.program.initializations m) s :=
    fun _ => rfl
  constructor
  · intro h
    induction h with
    | @use s s' ts c h hc hk =>
      rw [hreact] at h
      cases h
      obtain ⟨d, hd, u, hu, heq⟩ := mem_initializations_iff.mp hc
      cases heq
      obtain ⟨k, hk⟩ := Option.isSome_iff_exists.mp hk
      exact ⟨d, hd, c, hu, k, mem_chain_self hk, name_of_class? hk⟩
    | @super s s' ts c u _ hc hu hk ih =>
      obtain ⟨d, hd, x, hx, k, hkx, hname⟩ := ih
      obtain ⟨k₀, hk₀, hsuper⟩ := Act.super_of_mem_initClass hc hu
      obtain ⟨k', hk'⟩ := Option.isSome_iff_exists.mp hk
      have hsame := class?_of_mem_chainFrom hkx
      rw [hname, hk₀] at hsame
      cases hsame
      have habove : g.program.above k = some k' := by rw [Program.above, hsuper]; exact hk'
      exact ⟨d, hd, x, hx, k', above_mem_chain hkx habove, name_of_class? hk'⟩
  · rintro ⟨d, hd, u, hu, k, hk, rfl⟩
    refine chainFrom_induction (P := fun k => g.Triggers m k.name) ?_ ?_ k hk
    · intro k hk
      have hname := name_of_class? hk
      refine .use (hreact {}) ?_ (by rw [hname, hk]; rfl)
      exact mem_initializations_iff.mpr ⟨d, hd, u, hu, by rw [hname]⟩
    · intro k k' h hk hup
      obtain ⟨u', hu', hk'⟩ := Option.bind_eq_some_iff.mp hup
      obtain ⟨ts, s', hok, hmem⟩ := Act.exists_perform_initClass hk hu'
      have hname := name_of_class? hk'
      exact .super h hok (hname ▸ hmem) (by rw [hname, hk']; rfl)

namespace RapidTypes

variable {p : Program} {o : RapidOptions} {s : RapidTypes} {m : MethodId}

/-- **A visit initializes nothing that the observer does not.** -/
theorem triggers_of_mem_initialized (hp : p.WellFormed) (ho : o.classInit = true) (hs : s.Closed p)
    {g : Setup} (hg : g.program = p) {c : String} (hc : c ∈ (s.visitMethod p o m).initialized) :
    c ∈ s.initialized ∨ g.Triggers m c := by
  subst hg
  cases hd : g.program.method? m with
  | none =>
    simp only [visitMethod, hd] at hc
    exact .inl hc
  | some d =>
    rw [mem_initialized_visitMethod hp ho hs hd] at hc
    rw [Setup.triggers_iff]
    rcases hc with hc | ⟨hstatic, u, hu, hk⟩ | ⟨stmt, hstmt, -, u, hu, hk⟩
    · exact .inl hc
    · refine .inr ⟨d, hd, u, List.mem_append_left _ ?_, hk⟩
      rw [if_pos hstatic, hp.id_eq hd]
      exact hu
    · exact .inr ⟨d, hd, u, List.mem_append_right _ (List.mem_flatMap.mpr ⟨stmt, hstmt, hu⟩), hk⟩

/-- **Both analyses initialize the same classes.** If the static calls of a method name no abstract
method, then visiting it between other visits initializes, besides what is initialized, exactly the
classes whose initialization the observer triggers. Their static initializers are reachable after
the visit, and for the other analysis in the empty context. -/
theorem visitMethod_initializes (h : p.Accepted)
    (hm : ∀ d, p.method? m = some d → ∀ stmt ∈ d.body, p.callsAbstract stmt = false)
    (ho : o.classInit = true) (hs : s.Closed p) {g : Setup} (hg : g.program = p) :
    (∀ c, c ∈ (s.visitMethod p o m).initialized ↔ c ∈ s.initialized ∨ g.Triggers m c) ∧
    ∀ c k d, g.Triggers m c → p.class? c = some k → k.clinit? = some d →
      d.id ∈ (s.visitMethod p o m).graph.reachable ∧
      ∀ t : State, ∃ i t', Act.perform g (.clinit c) t = .ok [.reach i] t' ∧
        t'.registry.methods.get? i = some ⟨Contexts.emptyCtx, d.id⟩ := by
  have hp := h.wellFormed
  have hleads := leads_visitMethod (o := o) hp s m
  have htriggers : ∀ c, g.Triggers m c → c ∈ (s.visitMethod p o m).initialized := by
    intro c hc
    rw [Setup.triggers_iff, hg] at hc
    obtain ⟨d, hd, hc⟩ := hc
    exact (visited_visitMethod hp hs m).uses ho hd (hm d hd) hc
  refine ⟨fun c => ⟨triggers_of_mem_initialized hp ho hs hg, ?_⟩, fun c k d hc hk hd => ⟨?_, ?_⟩⟩
  · rintro (hc | hc)
    · exact hleads.within.initialized hc
    · exact htriggers c hc
  · have hname := name_of_class? hk
    exact (hleads.closed hs).rooted.clinit (hname ▸ htriggers c hc) (hname ▸ hk) hd
  · exact Act.exists_perform_clinit (hg ▸ hk) hd

/-- A program whose method `main` allocates an array over a class with a superclass, both with
static initializers. -/
def classesSource : ProgramSource where
  classes := [
    { name := "R", methods := [{ sig := "static void <clinit>()" }] },
    { name := "S", superclass := "R", methods := [{ sig := "static void <clinit>()" }] },
    { name := "A"
      methods := [{ sig := "static void main()", locals := ["S[] x"], body := ["x = new S[]"] }] }]
  entries := ["A.main"]

theorem visitMethod_initializes_classes : ∃ p, Program.load classesSource = .ok p ∧
    let g := Options.setup {} p .insensitive []
    let s := ({} : RapidTypes).visitMethod p {} ⟨"A", "main()"⟩
    s.initialized = ["A", "Object", "S", "R"] ∧
    (∀ c, c ∈ s.initialized ↔ c ∈ [] ∨ g.Triggers ⟨"A", "main()"⟩ c) ∧
    ∀ c k d, g.Triggers ⟨"A", "main()"⟩ c → p.class? c = some k → k.clinit? = some d →
      d.id ∈ s.graph.reachable ∧
      ∀ t : State, ∃ i t', Act.perform g (.clinit c) t = .ok [.reach i] t' ∧
        t'.registry.methods.get? i = some ⟨Contexts.emptyCtx, d.id⟩ := by
  have hload : ∃ p, Program.load classesSource = .ok p ∧
      ((p.method? ⟨"A", "main()"⟩).all fun d => d.body.all fun x => !p.callsAbstract x) = true ∧
      (({} : RapidTypes).visitMethod p {} ⟨"A", "main()"⟩).initialized =
        ["A", "Object", "S", "R"] :=
    exists_of_any_toOption (by decide +kernel)
  obtain ⟨p, hp, hm, hinit⟩ := hload
  refine ⟨p, hp, hinit, visitMethod_initializes ⟨_, hp⟩ (fun d hd stmt hstmt => ?_) rfl
    (closed_empty p) rfl⟩
  rw [hd, Option.all_some, List.all_eq_true] at hm
  simpa using hm stmt hstmt

/-- A program in which `main` calls a static method that is declared abstract. -/
def abstractSource : ProgramSource where
  classes := [
    { name := "S"
      isAbstract := true
      methods := [{ sig := "static abstract void f()" }, { sig := "static void <clinit>()" }] },
    { name := "A", methods := [{ sig := "static void main()", body := ["S.f()"] }] }]
  entries := ["A.main"]

/-- **A call of an abstract method is a use for one analysis only.** The observer triggers the
initialization of the class `S`, whose method `main` calls, and its static initializer is reachable
in the end. A visit of `main` does not initialize the class, and the analysis by instantiated types
does not find its initializer. -/
theorem abstract_call_not_initialized : ∃ p, Program.load abstractSource = .ok p ∧
    let g := Options.setup {} p .insensitive []
    g.Triggers ⟨"A", "main()"⟩ "S" ∧
    "S" ∉ (({} : RapidTypes).visitMethod p {} ⟨"A", "main()"⟩).initialized ∧
    (∃ i ∈ (g.solve []).state.calls.reachable,
      (g.solve []).state.registry.methodId i = ⟨"S", Class.clinitSubsig⟩) ∧
    ⟨"S", Class.clinitSubsig⟩ ∉ (analyze p {}).graph.reachable := by
  have hload : ∃ p, Program.load abstractSource = .ok p ∧
      ((p.method? ⟨"A", "main()"⟩).any fun d => (p.activeUses d).contains "S") = true ∧
      (p.class? "S").isSome = true ∧
      "S" ∉ (({} : RapidTypes).visitMethod p {} ⟨"A", "main()"⟩).initialized ∧
      (let g := Options.setup {} p .insensitive []
       let m := (g.initial []).run g 100
       m.agenda.isEmpty = true ∧ ∃ i ∈ m.state.calls.reachable,
        m.state.registry.methodId i = ⟨"S", Class.clinitSubsig⟩) ∧
      ⟨"S", Class.clinitSubsig⟩ ∉ (analyze p {}).graph.reachable :=
    exists_of_any_toOption (by decide +kernel)
  obtain ⟨p, hp, huse, hk, hvisit, ⟨hA, hreach⟩, hanalyze⟩ := hload
  refine ⟨p, hp, ?_, hvisit, ?_, hanalyze⟩
  · obtain ⟨d, hd, huse⟩ := (Option.any_eq_true _ _).mp huse
    obtain ⟨k, hk⟩ := Option.isSome_iff_exists.mp hk
    exact Setup.triggers_iff.mpr
      ⟨d, hd, "S", List.contains_iff_mem.mp huse, k, mem_chain_self hk,
        name_of_class? hk⟩
  · have hrun := Machine.settle_eq_run (List.isEmpty_iff.mp hA)
    rwa [← hrun] at hreach

end RapidTypes

end HeapFlow
