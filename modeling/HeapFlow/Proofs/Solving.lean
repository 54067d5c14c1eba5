import HeapFlow.Proofs.Ending
import HeapFlow.Proofs.Headers
import HeapFlow.Result.Basic

/-!
# What every analysis delivers

An analysis of an accepted program, whatever its options and its policy, comes to an end, on the way
no task fails, contexts stay short, and nothing is found that does not follow from the rules. All of
it is read off the invariant of runs, `Machine.Sound`. Further observers may be told of the events
as long as they only watch (`Observer.Watches`).
-/

namespace HeapFlow

/-- The observer only watches: it checks, counts or writes down what happens, and takes no part
in it. -/
def Observer.Watches : Observer → Prop
  | .checker => True
  | .profiler => True
  | .recorder _ scripted => scripted = false
  | _ => False

namespace Options

variable {o : Options} {p : Program} {policy : Policy} {more : List Observer}

theorem mem_observers_setup (hmore : ∀ w ∈ more, w.Watches) {w : Observer} (hw : ¬ w.Watches)
    (h : w ∈ (o.setup p policy more).observers) :
    w = .entryPoints o.implicitEntries ∨ w = .classInit ∧ o.classInit = true ∨
      w = .threads ∧ o.threadStart = true ∨ w = .arrayCopy ∧ o.arrayCopy = true := by
  have hasked : w ∈ o.observers :=
    (List.mem_append.mp h).resolve_right fun hmem => hw (hmore w hmem)
  have hswitch : ∀ {b : Bool} {x : Observer}, w ∈ (if b then [x] else []) → w = x ∧ b = true := by
    intro b x hx
    split at hx
    · exact ⟨List.mem_singleton.mp hx, ‹_›⟩
    · cases hx
  simp only [observers, List.mem_append] at hasked
  rcases hasked with ((hmem | hmem) | hmem) | hmem
  · exact .inl (List.mem_singleton.mp hmem)
  · exact .inr (.inl (hswitch hmem))
  · exact .inr (.inr (.inl (hswitch hmem)))
  · exact .inr (.inr (.inr (hswitch hmem)))

/-- Options ask for no scripts. -/
theorem unscripted_setup (hmore : ∀ w ∈ more, w.Watches) : (o.setup p policy more).Unscripted := by
  intro lead hmem
  have hasked := mem_observers_setup hmore Bool.noConfusion hmem
  rcases hasked with h | ⟨h, -⟩ | ⟨h, -⟩ | ⟨h, -⟩ <;> cases h

theorem arrayCopy_notMem_setup (ho : o.arrayCopy = false) (hmore : ∀ w ∈ more, w.Watches) :
    Observer.arrayCopy ∉ (o.setup p policy more).observers := by
  intro hmem
  rcases mem_observers_setup hmore id hmem with h | ⟨h, -⟩ | ⟨h, -⟩ | ⟨-, h⟩
  · cases h
  · cases h
  · cases h
  · exact absurd (ho.symm.trans h) Bool.false_ne_true

end Options

namespace Setup

variable {g : Setup} (hp : g.program.WellFormed) (hscript : g.Unscripted)

include hp hscript

/-- The invariant holds at every moment. -/
theorem sound_run (script : Script) (n : Nat) : ((g.initial script).run g n).Sound g :=
  (Machine.sound_initial g script).run hp hscript n

theorem exists_solve_eq_run (script : Script) :
    ∃ n, g.solve script = (g.initial script).run g n ∧ ((g.initial script).run g n).agenda = [] :=
  (Machine.sound_initial g script).settle_eq hp hscript

theorem sound_solve (script : Script) :
    (g.solve script).Sound g ∧ (g.solve script).agenda = [] := by
  obtain ⟨n, hn, hA⟩ := exists_solve_eq_run hp hscript script
  rw [hn]
  exact ⟨sound_run hp hscript script n, hA⟩

theorem listed_solve (script : Script) :
    (g.solve script).state.Idle ∧ (g.solve script).state.Listed := by
  obtain ⟨hsound, hA⟩ := sound_solve hp hscript script
  have hends : (g.solve script).state.Ends [] := hA ▸ hsound.ends
  exact hends.of_nil

theorem idle_solve (script : Script) :
    (g.solve script).state.Idle ∧ (g.solve script).state.snapshot.isSome = true := by
  obtain ⟨hidle, hlisted⟩ := listed_solve hp hscript script
  exact ⟨hidle, Option.isSome_iff_exists.mpr ⟨_, hlisted⟩⟩

end Setup

/-- An accepted program: an object is put into a box, and the boxes are in a box as well. -/
def boxSource : ProgramSource where
  classes := [
    { name := "Box"
      fields := ["Object item"]
      methods := [
        { sig := "Box put(Object x)", body := ["this.item = x", "return this"] },
        { sig := "Object get()", locals := ["Object y"], body := ["y = this.item", "return y"] }] },
    { name := "Main"
      methods := [
        { sig := "static void main()"
          locals := ["Object o", "Box a", "Box b", "Object c"]
          body := ["o = new Object", "a = new Box", "b = new Box", "b = a.put(o)", "a = b.put(a)",
            "c = a.get()"] }] }]
  entries := ["Main.main"]

theorem exists_of_any_toOption {ε α : Type} {x : Except ε α} {P : α → Prop} [DecidablePred P]
    (h : x.toOption.any (fun a => decide (P a)) = true) : ∃ a, x = .ok a ∧ P a := by
  cases x with
  | error e => cases h
  | ok a => exact ⟨a, rfl, of_decide_eq_true h⟩

theorem eq_ok_of_mem_toOption {ε α : Type} {x : Except ε α} {a : α} (h : a ∈ x.toOption) :
    x = .ok a := by
  cases x with
  | error e => cases h
  | ok b =>
    cases h
    rfl

theorem exists_load_boxSource : ∃ p, Program.load boxSource = .ok p ∧ p.Layered := by
  obtain ⟨p, hp, hrank⟩ : ∃ p, Program.load boxSource = .ok p ∧
      ∀ k ∈ p.classes, ∀ b ∈ k.super.toList ++ k.interfaces,
        ["Object"].idxOf b < ["Object"].idxOf k.name := exists_of_any_toOption (by decide +kernel)
  exact ⟨p, hp, Program.layered_of_rank _ hrank⟩

section Analysis

variable {p : Program}

/-- **Only what follows from the rules is found.** At every moment of an analysis, whatever is
written down or waits to be written down means a fact that is derivable from the entry methods. So
what is written down at the end is in every set of facts that is closed under the rules. -/
theorem facts_derivable (h : p.Accepted) (o : Options) (policy : Policy)
    {more : List Observer} (hmore : ∀ w ∈ more, w.Watches) :
    let g := o.setup p policy more
    (∀ n x, ((g.initial []).run g n).state.Notes x ∨ ((g.initial []).run g n).state.Awaits x →
      ∃ f, ((g.initial []).run g n).state.registry.NoteIs x f ∧ Derivable g f) ∧
    ∀ F, ClosedUnder g F → ∀ x, (g.solve []).state.Notes x →
      ∃ f, (g.solve []).state.registry.NoteIs x f ∧ F f := by
  intro g
  have hp : g.program.WellFormed := h.wellFormed
  have hscript : g.Unscripted := Options.unscripted_setup hmore
  refine ⟨fun n x hx => ?_, fun F hF x hx => ?_⟩
  · have hsound := Setup.sound_run hp hscript [] n
    obtain ⟨f, hf⟩ := hsound.wf.means hx
    exact ⟨f, hf, hsound.derivable f ⟨x, hx, hf⟩⟩
  · obtain ⟨hsound, -⟩ := Setup.sound_solve hp hscript []
    obtain ⟨f, hf⟩ := hsound.wf.means (.inl hx)
    exact ⟨f, hf, (hsound.derivable f ⟨x, .inl hx, hf⟩).least hF⟩

theorem facts_derivable_box : ∃ p, Program.load boxSource = .ok p ∧
    let g := Options.setup {} p (.obj 2) [.checker]
    (∀ n x, ((g.initial []).run g n).state.Notes x ∨ ((g.initial []).run g n).state.Awaits x →
      ∃ f, ((g.initial []).run g n).state.registry.NoteIs x f ∧ Derivable g f) ∧
    ∀ F, ClosedUnder g F → ∀ x, (g.solve []).state.Notes x →
      ∃ f, (g.solve []).state.registry.NoteIs x f ∧ F f := by
  obtain ⟨p, hp, -⟩ := exists_load_boxSource
  exact ⟨p, hp, facts_derivable ⟨_, hp⟩ {} (.obj 2) (by simp [Observer.Watches])⟩

/-- A context has a number, and at most so many elements. -/
def Registry.CtxWithin (r : Registry) (c : CtxId) (k : Nat) : Prop :=
  ∃ es, r.contexts.get? c = some es ∧ es.length ≤ k

/-- Contexts have at most `k` elements, and those of objects at most `k - 1`. -/
structure Registry.Bounded (r : Registry) (k : Nat) : Prop where
  methods : ∀ {m x}, r.methods.get? m = some x → r.CtxWithin x.ctx k
  sites : ∀ {s x}, r.sites.get? s = some x → r.CtxWithin x.ctx k
  vars : ∀ {q c v}, r.pointers.get? q = some (.var c v) → r.CtxWithin c k
  objects : ∀ {i x}, r.objects.get? i = some x → r.CtxWithin x.ctx (k - 1)

theorem Registry.Wf.ctxWithin {g : Setup} {r : Registry} (hr : r.Wf g) {c : CtxId} {C : Ctx}
    (hC : r.CtxIs c C) : r.CtxWithin c g.policy.limit := by
  obtain ⟨es, hes, -⟩ := hC
  exact ⟨es, hes, (hr.contexts hes).1⟩

theorem Registry.Wf.bounded {g : Setup} {r : Registry} (hr : r.Wf g) :
    r.Bounded g.policy.limit where
  methods hm := (hr.methods hm).elim fun _ hC => hr.ctxWithin hC
  sites hs := (hr.sites hs).elim fun _ hC => hr.ctxWithin hC
  vars hq := by
    obtain ⟨P, hP⟩ := hr.pointers hq
    cases hP with
    | var v hC => exact hr.ctxWithin hC
  objects hi := by
    obtain ⟨O, ⟨es, hes, hmarks⟩, -, hlen⟩ := hr.objects hi
    exact ⟨es, hes, hmarks.length_eq ▸ hlen⟩

/-- **Every analysis ends**, for every policy: after finitely many steps nothing is left to do, none
of them has failed, and neither objects nor call edges wait. At every moment on the way, contexts
are within the limit of the policy. Where no interface is above itself, the walks of the hierarchy
on the way end, too. -/
theorem solve_ends (h : p.Accepted) (o : Options) (policy : Policy)
    {more : List Observer} (hmore : ∀ w ∈ more, w.Watches) :
    let g := o.setup p policy more
    (∃ n, g.solve [] = (g.initial []).run g n) ∧ (g.solve []).agenda = [] ∧
    (g.solve []).failure = none ∧ (g.solve []).state.work.pending = [] ∧
    (g.solve []).state.work.calls.toList = [] ∧
    (∀ n, ((g.initial []).run g n).state.registry.Bounded policy.limit) ∧
    (p.Layered → p.WalksEnd) := by
  intro g
  have hp : g.program.WellFormed := h.wellFormed
  have hscript : g.Unscripted := Options.unscripted_setup hmore
  obtain ⟨n, hn, -⟩ := Setup.exists_solve_eq_run hp hscript []
  obtain ⟨hsound, hA⟩ := Setup.sound_solve hp hscript []
  obtain ⟨⟨hpending, hcalls⟩, -⟩ := Setup.idle_solve hp hscript []
  exact ⟨⟨n, hn⟩, hA, hsound.fine, hpending, hcalls, fun n =>
    (Setup.sound_run hp hscript [] n).wf.registry.bounded, h.linked.walksEnd⟩

theorem solve_ends_box : ∃ p, Program.load boxSource = .ok p ∧ p.Layered ∧
    let g := Options.setup {} p (.obj 2) [.checker]
    (∃ n, g.solve [] = (g.initial []).run g n) ∧ (g.solve []).agenda = [] ∧
    (g.solve []).failure = none ∧ (g.solve []).state.work.pending = [] ∧
    (g.solve []).state.work.calls.toList = [] ∧
    (∀ n, ((g.initial []).run g n).state.registry.Bounded 2) ∧ (p.Layered → p.WalksEnd) := by
  obtain ⟨p, hp, hlayered⟩ := exists_load_boxSource
  exact ⟨p, hp, hlayered, solve_ends ⟨_, hp⟩ {} (.obj 2) (by simp [Observer.Watches])⟩

/-- **No analysis fails.** If the policy exists, then there is a result, and every task that comes
first on the agenda at some moment can be carried out. Where no interface is above itself, this
needs no bound on the walks of the hierarchy. -/
theorem analysis_succeeds (h : p.Accepted) {o : Options} {policy : Policy}
    (hcs : Policy.parse o.cs = .ok policy) {more : List Observer}
    (hmore : ∀ w ∈ more, w.Watches) :
    let g := o.setup p policy more
    (∃ r, analyzeNamed p o more = .ok r) ∧
    (∀ n t rest, ((g.initial []).run g n).agenda = t :: rest →
      ∃ ts s, Act.perform g t ((g.initial []).run g n).state = .ok ts s) ∧
    (p.Layered → p.WalksEnd) := by
  intro g
  have hp : g.program.WellFormed := h.wellFormed
  have hscript : g.Unscripted := Options.unscripted_setup hmore
  refine ⟨?_, ?_, h.linked.walksEnd⟩
  · obtain ⟨hsound, -⟩ := Setup.sound_solve hp hscript []
    obtain ⟨-, hsnap⟩ := Setup.idle_solve hp hscript []
    obtain ⟨snap, hsnap⟩ := Option.isSome_iff_exists.mp hsnap
    have hresult : ∃ r, analyze p o policy more = .ok r := by
      change ∃ r, (g.solve []).result g = .ok r
      rw [Machine.result, hsound.fine, hsnap]
      exact ⟨_, rfl⟩
    obtain ⟨r, hr⟩ := hresult
    exact ⟨r, by rw [analyzeNamed, hcs]; simp only [hr]⟩
  · intro n t rest hA
    obtain ⟨ts, s, hs, -⟩ := (Setup.sound_run hp hscript [] n).step_effect hp hscript hA
    exact ⟨ts, s, hs⟩

theorem analysis_succeeds_box : ∃ p, Program.load boxSource = .ok p ∧ p.Layered ∧
    Policy.parse "2-obj" = .ok (.obj 2) ∧
    let o : Options := { cs := "2-obj" }
    let g := o.setup p (.obj 2) [.checker]
    (∃ r, analyzeNamed p o [.checker] = .ok r) ∧
    (∀ n t rest, ((g.initial []).run g n).agenda = t :: rest →
      ∃ ts s, Act.perform g t ((g.initial []).run g n).state = .ok ts s) ∧
    (p.Layered → p.WalksEnd) := by
  have hcs : Policy.parse "2-obj" = .ok (.obj 2) := by decide +kernel
  obtain ⟨p, hp, hlayered⟩ := exists_load_boxSource
  exact ⟨p, hp, hlayered, hcs, analysis_succeeds ⟨_, hp⟩ hcs (by simp [Observer.Watches])⟩

end Analysis

end HeapFlow
