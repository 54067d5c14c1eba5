import HeapFlow.Proofs.Performing

/-!
# Runs

Two invariants are enough for all that is proved about runs: only derivable facts are there or asked
for, and no step fails (`Machine.Sound`); and nothing has been forgotten (`Machine.Mindful`), copies
of array elements apart; where none are made, nothing at all (`Machine.Dutiful`). Each is kept by
one step, because of the effect of the task performed. At the end nothing is on the agenda and
nothing waits, so the settled facts are closed under the rules.
-/

namespace HeapFlow

namespace Machine

theorem step_of_nil {g : Setup} {m : Machine} (h : m.agenda = []) : m.step g = m := by
  rw [step, h]

/-- What a step keeps, a run keeps. -/
theorem run_induction {g : Setup} {I : Machine → Prop} {m : Machine} (h : I m)
    (hstep : ∀ m, I m → I (m.step g)) (n : Nat) : I (m.run g n) := by
  induction n generalizing m with
  | zero => exact h
  | succ n ih =>
    unfold Machine.run
    split
    · exact h
    · exact ih (hstep m h)

/-- **The first invariant of a run**: nothing fails, and nothing is made up. -/
structure Sound (g : Setup) (m : Machine) : Prop where
  fine : m.failure = none
  wf : m.state.Wf g
  derivable : ∀ f, m.state.Has f → Derivable g f
  supported : ∀ t ∈ m.agenda, t.Supported g (Derivable g) m.state.registry
  orderly : Orderly g m.state.registry m.agenda
  ends : m.state.Ends m.agenda

section Sound

variable {g : Setup} {m : Machine}

theorem sound_initial (g : Setup) (script : Script) : (g.initial script).Sound g where
  fine := rfl
  wf := State.wf_initial g script
  derivable f hf := absurd hf (State.not_has_initial script f)
  supported t ht := by
    rcases mem_triple.mp ht with rfl | rfl | rfl
    · refine Task.supported_notify trivial fun o ho f hf => ?_
      cases hf with
      | entry hf => exact (Derivable.stable g).given ⟨_, ho, hf⟩
    · exact ⟨trivial, by rintro f ⟨⟩⟩
    · exact ⟨trivial, by rintro f ⟨⟩⟩
  orderly := .of_none (by simp [Setup.initial])
  ends := .working [.notify .start g.observers]

variable (hp : g.program.WellFormed) (hscript : g.Unscripted)

include hp hscript

/-- **A step** performs the first task, which does not fail, with its effect, and keeps the
invariant. -/
theorem Sound.step_effect (h : m.Sound g) {t : Task} {rest : List Task}
    (hA : m.agenda = t :: rest) :
    ∃ ts s', Act.perform g t m.state = .ok ts s' ∧
      m.step g = { state := s', agenda := ts ++ rest } ∧ (m.step g).Sound g ∧
      Effect g {f | t.Owes g m.state.registry f} t.announcing (t.weight g) m.state ts s' := by
  have hsup : ∀ u ∈ t :: rest, u.Supported g (Derivable g) m.state.registry := hA ▸ h.supported
  have hord : Orderly g m.state.registry (t :: rest) := hA ▸ h.orderly
  have hends : m.state.Ends (t :: rest) := hA ▸ h.ends
  have ht := hsup t (.head _)
  obtain ⟨ts, s', hrun, heff, hgiven⟩ := effect_perform h.wf hp hscript ht.means
    fun n hn => hord [] n rest (hn ▸ rfl)
  have hstep : m.step g = { state := s', agenda := ts ++ rest } := by
    simp only [Machine.step, hA, hrun, h.fine]
  refine ⟨ts, s', hrun, hstep, ?_, heff⟩
  obtain ⟨hderivable, hts⟩ := heff.sound (Derivable.stableOn hp _) h.derivable ht.owes
  rw [hstep]
  refine ⟨rfl, heff.wf, hderivable, fun u hu => ?_, ?_, hends.perform h.wf hp hscript ht.means hrun⟩
  · rcases List.mem_append.mp hu with hu | hu
    · exact hts u hu
    · exact (hsup u (.tail _ hu)).mono heff.le
  · exact heff.orderly.append (hord.tail heff.le hgiven)

theorem Sound.step (h : m.Sound g) : (m.step g).Sound g := by
  cases hA : m.agenda with
  | nil => rwa [step_of_nil hA]
  | cons t rest =>
    obtain ⟨ts, s', -, -, hsound, -⟩ := h.step_effect hp hscript hA
    exact hsound

theorem Sound.run (h : m.Sound g) (n : Nat) : (m.run g n).Sound g :=
  run_induction h (fun _ h => h.step hp hscript) n

end Sound

/-- A fact is there, or a task on the agenda owes it. -/
def Due (g : Setup) (m : Machine) (f : Fact) : Prop :=
  m.state.Has f ∨ Owed g m.state.registry m.agenda f

/-- **The second invariant of a run**: nothing has been forgotten that has to be seen to. -/
structure Mindful (g : Setup) (m : Machine) : Prop where
  returned : m.state.Returned g
  given : ∀ {f}, f.Kept g → Given g f → m.Due g f
  follow : ∀ {h f}, f.Kept g → m.state.Settled h → Follows g h f → m.Due g f

/-- Nothing at all has been forgotten. -/
structure Dutiful (g : Setup) (m : Machine) : Prop where
  returned : m.state.Returned g
  given : ∀ {f}, Given g f → m.Due g f
  follow : ∀ {h f}, m.state.Settled h → Follows g h f → m.Due g f

section Dutiful

variable {g : Setup} {m : Machine}

theorem dutiful_initial (g : Setup) (script : Script) : (g.initial script).Dutiful g where
  returned hO := absurd hO.has (State.not_has_initial script _)
  given := by
    rintro f ⟨b, ho, hf⟩
    exact .inr ⟨.notify .start g.observers, .head _, .notify ho (.entry hf)⟩
  follow hh := absurd hh.has (State.not_has_initial script _)

theorem Dutiful.mindful (h : m.Dutiful g) : m.Mindful g :=
  ⟨h.returned, fun _ => h.given, fun _ => h.follow⟩

theorem Mindful.dutiful (hcopy : .arrayCopy ∉ g.observers) (h : m.Mindful g) : m.Dutiful g :=
  ⟨h.returned, h.given fun ho => absurd ho hcopy, h.follow fun ho => absurd ho hcopy⟩

section Step

variable (hp : g.program.WellFormed) (hscript : g.Unscripted)

include hp hscript

/-- What is there or owed stays so. -/
theorem Sound.due_step (hs : m.Sound g) {f : Fact} (hk : f.Kept g) (h : m.Due g f) :
    (m.step g).Due g f := by
  cases hA : m.agenda with
  | nil => rwa [step_of_nil hA]
  | cons t rest =>
    obtain ⟨ts, s', -, hstep, -, heff⟩ := hs.step_effect hp hscript hA
    rw [Due, hA] at h
    rw [hstep]
    exact heff.due hk h

/-- **A step forgets nothing.** -/
theorem Mindful.step (h : m.Mindful g) (hs : m.Sound g) : (m.step g).Mindful g := by
  cases hA : m.agenda with
  | nil => rwa [step_of_nil hA]
  | cons t rest =>
    obtain ⟨ts, s', -, hstep, -, heff⟩ := hs.step_effect hp hscript hA
    refine ⟨?_, fun hk hf => hs.due_step hp hscript hk (h.given hk hf), fun {f f'} hk hf hff' => ?_⟩
    · rw [hstep]
      exact heff.returned h.returned
    · rw [hstep] at hf ⊢
      refine heff.due_of_follows hk hf hff' fun hold => ?_
      have hdue := h.follow hk hold hff'
      rwa [Due, hA] at hdue

theorem Mindful.run (h : m.Mindful g) (hs : m.Sound g) (n : Nat) : (m.run g n).Mindful g :=
  (run_induction (I := fun m => m.Mindful g ∧ m.Sound g) ⟨h, hs⟩
    (fun _ h => ⟨h.1.step hp hscript h.2, h.2.step hp hscript⟩) n).1

end Step

variable (hp : g.program.WellFormed) (hscript : g.Unscripted) (hcopy : .arrayCopy ∉ g.observers)

include hp hscript hcopy

theorem Dutiful.run (h : m.Dutiful g) (hs : m.Sound g) (n : Nat) : (m.run g n).Dutiful g :=
  (h.mindful.run hp hscript hs n).dutiful hcopy

omit hp hscript in
/-- **At the end the settled facts are closed under the rules.** -/
theorem Dutiful.stable (h : m.Dutiful g) (hs : m.Sound g) (hA : m.agenda = []) :
    Stable g m.state.Settled := by
  obtain ⟨hidle, -⟩ := (hA ▸ hs.ends : m.state.Ends []).of_nil
  have hsettled : ∀ {f}, m.state.Has f → m.state.Settled f := hidle.settled_of_has
  have hpaid : ∀ {f}, m.state.Has f ∨ Owed g m.state.registry m.agenda f → m.state.Settled f := by
    rintro f (hf | ⟨t, ht, -⟩)
    · exact hsettled hf
    · rw [hA] at ht
      exact absurd ht List.not_mem_nil
  exact {
    given := fun hf => hpaid (h.given hf)
    follow := fun hh hf => hpaid (h.follow hh hf)
    flow := fun he hO hP => hsettled (hs.wf.flowed he hO hP)
    current := fun hO hC hd hv => hsettled (h.returned hO hC hd hv)
    copy := fun ho => absurd ho hcopy }

end Dutiful

/-- To settle is to run until nothing is left to do. -/
theorem settle_eq_run {g : Setup} {m : Machine} {n : Nat} (h : (m.run g n).agenda = []) :
    m.settle g = m.run g n := by
  induction n generalizing m with
  | zero =>
    change m.agenda = [] at h
    rw [settle_eq, h]
    rfl
  | succ n ih =>
    rw [settle_eq]
    unfold Machine.run at h ⊢
    split at h
    · rename_i hempty
      rw [if_pos hempty, if_pos hempty]
    · rename_i hempty
      rw [if_neg hempty, if_neg hempty]
      exact ih h

end Machine

end HeapFlow
