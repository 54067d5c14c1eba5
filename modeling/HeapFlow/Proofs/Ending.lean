import HeapFlow.Proofs.Running
import HeapFlow.Proofs.Scope

/-!
# Every run ends

Each task leaves less behind than there was, in one of the five ways of `Progress`. This file turns
them into one quantity that falls at every step (`Machine.measure`). Its first number bounds the
copies of array elements that turn up, on which the scope of the second depends; this is why
announcing methods is counted apart.
-/

namespace HeapFlow

namespace State

/-- The methods that may still be announced. -/
def unannounced (g : Setup) (s : State) : Set MethodId :=
  {m | m ∈ g.methods ∧ ¬ s.Settled (.announced m)}

/-- The facts that may still be settled. -/
def unsettled (g : Setup) (s : State) : Set Fact :=
  {f | (f.InScope g s.copies.length ∧ ∀ F, f ≠ .flow F) ∧ ¬ s.Settled f}

theorem finite_unannounced (g : Setup) (s : State) : (s.unannounced g).Finite :=
  g.methods.finite_toSet.subset fun _ hm => hm.1

/-- Finitely many facts are in scope. -/
theorem finite_unsettled (g : Setup) (s : State) : (s.unsettled g).Finite :=
  (finite_scope g s.copies.length).subset fun _ hf => hf.1

section Falling

variable {g : Setup} {s s' : State} (hsettled : ∀ {f}, s.Settled f → s'.Settled f)

include hsettled

theorem unannounced_subset : s'.unannounced g ⊆ s.unannounced g :=
  fun _ hm => ⟨hm.1, fun h => hm.2 (hsettled h)⟩

/-- Announcing a method leaves fewer to announce. -/
theorem ncard_unannounced_lt {m : MethodId} (hm : m ∈ g.methods) (h : s'.Settled (.announced m))
    (hnew : ¬ s.Settled (.announced m)) : (s'.unannounced g).ncard < (s.unannounced g).ncard :=
  Set.ncard_lt_ncard ⟨unannounced_subset hsettled, fun hsub => (hsub ⟨hm, hnew⟩).2 h⟩
    (s.finite_unannounced g)

variable (hc : s'.copies = s.copies)

include hc

theorem unsettled_subset : s'.unsettled g ⊆ s.unsettled g := by
  rintro f ⟨hf, hopen⟩
  exact ⟨hc ▸ hf, fun h => hopen (hsettled h)⟩

theorem ncard_unsettled_lt {f : Fact} (hf : f.InScope g s.copies.length ∧ ∀ F, f ≠ .flow F)
    (h : s'.Settled f) (hnew : ¬ s.Settled f) : (s'.unsettled g).ncard < (s.unsettled g).ncard :=
  Set.ncard_lt_ncard ⟨unsettled_subset hsettled hc, fun hsub => (hsub ⟨hf, hnew⟩).2 h⟩
    (s.finite_unsettled g)

end Falling

/-- What is settled is in scope. -/
theorem Wf.inScope {g : Setup} {s : State} (hs : s.Wf g) (hp : g.program.WellFormed)
    (hD : ∀ f, s.Has f → Derivable g f) {f : Fact} (hf : f.Counts) (h : s.Settled f) :
    f.InScope g s.copies.length ∧ ∀ F, f ≠ .flow F := by
  have hflow : ∀ F, f ≠ .flow F := by
    rintro F rfl
    exact hf
  obtain ⟨n, hn⟩ := (hD f h.has).inScope hp
  refine ⟨hn.of_temps hflow ?_, hflow⟩
  rintro C m j O rfl
  obtain ⟨x, -, hx⟩ := h
  cases hx with
  | holds hP _ =>
    obtain ⟨y, hy, hyP⟩ := hP
    cases hyP with
    | var v hC => exact hs.temps hy

end State

namespace Machine

/-- **What falls at every step of a run**: the methods that may still be announced and the observers
that are still to be told of announced ones; the facts in scope that are not settled; the weight of
the agenda, with the call edges that wait; and the pointers that objects wait for. -/
noncomputable def measure (g : Setup) (m : Machine) : Nat × Nat × Nat × Nat :=
  ((m.state.unannounced g).ncard * (g.observers.length + 1) + announcements m.agenda,
    (m.state.unsettled g).ncard,
    agendaWeight g m.agenda + m.state.work.calls.size,
    m.state.work.pending.length)

/-- Falling from one measure to another: by the first number that differs. -/
def Below : Nat × Nat × Nat × Nat → Nat × Nat × Nat × Nat → Prop :=
  Prod.Lex (· < ·) (Prod.Lex (· < ·) (Prod.Lex (· < ·) (· < ·)))

theorem below_wf : WellFounded Below :=
  Prod.lex Nat.lt_wfRel (Prod.lex Nat.lt_wfRel (Prod.lex Nat.lt_wfRel Nat.lt_wfRel)) |>.wf

theorem lex_of_le {β : Type} {r : β → β → Prop} {a a' : Nat} {b b' : β} (ha : a' ≤ a)
    (hb : r b' b) : Prod.Lex (· < ·) r (a', b') (a, b) := by
  rcases Nat.lt_or_eq_of_le ha with h | rfl
  · exact .left _ _ h
  · exact .right _ hb

variable {g : Setup} {m : Machine} (hp : g.program.WellFormed) (hscript : g.Unscripted)

include hp hscript

/-- **The measure falls at every step.** -/
theorem Sound.measure_step (h : m.Sound g) (hA : m.agenda ≠ []) :
    Below ((m.step g).measure g) (m.measure g) := by
  obtain ⟨t, rest, hA⟩ := List.exists_cons_of_ne_nil hA
  obtain ⟨ts, s', -, hstep, hsound, heff⟩ := h.step_effect hp hscript hA
  rw [hstep] at hsound ⊢
  have hU := Set.ncard_le_ncard (State.unannounced_subset (g := g) heff.settled)
    (m.state.finite_unannounced g)
  have hU' := Nat.mul_le_mul_right (g.observers.length + 1) hU
  have hN : s'.copies = m.state.copies →
      (s'.unsettled g).ncard ≤ (m.state.unsettled g).ncard := fun hc =>
    Set.ncard_le_ncard (State.unsettled_subset heff.settled hc) (m.state.finite_unsettled g)
  simp only [measure, hA, announcements_append, announcements_cons, agendaWeight_append,
    agendaWeight_cons, Below]
  cases heff.progress with
  | announces hm hnew ha =>
    -- one method less to announce outweighs the observers that are to be told of it
    obtain ⟨n, hn⟩ := (hsound.derivable _ hm.has).inScope hp
    have hlt := State.ncard_unannounced_lt heff.settled hn hm hnew
    have hmul := Nat.mul_le_mul_right (g.observers.length + 1) hlt
    rw [Nat.succ_mul] at hmul
    exact .left _ _ (by omega)
  | tells ha => exact .left _ _ (by omega)
  | settles hc ha hf hset hnew =>
    refine lex_of_le (by omega) (.left _ _ (State.ncard_unsettled_lt heff.settled hc ?_ hset hnew))
    rw [← hc]
    exact hsound.wf.inScope hp hsound.derivable hf hset
  | lighter hc ha hw => exact lex_of_le (by omega) (lex_of_le (hN hc) (.left _ _ (by omega)))
  | drains hc ha hw hpending =>
    exact lex_of_le (by omega) (lex_of_le (hN hc) (lex_of_le (by omega) hpending))

/-- **Every run ends.** -/
theorem Sound.exists_run (h : m.Sound g) : ∃ n, (m.run g n).agenda = [] := by
  -- by induction on the measure
  generalize hx : m.measure g = x
  induction x using below_wf.induction generalizing m with
  | _ x ih =>
    by_cases hA : m.agenda = []
    · exact ⟨0, hA⟩
    · obtain ⟨n, hn⟩ := ih _ (hx ▸ h.measure_step hp hscript hA) (h.step hp hscript) rfl
      refine ⟨n + 1, ?_⟩
      rwa [Machine.run, if_neg (by simpa using hA)]

theorem Sound.settle_eq (h : m.Sound g) :
    ∃ n, m.settle g = m.run g n ∧ (m.run g n).agenda = [] := by
  obtain ⟨n, hn⟩ := h.exists_run hp hscript
  exact ⟨n, settle_eq_run hn, hn⟩

end Machine

end HeapFlow
