import HeapFlow.Proofs.Agenda

/-!
# Tasks return

What a task leaves to do is put in front of the rest of the agenda, and the rest is not touched
before all of it is done. So a task is like the call of a procedure, which is under way as long as
something stands in front of the rest (`Machine.Returns`). Calls may be nested to any depth; as runs
end, each of them returns all the same.
-/

namespace HeapFlow

namespace Machine

variable {g : Setup} {m : Machine} {rest : List Task}

theorem run_of_nil (h : m.agenda = []) (n : Nat) : m.run g n = m := by
  cases n with
  | zero => rfl
  | succ n => simp [run, h]

theorem run_succ_left (m : Machine) (n : Nat) : m.run g (n + 1) = (m.step g).run g n := by
  cases h : m.agenda with
  | nil => rw [run_of_nil h, step_of_nil h, run_of_nil h]
  | cons t rest => simp [run, h]

theorem run_add (m : Machine) (a b : Nat) : m.run g (a + b) = (m.run g a).run g b := by
  induction a generalizing m with
  | zero => rw [Nat.zero_add, run]
  | succ a ih => rw [Nat.succ_add, run_succ_left, ih, run_succ_left]

theorem run_succ (m : Machine) (n : Nat) : m.run g (n + 1) = (m.run g n).step g := by
  rw [run_add, run_succ_left, run]

theorem Steady.step (hg : g.Tame) (h : m.Steady g) : (m.step g).Steady g := by
  cases hA : m.agenda with
  | nil => rwa [step_of_nil hA]
  | cons t rest =>
    obtain ⟨ts, s', -, hnext⟩ := h.performs hg hA
    exact hnext

/-- **A call returns** after `k` steps: up to then something stands in front of the rest of the
agenda, and then nothing does. -/
structure Returns (g : Setup) (m : Machine) (rest : List Task) (k : Nat) : Prop where
  during : ∀ i < k, ∃ u us, (m.run g i).agenda = u :: (us ++ rest)
  agenda : (m.run g k).agenda = rest

variable {k : Nat} {us : List Task}

/-- After a step, one step less. -/
theorem Returns.step (h : m.Returns g rest (k + 1)) : (m.step g).Returns g rest k where
  during i hi := by
    rw [← run_succ_left]
    exact h.during (i + 1) (Nat.succ_lt_succ hi)
  agenda := by
    rw [← run_succ_left]
    exact h.agenda

theorem Returns.of_step {u : Task} (hA : m.agenda = u :: (us ++ rest))
    (h : (m.step g).Returns g rest k) : m.Returns g rest (k + 1) where
  during i hi := by
    cases i with
    | zero => exact ⟨u, us, hA⟩
    | succ i =>
      rw [run_succ_left]
      exact h.during i (Nat.lt_of_succ_lt_succ hi)
  agenda := by
    rw [run_succ_left]
    exact h.agenda

theorem Steady.exists_returns (hg : g.Tame) (hm : m.Steady g) {n : Nat}
    (hend : (m.run g n).agenda = []) (hA : m.agenda = us ++ rest) : ∃ k, m.Returns g rest k := by
  induction n generalizing m us with
  | zero =>
    -- nothing is left to do, not even the rest
    have hnil : us ++ rest = [] := hA ▸ hend
    refine ⟨0, fun i hi => absurd hi (Nat.not_lt_zero i), ?_⟩
    rw [(List.append_eq_nil_iff.mp hnil).2]
    exact hend
  | succ n ih =>
    cases us with
    | nil => exact ⟨0, fun i hi => absurd hi (Nat.not_lt_zero i), hA⟩
    | cons t us =>
      rw [List.cons_append] at hA
      obtain ⟨ts, s', hp, hnext⟩ := hm.performs hg hA
      rw [run_succ_left] at hend
      have hstep : (m.step g).agenda = (ts ++ us) ++ rest := by rw [hp.next, List.append_assoc]
      obtain ⟨k, hk⟩ := ih hnext hend hstep
      exact ⟨k + 1, hk.of_step hA⟩

/-- **What each step of a call keeps** of the state and the tasks of the call, holds when it
returns. -/
theorem Returns.induction (hg : g.Tame) {I : State → List Task → Prop}
    (hstep : ∀ {m : Machine} {t us rest ts s'}, m.Steady g → m.Performs g t (us ++ rest) ts s' →
      I m.state (t :: us) → I s' (ts ++ us)) (hk : m.Returns g rest k) (hm : m.Steady g)
    (hA : m.agenda = us ++ rest) (h : I m.state us) : I (m.run g k).state [] := by
  induction k generalizing m us with
  | zero =>
    have hus : us = [] := List.self_eq_append_left.mp (hk.agenda.symm.trans hA)
    exact hus ▸ h
  | succ k ih =>
    obtain ⟨t, us', hA'⟩ := hk.during 0 (Nat.zero_lt_succ k)
    have hus : us = t :: us' := List.append_cancel_right (hA.symm.trans hA')
    subst hus
    obtain ⟨ts, s', hp, hnext⟩ := hm.performs hg hA'
    have hI := hstep hm hp h
    have hagenda : (m.step g).agenda = (ts ++ us') ++ rest := by rw [hp.next, List.append_assoc]
    rw [run_succ_left]
    refine ih hk.step hnext hagenda ?_
    rw [hp.next]
    exact hI

end Machine

namespace Setup

variable {g : Setup}

/-- **The machine after `n` steps** of an analysis without a script. -/
def moment (g : Setup) (n : Nat) : Machine :=
  (g.initial []).run g n

theorem moment_succ (g : Setup) (n : Nat) : g.moment (n + 1) = (g.moment n).step g :=
  Machine.run_succ _ _

theorem moment_add (g : Setup) (n k : Nat) : g.moment (n + k) = (g.moment n).run g k :=
  Machine.run_add _ _ _

section Tame

variable (hg : g.Tame)

include hg

theorem Tame.steady_moment (n : Nat) : (g.moment n).Steady g := by
  induction n with
  | zero => exact Machine.steady_initial g []
  | succ n ih =>
    rw [moment_succ]
    exact ih.step hg

theorem Tame.exists_solve_eq_moment : ∃ n, g.solve [] = g.moment n ∧ (g.moment n).agenda = [] :=
  exists_solve_eq_run hg.wellFormed hg.unscripted []

/-- **Every call returns.** -/
theorem Tame.exists_returns {n : Nat} {us rest : List Task}
    (hA : (g.moment n).agenda = us ++ rest) : ∃ k, (g.moment n).Returns g rest k := by
  obtain ⟨last, -, hlast⟩ := hg.exists_solve_eq_moment
  refine (hg.steady_moment n).exists_returns hg (n := last) ?_ hA
  -- beyond the end nothing happens
  rw [← moment_add, Nat.add_comm, moment_add, Machine.run_of_nil hlast, hlast]

end Tame

end Setup

end HeapFlow
