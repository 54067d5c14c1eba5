import HeapFlow.Proofs.Rules

/-!
# Derivations stay in reached methods

The rules put a fact about a variable to use only when the method of the variable is reached. A run
does not look: a receiver is bound, and what goes through it takes effect, while the call edge still
waits. Looking would change nothing: what is derivable belongs to a method that is derivably
reached, so derivable facts are closed under the rules without that premise as well (`Stable`).
-/

namespace HeapFlow

/-- A set of facts is closed under the rules, also for methods that are not reached. -/
structure Stable (g : Setup) (D : Fact → Prop) : Prop where
  given : ∀ {f}, Given g f → D f
  follow : ∀ {h f}, D h → Follows g h f → D f
  flow : ∀ {e : Flow} {O}, D (.flow e) → D (.holds e.src O) → e.Passes g.program O →
    D (.holds e.dst O)
  current : ∀ {O C d v}, D (.started O) → D (.asks C) →
    g.program.method? threadCurrent = some d → v ∈ d.returned →
    D (.holds (.var C (.declared threadCurrent v)) O)
  copy : ∀ {C v O f}, .arrayCopy ∈ g.observers → D (.holds (.var C v) O) →
    g.Translates v.method → CopyFact g C O v f → D f

/-- Objects flow within a set of facts. -/
def FlowClosed (g : Setup) (D : Fact → Prop) : Prop :=
  ∀ {e : Flow} {O}, D (.flow e) → D (.holds e.src O) → e.Passes g.program O → D (.holds e.dst O)

theorem Stable.closedUnder {g : Setup} {D : Fact → Prop} (h : Stable g D) : ClosedUnder g D := by
  intro f hf
  cases hf with
  | given hf => exact h.given hf
  | follow hh _ hf => exact h.follow hh hf
  | flow he hO hp => exact h.flow he hO hp
  | current hO hC hd hv => exact h.current hO hC hd hv
  | copy ho hh _ ht hf => exact h.copy ho hh ht hf

section Home

variable {g : Setup} {m : MethodId} {N : At MethodId} {f : Fact} {O : At Obj} {C : Ctx} {v : Var}

theorem Program.eq_threadCurrent {p : Program} (h : p.returnsThread m = true) :
    m = threadCurrent := by
  simp only [returnsThread, Bool.and_eq_true, decide_eq_true_eq] at h
  exact h.1.2

/-- What a statement gives belongs to its method. -/
theorem StmtFact.home {M : At MethodId} {d : Method} {i : Nat} {s : Stmt} (h : StmtFact g M d i s f)
    (hN : f.home? = some N) : N = M := by
  cases h with
  | new | register | const | copy | cast | loadStatic | call => exact (Option.some.inj hN).symm
  | inner | storeStatic => cases hN

theorem BindFact.home {kind : CallKind} {S : At CallSite} (h : BindFact g kind S O m f)
    (hN : f.home? = some N) : N = ⟨S.ctx, S.item.method⟩ ∨ N = (g.recvEdge kind S O m).callee := by
  cases h with
  | call => exact .inl (Option.some.inj hN).symm
  | this => exact .inr (Option.some.inj hN).symm

/-- What follows from an object of a variable belongs to the method of the variable, or to a method
that it calls on the object. -/
theorem UseFact.home (h : UseFact g C O v f) (hN : f.home? = some N) :
    N = ⟨C, v.method⟩ ∨
      ∃ e, e.callee = N ∧ UseFact g C O v (.call e) ∧ (Fact.call e).home? = some ⟨C, v.method⟩ := by
  cases h with
  | load | loadElem => exact .inl (Option.some.inj hN).symm
  | store | storeElem | start => cases hN
  | call hd hs hv hn hf =>
    rcases hf.home hN with rfl | rfl
    · exact .inl rfl
    · exact .inr ⟨_, rfl, .call hd hs hv hn .call, rfl⟩
  | run ht hp hn hf =>
    rcases hf.home hN with rfl | rfl
    · exact .inl rfl
    · exact .inr ⟨_, rfl, .run ht hp hn .call, rfl⟩

theorem WireFact.home {e : CallEdge (At CallSite) (At MethodId)} (h : WireFact g e f)
    (hN : f.home? = some N) : N = ⟨e.site.ctx, e.site.item.method⟩ ∨ N = e.callee := by
  cases h with
  | arg => exact .inr (Option.some.inj hN).symm
  | ret => exact .inl (Option.some.inj hN).symm

theorem ArgFact.home (h : ArgFact g m f) (hN : f.home? = some N) : N = ⟨[], m⟩ := by
  cases h with
  | array => exact (Option.some.inj hN).symm
  | elem => cases hN

theorem CopyFact.eq_flow (h : CopyFact g C O v f) : ∃ F, f = .flow F := by
  cases h with
  | load | store => exact ⟨_, rfl⟩

theorem CopyFact.home (h : CopyFact g C O v f) (hN : f.home? = some N) : N = ⟨C, v.method⟩ := by
  cases h with
  | load => exact (Option.some.inj hN).symm
  | store => cases hN

/-- What follows from a fact belongs to the method of the fact, or to a method that is reached by
the fact or by a call that follows from it and belongs to the same method. -/
theorem Follows.home {h : Fact} (hf : Follows g h f) (hN : f.home? = some N) :
    h.home? = some N ∨ h = .reached N ∨ Follows g h (.reached N) ∨
      ∃ e, e.callee = N ∧ Follows g h (.call e) ∧ (Fact.call e).home? = h.home? := by
  cases hf with
  | stmt ht hd hs hf => exact .inr (.inl (by rw [hf.home hN]))
  | ask ho ht hm =>
    refine .inr (.inl ?_)
    rw [← Option.some.inj hN, ← Program.eq_threadCurrent hm]
  | wire hf =>
    rcases hf.home hN with rfl | rfl
    · exact .inl rfl
    · exact .inr (.inr (.inl (.reach _)))
  | use ht hf =>
    rcases hf.home hN with rfl | ⟨e, he, hf', hhome⟩
    · exact .inl rfl
    · exact .inr (.inr (.inr ⟨e, he, .use ht hf', hhome⟩))
  | announce | init | super | clinit | reach => cases hN

/-- **What is derivable belongs to reached methods.** -/
theorem Derivable.home (h : Derivable g f) : ∀ M, f.home? = some M → Derivable g (.reached M) := by
  induction h with
  | infer hF h ih =>
    intro N hN
    cases h with
    | given h =>
      obtain ⟨b, hb, he⟩ := h
      cases he with
      | entry => cases hN
      | args hm hf =>
        rw [hf.home hN]
        refine Derivable.closed g _ (.given ⟨b, hb, .entry ?_⟩)
        exact List.mem_append_left _ (List.mem_filter.mp hm).1
    | follow hh hm hf =>
      have hfollow : ∀ {f'}, Follows g _ f' → Derivable g f' := fun hf' =>
        .infer hF (.follow hh hm hf')
      rcases hf.home hN with hN' | rfl | hr | ⟨e, rfl, he, hhome⟩
      · exact ih _ hh N hN'
      · exact hF _ hh
      · exact hfollow hr
      · -- the call belongs to the method of the premise, so it may be put to use
        refine Derivable.closed g _ (.follow (hfollow he) (fun M hM => ?_) (.reach e))
        exact hF _ (hm M (hhome ▸ hM))
    | flow he hO hp => exact ih _ he N hN
    | current hO hC hd hv => exact ih _ hC N hN
    | copy ho hh hm ht hf =>
      rw [hf.home hN]
      exact hF _ hm

/-- **The derivable facts are closed under the rules without looking for reached methods.** -/
theorem Derivable.stable (g : Setup) : Stable g (Derivable g) where
  given h := Derivable.closed g _ (.given h)
  follow hh hf := Derivable.closed g _ (.follow hh hh.home hf)
  flow he hO hp := Derivable.closed g _ (.flow he hO hp)
  current hO hC hd hv := Derivable.closed g _ (.current hO hC hd hv)
  copy ho hh ht hf := Derivable.closed g _ (.copy ho hh (hh.home _ rfl) ht hf)

end Home

end HeapFlow
