import Mathlib.Data.Finset.Card
import Mathlib.Logic.Relation
import HeapFlow.Proofs.WellFormed

/-!
# Superclasses

The chain of a class is a walk of bounded length. The bound is never felt, not even where
superclasses go round in a circle, because a walk that long meets nothing new
(`Program.above_mem_chain`).
-/

namespace HeapFlow

namespace Program

variable {p : Program}

/-- The class right above a class. -/
def above (p : Program) (k : Class) : Option Class :=
  k.super.bind p.class?

variable {c d : String} {k : Class}

/-- A walk meets what is a number of steps above. -/
theorem mem_chainFrom {n : Nat} :
    k ∈ p.chainFrom n c ↔ ∃ i < n, (·.bind p.above)^[i] (p.class? c) = some k := by
  induction n generalizing c with
  | zero => simp [chainFrom]
  | succ n ih =>
    have hnone : ∀ i, (·.bind p.above)^[i] none = none := fun i =>
      Function.iterate_fixed rfl i
    unfold chainFrom
    cases hc : p.class? c with
    | none => simp [hnone]
    | some a =>
      refine List.mem_cons.trans ((or_congr_right (c := ∃ i < n,
        (·.bind p.above)^[i] (p.above a) = some k) ?_).trans ?_)
      · cases hs : a.super with
        | none => simp [above, hs, hnone]
        | some s => simpa [above, hs] using ih
      constructor
      · rintro (rfl | ⟨i, hi, h⟩)
        · exact ⟨0, Nat.succ_pos n, rfl⟩
        · exact ⟨i + 1, Nat.succ_lt_succ hi, h⟩
      · rintro ⟨i, hi, h⟩
        cases i with
        | zero => exact .inl (Option.some.inj h).symm
        | succ i => exact .inr ⟨i, Nat.lt_of_succ_lt_succ hi, h⟩

theorem mem_chain_self (h : p.class? c = some k) : k ∈ p.chain c :=
  mem_chainFrom.mpr ⟨0, List.length_pos_of_mem (mem_of_class? h), h⟩

/-- **A chain is complete**: with a class it has the class above. Among more steps up than there are
classes some class is met twice, so there is nothing that the bound on the chain cuts off. -/
theorem above_mem_chain {k' : Class} (h : k ∈ p.chain c) (hk : p.above k = some k') :
    k' ∈ p.chain c := by
  obtain ⟨i, hi, hik⟩ := mem_chainFrom.mp h
  set up : Option Class → Option Class := (·.bind p.above) with hup
  set n := p.classes.length with hn
  have hsucc : up^[i + 1] (p.class? c) = some k' := by
    rw [Function.iterate_succ_apply', hik]
    exact hk
  rcases Nat.lt_or_ge (i + 1) n with hlt | hge
  · exact mem_chainFrom.mpr ⟨i + 1, hlt, hsucc⟩
  -- the walk has as many steps as there are classes
  have hlast : up^[n] (p.class? c) = some k' := by
    rwa [show n = i + 1 by omega]
  have hmaps : ∀ j ∈ Finset.range (n + 1), up^[j] (p.class? c) ∈ (p.classes.map some).toFinset := by
    intro j hj
    rw [Finset.mem_range] at hj
    have hadd : up^[n - j] (up^[j] (p.class? c)) = some k' := by
      rw [← Function.iterate_add_apply, Nat.sub_add_cancel (by omega), hlast]
    cases hx : up^[j] (p.class? c) with
    | none =>
      rw [hx, Function.iterate_fixed (by rfl)] at hadd
      cases hadd
    | some a =>
      have ha : a ∈ p.chainFrom (j + 1) c := mem_chainFrom.mpr ⟨j, by omega, hx⟩
      simpa using mem_of_class? (class?_of_mem_chainFrom ha)
  have hcard : (p.classes.map some).toFinset.card < (Finset.range (n + 1)).card := by
    rw [Finset.card_range]
    have hle := (p.classes.map some).toFinset_card_le
    rw [List.length_map] at hle
    omega
  obtain ⟨a, ha, b, hb, hne, heq⟩ := Finset.exists_ne_map_eq_of_card_lt_of_maps_to hcard hmaps
  rw [Finset.mem_range] at ha hb
  -- the class met twice is met again on the rest of the way, earlier by as many steps
  have hshift : ∀ {a b}, a < b → b ≤ n → up^[a] (p.class? c) = up^[b] (p.class? c) →
      k' ∈ p.chain c := by
    intro a b hab hbn heq
    refine mem_chainFrom.mpr ⟨n - b + a, by omega, ?_⟩
    show up^[n - b + a] (p.class? c) = some k'
    rw [Function.iterate_add_apply, heq, ← Function.iterate_add_apply, Nat.sub_add_cancel hbn,
      hlast]
  rcases Nat.lt_or_gt_of_ne hne with hab | hab
  · exact hshift hab (by omega) heq
  · exact hshift hab (by omega) heq.symm

theorem chainFrom_induction {P : Class → Prop} {n : Nat} (hself : ∀ k, p.class? c = some k → P k)
    (habove : ∀ k k', P k → p.class? k.name = some k → p.above k = some k' → P k') :
    ∀ k ∈ p.chainFrom n c, P k := by
  intro k hk
  obtain ⟨i, -, hi⟩ := mem_chainFrom.mp hk
  clear hk
  induction i generalizing k with
  | zero => exact hself k hi
  | succ i ih =>
    rw [Function.iterate_succ_apply'] at hi
    obtain ⟨a, ha, hak⟩ := Option.bind_eq_some_iff.mp hi
    have hmem : a ∈ p.chainFrom (i + 1) c := mem_chainFrom.mpr ⟨i, Nat.lt_succ_self i, ha⟩
    exact habove a k (ih a ha) (class?_of_mem_chainFrom hmem) hak

/-- **A class has a superclass**, both given by name. The superclass need not be declared. -/
def Super (p : Program) (a b : String) : Prop :=
  ∃ k, p.class? a = some k ∧ k.super = some b

/-- No class is above itself. -/
def Acyclic (p : Program) : Prop :=
  ∀ c, ¬ Relation.TransGen p.Super c c

/-- **A chain has the declared classes to which superclasses lead.** -/
theorem exists_mem_chain_iff :
    (∃ k ∈ p.chain c, k.name = d) ↔
      (p.class? d).isSome = true ∧ Relation.ReflTransGen p.Super c d := by
  constructor
  · rintro ⟨k, hk, rfl⟩
    refine ⟨Option.isSome_iff_exists.mpr ⟨k, class?_of_mem_chainFrom hk⟩, ?_⟩
    refine chainFrom_induction (P := fun k => Relation.ReflTransGen p.Super c k.name)
      (fun k hk => ?_) (fun k k' hk hclass habove => ?_) k hk
    · rw [name_of_class? hk]
    · obtain ⟨s, hs, hk'⟩ := Option.bind_eq_some_iff.mp habove
      rw [name_of_class? hk']
      exact hk.tail ⟨k, hclass, hs⟩
  · rintro ⟨hd, h⟩
    induction h with
    | refl =>
      obtain ⟨k, hk⟩ := Option.isSome_iff_exists.mp hd
      exact ⟨k, mem_chain_self hk, name_of_class? hk⟩
    | tail _ hbd ih =>
      obtain ⟨kb, hkb, hsuper⟩ := hbd
      obtain ⟨k, hk⟩ := Option.isSome_iff_exists.mp hd
      obtain ⟨k', hk', hname⟩ := ih (by rw [hkb]; rfl)
      have heq : k' = kb := by
        have hclass := class?_of_mem_chainFrom hk'
        rw [hname, hkb] at hclass
        exact (Option.some.inj hclass).symm
      subst heq
      refine ⟨k, above_mem_chain hk' ?_, name_of_class? hk⟩
      rw [above, hsuper]
      exact hk

theorem transGen_super_iff (hk : p.class? c = some k) :
    Relation.TransGen p.Super c d ↔ ∃ s, k.super = some s ∧ Relation.ReflTransGen p.Super s d := by
  rw [Relation.TransGen.head'_iff]
  refine exists_congr fun s => and_congr_left fun _ => ?_
  simp [Super, hk]

/-- **A class is found above itself just if it lies on a cycle.** -/
theorem any_above_iff (hk : p.class? c = some k) :
    ((match k.super with | some s => p.chain s | none => []).any fun a => a.name == c) = true ↔
      Relation.TransGen p.Super c c := by
  rw [transGen_super_iff hk]
  cases hs : k.super with
  | none => simp
  | some s =>
    have hchain := exists_mem_chain_iff (p := p) (c := s) (d := c)
    simp only [hk, Option.isSome_some, true_and] at hchain
    simpa using hchain

end Program

end HeapFlow
