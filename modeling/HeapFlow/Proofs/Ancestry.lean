import Mathlib.Order.WellFoundedSet
import HeapFlow.Proofs.Linking

/-!
# Above a class

What is above a class is what superclasses and interfaces lead to (`Program.Link`). Where nothing is
above itself (`Program.Layered`), every step up leaves fewer classes above, so walks end by
themselves and can be said without a bound: being above is reachability, the chain of a class is
what asking for superclasses comes to (`Program.Upward`), and a search goes along the chain and then
through the interfaces along it (`Program.Visits`).

Loading does not look for cycles through interfaces, so `Program.Layered` is an assumption; that all
steps lead to declared classes and every class is below the root, loading does see to
(`Program.Linked`).
-/

namespace HeapFlow

open List Relation Source

namespace Program

variable {p : Program}

/-- A class leads to its superclass and to its interfaces. -/
def Link (p : Program) (a b : String) : Prop :=
  ∃ k, p.class? a = some k ∧ (k.super = some b ∨ b ∈ k.interfaces)

/-- **No class or interface is above itself.** -/
def Layered (p : Program) : Prop :=
  ∀ c, ¬ TransGen p.Link c c

theorem Super.link {a b : String} (h : p.Super a b) : p.Link a b := by
  obtain ⟨k, hk, hs⟩ := h
  exact ⟨k, hk, .inl hs⟩

/-- It suffices to rank the classes. -/
theorem layered_of_rank (rank : String → Nat)
    (h : ∀ k ∈ p.classes, ∀ b ∈ k.super.toList ++ k.interfaces, rank b < rank k.name) :
    p.Layered := by
  have hstep : ∀ {a b}, p.Link a b → rank b < rank a := by
    rintro a b ⟨k, hk, hb⟩
    rw [← name_of_class? hk]
    refine h k (mem_of_class? hk) b (mem_append.mpr ?_)
    exact hb.imp_left fun hs => by simp [hs]
  have hwalk : ∀ {a b}, TransGen p.Link a b → rank b < rank a := by
    intro a b hab
    induction hab with
    | single hab => exact hstep hab
    | tail _ hbc ih => exact (hstep hbc).trans ih
  exact fun c hc => Nat.lt_irrefl _ (hwalk hc)

open Classical in
/-- The number of declared classes that a class leads to, itself included. -/
noncomputable def height (p : Program) (c : String) : Nat :=
  (p.names.toFinset.filter fun d => ReflTransGen p.Link c d).card

theorem height_le (c : String) : p.height c ≤ p.classes.length := by
  classical
  calc p.height c ≤ p.names.toFinset.card := Finset.card_filter_le _ _
    _ ≤ p.names.length := toFinset_card_le _
    _ = p.classes.length := length_map _

/-- No walk is longer than the bound that it is given. -/
theorem height_le_depthBound (c : String) : p.height c ≤ p.depthBound :=
  Nat.le_succ_of_le (Nat.le_add_left_of_le (height_le c))

variable {c : String} {k : Class}

theorem mem_names_of_class? (hk : p.class? c = some k) : c ∈ p.names :=
  mem_map.mpr ⟨k, mem_of_class? hk, name_of_class? hk⟩

theorem height_pos (hk : p.class? c = some k) : 0 < p.height c := by
  classical
  refine Finset.card_pos.mpr ⟨c, Finset.mem_filter.mpr ⟨?_, .refl⟩⟩
  exact mem_toFinset.mpr (mem_names_of_class? hk)

theorem class?_of_height_le_zero (h : p.height c ≤ 0) : p.class? c = none := by
  cases hk : p.class? c with
  | none => rfl
  | some k => exact absurd (height_pos hk) (Nat.not_lt.mpr h)

section Layered

variable (hp : p.Layered)

include hp

variable {a b : String}

/-- **Every step up leaves fewer classes above.** -/
theorem Layered.height_lt (h : p.Link a b) : p.height b < p.height a := by
  classical
  obtain ⟨k, hk, -⟩ := id h
  refine Finset.card_lt_card ⟨fun d hd => ?_, fun hsub => ?_⟩
  · obtain ⟨hd, hbd⟩ := Finset.mem_filter.mp hd
    exact Finset.mem_filter.mpr ⟨hd, hbd.head h⟩
  · have hself : a ∈ p.names.toFinset.filter fun d => ReflTransGen p.Link a d :=
      Finset.mem_filter.mpr ⟨mem_toFinset.mpr (mem_names_of_class? hk), .refl⟩
    exact hp a (.head' h (Finset.mem_filter.mp (hsub hself)).2)

theorem Layered.height_lt_of_transGen (h : TransGen p.Link a b) : p.height b < p.height a := by
  induction h with
  | single h => exact hp.height_lt h
  | tail _ h ih => exact (hp.height_lt h).trans ih

theorem Layered.wellFounded : WellFounded fun b a => TransGen p.Link a b :=
  Subrelation.wf hp.height_lt_of_transGen (measure p.height).wf

theorem Layered.reachesIn_iff {n : Nat} (hn : p.height a < n) :
    p.reachesIn n a b = true ↔ ReflTransGen p.Link a b := by
  induction n generalizing a with
  | zero => exact absurd hn (Nat.not_lt_zero _)
  | succ n ih =>
    rw [ReflTransGen.cases_head_iff, reachesIn, Bool.or_eq_true, beq_iff_eq]
    refine or_congr_right ?_
    cases hk : p.class? a with
    | none => simp [Link, hk]
    | some k =>
      have hstep : ∀ {c}, p.Link a c → (p.reachesIn n c b = true ↔ ReflTransGen p.Link c b) :=
        fun hc => ih ((hp.height_lt hc).trans_le (Nat.le_of_lt_succ hn))
      simp only [Bool.or_eq_true, Option.any_eq_true, any_eq_true]
      constructor
      · rintro (⟨s, hs, h⟩ | ⟨i, hi, h⟩)
        · exact ⟨s, ⟨k, hk, .inl hs⟩, (hstep ⟨k, hk, .inl hs⟩).mp h⟩
        · exact ⟨i, ⟨k, hk, .inr hi⟩, (hstep ⟨k, hk, .inr hi⟩).mp h⟩
      · rintro ⟨c, ⟨k', hk', hc⟩, h⟩
        cases hk.symm.trans hk'
        have h := (hstep ⟨k, hk, hc⟩).mpr h
        exact hc.imp (fun hs => ⟨c, hs, h⟩) (fun hi => ⟨c, hi, h⟩)

/-- **A class is found above another one just if superclasses and interfaces lead there.** -/
theorem Layered.reaches_iff : p.reaches a b = true ↔ ReflTransGen p.Link a b :=
  hp.reachesIn_iff (Nat.lt_succ_of_le (Nat.le_add_left_of_le (height_le a)))

end Layered

/-- **How the search for a class above another one goes**, with its answer, if it comes to an end:
the superclass is searched first, then the interfaces in order, until the class is found. -/
inductive Climbs (p : Program) (b : String) : String → Bool → Prop where
  | here : Climbs p b b true
  | super {a s : String} {k : Class} (hne : a ≠ b) (hk : p.class? a = some k)
      (hs : k.super = some s) (h : Climbs p b s true) : Climbs p b a true
  /-- It is found above an interface, and neither above the superclass nor an earlier interface. -/
  | interface {a i : String} {k : Class} {before after : List String} (hne : a ≠ b)
      (hk : p.class? a = some k) (hs : ∀ s, k.super = some s → Climbs p b s false)
      (hi : k.interfaces = before ++ i :: after) (hbefore : ∀ j ∈ before, Climbs p b j false)
      (h : Climbs p b i true) : Climbs p b a true
  | nowhere {a : String} {k : Class} (hne : a ≠ b) (hk : p.class? a = some k)
      (hs : ∀ s, k.super = some s → Climbs p b s false)
      (hi : ∀ i ∈ k.interfaces, Climbs p b i false) : Climbs p b a false

/-! ### Chains -/

/-- **The superclasses of a class**, the class itself first, up to one that has none. -/
inductive Upward (p : Program) : String → List Class → Prop where
  | top {c : String} {k : Class} (hk : p.class? c = some k) (hs : k.super = none) : Upward p c [k]
  | up {c s : String} {k : Class} {l : List Class} (hk : p.class? c = some k)
      (hs : k.super = some s) (h : Upward p s l) : Upward p c (k :: l)

theorem Upward.unique {l l' : List Class} (h : p.Upward c l) (h' : p.Upward c l') : l = l' := by
  induction h generalizing l' with
  | top hk hs =>
    cases h' with
    | top hk' => rw [Option.some.inj (hk.symm.trans hk')]
    | up hk' hs' =>
      cases hk.symm.trans hk'
      cases hs.symm.trans hs'
  | up hk hs _ ih =>
    cases h' with
    | top hk' hs' =>
      cases hk.symm.trans hk'
      cases hs.symm.trans hs'
    | up hk' hs' h' =>
      cases hk.symm.trans hk'
      cases hs.symm.trans hs'
      rw [ih h']

section Chains

variable (hp : p.Layered)

include hp

variable {c : String}

/-- Bounds that are large enough make no difference. -/
theorem Layered.chainFrom_eq {m n : Nat} (hm : p.height c ≤ m) (hn : p.height c ≤ n) :
    p.chainFrom m c = p.chainFrom n c := by
  induction m generalizing n c with
  | zero =>
    have hc := class?_of_height_le_zero hm
    cases n <;> simp [chainFrom, hc]
  | succ m ih =>
    cases n with
    | zero =>
      have hc := class?_of_height_le_zero hn
      simp [chainFrom, hc]
    | succ n =>
      simp only [chainFrom]
      cases hk : p.class? c with
      | none => rfl
      | some k =>
        refine congrArg (k :: ·) ?_
        cases hs : k.super with
        | none => rfl
        | some s =>
          have hlt := hp.height_lt ⟨k, hk, .inl hs⟩
          exact ih (by omega) (by omega)

/-- **A chain is what asking for superclasses comes to.** -/
theorem Upward.chain_eq {l : List Class} (h : p.Upward c l) : p.chain c = l := by
  induction h with
  | @top c k hk hs =>
    have hpos := length_pos_of_mem (mem_of_class? hk)
    obtain ⟨n, hn⟩ := Nat.exists_eq_succ_of_ne_zero hpos.ne'
    simp [chain, hn, chainFrom, hk, hs]
  | @up c s k l hk hs _ ih =>
    have hpos := length_pos_of_mem (mem_of_class? hk)
    obtain ⟨n, hn⟩ := Nat.exists_eq_succ_of_ne_zero hpos.ne'
    have hlt := hp.height_lt ⟨k, hk, .inl hs⟩
    have hle := p.height_le c
    rw [chain, hp.chainFrom_eq (n := n) (p.height_le s) (by omega)] at ih
    simp only [chain, hn, chainFrom, hk, hs, ih]

end Chains

theorem mem_names_iff : c ∈ p.names ↔ (p.class? c).isSome = true := by
  rw [← not_iff_not, Bool.not_eq_true, Option.isSome_eq_false_iff, Option.isNone_iff_eq_none,
    class?_eq_none_iff]

/-- **Induction along superclasses**, downwards from those that have none. -/
theorem Acyclic.induction (hp : p.Acyclic) {P : String → Prop}
    (h : ∀ c, (∀ s, (p.class? s).isSome = true → p.Super c s → P s) → P c)
    (hc : (p.class? c).isSome = true) : P c := by
  -- there are finitely many classes, and none is above itself
  have hwf : {c | c ∈ p.names}.WellFoundedOn fun b a => TransGen p.Super a b :=
    letI : IsStrictOrder String fun b a => TransGen p.Super a b :=
      { irrefl := hp, trans := fun _ _ _ hba hcb => hcb.trans hba }
    (finite_toSet p.names).wellFoundedOn
  refine hwf.induction (mem_names_iff.mpr hc) fun a _ ih => h a fun s hs has => ?_
  exact ih s (mem_names_iff.mpr hs) (.single has)

/-- **Every chain comes to an end** where no class is above itself. -/
theorem Acyclic.exists_upward (hp : p.Acyclic)
    (hdeclared : ∀ {a b}, p.Super a b → (p.class? b).isSome = true)
    (hc : (p.class? c).isSome = true) : ∃ l, p.Upward c l := by
  refine hp.induction (P := fun c => (p.class? c).isSome = true → ∃ l, p.Upward c l)
    (fun a ih ha => ?_) hc hc
  obtain ⟨k, hk⟩ := Option.isSome_iff_exists.mp ha
  cases hs : k.super with
  | none => exact ⟨_, .top hk hs⟩
  | some s =>
    have hsuper : p.Super a s := ⟨k, hk, hs⟩
    have hdecl := hdeclared hsuper
    obtain ⟨l, h⟩ := ih s hdecl hsuper hdecl
    exact ⟨_, .up hk hs h⟩

theorem Layered.acyclic (hp : p.Layered) : p.Acyclic := by
  intro c hc
  have hle : p.Super ≤ p.Link := fun _ _ => Super.link
  exact hp c (TransGen.mono hle _ _ hc)

theorem link_of_mem_chain (hk : k ∈ p.chain c) : ReflTransGen p.Link c k.name := by
  have hle : p.Super ≤ p.Link := fun _ _ => Super.link
  exact ReflTransGen.mono hle _ _ (exists_mem_chain_iff.mp ⟨k, hk, rfl⟩).2

/-! ### Searches -/

/-- **The classes that are met when interfaces are searched one after the other**, in order: of each
interface first its chain, then all that is met on searching the interfaces along its chain. -/
inductive Visits (p : Program) : List String → List Class → Prop where
  | none : Visits p [] []
  | next {i : String} {is : List String} {up across rest : List Class} (hup : p.Upward i up)
      (hacross : Visits p (up.flatMap (·.interfaces)) across) (hrest : Visits p is rest) :
      Visits p (i :: is) (up ++ across ++ rest)

/-- **How a search through interfaces goes**, with its answer, if it comes to an end: of each
interface first its chain is asked, then the interfaces along the chain are searched in the same
way, until there is an answer. -/
inductive Finds {α : Type} (p : Program) (ask : Class → Option α) :
    List String → Option α → Prop where
  | nothing : Finds p ask [] none
  | here {i : String} {is : List String} {up : List Class} {a : α} (hup : p.Upward i up)
      (h : up.findSome? ask = some a) : Finds p ask (i :: is) (some a)
  | across {i : String} {is : List String} {up : List Class} {a : α} (hup : p.Upward i up)
      (hno : up.findSome? ask = none) (h : Finds p ask (up.flatMap (·.interfaces)) (some a)) :
      Finds p ask (i :: is) (some a)
  | next {i : String} {is : List String} {up : List Class} {r : Option α} (hup : p.Upward i up)
      (hno : up.findSome? ask = none) (h : Finds p ask (up.flatMap (·.interfaces)) none)
      (hrest : Finds p ask is r) : Finds p ask (i :: is) r

section Searches

variable {α : Type} (ask : Class → Option α)

variable {ask} in
/-- A search that finds nothing and is led on and on has no end. -/
theorem not_finds {S : String → Prop} (hS : ∀ i, S i → ∃ up, p.Upward i up ∧
      up.findSome? ask = none ∧ ∃ j is, up.flatMap (·.interfaces) = j :: is ∧ S j)
    {i : String} (hi : S i) (is : List String) (r : Option α) : ¬ p.Finds ask (i :: is) r := by
  intro h
  generalize heq : i :: is = l at h
  induction h generalizing i is with
  | nothing => cases heq
  | here hup h =>
    cases heq
    obtain ⟨up, hup', hno, -⟩ := hS _ hi
    rw [hup.unique hup', hno] at h
    cases h
  | across hup _ _ ih | next hup _ _ _ ih =>
    cases heq
    obtain ⟨up, hup', -, j, js, hjs, hj⟩ := hS _ hi
    exact ih hj js (by rw [hup.unique hup', hjs])

/-- Where all that is to be searched can be listed, the search comes to an end. -/
theorem Visits.finds {is : List String} {l : List Class} (h : p.Visits is l) :
    p.Finds ask is (l.findSome? ask) := by
  induction h with
  | none => exact .nothing
  | @next i is up across rest hup _ _ ihacross ihrest =>
    rw [append_assoc, findSome?_append, findSome?_append]
    cases hhere : up.findSome? ask with
    | some a => exact .here hup hhere
    | none =>
      cases hacross : across.findSome? ask with
      | some a => exact .across hup hhere (hacross ▸ ihacross)
      | none => exact .next hup hhere (hacross ▸ ihacross) ihrest

theorem searchFrom_succ (n : Nat) (c : String) :
    p.searchFrom ask (n + 1) c = ((p.chain c).findSome? ask).or
      (((p.chain c).flatMap (·.interfaces)).findSome? (p.searchFrom ask n)) := by
  have hflat : ∀ l : List Class, (l.findSome? fun k => k.interfaces.findSome? fun i =>
      p.searchFrom ask n i) = (l.flatMap (·.interfaces)).findSome? (p.searchFrom ask n) := by
    intro l
    induction l with
    | nil => rfl
    | cons k l ih =>
      rw [flatMap_cons, findSome?_append, ← ih, findSome?_cons]
      cases k.interfaces.findSome? (p.searchFrom ask n) <;> rfl
  rw [searchFrom, ← hflat]
  cases (p.chain c).findSome? ask <;> rfl

variable {c : String}

theorem search_of_class? {k : Class} {a : α} (hk : p.class? c = some k) (ha : ask k = some a) :
    p.search ask c = some a := by
  obtain ⟨n, hn⟩ := Nat.exists_eq_add_one.mpr (length_pos_of_mem (mem_of_class? hk))
  rw [search, depthBound, searchFrom_succ, chain, hn, chainFrom, hk, findSome?_cons, ha]
  rfl

theorem searchFrom_of_class?_none {n : Nat} (hc : p.class? c = none) :
    p.searchFrom ask n c = none := by
  have hchain : p.chain c = [] := by
    unfold chain
    cases p.classes.length <;> simp [chainFrom, hc]
  cases n <;> simp [searchFrom, hchain]

variable (hp : p.Layered)

include hp

theorem Layered.height_interface_lt {i : String} (hi : i ∈ (p.chain c).flatMap (·.interfaces)) :
    p.height i < p.height c := by
  obtain ⟨k, hk, hi⟩ := mem_flatMap.mp hi
  exact hp.height_lt_of_transGen
    (.tail' (link_of_mem_chain hk) ⟨k, class?_of_mem_chainFrom hk, .inr hi⟩)

theorem Layered.searchFrom_eq {m n : Nat} (hm : p.height c ≤ m) (hn : p.height c ≤ n) :
    p.searchFrom ask m c = p.searchFrom ask n c := by
  induction m generalizing n c with
  | zero =>
    have hc := class?_of_height_le_zero hm
    rw [searchFrom_of_class?_none ask hc, searchFrom_of_class?_none ask hc]
  | succ m ih =>
    cases n with
    | zero =>
      have hc := class?_of_height_le_zero hn
      rw [searchFrom_of_class?_none ask hc, searchFrom_of_class?_none ask hc]
    | succ n =>
      have hsame : ∀ l : List String, (∀ i ∈ l, p.height i < p.height c) →
          l.findSome? (p.searchFrom ask m) = l.findSome? (p.searchFrom ask n) := by
        intro l hl
        induction l with
        | nil => rfl
        | cons i l ihl =>
          have hi := hl i (.head _)
          rw [findSome?_cons, findSome?_cons, ih (n := n) (by omega) (by omega),
            ihl fun j hj => hl j (.tail _ hj)]
      rw [searchFrom_succ, searchFrom_succ, hsame _ fun i hi => hp.height_interface_lt hi]

/-- **A search, without a bound.** -/
theorem Layered.search_eq (c : String) :
    p.search ask c = ((p.chain c).findSome? ask).or
      (((p.chain c).flatMap (·.interfaces)).findSome? (p.search ask)) := by
  have hbound : p.search ask = p.searchFrom ask p.classes.length := by
    funext i
    exact hp.searchFrom_eq ask (height_le_depthBound i) (height_le i)
  rw [hbound, ← searchFrom_succ]
  exact hp.searchFrom_eq ask (height_le c) (Nat.le_succ_of_le (height_le c))

/-- **Searching interfaces one after the other asks the classes that are met, in order.** -/
theorem Visits.findSome?_search {is : List String} {l : List Class} (h : p.Visits is l) :
    is.findSome? (p.search ask) = l.findSome? ask := by
  induction h with
  | none => rfl
  | @next i is up across rest hup _ _ ihacross ihrest =>
    have hi : p.search ask i = (up ++ across).findSome? ask := by
      rw [hp.search_eq, hup.chain_eq hp, ihacross, findSome?_append]
    rw [findSome?_append, ← hi, ← ihrest, findSome?_cons]
    cases p.search ask i <;> rfl

/-- **A search asks the chain of a class and then what is met on searching the interfaces along
it.** -/
theorem Upward.search_eq {up across : List Class} (hup : p.Upward c up)
    (hacross : p.Visits (up.flatMap (·.interfaces)) across) :
    p.search ask c = (up ++ across).findSome? ask := by
  rw [hp.search_eq, hup.chain_eq hp, hacross.findSome?_search ask hp, findSome?_append]

end Searches

theorem mem_chain_iff :
    k ∈ p.chain c ↔ p.class? k.name = some k ∧ ReflTransGen p.Super c k.name := by
  constructor
  · intro hk
    exact ⟨class?_of_mem_chainFrom hk, (exists_mem_chain_iff.mp ⟨k, hk, rfl⟩).2⟩
  · rintro ⟨hk, h⟩
    obtain ⟨k', hk', hname⟩ := exists_mem_chain_iff.mpr ⟨Option.isSome_iff_exists.mpr ⟨k, hk⟩, h⟩
    have hsame := class?_of_mem_chainFrom hk'
    rw [hname, hk] at hsame
    exact Option.some.inj hsame ▸ hk'

/-- **What is above a class** is on its chain, or above an interface along its chain. -/
theorem link_iff_of_chain {d : String} :
    ReflTransGen p.Link c d ↔ ReflTransGen p.Super c d ∨
      ∃ i ∈ (p.chain c).flatMap (·.interfaces), ReflTransGen p.Link i d := by
  constructor
  · intro h
    induction h using ReflTransGen.head_induction_on with
    | refl => exact .inl .refl
    | @head c b hcb hbd ih =>
      obtain ⟨k, hk, hs | hi⟩ := hcb
      · -- the chain of the superclass is part of the chain
        have hup : p.Super c b := ⟨k, hk, hs⟩
        refine ih.imp (fun h => h.head hup) ?_
        rintro ⟨i, hi, hid⟩
        obtain ⟨a, ha, hai⟩ := mem_flatMap.mp hi
        obtain ⟨hclass, hba⟩ := mem_chain_iff.mp ha
        exact ⟨i, mem_flatMap.mpr ⟨a, mem_chain_iff.mpr ⟨hclass, hba.head hup⟩, hai⟩, hid⟩
      · exact .inr ⟨b, mem_flatMap.mpr ⟨k, mem_chain_self hk, hi⟩, hbd⟩
  · rintro (h | ⟨i, hi, hid⟩)
    · have hle : p.Super ≤ p.Link := fun _ _ => Super.link
      exact ReflTransGen.mono hle _ _ h
    · obtain ⟨k, hk, hi⟩ := mem_flatMap.mp hi
      exact ((link_of_mem_chain hk).tail ⟨k, class?_of_mem_chainFrom hk, .inr hi⟩).trans hid

section Met

variable (hp : p.Layered)

include hp

/-- What is met is what is above one of the interfaces. -/
theorem Visits.mem_iff {is : List String} {l : List Class} (h : p.Visits is l) {d : Class} :
    d ∈ l ↔ p.class? d.name = some d ∧ ∃ i ∈ is, ReflTransGen p.Link i d.name := by
  induction h with
  | none => simp
  | @next i is up across rest hup _ _ ihacross ihrest =>
    have hi : d ∈ up ∨ d ∈ across ↔ p.class? d.name = some d ∧ ReflTransGen p.Link i d.name := by
      rw [ihacross, ← hup.chain_eq hp, mem_chain_iff, ← and_or_left, ← link_iff_of_chain]
    rw [mem_append, mem_append, hi, ihrest]
    simp only [mem_cons, exists_eq_or_imp, and_or_left]

/-- **The classes that a search meets are those above the class that it starts from.** -/
theorem Upward.mem_iff {c : String} {up across : List Class} (hup : p.Upward c up)
    (hacross : p.Visits (up.flatMap (·.interfaces)) across) {d : Class} :
    d ∈ up ++ across ↔ p.class? d.name = some d ∧ ReflTransGen p.Link c d.name := by
  rw [mem_append, hacross.mem_iff hp, ← hup.chain_eq hp, mem_chain_iff, ← and_or_left,
    ← link_iff_of_chain]

end Met

/-- **The walks of the hierarchy come to an end**, without the bounds that they are given. -/
structure WalksEnd (p : Program) : Prop where
  chain : ∀ {c}, (p.class? c).isSome = true → p.Upward c (p.chain c)
  search : ∀ {α : Type} (ask : Class → Option α) {c}, (p.class? c).isSome = true →
    p.Finds ask [c] (p.search ask c)
  reaches : ∀ (b : String) {a}, (p.class? a).isSome = true → p.Climbs b a (p.reaches a b)

/-! ### Linked programs -/

/-- **What loading establishes of superclasses and interfaces.** -/
structure Linked (p : Program) : Prop where
  names : p.names.Nodup
  declared : ∀ {a b}, p.Link a b → (p.class? b).isSome = true
  root : (p.class? objectClass).isSome = true
  top : ∀ b, ¬ p.Super objectClass b
  below : ∀ {c k}, p.class? c = some k → k.super = none → c = objectClass

namespace Linked

variable (hl : p.Linked) (hp : p.Layered)

include hl hp

variable {c : String}

theorem exists_upward (hc : (p.class? c).isSome = true) : ∃ l, p.Upward c l :=
  hp.acyclic.exists_upward (fun h => hl.declared h.link) hc

/-- **Every search comes to an end.** -/
theorem exists_visits {up : List Class} (hup : p.Upward c up) :
    ∃ across, p.Visits (up.flatMap (·.interfaces)) across := by
  induction c using hp.wellFounded.induction generalizing up with
  | _ c ih =>
    have hall : ∀ i ∈ up.flatMap (·.interfaces),
        ∃ l across, p.Upward i l ∧ p.Visits (l.flatMap (·.interfaces)) across := by
      intro i hi
      rw [← hup.chain_eq hp] at hi
      obtain ⟨k, hk, hi⟩ := mem_flatMap.mp hi
      have hlink : p.Link k.name i := ⟨k, class?_of_mem_chainFrom hk, .inr hi⟩
      obtain ⟨l, hl'⟩ := hl.exists_upward hp (hl.declared hlink)
      obtain ⟨across, h⟩ := ih i (.tail' (link_of_mem_chain hk) hlink) hl'
      exact ⟨l, across, hl', h⟩
    clear ih hup
    generalize up.flatMap (·.interfaces) = is at hall
    induction is with
    | nil => exact ⟨_, .none⟩
    | cons i is ihis =>
      obtain ⟨l, across, hl', h⟩ := hall i (.head _)
      obtain ⟨rest, hrest⟩ := ihis fun j hj => hall j (.tail _ hj)
      exact ⟨_, .next hl' h hrest⟩

/-- The search for a class comes to an end. -/
theorem climbs (b : String) {a : String} (ha : (p.class? a).isSome = true) :
    p.Climbs b a (p.reaches a b) := by
  induction a using hp.wellFounded.induction with
  | _ a ih =>
    by_cases hne : a = b
    · subst hne
      rw [hp.reaches_iff.mpr .refl]
      exact .here
    obtain ⟨k, hk⟩ := Option.isSome_iff_exists.mp ha
    have hnext : ∀ {c}, p.Link a c → p.Climbs b c (p.reaches c b) := fun hc =>
      ih _ (.single hc) (hl.declared hc)
    have hfound : ∀ {c}, p.Link a c → p.reaches c b = true → p.reaches a b = true :=
      fun hc h => hp.reaches_iff.mpr ((hp.reaches_iff.mp h).head hc)
    -- the superclass is tried first, then the interfaces in their order
    have hsuper : (∃ s, k.super = some s ∧ p.reaches s b = true) ∨
        ∀ s, k.super = some s → p.reaches s b = false := by
      cases k.super with
      | none => simp
      | some s => cases h : p.reaches s b <;> simp [h]
    rcases hsuper with ⟨s, hs, h⟩ | hsuper
    · have hlink : p.Link a s := ⟨k, hk, .inl hs⟩
      rw [hfound hlink h]
      exact .super hne hk hs (h ▸ hnext hlink)
    have hs : ∀ s, k.super = some s → p.Climbs b s false := fun s hs =>
      hsuper s hs ▸ hnext ⟨k, hk, .inl hs⟩
    cases hfind : k.interfaces.find? (p.reaches · b) with
    | some i =>
      obtain ⟨h, before, after, hi, hbefore⟩ := find?_eq_some_iff_append.mp hfind
      have hlink : ∀ {j}, j ∈ before ++ i :: after → p.Link a j := fun hj =>
        ⟨k, hk, .inr (hi ▸ hj)⟩
      rw [hfound (hlink (by simp)) h]
      refine .interface hne hk hs hi (fun j hj => ?_) (h ▸ hnext (hlink (by simp)))
      have hj' : p.reaches j b = false := by simpa using hbefore j hj
      exact hj' ▸ hnext (hlink (mem_append_left _ hj))
    | none =>
      have hi : ∀ i ∈ k.interfaces, p.reaches i b = false := by simpa using hfind
      have hnone : p.reaches a b = false := by
        rw [Bool.eq_false_iff, ne_eq, hp.reaches_iff, ReflTransGen.cases_head_iff]
        rintro (heq | ⟨c, ⟨k', hk', hc⟩, h⟩)
        · exact hne heq
        · cases hk.symm.trans hk'
          have hc' : p.reaches c b = false := hc.elim (hsuper c) (hi c)
          rw [hp.reaches_iff.mpr h] at hc'
          cases hc'
      rw [hnone]
      exact .nowhere hne hk hs fun i hmem => hi i hmem ▸ hnext ⟨k, hk, .inr hmem⟩

/-- **All walks come to an end by themselves**, and answer what the bounded ones answer. -/
theorem walksEnd : p.WalksEnd where
  chain hc := by
    obtain ⟨up, hup⟩ := hl.exists_upward hp hc
    rwa [hup.chain_eq hp]
  search ask c hc := by
    obtain ⟨up, hup⟩ := hl.exists_upward hp hc
    obtain ⟨across, hacross⟩ := hl.exists_visits hp hup
    have h := (Visits.next hup hacross .none).finds ask
    rwa [append_nil, ← hup.search_eq ask hp hacross] at h
  reaches b _ := hl.climbs hp b

omit hp in
/-- **Every class is below the root**, where no class is above itself. -/
theorem reaches_root (hp : p.Acyclic) (hc : (p.class? c).isSome = true) :
    ReflTransGen p.Super c objectClass := by
  refine hp.induction (P := fun c => (p.class? c).isSome = true →
    ReflTransGen p.Super c objectClass) (fun a ih ha => ?_) hc hc
  obtain ⟨k, hk⟩ := Option.isSome_iff_exists.mp ha
  cases hs : k.super with
  | none => rw [hl.below hk hs]
  | some s =>
    have hsuper : p.Super a s := ⟨k, hk, hs⟩
    have hdeclared := hl.declared hsuper.link
    exact (ih s hdeclared hsuper hdeclared).head hsuper

/-- **Nothing is above the root**, neither a class nor an interface: it would be below the root,
too. -/
theorem not_link_root (b : String) : ¬ p.Link objectClass b := by
  intro h
  have hle : p.Super ≤ p.Link := fun _ _ => Super.link
  exact hp _ (.head' h (ReflTransGen.mono hle _ _ (hl.reaches_root hp.acyclic (hl.declared h))))

end Linked

end Program

/-- What loading establishes of a class among classes with given names: it is below declared ones,
and only the root class is without a superclass. -/
structure Class.LinkedAmong (names : List String) (k : Class) : Prop where
  super : ∀ s, k.super = some s → s ∈ names
  interfaces : ∀ i ∈ k.interfaces, i ∈ names
  root : k.super = none ↔ k.name = objectClass

theorem Class.LinkedAmong.of_eq {names : List String} {k k' : Class} (hk : k.LinkedAmong names)
    (hname : k'.name = k.name) (hsuper : k'.super = k.super)
    (hinterfaces : k'.interfaces = k.interfaces) : k'.LinkedAmong names where
  super := hsuper ▸ hk.super
  interfaces := hinterfaces ▸ hk.interfaces
  root := by rw [hsuper, hname, hk.root]

namespace Source

variable {c : ClassSource} {cs : List ClassSource} {p : Program} {k k' : Class}

theorem mem_names_outlined {n : String} (h : n ∈ Program.base.names) :
    n ∈ (outlined Program.base cs).names := by
  rw [names_outlined]
  exact mem_append_left _ h

/-- The first pass links classes to declared ones. -/
theorem linkedAmong_outlined :
    ∀ k ∈ (outlined Program.base cs).classes, k.LinkedAmong (outlined Program.base cs).names := by
  intro k hk
  obtain ⟨k₀, hk₀, rfl⟩ := mem_map.mp hk
  have hinterfaces : (flagged cs k₀).interfaces = k₀.interfaces := by
    unfold flagged
    split <;> rfl
  have hroot : k₀.super = some objectClass → k₀.interfaces = [] → k₀.name ≠ objectClass →
      k₀.LinkedAmong (outlined Program.base cs).names := by
    intro hsuper hnone hname
    refine ⟨fun s hs => ?_, by simp [hnone], by simp [hsuper, hname]⟩
    rw [hsuper] at hs
    exact Option.some.inj hs ▸ mem_names_outlined (by decide)
  refine Class.LinkedAmong.of_eq ?_ (name_flagged _) (super_flagged _) hinterfaces
  rcases mem_append.mp hk₀ with hk₀ | hk₀
  · simp only [Program.base, mem_cons, not_mem_nil, or_false] at hk₀
    rcases hk₀ with rfl | rfl | rfl
    · exact ⟨by simp, by simp, by simp⟩
    · exact hroot rfl rfl (by decide)
    · exact hroot rfl rfl (by decide)
  · obtain ⟨c, hc, rfl⟩ := mem_map.mp hk₀
    refine hroot rfl rfl fun hname => ?_
    have hnew := (mem_filter.mp hc).2
    rw [show c.name = objectClass from hname] at hnew
    exact absurd hnew (by decide)

theorem linkedAmong_of_linkStep (hc : c.name = k.name) (hk : k.LinkedAmong p.names)
    (h : linkStep p c k = .ok k') : k'.LinkedAmong p.names := by
  obtain ⟨super, interfaces, hsuper, hinterfaces, rfl⟩ := exists_of_linkStep h
  have hadded : ∀ i ∈ interfaces, i ∈ p.names := by
    intro i hi
    obtain ⟨n, -, hn⟩ := exists_of_mem_mapM hinterfaces hi
    split at hn
    · next hclass =>
      cases hn
      exact Program.mem_names_of_class? hclass
    · cases hn
  have hall : ∀ i ∈ k.interfaces ++ interfaces, i ∈ p.names := fun i hi =>
    (mem_append.mp hi).elim (hk.interfaces i) (hadded i)
  unfold superOf at hsuper
  split at hsuper
  · cases hsuper
    exact ⟨hk.super, hall, hk.root⟩
  · obtain ⟨hdeclared, hsuper⟩ := of_guard_ok hsuper
    obtain ⟨hname, hsuper⟩ := of_guard_ok hsuper
    cases hsuper
    refine ⟨fun s hs => ?_, hall, by simp [← hc, hname]⟩
    cases hs
    refine Program.mem_names_iff.mpr ?_
    rwa [Option.isNone_iff_eq_none, ← ne_eq, Option.ne_none_iff_isSome] at hdeclared

variable {names : List String}

theorem linkedAmong_of_memberStep (hk : k.LinkedAmong names) (h : memberStep p c k = .ok k') :
    k'.LinkedAmong names :=
  memberStep_keeps (fun hb => hb.of_eq rfl rfl rfl) (fun _ _ hb => hb.of_eq rfl rfl rfl) hk h

theorem linkedAmong_of_readBodies (hk : k.LinkedAmong names) (h : readBodies p cs k = .ok k') :
    k'.LinkedAmong names := by
  obtain ⟨methods, -, h⟩ := exists_of_bind_ok h
  cases h
  exact hk.of_eq rfl rfl rfl

theorem names_of_stages {s : ProgramSource} {linked headed bodied : Program}
    (h : Stages s linked headed bodied p) :
    p.names = (outlined Program.base s.classes).names := by
  rw [Program.names, h.classes, ← Program.names,
    names_of_pass_of (fun k k' => name_of_readBodies) h.read,
    names_of_pass (keepsNames_memberStep _) h.head, names_of_pass (keepsNames_linkStep _) h.link]

end Source

theorem Program.Accepted.class?_base {p : Program} (h : p.Accepted) {n : String}
    (hn : n ∈ base.names) : (p.class? n).isSome = true := by
  obtain ⟨source, linked, headed, bodied, h⟩ := h.exists_stages
  exact mem_names_iff.mp (names_of_stages h ▸ mem_names_outlined hn)

/-- **Loading establishes this.** -/
theorem Program.Accepted.linked {p : Program} (h : p.Accepted) : p.Linked := by
  have hroot := h.class?_base (n := objectClass) (by decide)
  obtain ⟨source, linked, headed, bodied, h⟩ := h.exists_stages
  have hnames := names_of_stages h
  have h₁ := forall_of_pass_treat linkedAmong_of_linkStep h.link linkedAmong_outlined
  have h₂ := forall_of_pass_treat (fun _ => linkedAmong_of_memberStep) h.head h₁
  have h₃ := forall_of_pass linkedAmong_of_readBodies h.read h₂
  rw [← h.classes, ← hnames] at h₃
  refine ⟨?_, ?_, hroot, ?_, ?_⟩
  · rw [hnames]
    exact nodup_names_outlined nodup_names_base h.distinct
  · rintro a b ⟨k, hk, hs | hi⟩
    · exact mem_names_iff.mp ((h₃ k (mem_of_class? hk)).super b hs)
    · exact mem_names_iff.mp ((h₃ k (mem_of_class? hk)).interfaces b hi)
  · rintro b ⟨k, hk, hs⟩
    rw [(h₃ k (mem_of_class? hk)).root.mpr (name_of_class? hk)] at hs
    cases hs
  · intro c k hk hs
    rw [← name_of_class? hk]
    exact (h₃ k (mem_of_class? hk)).root.mp hs

/-- A class has the name and the superclass of a class of another program. -/
def Class.LiesIn (p : Program) (k : Class) : Prop :=
  ∃ k₀ ∈ p.classes, k₀.name = k.name ∧ k₀.super = k.super

theorem Source.super_of_stages {s : ProgramSource} {linked headed bodied p : Program}
    (h : Stages s linked headed bodied p) {a b : String} (hab : p.Super a b) :
    linked.Super a b := by
  have h₁ : ∀ k ∈ linked.classes, k.LiesIn linked := fun k hk => ⟨k, hk, rfl, rfl⟩
  have h₂ : ∀ k ∈ headed.classes, k.LiesIn linked :=
    forall_of_pass_treat (fun _ hk hstep =>
      memberStep_keeps (fun hb => hb) (fun _ _ hb => hb) hk hstep) h.head h₁
  have h₃ : ∀ k ∈ bodied.classes, k.LiesIn linked := by
    refine forall_of_pass (fun hk hread => ?_) h.read h₂
    obtain ⟨methods, -, hread⟩ := exists_of_bind_ok hread
    cases hread
    exact hk
  obtain ⟨k, hk, hs⟩ := hab
  obtain ⟨k₀, hk₀, hname, hsuper⟩ := h₃ k (h.classes ▸ Program.mem_of_class? hk)
  rw [Program.name_of_class? hk] at hname
  exact ⟨k₀, (Program.class?_eq_some_iff (names_linked h)).mpr ⟨hk₀, hname⟩, hsuper.trans hs⟩

/-- **No class of an accepted program is above itself**, interfaces apart. -/
theorem Program.Accepted.acyclic {p : Program} (h : p.Accepted) : p.Acyclic := by
  obtain ⟨source, linked, headed, bodied, h⟩ := h.exists_stages
  exact fun c hc => h.acyclic c (TransGen.mono (fun _ _ => super_of_stages h) _ _ hc)

end HeapFlow
