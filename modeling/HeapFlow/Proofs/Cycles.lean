import HeapFlow.Proofs.Ancestry

/-!
# Looking for cycles

When a class has been linked, loading asks each class above it for its superclass, until there is
none or the class itself is met again (`Program.Walks`). A cycle above that does not lead through
the class would keep this walk going for ever. There is none: the classes linked before make no
cycle, and the one linked just now can only have closed one through itself.
-/

namespace HeapFlow

open List Relation Program

namespace Program

variable {p q : Program} {c : String}

/-- **The walk that looks for a class**, from a superclass or from where there is none, with its
outcome. It has no bound: where it has no outcome, it does not end. -/
inductive Walks (p : Program) (c : String) : Option String → Bool → Prop where
  | top : Walks p c none false
  | met : Walks p c (some c) true
  | on {s : String} {k : Class} {found : Bool} (hne : s ≠ c) (hk : p.class? s = some k)
      (h : Walks p c k.super found) : Walks p c (some s) found

variable {start : Option String}

/-- **A walk that ends has found the class just if superclasses lead to it.** -/
theorem Walks.found_iff {found : Bool} (h : p.Walks c start found) :
    found = true ↔ ∃ s, start = some s ∧ ReflTransGen p.Super s c := by
  induction h with
  | top => simp
  | met => exact iff_of_true rfl ⟨c, rfl, .refl⟩
  | @on s k found hne hk _ ih =>
    have hstep : ReflTransGen p.Super s c ↔ TransGen p.Super s c :=
      reflTransGen_iff_eq_or_transGen.trans (or_iff_right hne.symm)
    simp only [Option.some.injEq, exists_eq_left', hstep, transGen_super_iff hk, ih]

/-- **A walk ends** if all classes but the one it looks for are as in a program without cycles. -/
theorem Acyclic.exists_walks (hp : p.Acyclic)
    (hdeclared : ∀ {a b}, p.Super a b → (p.class? b).isSome = true)
    (hsame : ∀ {s}, s ≠ c → q.class? s = p.class? s)
    (hstart : ∀ s, start = some s → (p.class? s).isSome = true) :
    ∃ found, q.Walks c start found := by
  have hsome : ∀ {s}, (p.class? s).isSome = true → ∃ found, q.Walks c (some s) found := by
    intro s hs
    refine hp.induction
      (P := fun s => (p.class? s).isSome = true → ∃ found, q.Walks c (some s) found)
      (fun a ih ha => ?_) hs hs
    by_cases hac : a = c
    · subst hac
      exact ⟨true, .met⟩
    obtain ⟨k, hk⟩ := Option.isSome_iff_exists.mp ha
    have hq : q.class? a = some k := (hsame hac).trans hk
    cases hsuper : k.super with
    | none => exact ⟨false, .on hac hq (hsuper ▸ .top)⟩
    | some b =>
      have hab : p.Super a b := ⟨k, hk, hsuper⟩
      obtain ⟨found, h⟩ := ih b (hdeclared hab) hab (hdeclared hab)
      exact ⟨found, .on hac hq (hsuper ▸ h)⟩
  cases start with
  | none => exact ⟨false, .top⟩
  | some s => exact hsome (hstart s rfl)

/-- At the end of a chain stands a class without a superclass. -/
theorem Upward.exists_top {l : List Class} (h : p.Upward c l) :
    ∃ k, l.getLast? = some k ∧ k ∈ p.classes ∧ k.super = none := by
  induction h with
  | top hk hs => exact ⟨_, rfl, mem_of_class? hk, hs⟩
  | up _ _ h ih =>
    obtain ⟨k, hlast, hk⟩ := ih
    refine ⟨k, ?_, hk⟩
    rw [getLast?_cons, hlast]
    rfl

end Program

namespace Source

variable {c : ClassSource} {cs : List ClassSource} {p q : Program} {k : Class}

/-- **The superclasses as they are written.** -/
def Extends (cs : List ClassSource) (a b : String) : Prop :=
  ∃ c ∈ cs, c.name = a ∧ c.superclass = b ∧ b ≠ ""

/-- A name is declared if it is written, or predefined. -/
def Declares (cs : List ClassSource) (n : String) : Prop :=
  isPredefined n = true ∨ n ∈ cs.map (·.name)

instance (cs : List ClassSource) (n : String) : Decidable (Declares cs n) :=
  inferInstanceAs (Decidable (_ ∨ _))

/-- **What linking expects of the classes**, cycles apart. -/
structure Linkable (cs : List ClassSource) : Prop where
  named : ∀ c ∈ cs, c.name ≠ ""
  distinct : (cs.map (·.name)).Nodup
  supers : ∀ c ∈ cs, c.superclass ≠ "" → Declares cs c.superclass
  interfaces : ∀ c ∈ cs, ∀ i ∈ c.implements, Declares cs i
  root : ∀ c ∈ cs, c.name = objectClass → c.superclass = ""

theorem mem_names_outlined_iff {n : String} :
    n ∈ (outlined Program.base cs).names ↔ Declares cs n := by
  have hbase : n ∈ Program.base.names ↔ isPredefined n = true := by
    simp [Program.names, Program.base, isPredefined, or_assoc]
  rw [names_outlined, mem_append, hbase, Declares]
  constructor
  · exact .imp_right fun hn => (filter_sublist.map _).mem hn
  · rintro (hn | hn)
    · exact .inl hn
    · obtain ⟨c, hc, rfl⟩ := mem_map.mp hn
      by_cases hold : c.name ∈ Program.base.names
      · exact .inl (hbase.mp hold)
      · refine .inr (mem_map.mpr ⟨c, mem_filter.mpr ⟨hc, ?_⟩, rfl⟩)
        rw [Option.isNone_iff_eq_none, class?_eq_none_iff]
        exact hold

/-- A class with the superclass and the interfaces that are written. -/
def linkedTo (c : ClassSource) (k : Class) : Class := { k with
  super := if c.superclass = "" then k.super else some c.superclass
  interfaces := k.interfaces ++ c.implements }

/-! ### Halfway -/

/-- **What is known of a program some of whose classes are linked.** -/
structure Halfway (cs : List ClassSource) (q : Program) : Prop where
  declared : ∀ {n}, n ∈ q.names ↔ Declares cs n
  nodup : q.names.Nodup
  linked : ∀ k ∈ q.classes, k.LinkedAmong q.names
  written : ∀ {a b}, q.Super a b → Extends cs a b ∨ b = objectClass
  acyclic : q.Acyclic

theorem halfway_outlined (h : Linkable cs) : Halfway cs (outlined Program.base cs) where
  declared := mem_names_outlined_iff
  nodup := nodup_names_outlined nodup_names_base h.distinct
  linked := linkedAmong_outlined
  written hab := .inr (eq_root_of_super_outlined hab).1
  acyclic := acyclic_outlined

theorem not_super_root (hlinked : ∀ k ∈ q.classes, k.LinkedAmong q.names) (b : String) :
    ¬ q.Super objectClass b := by
  rintro ⟨k, hk, hs⟩
  rw [(hlinked k (mem_of_class? hk)).root.mpr (name_of_class? hk)] at hs
  cases hs

section Halfway

variable (hq : Halfway cs q)

include hq

variable {a b n : String}

/-- Superclasses are declared. -/
theorem Halfway.declared_of_super (h : q.Super a b) : (q.class? b).isSome = true := by
  obtain ⟨k, hk, hs⟩ := h
  exact mem_names_iff.mp ((hq.linked k (mem_of_class? hk)).super b hs)

/-- **All chains end in the root class.** -/
theorem Halfway.exists_upward (hn : (q.class? n).isSome = true) :
    ∃ l top, q.Upward n l ∧ l.getLast? = some top ∧ top.name = objectClass := by
  obtain ⟨l, h⟩ := hq.acyclic.exists_upward hq.declared_of_super hn
  obtain ⟨top, hlast, htop, hsuper⟩ := h.exists_top
  exact ⟨l, top, h, hlast, (hq.linked top htop).root.mp hsuper⟩

variable (hl : Linkable cs) (hc : c ∈ cs)

include hl hc

theorem Halfway.superOf_eq (k : Class) : superOf q c k.super = .ok (linkedTo c k).super := by
  by_cases hempty : c.superclass = ""
  · simp only [superOf, linkedTo, hempty, if_true]
    rfl
  · have hsome := mem_names_iff.mp (hq.declared.mpr (hl.supers c hc hempty))
    have hroot : c.name ≠ objectClass := fun hname => hempty (hl.root c hc hname)
    simp only [superOf, linkedTo, hempty, hroot, if_false, ← Option.not_isSome, hsome,
      Bool.not_true, Bool.false_eq_true]
    rfl

theorem Halfway.interfacesOf_eq : interfacesOf q c = .ok c.implements := by
  refine mapM_eq_ok_iff.mpr (forall₂_same.mpr fun i hi => ?_)
  obtain ⟨a, ha⟩ := Option.isSome_iff_exists.mp
    (mem_names_iff.mp (hq.declared.mpr (hl.interfaces c hc i hi)))
  simp only [ha]

/-- Linking a class does not fail. -/
theorem Halfway.linkStep_eq (k : Class) : linkStep q c k = .ok (linkedTo c k) := by
  rw [linkStep, hq.superOf_eq hl hc, hq.interfacesOf_eq hl hc]
  rfl

variable (hk : q.class? c.name = some k)

include hk

theorem Halfway.pass_eq : pass (treat (linkStep q) [c]) q = .ok (q.setClass (linkedTo c k)) :=
  (setClass_iff_pass (keepsNames_linkStep q) hq.nodup hk).mp ⟨_, hq.linkStep_eq hl hc k, rfl⟩

theorem Halfway.class?_setClass :
    (q.setClass (linkedTo c k)).class? c.name = some (linkedTo c k) := by
  obtain ⟨k', hk', htreat⟩ :=
    class?_of_pass (keepsNames_linkStep q) hq.nodup (hq.pass_eq hl hc hk) hk
  have hone : treat (linkStep q) [c] k = linkStep q c k := by
    simp [treat, name_of_class? hk]
  rw [hone, hq.linkStep_eq hl hc] at htreat
  rw [hk', ← Except.ok.inj htreat]

theorem Halfway.class?_setClass_of_ne (hn : n ≠ c.name) :
    (q.setClass (linkedTo c k)).class? n = q.class? n :=
  class?_of_pass_of_notMem (keepsNames_linkStep q) hq.nodup (hq.pass_eq hl hc hk)
    (by simpa using hn)

theorem Halfway.names_setClass : (q.setClass (linkedTo c k)).names = q.names :=
  names_of_pass (keepsNames_linkStep q) (hq.pass_eq hl hc hk)

theorem Halfway.linked_setClass :
    ∀ a ∈ (q.setClass (linkedTo c k)).classes, a.LinkedAmong (q.setClass (linkedTo c k)).names := by
  rw [hq.names_setClass hl hc hk]
  exact forall_of_pass_treat linkedAmong_of_linkStep (hq.pass_eq hl hc hk) hq.linked

theorem Halfway.written_setClass (h : (q.setClass (linkedTo c k)).Super a b) :
    Extends cs a b ∨ b = objectClass := by
  obtain ⟨k', hk', hs⟩ := h
  by_cases ha : a = c.name
  · subst ha
    cases Option.some.inj ((hq.class?_setClass hl hc hk).symm.trans hk')
    by_cases hempty : c.superclass = ""
    · exact hq.written ⟨k, hk, by simpa [linkedTo, hempty] using hs⟩
    · have hb : c.superclass = b := by simpa [linkedTo, hempty] using hs
      exact .inl ⟨c, hc, rfl, hb, hb ▸ hempty⟩
  · exact hq.written ⟨k', hq.class?_setClass_of_ne hl hc hk ha ▸ hk', hs⟩

/-- **The walk from the class linked just now ends.** -/
theorem Halfway.exists_walks :
    ∃ found, (q.setClass (linkedTo c k)).Walks c.name (linkedTo c k).super found := by
  refine hq.acyclic.exists_walks hq.declared_of_super (hq.class?_setClass_of_ne hl hc hk)
    fun s hs => ?_
  rw [← mem_names_iff, ← hq.names_setClass hl hc hk]
  have hself := mem_of_class? (hq.class?_setClass hl hc hk)
  exact (hq.linked_setClass hl hc hk _ hself).super s hs

theorem Halfway.linkClass_eq {found : Bool}
    (h : found = true ↔ TransGen (q.setClass (linkedTo c k)).Super c.name c.name) :
    linkClass q c =
      (if found = true then .error (.cyclic c.name) else .ok (q.setClass (linkedTo c k))) := by
  have hany := (any_above_iff (hq.class?_setClass hl hc hk)).trans h.symm
  rw [linkClass, hk]
  show (superOf q c k.super >>= _) = _
  rw [hq.superOf_eq hl hc]
  show (interfacesOf q c >>= _) = _
  rw [hq.interfacesOf_eq hl hc]
  exact if_congr hany rfl rfl

/-- What is known halfway is known of one class more, if it closes no cycle. -/
theorem Halfway.setClass (h : ¬ TransGen (q.setClass (linkedTo c k)).Super c.name c.name) :
    Halfway cs (q.setClass (linkedTo c k)) where
  declared {n} := by rw [hq.names_setClass hl hc hk, hq.declared]
  nodup := hq.names_setClass hl hc hk ▸ hq.nodup
  linked := hq.linked_setClass hl hc hk
  written := hq.written_setClass hl hc hk
  acyclic := by
    refine hq.acyclic.of_changed (fun {a b} ha hab => ?_) h
    rwa [Program.Super, hq.class?_setClass_of_ne hl hc hk ha] at hab

omit hk

/-- **One step of linking.** The walk ends, the class is linked if the walk has not found it, and a
class that is found lies on a cycle of the superclasses as they are written. -/
theorem Halfway.exists_linkClass :
    ∃ k found, q.class? c.name = some k ∧
      (q.setClass (linkedTo c k)).Walks c.name (linkedTo c k).super found ∧
      linkClass q c =
        (if found = true then .error (.cyclic c.name) else .ok (q.setClass (linkedTo c k))) ∧
      (found = true → TransGen (Extends cs) c.name c.name) ∧
      (found = false → Halfway cs (q.setClass (linkedTo c k))) := by
  obtain ⟨k, hk⟩ := Option.isSome_iff_exists.mp
    (mem_names_iff.mp (hq.declared.mpr (.inr (mem_map_of_mem hc))))
  obtain ⟨found, hwalk⟩ := hq.exists_walks hl hc hk
  have hfound := hwalk.found_iff.trans (transGen_super_iff (hq.class?_setClass hl hc hk)).symm
  refine ⟨k, found, hk, hwalk, hq.linkClass_eq hl hc hk hfound, fun htrue => ?_, fun hfalse => ?_⟩
  · exact transGen_of_unlinked (not_super_root (hq.linked_setClass hl hc hk))
      (hq.written_setClass hl hc hk) (hfound.mp htrue)
  · exact hq.setClass hl hc hk (by simp [← hfound, hfalse])

end Halfway

/-! ### All the steps -/

/-- **Linking keeps what is known halfway**, whichever classes have been linked. -/
theorem Halfway.foldlM (hl : Linkable cs) {done : List ClassSource} (hdone : ∀ c ∈ done, c ∈ cs)
    (hp : Halfway cs p) (h : done.foldlM linkClass p = .ok q) : Halfway cs q := by
  induction done generalizing p with
  | nil =>
    cases h
    exact hp
  | cons c done ih =>
    rw [foldlM_cons] at h
    obtain ⟨p₁, h₁, h⟩ := exists_of_bind_ok h
    obtain ⟨k, found, -, -, heq, -, hnext⟩ :=
      hp.exists_linkClass hl (hdone c (.head _))
    rw [heq] at h₁
    cases found with
    | true => cases h₁
    | false =>
      cases h₁
      exact ih (fun d hd => hdone d (.tail _ hd)) (hnext rfl) h

theorem super_of_extends (hl : Linkable cs)
    (h : cs.foldlM linkClass (outlined Program.base cs) = .ok q) {a b : String}
    (hab : Extends cs a b) : q.Super a b := by
  obtain ⟨c, hc, rfl, rfl, hne⟩ := hab
  have hhalf := halfway_outlined hl
  obtain ⟨hpass, -⟩ :=
    (foldlM_linkClass_iff hhalf.nodup hl.distinct unlinked_outlined hhalf.acyclic).mp h
  obtain ⟨k, hk⟩ := Option.isSome_iff_exists.mp
    (mem_names_iff.mp (hhalf.declared.mpr (.inr (mem_map_of_mem hc))))
  obtain ⟨k', hk', htreat⟩ := class?_of_pass (keepsNames_linkStep _) hhalf.nodup hpass hk
  -- the source of the class is the one that is found by its name
  have hfind : cs.find? (fun d => d.name == k.name) = some c := by
    rw [name_of_class? hk]
    exact find?_key_eq_some hl.distinct hc
  rw [treat, hfind] at htreat
  obtain rfl : linkedTo c k = k' := Except.ok.inj ((hhalf.linkStep_eq hl hc k).symm.trans htreat)
  exact ⟨_, hk', if_neg hne⟩

/-- **What linking comes to**, from the program in which the classes are declared. -/
structure Links (cs : List ClassSource) (p : Program) : Prop where
  /-- Whichever classes have been linked before: the walk for the next one ends, and the class is
  linked just if the walk has not met it. -/
  walk : ∀ done c rest q, cs = done ++ c :: rest → done.foldlM linkClass p = .ok q →
    ∃ k found, q.class? c.name = some k ∧
      (q.setClass (linkedTo c k)).Walks c.name (linkedTo c k).super found ∧
      linkClass q c =
        (if found = true then .error (.cyclic c.name) else .ok (q.setClass (linkedTo c k)))
  cyclic : (∃ n, cs.foldlM linkClass p = .error (.cyclic n)) ↔ ∃ n, TransGen (Extends cs) n n
  named : ∀ n, cs.foldlM linkClass p = .error (.cyclic n) → TransGen (Extends cs) n n
  succeeds : (∀ n, ¬ TransGen (Extends cs) n n) → ∃ q, cs.foldlM linkClass p = .ok q
  /-- In the linked program superclasses are as they are written, and every chain is finite and ends
  in the root class. -/
  chains : ∀ q, cs.foldlM linkClass p = .ok q →
    (∀ a b, Extends cs a b → q.Super a b) ∧
    ∀ n, Declares cs n → ∃ l top, q.Upward n l ∧ l.getLast? = some top ∧ top.name = objectClass

/-- Linking fails only if there is a cycle. -/
theorem exists_of_foldlM_linkClass_error (hl : Linkable cs) {e : LoadError}
    (h : cs.foldlM linkClass (outlined Program.base cs) = .error e) :
    ∃ n, e = .cyclic n ∧ TransGen (Extends cs) n n := by
  obtain ⟨done, c, rest, q, hcs, hdone, he⟩ := exists_of_foldlM_error h
  have hmem : ∀ d ∈ done, d ∈ cs := fun d hd => hcs ▸ mem_append_left _ hd
  have hc : c ∈ cs := hcs ▸ mem_append_right _ (.head _)
  have hq := (halfway_outlined hl).foldlM hl hmem hdone
  obtain ⟨k, found, -, -, heq, hcycle, -⟩ := hq.exists_linkClass hl hc
  rw [heq] at he
  cases found with
  | false => cases he
  | true =>
    cases he
    exact ⟨c.name, rfl, hcycle rfl⟩

/-- **Cycles are detected exactly.** Classes with different names, all of whose superclasses and
interfaces are declared, are linked unless their superclasses, as they are written, go round in a
circle; this is reported then. -/
theorem linking_detects_cycles (hl : Linkable cs) :
    ∃ p, declareClasses [] Program.base cs = .ok p ∧ Links cs p := by
  have hnamed : ∀ c ∈ cs, c.name ≠ "" ∧ c.name ∉ [] := fun c hc =>
    ⟨hl.named c hc, not_mem_nil⟩
  have hall : ∀ {q}, cs.foldlM linkClass (outlined Program.base cs) = .ok q → Halfway cs q :=
    fun h => (halfway_outlined hl).foldlM hl (fun _ => id) h
  -- what is linked has no cycle, so nothing that is written makes one
  have hnone : ∀ {q n}, cs.foldlM linkClass (outlined Program.base cs) = .ok q →
      ¬ TransGen (Extends cs) n n := by
    intro q n h hcycle
    exact (hall h).acyclic n (TransGen.mono (fun _ _ => super_of_extends hl h) _ _ hcycle)
  refine ⟨outlined Program.base cs,
    (declareClasses_iff nodup_names_base).mpr ⟨⟨hnamed, hl.distinct⟩, rfl⟩, ?_⟩
  constructor
  case walk =>
    intro done c rest q hcs hdone
    have hmem : ∀ d ∈ done, d ∈ cs := fun d hd => hcs ▸ mem_append_left _ hd
    have hc : c ∈ cs := hcs ▸ mem_append_right _ (mem_cons_self ..)
    obtain ⟨k, found, hk, hwalk, heq, -⟩ :=
      ((halfway_outlined hl).foldlM hl hmem hdone).exists_linkClass hl hc
    exact ⟨k, found, hk, hwalk, heq⟩
  case cyclic =>
    constructor
    · rintro ⟨n, h⟩
      obtain ⟨m, -, hcycle⟩ := exists_of_foldlM_linkClass_error hl h
      exact ⟨m, hcycle⟩
    · rintro ⟨n, hcycle⟩
      cases h : cs.foldlM linkClass (outlined Program.base cs) with
      | ok q => exact absurd hcycle (hnone h)
      | error e =>
        obtain ⟨m, rfl, -⟩ := exists_of_foldlM_linkClass_error hl h
        exact ⟨m, rfl⟩
  case named =>
    intro n h
    obtain ⟨m, hm, hcycle⟩ := exists_of_foldlM_linkClass_error hl h
    cases hm
    exact hcycle
  case succeeds =>
    intro hacyclic
    cases h : cs.foldlM linkClass (outlined Program.base cs) with
    | ok q => exact ⟨q, rfl⟩
    | error e =>
      obtain ⟨m, -, hcycle⟩ := exists_of_foldlM_linkClass_error hl h
      exact absurd hcycle (hacyclic m)
  case chains =>
    intro q h
    refine ⟨fun _ _ => super_of_extends hl h, fun n hn => (hall h).exists_upward ?_⟩
    exact mem_names_iff.mp ((hall h).declared.mpr hn)

/-- A class below a cycle that leads through a predefined class. When the first two are linked,
there is no cycle yet. -/
def ringSources : List ClassSource := [
  { name := "Leaf", superclass := stringClass },
  { name := stringClass, superclass := "Text" },
  { name := "Text", superclass := "Note" },
  { name := "Note", superclass := stringClass }]

theorem linking_detects_cycles_ringSources :
    Linkable ringSources ∧ ∃ p, declareClasses [] Program.base ringSources = .ok p ∧
      Links ringSources p ∧ ∃ n, ringSources.foldlM linkClass p = .error (.cyclic n) := by
  have hl : Linkable ringSources :=
    ⟨by decide, by decide +kernel, by decide +kernel, by decide, by decide⟩
  have hstep : ∀ {c}, c ∈ ringSources → Extends ringSources c.name c.superclass :=
    fun {c} hc => ⟨c, hc, rfl, rfl, by revert c; decide +kernel⟩
  have hcycle : TransGen (Extends ringSources) stringClass stringClass :=
    (TransGen.single (hstep (c := { name := stringClass, superclass := "Text" }) (by decide))).tail
      (hstep (c := { name := "Text", superclass := "Note" }) (by decide)) |>.tail
      (hstep (c := { name := "Note", superclass := stringClass }) (by decide))
  obtain ⟨p, hp, hlinks⟩ := linking_detects_cycles hl
  exact ⟨hl, p, hp, hlinks, hlinks.cyclic.mpr ⟨_, hcycle⟩⟩

end Source

end HeapFlow
