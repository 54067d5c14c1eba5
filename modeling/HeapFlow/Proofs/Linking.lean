import HeapFlow.Proofs.Passes

/-!
# Linking and cycles

When a class has been linked, loading looks for it among the classes above it, and some of these may
not be linked yet: they still have the root class for a superclass. So a search may miss a cycle.
None is missed for good, because the search for the last class of a cycle is made when the others
are linked; and none is found that is not there, because an unlinked class leads nowhere but to the
root. So all the searches together come to one condition on the linked program: it has no cycle
(`Source.foldlM_linkClass_iff`). With this loading is four maps over the classes and two look-ups of
entry methods (`Source.Stages`, `Source.load_eq_ok_iff`).
-/

namespace HeapFlow

open List Relation Program

namespace Program

variable {p q : Program}

/-- **A cycle that a change brings about leads through what was changed.** -/
theorem Acyclic.of_changed {n : String} (hsame : ∀ {a b}, a ≠ n → q.Super a b → p.Super a b)
    (hp : p.Acyclic) (hn : ¬ TransGen q.Super n n) : q.Acyclic := by
  -- a walk leads through `n`, or it was possible before
  have hwalk : ∀ {x y}, TransGen q.Super x y →
      TransGen p.Super x y ∨ ReflTransGen q.Super x n ∧ TransGen q.Super n y := by
    intro x y h
    induction h with
    | single hxy =>
      by_cases hx : x = n
      · subst hx
        exact .inr ⟨.refl, .single hxy⟩
      · exact .inl (.single (hsame hx hxy))
    | @tail b y hxb hby ih =>
      rcases ih with hold | ⟨hto, hfrom⟩
      · by_cases hb : b = n
        · subst hb
          exact .inr ⟨hxb.to_reflTransGen, .single hby⟩
        · exact .inl (hold.tail (hsame hb hby))
      · exact .inr ⟨hto, hfrom.tail hby⟩
  intro x hx
  rcases hwalk hx with hold | ⟨hto, hfrom⟩
  · exact hp x hold
  · exact hn (hfrom.trans_left hto)

/-- **Classes that are still below the root make no cycle.** Where all other superclasses are those
of a relation, a cycle is one of the relation. -/
theorem transGen_of_unlinked {R : String → String → Prop} (hroot : ∀ b, ¬ p.Super objectClass b)
    (hle : ∀ {a b}, p.Super a b → R a b ∨ b = objectClass) {c : String}
    (hc : TransGen p.Super c c) : TransGen R c c := by
  have hwalk : ∀ {x y}, TransGen p.Super x y → TransGen R x y ∨ y = objectClass := by
    intro x y h
    induction h with
    | single hxy => exact (hle hxy).imp_left .single
    | tail _ hby ih =>
      rcases ih with hxb | rfl
      · exact (hle hby).imp_left hxb.tail
      · exact absurd hby (hroot _)
  rcases hwalk hc with hcycle | rfl
  · exact hcycle
  · obtain ⟨b, hb, -⟩ := TransGen.head'_iff.mp hc
    exact absurd hb (hroot b)

end Program

namespace Source

variable {c : ClassSource} {cs : List ClassSource} {p q : Program}

/-- Sets the superclass and adds the interfaces of a class. -/
def linkStep (p : Program) (c : ClassSource) (k : Class) : Except LoadError Class := do
  let super ← superOf p c k.super
  let interfaces ← interfacesOf p c
  pure { k with super := super, interfaces := k.interfaces ++ interfaces }

theorem exists_of_linkStep {k k' : Class} (h : linkStep p c k = .ok k') :
    ∃ super interfaces, superOf p c k.super = .ok super ∧ interfacesOf p c = .ok interfaces ∧
      k' = { k with super := super, interfaces := k.interfaces ++ interfaces } := by
  obtain ⟨super, hsuper, h⟩ := exists_of_bind_ok h
  obtain ⟨interfaces, hinterfaces, h⟩ := exists_of_bind_ok h
  cases h
  exact ⟨super, interfaces, hsuper, hinterfaces, rfl⟩

theorem keepsNames_linkStep (p : Program) : KeepsNames (linkStep p) := by
  intro c k k' h
  obtain ⟨super, interfaces, -, -, rfl⟩ := exists_of_linkStep h
  rfl

/-- Linking a class asks for the names of the others only. -/
theorem linkStep_congr (h : q.names = p.names) : linkStep q = linkStep p := by
  have hsuper : superOf q = superOf p := by
    funext c current
    simp only [superOf, ← Option.not_isSome, isSome_class?_congr h]
  have hinterfaces : interfacesOf q = interfacesOf p := by
    funext c
    refine mapM_congr fun n _ => ?_
    have hsome := isSome_class?_congr h n
    cases hq : q.class? n <;> cases hp : p.class? n <;> simp_all
  funext c k
  simp only [linkStep, hsuper, hinterfaces]

theorem super_of_linkStep {k k' : Class} (hc : c.name = objectClass)
    (h : linkStep p c k = .ok k') : k'.super = k.super := by
  obtain ⟨super, interfaces, hsuper, -, rfl⟩ := exists_of_linkStep h
  unfold superOf at hsuper
  split at hsuper
  · exact (Except.ok.inj hsuper).symm
  · obtain ⟨-, hsuper⟩ := of_guard_ok hsuper
    cases hsuper

/-- A class is linked if it closes no cycle. -/
theorem linkClass_iff (hp : p.names.Nodup) :
    linkClass p c = .ok q ↔
      pass (treat (linkStep p) [c]) p = .ok q ∧ ¬ TransGen q.Super c.name c.name := by
  cases hc : p.class? c.name with
  | none =>
    rw [pass_of_class?_none hc, linkClass, hc]
    refine (iff_self_and.mpr fun h => ?_)
    cases h
    intro hcycle
    obtain ⟨b, ⟨k, hk, -⟩, -⟩ := TransGen.head'_iff.mp hcycle
    rw [hc] at hk
    cases hk
  | some k =>
    rw [← setClass_iff_pass (keepsNames_linkStep p) hp hc, linkClass, hc]
    -- the class that is looked for is found as it has been set
    have hset : ∀ {k' : Class}, linkStep p c k = .ok k' →
        (p.setClass k').class? c.name = some k' := by
      intro k' hk'
      have hpass := (setClass_iff_pass (keepsNames_linkStep p) hp hc).mp ⟨k', hk', rfl⟩
      obtain ⟨a, ha, htreat⟩ := class?_of_pass (keepsNames_linkStep p) hp hpass hc
      have hself : treat (linkStep p) [c] k = linkStep p c k := by
        simp [treat, name_of_class? hc]
      rw [hself, hk'] at htreat
      rw [ha, Except.ok.inj htreat]
    constructor
    · intro h
      obtain ⟨super, hsuper, h⟩ := exists_of_bind_ok h
      obtain ⟨interfaces, hinterfaces, h⟩ := exists_of_bind_ok h
      obtain ⟨hsearch, h⟩ := of_guard_ok h
      cases h
      have hk' : linkStep p c k =
          .ok { k with super := super, interfaces := k.interfaces ++ interfaces } := by
        rw [linkStep, hsuper, hinterfaces]
        rfl
      exact ⟨⟨_, hk', rfl⟩, fun hcycle => hsearch ((any_above_iff (hset hk')).mpr hcycle)⟩
    · rintro ⟨⟨k', hk', rfl⟩, hcycle⟩
      obtain ⟨super, interfaces, hsuper, hinterfaces, rfl⟩ := exists_of_linkStep hk'
      show (superOf p c k.super >>= _) = _
      rw [hsuper]
      show (interfacesOf p c >>= _) = _
      rw [hinterfaces]
      exact if_neg fun hsearch => hcycle ((any_above_iff (hset hk')).mp hsearch)

/-- What linking relies on in the program that it begins with: the root class has no superclass, and
the classes to be linked have no other one than the root. -/
structure Unlinked (p : Program) (cs : List ClassSource) : Prop where
  root : ∀ b, ¬ p.Super objectClass b
  blank : ∀ {c}, c ∈ cs → ∀ {b}, p.Super c.name b → b = objectClass

theorem Unlinked.tail (hp : p.names.Nodup) (h : Unlinked p (c :: cs))
    (hc : c.name ∉ cs.map (·.name)) (hq : pass (treat (linkStep p) [c]) p = .ok q) :
    Unlinked q cs := by
  have hother : ∀ {n}, n ≠ c.name → q.class? n = p.class? n := fun hn =>
    class?_of_pass_of_notMem (keepsNames_linkStep p) hp hq (by simpa using hn)
  refine ⟨fun b hb => ?_, fun {d} hd {b} hb => ?_⟩
  · obtain ⟨k', hk', hsuper⟩ := hb
    by_cases hroot : objectClass = c.name
    · have hnames := names_of_pass (keepsNames_linkStep p) hq
      obtain ⟨k, hk⟩ := Option.isSome_iff_exists.mp
        ((isSome_class?_congr hnames objectClass).symm.trans
          (Option.isSome_iff_exists.mpr ⟨k', hk'⟩))
      obtain ⟨a, ha, htreat⟩ := class?_of_pass (keepsNames_linkStep p) hp hq hk
      cases hk'.symm.trans ha
      have hself : treat (linkStep p) [c] k = linkStep p c k := by
        simp [treat, name_of_class? hk, hroot]
      rw [hself] at htreat
      exact h.root b ⟨k, hk, super_of_linkStep hroot.symm htreat ▸ hsuper⟩
    · exact h.root b ⟨k', hother hroot ▸ hk', hsuper⟩
  · obtain ⟨k', hk', hsuper⟩ := hb
    have hne : d.name ≠ c.name := fun hname => hc (mem_map.mpr ⟨d, hd, hname⟩)
    exact h.blank (.tail _ hd) ⟨k', hother hne ▸ hk', hsuper⟩

/-- **The pass that links the classes is class by class, and succeeds just if there is no cycle in
the end.** -/
theorem foldlM_linkClass_iff (hp : p.names.Nodup) (hcs : (cs.map (·.name)).Nodup)
    (hun : Unlinked p cs) (hacyclic : p.Acyclic) :
    cs.foldlM linkClass p = .ok q ↔ pass (treat (linkStep p) cs) p = .ok q ∧ q.Acyclic := by
  induction cs generalizing p with
  | nil =>
    rw [pass_treat_nil]
    refine iff_self_and.mpr fun h => ?_
    cases h
    exact hacyclic
  | cons c cs ih =>
    obtain ⟨hc, hcs⟩ := nodup_cons.mp hcs
    -- what is known of the program when `c` is linked, and that the rest is a pass then
    have hrest : ∀ {p₁}, pass (treat (linkStep p) [c]) p = .ok p₁ → p₁.Acyclic →
        (cs.foldlM linkClass p₁ = .ok q ↔ pass (treat (linkStep p) cs) p₁ = .ok q ∧ q.Acyclic) := by
      intro p₁ h₁ hacyclic₁
      have hnames := names_of_pass (keepsNames_linkStep p) h₁
      rw [ih (hnames ▸ hp) hcs (hun.tail hp hc h₁) hacyclic₁, linkStep_congr hnames]
    rw [foldlM_cons, bind_eq_ok_iff, pass_treat_cons (keepsNames_linkStep p) hc]
    constructor
    · rintro ⟨p₁, h₁, h⟩
      obtain ⟨h₁, hcycle⟩ := (linkClass_iff hp).mp h₁
      have hacyclic₁ : p₁.Acyclic := by
        refine hacyclic.of_changed (fun {a b} ha hab => ?_) hcycle
        rwa [Program.Super, class?_of_pass_of_notMem (keepsNames_linkStep p) hp h₁
          (by simpa using ha)] at hab
      obtain ⟨hq, hacyclicq⟩ := (hrest h₁ hacyclic₁).mp h
      exact ⟨⟨p₁, h₁, hq⟩, hacyclicq⟩
    · rintro ⟨⟨p₁, h₁, hq⟩, hacyclicq⟩
      have hnames := names_of_pass (keepsNames_linkStep p) h₁
      have hun₁ := hun.tail hp hc h₁
      have hacyclic₁ : p₁.Acyclic := by
        refine fun x hx => hacyclicq x (transGen_of_unlinked hun₁.root (fun {a b} hab => ?_) hx)
        by_cases ha : a ∈ cs.map (·.name)
        · obtain ⟨d, hd, rfl⟩ := mem_map.mp ha
          exact .inr (hun₁.blank hd hab)
        · refine .inl ?_
          rwa [Program.Super, class?_of_pass_of_notMem (keepsNames_linkStep p) (hnames ▸ hp) hq ha]
      exact ⟨p₁, (linkClass_iff hp).mpr ⟨h₁, hacyclic₁ c.name⟩,
        (hrest h₁ hacyclic₁).mpr ⟨hq, hacyclicq⟩⟩

theorem nodup_names_base : Program.base.names.Nodup := by
  decide

theorem eq_root_of_super_outlined {a b : String} (h : (outlined Program.base cs).Super a b) :
    b = objectClass ∧ a ≠ objectClass := by
  obtain ⟨k, hk, hsuper⟩ := h
  have hname := name_of_class? hk
  obtain ⟨k₀, hk₀, rfl⟩ := mem_map.mp (mem_of_class? hk)
  rw [super_flagged] at hsuper
  rw [name_flagged] at hname
  subst hname
  rcases mem_append.mp hk₀ with hk₀ | hk₀
  · simp only [Program.base, mem_cons, not_mem_nil, or_false] at hk₀
    rcases hk₀ with rfl | rfl | rfl
    · cases hsuper
    · exact ⟨(Option.some.inj hsuper).symm, by decide⟩
    · exact ⟨(Option.some.inj hsuper).symm, by decide⟩
  · obtain ⟨c, hc, rfl⟩ := mem_map.mp hk₀
    refine ⟨(Option.some.inj hsuper).symm, fun hroot => ?_⟩
    have hnew := (mem_filter.mp hc).2
    rw [show c.name = objectClass from hroot] at hnew
    exact absurd hnew (by decide)

theorem members_outlined :
    ∀ k ∈ (outlined Program.base cs).classes, k.fields = [] ∧ k.methods = [] := by
  intro k hk
  obtain ⟨k₀, hk₀, rfl⟩ := mem_map.mp hk
  have hflag : (flagged cs k₀).fields = k₀.fields ∧ (flagged cs k₀).methods = k₀.methods := by
    unfold flagged
    split <;> exact ⟨rfl, rfl⟩
  rw [hflag.1, hflag.2]
  rcases mem_append.mp hk₀ with hk₀ | hk₀
  · simp only [Program.base, mem_cons, not_mem_nil, or_false] at hk₀
    rcases hk₀ with rfl | rfl | rfl <;> exact ⟨rfl, rfl⟩
  · obtain ⟨c, -, rfl⟩ := mem_map.mp hk₀
    exact ⟨rfl, rfl⟩

theorem unlinked_outlined : Unlinked (outlined Program.base cs) cs where
  root _ h := (eq_root_of_super_outlined h).2 rfl
  blank _ _ h := (eq_root_of_super_outlined h).1

theorem acyclic_outlined : (outlined Program.base cs).Acyclic := by
  intro x hx
  obtain ⟨b, -, hbx⟩ := TransGen.tail'_iff.mp hx
  obtain ⟨d, hxd, -⟩ := TransGen.head'_iff.mp hx
  exact (eq_root_of_super_outlined hxd).2 (eq_root_of_super_outlined hbx).1

/-! ### Loading -/

/-- **The stages of loading**: the programs in which the classes are linked, have their members, and
have the bodies of their methods, and the program that is loaded in the end. -/
structure Stages (s : ProgramSource) (linked headed bodied p : Program) : Prop where
  named : ∀ c ∈ s.classes, c.name ≠ ""
  distinct : (s.classes.map (·.name)).Nodup
  link : pass (treat (linkStep (outlined Program.base s.classes)) s.classes)
    (outlined Program.base s.classes) = .ok linked
  acyclic : linked.Acyclic
  head : pass (treat (memberStep linked) s.classes) linked = .ok headed
  read : pass (readBodies headed s.classes) headed = .ok bodied
  classes : p.classes = bodied.classes
  entries : lookupEntries bodied .entry s.entries = .ok p.entries
  implicitEntries : lookupEntries bodied .implicitEntry s.implicitEntries = .ok p.implicitEntries

theorem name_of_readBodies {k k' : Class} (h : readBodies p cs k = .ok k') : k'.name = k.name := by
  obtain ⟨methods, -, h⟩ := exists_of_bind_ok h
  cases h
  rfl

section Stages

variable {s : ProgramSource} {linked headed bodied : Program} (h : Stages s linked headed bodied p)

include h

theorem members_linked : ∀ k ∈ linked.classes, k.fields = [] ∧ k.methods = [] :=
  forall_of_pass_treat (fun _ hk hlink => by
    obtain ⟨super, interfaces, -, -, rfl⟩ := exists_of_linkStep hlink
    exact hk) h.link members_outlined

theorem names_linked : linked.names.Nodup := by
  rw [names_of_pass (keepsNames_linkStep _) h.link]
  exact nodup_names_outlined nodup_names_base h.distinct

theorem names_headed : headed.names.Nodup := by
  rw [names_of_pass (keepsNames_memberStep _) h.head]
  exact names_linked h

theorem names_bodied : bodied.names.Nodup := by
  rw [names_of_pass_of (fun _ _ => name_of_readBodies) h.read]
  exact names_headed h

/-- **What every signature gives a method**, and neither a local variable nor a body takes from it,
all methods have. -/
theorem forall_methods {P : Method → Prop}
    (hsig : ∀ {k source d}, readSignature linked k source = .ok d → P d)
    (hlocal : ∀ {m m' text}, P m → declareLocal headed m text = .ok m' → P m')
    (hbody : ∀ {m body index}, P m → P { m with body := body, index := index }) :
    ∀ k ∈ p.classes, ∀ d ∈ k.methods, P d := by
  have hhead : ∀ k ∈ headed.classes, ∀ d ∈ k.methods, P d := by
    refine forall_of_pass_treat (fun _ hk hstep => ?_) h.head fun k hk d hd => ?_
    · refine memberStep_keeps (P := fun b => ∀ d ∈ b.methods, P d) id ?_ hk hstep
      intro b source d' hd' _ hb d hd
      rcases mem_append.mp hd with hd | hd
      · exact hb d hd
      · cases mem_singleton.mp hd
        exact hsig hd'
    · rw [(members_linked h k hk).2] at hd
      exact absurd hd not_mem_nil
  rw [h.classes]
  refine forall_of_pass (fun {k k'} hk hread => ?_) h.read hhead
  obtain ⟨methods, hmethods, hread⟩ := exists_of_bind_ok hread
  cases hread
  intro d hd
  obtain ⟨⟨m, source⟩, hmem, hread⟩ := exists_of_mem_mapM hmethods hd
  obtain ⟨m', hm', hread⟩ := exists_of_bind_ok hread
  obtain ⟨-, hread⟩ := of_guard_ok hread
  obtain ⟨body, -, hread⟩ := exists_of_bind_ok hread
  cases hread
  rw [Method.withBody_eq]
  exact hbody (foldlM_keeps hlocal (hk m (of_mem_zip hmem).1) hm')

end Stages

/-- **Loading goes through the stages**, and succeeds if they do. -/
theorem load_eq_ok_iff {s : ProgramSource} :
    Program.load s = .ok p ↔ ∃ linked headed bodied, Stages s linked headed bodied p := by
  constructor
  · intro h
    obtain ⟨p₁, h₁, h⟩ := exists_of_bind_ok h
    obtain ⟨p₂, h₂, h⟩ := exists_of_bind_ok h
    obtain ⟨p₃, h₃, h⟩ := exists_of_bind_ok h
    obtain ⟨classes, h₄, h⟩ := exists_of_bind_ok h
    obtain ⟨entries, hentries, h⟩ := exists_of_bind_ok h
    obtain ⟨implicitEntries, himplicit, h⟩ := exists_of_bind_ok h
    cases h
    -- the passes in their order: names, superclasses, members, bodies
    obtain ⟨⟨hall, hnodup⟩, rfl⟩ := (declareClasses_iff nodup_names_base).mp h₁
    have hnames := nodup_names_outlined nodup_names_base hnodup
    obtain ⟨h₂, hacyclic⟩ :=
      (foldlM_linkClass_iff hnames hnodup unlinked_outlined acyclic_outlined).mp h₂
    have hnames₂ := names_of_pass (keepsNames_linkStep _) h₂
    exact ⟨p₂, p₃, { p₃ with classes := classes }, {
      named := fun c hc => (hall c hc).1
      distinct := hnodup
      link := h₂
      acyclic := hacyclic
      head := (foldlM_declareMembers_iff (hnames₂ ▸ hnames) hnodup).mp h₃
      read := pass_eq_ok_iff.mpr ⟨h₄, rfl, rfl⟩
      classes := rfl
      entries := hentries
      implicitEntries := himplicit }⟩
  · rintro ⟨p₂, p₃, p₄, h⟩
    have hnames := nodup_names_outlined nodup_names_base h.distinct
    have h₁ : declareClasses [] Program.base s.classes = .ok (outlined Program.base s.classes) :=
      (declareClasses_iff nodup_names_base).mpr
        ⟨⟨fun c hc => ⟨h.named c hc, not_mem_nil⟩, h.distinct⟩, rfl⟩
    have h₂ : s.classes.foldlM linkClass (outlined Program.base s.classes) = .ok p₂ :=
      (foldlM_linkClass_iff hnames h.distinct unlinked_outlined acyclic_outlined).mpr
        ⟨h.link, h.acyclic⟩
    have h₃ : s.classes.foldlM declareMembers p₂ = .ok p₃ :=
      (foldlM_declareMembers_iff (names_linked h) h.distinct).mpr h.head
    obtain ⟨h₄, he, hi⟩ := pass_eq_ok_iff.mp h.read
    have hbodied : { p₃ with classes := p₄.classes } = p₄ := by rw [← he, ← hi]
    refine bind_eq_ok_iff.mpr ⟨_, h₁, bind_eq_ok_iff.mpr ⟨_, h₂, bind_eq_ok_iff.mpr ⟨_, h₃,
      bind_eq_ok_iff.mpr ⟨_, h₄, ?_⟩⟩⟩⟩
    rw [hbodied]
    refine bind_eq_ok_iff.mpr ⟨_, h.entries, bind_eq_ok_iff.mpr ⟨_, h.implicitEntries, ?_⟩⟩
    rw [← h.classes]
    rfl

end Source

theorem Program.Accepted.exists_stages {p : Program} (h : p.Accepted) :
    ∃ s linked headed bodied, Source.Stages s linked headed bodied p := by
  obtain ⟨s, h⟩ := h
  exact ⟨s, Source.load_eq_ok_iff.mp h⟩

end HeapFlow
