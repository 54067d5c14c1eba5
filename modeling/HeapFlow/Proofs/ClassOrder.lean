import HeapFlow.Proofs.Reruns
import HeapFlow.Proofs.Solving

/-!
# The order of the classes

Each stage of loading (`Source.Stages`) is a map over the classes, and what it makes of a class
depends on the others only by way of look-ups. So with the sources permuted every stage leads to the
same classes in another order (`Program.Reordered`).
-/

namespace HeapFlow

namespace Program

/-- **The same program with its classes in another order.** -/
structure Reordered (p q : Program) : Prop where
  classes : q.classes.Perm p.classes
  entries : q.entries = p.entries
  implicitEntries : q.implicitEntries = p.implicitEntries

/-- Classes with different names are found in any order. -/
theorem Reordered.alike {p q : Program} (h : p.Reordered q) (hp : p.names.Nodup) : p.Alike q where
  class? := by
    funext n
    refine List.find?_eq_find?_of_perm h.classes fun k hk k' hk' => ?_
    have hname : k.name = k'.name := by
      simpa using (beq_iff_eq.mp hk.2).trans (beq_iff_eq.mp hk'.2).symm
    exact eq_of_name_eq hp (h.classes.subset hk.1) (h.classes.subset hk'.1) hname
  size := h.classes.length_eq

namespace Alike

variable {p q : Program} (h : p.Alike q)

include h

/-- Statements are read alike against programs with the same classes. -/
theorem resolveForm : Source.resolveForm q = Source.resolveForm p := by
  funext m form
  cases form with
  | call result kind target qualifier name args =>
    have htarget : Source.callTarget q = Source.callTarget p := by
      funext m target
      simp only [Source.callTarget, h.class?]
    have hqualified : Source.qualified q = Source.qualified p := by
      funext cls qualifier
      cases qualifier <;> simp only [Source.qualified, h.class?]
    have hkind : Source.impliedKind q = Source.impliedKind p := by
      funext receiver cls qualifier name
      simp only [Source.impliedKind, h.class?]
    simp only [Source.resolveForm, Source.resolveCall, htarget, hqualified, hkind, h.findMethod]
  | new dst cls bounds =>
    simp only [Source.resolveForm, Source.resolveNew, Source.typeNamed, h.type?, h.class?]
  | cls | cast => simp only [Source.resolveForm, Source.typeNamed, h.type?]
  | loadField | storeField =>
    simp only [Source.resolveForm, Source.fieldAccess, h.lookupField, h.class?]
  | ret v => cases v <;> rfl
  | str | null | int | loadElem | storeElem | copy => rfl

theorem readBody : Source.readBody q = Source.readBody p := by
  have hlocal : Source.declareLocal q = Source.declareLocal p := by
    funext m text
    simp only [Source.declareLocal, h.type?]
  have hstmt : Source.readBodyStmt q = Source.readBodyStmt p := by
    funext m entry
    simp only [Source.readBodyStmt, Source.readStmt, h.resolveForm]
  funext m source
  simp only [Source.readBody, hlocal, hstmt]

theorem lookupEntries : Source.lookupEntries q = Source.lookupEntries p := by
  funext wrap texts
  simp only [Source.lookupEntries, Source.lookupEntry, h.class?]

theorem memberStep : Source.memberStep q = Source.memberStep p :=
  Source.memberStep_congr h.type?

/-- Superclasses and interfaces are found alike. -/
theorem linkStep : Source.linkStep q = Source.linkStep p := by
  funext c k
  simp only [Source.linkStep, Source.superOf, Source.interfacesOf, h.class?]

theorem acyclic (hp : p.Acyclic) : q.Acyclic := by
  have hsuper : q.Super = p.Super := by
    funext a b
    simp only [Super, h.class?]
  rwa [Acyclic, hsuper]

end Alike

end Program

/-! ### The stages -/

namespace Source

variable {p q p' : Program} {cs cs' : List ClassSource}

theorem find?_of_perm (h : cs'.Perm cs) (hcs : (cs.map (·.name)).Nodup) (n : String) :
    (cs'.find? fun c => c.name == n) = cs.find? fun c => c.name == n := by
  refine List.find?_eq_find?_of_perm h fun c hc c' hc' => ?_
  have hname : c.name = c'.name := by
    simpa using (beq_iff_eq.mp hc.2).trans (beq_iff_eq.mp hc'.2).symm
  exact List.inj_on_of_nodup_map hcs (h.subset hc.1) (h.subset hc'.1) hname

theorem treat_of_perm (h : cs'.Perm cs) (hcs : (cs.map (·.name)).Nodup)
    (step : ClassSource → Class → Except LoadError Class) : treat step cs' = treat step cs := by
  funext k
  rw [treat, treat, find?_of_perm h hcs]

theorem reordered_outlined (h : cs'.Perm cs) (hcs : (cs.map (·.name)).Nodup) :
    (outlined p cs).Reordered (outlined p cs') := by
  have hflag : flagged cs' = flagged cs := by
    funext k
    rw [flagged, flagged, find?_of_perm h hcs]
  refine ⟨?_, rfl, rfl⟩
  rw [outlined, outlined, hflag]
  exact ((((h.filter _).map _).append_left _).map _)

/-- **A pass over the classes in another order** makes the same of them. -/
theorem reordered_pass {f : Class → Except LoadError Class} (h : p.Reordered q)
    (hp : pass f p = .ok p') : ∃ q', pass f q = .ok q' ∧ p'.Reordered q' := by
  obtain ⟨hall, he, hi⟩ := pass_eq_ok_iff.mp hp
  obtain ⟨l, hl, hperm⟩ := List.perm_comp_forall₂ h.classes (mapM_eq_ok_iff.mp hall)
  have hpass : pass f q = .ok { q with classes := l } :=
    pass_eq_ok_iff.mpr ⟨mapM_eq_ok_iff.mpr hl, rfl, rfl⟩
  refine ⟨{ q with classes := l }, hpass, hperm, ?_, ?_⟩
  · exact h.entries.trans he.symm
  · exact h.implicitEntries.trans hi.symm

theorem readBodies_of_perm (hq : p.Alike q) (h : cs'.Perm cs) (hcs : (cs.map (·.name)).Nodup) :
    readBodies q cs' = readBodies p cs := by
  funext k
  simp only [readBodies, find?_of_perm h hcs, hq.readBody]

/-- **Loading in another order.** -/
theorem exists_load_reordered {s s' : ProgramSource} (hclasses : s'.classes.Perm s.classes)
    (hentries : s'.entries = s.entries) (himplicit : s'.implicitEntries = s.implicitEntries)
    (h : Program.load s = .ok p) :
    ∃ p', Program.load s' = .ok p' ∧ p.Reordered p' ∧ p.names.Nodup := by
  obtain ⟨p₂, p₃, p₄, h⟩ := load_eq_ok_iff.mp h
  have hcs := h.distinct
  have hdistinct : (s'.classes.map (·.name)).Nodup := (hclasses.map _).nodup_iff.mpr hcs
  have hnames₁ := nodup_names_outlined nodup_names_base hcs
  have hnames₂ := names_linked h
  have hnames₃ := names_headed h
  have hnames₄ := names_bodied h
  have hre₁ := reordered_outlined (p := Program.base) hclasses hcs
  obtain ⟨q₂, hq₂, hre₂⟩ := reordered_pass hre₁ h.link
  obtain ⟨q₃, hq₃, hre₃⟩ := reordered_pass hre₂ h.head
  obtain ⟨q₄, hq₄, hre₄⟩ := reordered_pass hre₃ h.read
  have hlookup := (hre₄.alike hnames₄).lookupEntries
  refine ⟨{ q₄ with entries := p.entries, implicitEntries := p.implicitEntries },
    load_eq_ok_iff.mpr ⟨q₂, q₃, q₄, ?_⟩, ⟨h.classes ▸ hre₄.classes, rfl, rfl⟩, ?_⟩
  · exact {
      named := fun c hc => h.named c (hclasses.subset hc)
      distinct := hdistinct
      link := by rwa [(hre₁.alike hnames₁).linkStep, treat_of_perm hclasses hcs]
      acyclic := (hre₂.alike hnames₂).acyclic h.acyclic
      head := by rwa [(hre₂.alike hnames₂).memberStep, treat_of_perm hclasses hcs]
      read := by rwa [readBodies_of_perm (hre₃.alike hnames₃) hclasses hcs]
      classes := rfl
      entries := by rw [hlookup, hentries]; exact h.entries
      implicitEntries := by rw [hlookup, himplicit]; exact h.implicitEntries }
  · rwa [Program.names, h.classes]

end Source

/-- **The order of the classes does not matter.** With the classes of a source permuted, loading
succeeds just if it succeeded before. Then the program has the same classes, with all that is in
them, in another order and the same entry methods, and every analysis of it writes the same dump, or
fails in the same way. -/
theorem class_order_irrelevant {s s' : ProgramSource} (hclasses : s'.classes.Perm s.classes)
    (hentries : s'.entries = s.entries) (himplicit : s'.implicitEntries = s.implicitEntries) :
    ((∃ p, Program.load s = .ok p) ↔ ∃ p', Program.load s' = .ok p') ∧
      ∀ p p', Program.load s = .ok p → Program.load s' = .ok p' →
        p'.classes.Perm p.classes ∧ p'.class? = p.class? ∧ p'.entries = p.entries ∧
          p'.implicitEntries = p.implicitEntries ∧
          ∀ o policy more, (analyze p' o policy more).map Result.dump =
            (analyze p o policy more).map Result.dump := by
  refine ⟨⟨?_, ?_⟩, fun p p' h h' => ?_⟩
  · rintro ⟨p, h⟩
    obtain ⟨p', h', -⟩ := Source.exists_load_reordered hclasses hentries himplicit h
    exact ⟨p', h'⟩
  · rintro ⟨p', h'⟩
    obtain ⟨p, h, -⟩ :=
      Source.exists_load_reordered hclasses.symm hentries.symm himplicit.symm h'
    exact ⟨p, h⟩
  · obtain ⟨q, hq, hre, hp⟩ := Source.exists_load_reordered hclasses hentries himplicit h
    cases Except.ok.inj (h'.symm.trans hq)
    have halike := hre.alike hp
    exact ⟨hre.classes, halike.class?, hre.entries, hre.implicitEntries,
      map_dump_on halike hre.entries hre.implicitEntries⟩

/-- The classes of the example the other way round. -/
theorem class_order_irrelevant_box :
    ∃ p p', Program.load boxSource = .ok p ∧
      Program.load { boxSource with classes := boxSource.classes.reverse } = .ok p' ∧
      p'.classes ≠ p.classes ∧ p'.classes.Perm p.classes ∧
      (analyze p' {} (.obj 1) []).map Result.dump = (analyze p {} (.obj 1) []).map Result.dump := by
  have hperm : { boxSource with classes := boxSource.classes.reverse }.classes.Perm
      boxSource.classes := List.reverse_perm _
  obtain ⟨p, hp, hfirst⟩ : ∃ p, Program.load boxSource = .ok p ∧
      p.names = ["Object", "String", "Class", "Box", "Main"] :=
    exists_of_any_toOption (by decide +kernel)
  obtain ⟨hiff, hsame⟩ := class_order_irrelevant hperm rfl rfl
  obtain ⟨p', hp'⟩ := hiff.mp ⟨p, hp⟩
  obtain ⟨hclasses, -, -, -, hdump⟩ := hsame p p' hp hp'
  refine ⟨p, p', hp, hp', fun heq => ?_, hclasses, hdump {} (.obj 1) []⟩
  obtain ⟨q, hq, hother⟩ : ∃ q,
      Program.load { boxSource with classes := boxSource.classes.reverse } = .ok q ∧
      q.names = ["Object", "String", "Class", "Main", "Box"] :=
    exists_of_any_toOption (by decide +kernel)
  cases Except.ok.inj (hp'.symm.trans hq)
  rw [Program.names, heq, ← Program.names, hfirst] at hother
  revert hother
  decide

end HeapFlow
