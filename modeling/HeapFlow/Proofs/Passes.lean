import Mathlib.Data.List.Find
import Mathlib.Data.List.Perm.Basic
import HeapFlow.Proofs.Chains
import HeapFlow.Proofs.Loading

/-!
# Loading is class by class

Loading goes over the sources of the classes again and again, and each time it replaces the class
that the source is about. Each pass treats every class on its own (`Source.treat`), with no regard
for the other classes but for their names, and the names are complete after the first pass. So a
pass is one map over the classes of the program (`Source.pass`).
-/

namespace HeapFlow

open List Option Program

section Except

variable {ε α β γ : Type} {f : α → Except ε β} {l : List α} {l' : List β} {b : β}

theorem mapM_eq_ok_iff : l.mapM f = .ok l' ↔ List.Forall₂ (fun a b => f a = .ok b) l l' := by
  refine ⟨forall₂_of_mapM, fun h => ?_⟩
  induction h with
  | nil => rfl
  | cons hab _ ih =>
    rw [mapM_cons, hab, ih]
    rfl

theorem bind_eq_ok_iff {x : Except ε α} : (x >>= f) = .ok b ↔ ∃ a, x = .ok a ∧ f a = .ok b := by
  refine ⟨exists_of_bind_ok, ?_⟩
  rintro ⟨a, rfl, h⟩
  exact h

/-- Two maps, one after the other. -/
theorem mapM_bind_eq_ok_iff {g : β → Except ε γ} {l' : List γ} :
    l.mapM (fun a => f a >>= g) = .ok l' ↔ ∃ l₁, l.mapM f = .ok l₁ ∧ l₁.mapM g = .ok l' := by
  simp only [mapM_eq_ok_iff, bind_eq_ok_iff]
  constructor
  · intro h
    induction h with
    | nil => exact ⟨[], .nil, .nil⟩
    | cons hab _ ih =>
      obtain ⟨b, hb, hg⟩ := hab
      obtain ⟨l₁, h₁, h₂⟩ := ih
      exact ⟨b :: l₁, .cons hb h₁, .cons hg h₂⟩
  · rintro ⟨l₁, h₁, h₂⟩
    induction h₁ generalizing l' with
    | nil =>
      cases h₂
      exact .nil
    | cons hab _ ih =>
      obtain - | ⟨hg, h₂⟩ := h₂
      exact .cons ⟨_, hab, hg⟩ (ih h₂)

theorem map_eq_of_mapM {g : α → γ} {g' : β → γ} (hf : ∀ a ∈ l, ∀ b, f a = .ok b → g' b = g a)
    (h : l.mapM f = .ok l') : l'.map g' = l.map g := by
  have hall := mapM_eq_ok_iff.mp h
  clear h
  induction hall with
  | nil => rfl
  | cons hab _ ih =>
    rw [map_cons, map_cons, hf _ (.head _) _ hab, ih fun a ha => hf a (.tail _ ha)]

theorem getElem?_of_mapM (h : l.mapM f = .ok l') {i : Nat} (hb : l'[i]? = some b) :
    ∃ a, l[i]? = some a ∧ f a = .ok b := by
  have hall := mapM_eq_ok_iff.mp h
  clear h
  induction hall generalizing i with
  | nil => cases hb
  | cons hab _ ih =>
    cases i with
    | zero =>
      cases hb
      exact ⟨_, rfl, hab⟩
    | succ i => exact ih hb

theorem mapM_congr {g : α → Except ε β} (h : ∀ a ∈ l, f a = g a) : l.mapM f = l.mapM g := by
  induction l with
  | nil => rfl
  | cons a l ih =>
    rw [mapM_cons, mapM_cons, h a (.head _), ih fun b hb => h b (.tail _ hb)]

theorem exists_of_foldlM_error {f : β → α → Except ε β} {e : ε} (h : l.foldlM f b = .error e) :
    ∃ done a rest b', l = done ++ a :: rest ∧ done.foldlM f b = .ok b' ∧ f b' a = .error e := by
  induction l generalizing b with
  | nil => cases h
  | cons a l ih =>
    rw [foldlM_cons] at h
    cases hb : f b a with
    | error e' =>
      rw [hb] at h
      cases h
      exact ⟨[], a, l, b, rfl, rfl, hb⟩
    | ok b₁ =>
      rw [hb] at h
      obtain ⟨done, a', rest, b', rfl, hdone, he⟩ := ih h
      refine ⟨a :: done, a', rest, b', rfl, ?_, he⟩
      rw [foldlM_cons, hb]
      exact hdone

end Except

theorem find?_key_eq_some {α : Type} {key : α → String} {l : List α} (hl : (l.map key).Nodup)
    {a : α} (ha : a ∈ l) : l.find? (fun b => key b == key a) = some a := by
  cases hb : l.find? fun b => key b == key a with
  | none => exact absurd (beq_self_eq_true _) (find?_eq_none.mp hb a ha)
  | some b =>
    have hkey : key b = key a := by simpa using find?_some hb
    rw [inj_on_of_nodup_map hl (mem_of_find?_eq_some hb) ha hkey]

namespace Program

variable {p q : Program}

def names (p : Program) : List String :=
  p.classes.map (·.name)

theorem map_name_class? (n : String) : (p.class? n).map (·.name) = p.names.find? (· == n) := by
  rw [names, find?_map]
  rfl

theorem isSome_class?_congr (h : q.names = p.names) (n : String) :
    (q.class? n).isSome = (p.class? n).isSome := by
  have hmap : (q.class? n).map (·.name) = (p.class? n).map (·.name) := by
    rw [map_name_class?, map_name_class?, h]
  simpa using congrArg Option.isSome hmap

theorem type?_congr (h : q.names = p.names) : q.type? = p.type? := by
  have hmap : ∀ (n : Nat) (c : String), (q.class? c).map (fun k => (Ty.cls k.name).arrays n) =
      (p.class? c).map fun k => (Ty.cls k.name).arrays n := by
    intro n c
    have hnames : (q.class? c).map (·.name) = (p.class? c).map (·.name) := by
      rw [map_name_class?, map_name_class?, h]
    have hty := congrArg (Option.map fun c => (Ty.cls c).arrays n) hnames
    rwa [Option.map_map, Option.map_map] at hty
  funext w
  simp only [type?, hmap]

theorem eq_of_name_eq (h : p.names.Nodup) {k k' : Class} (hk : k ∈ p.classes)
    (hk' : k' ∈ p.classes) (hname : k.name = k'.name) : k = k' :=
  inj_on_of_nodup_map h hk hk' hname

/-- Classes with different names are found by their names. -/
theorem class?_eq_some_iff (h : p.names.Nodup) {n : String} {k : Class} :
    p.class? n = some k ↔ k ∈ p.classes ∧ k.name = n := by
  refine ⟨fun hk => ⟨mem_of_class? hk, name_of_class? hk⟩, ?_⟩
  rintro ⟨hk, rfl⟩
  exact find?_key_eq_some h hk

end Program

namespace Source

/-! ### Passes -/

variable {step : ClassSource → Class → Except LoadError Class} {c : ClassSource}
  {cs : List ClassSource} {p q : Program}

/-- What a pass makes of a class. The source of the class says it; a class that is not written down
stays as it is. -/
def treat (step : ClassSource → Class → Except LoadError Class) (cs : List ClassSource)
    (k : Class) : Except LoadError Class :=
  match cs.find? fun c => c.name == k.name with
  | some c => step c k
  | none => .ok k

/-- **A pass over a program**: every class is replaced by what is made of it. -/
def pass (f : Class → Except LoadError Class) (p : Program) : Except LoadError Program := do
  pure { p with classes := ← p.classes.mapM f }

/-- What a step makes of a class has the name of the class. -/
def KeepsNames (step : ClassSource → Class → Except LoadError Class) : Prop :=
  ∀ c k k', step c k = .ok k' → k'.name = k.name

variable {f g : Class → Except LoadError Class} {k k' : Class} {n : String} {P : Class → Prop}
  {declared : List String}

theorem pass_eq_ok_iff :
    pass f p = .ok q ↔ p.classes.mapM f = .ok q.classes ∧ q.entries = p.entries ∧
      q.implicitEntries = p.implicitEntries := by
  rw [pass, bind_eq_ok_iff]
  constructor
  · rintro ⟨l, hl, h⟩
    cases h
    exact ⟨hl, rfl, rfl⟩
  · rintro ⟨hl, he, hi⟩
    refine ⟨q.classes, hl, ?_⟩
    rw [← he, ← hi]
    rfl

theorem pass_congr (h : ∀ k ∈ p.classes, f k = g k) : pass f p = pass g p := by
  rw [pass, pass, mapM_congr h]

theorem pass_bind_eq_ok_iff :
    pass (fun k => f k >>= g) p = .ok q ↔ ∃ p₁, pass f p = .ok p₁ ∧ pass g p₁ = .ok q := by
  simp only [pass_eq_ok_iff, mapM_bind_eq_ok_iff]
  constructor
  · rintro ⟨⟨l, hl, hq⟩, he, hi⟩
    exact ⟨{ p with classes := l }, ⟨hl, rfl, rfl⟩, hq, he, hi⟩
  · rintro ⟨p₁, ⟨hl, he₁, hi₁⟩, hq, he, hi⟩
    exact ⟨⟨p₁.classes, hl, hq⟩, he.trans he₁, hi.trans hi₁⟩

theorem names_of_pass_of (hf : ∀ k k', f k = .ok k' → k'.name = k.name) (h : pass f p = .ok q) :
    q.names = p.names :=
  map_eq_of_mapM (fun k _ k' => hf k k') (pass_eq_ok_iff.mp h).1

theorem name_of_treat (hstep : KeepsNames step) (h : treat step cs k = .ok k') :
    k'.name = k.name := by
  unfold treat at h
  split at h
  · exact hstep _ _ _ h
  · cases h
    rfl

theorem names_of_pass (hstep : KeepsNames step) (h : pass (treat step cs) p = .ok q) :
    q.names = p.names :=
  names_of_pass_of (fun _ _ => name_of_treat hstep) h

/-- Classes are treated one after the other. -/
theorem treat_cons (hstep : KeepsNames step) (hc : c.name ∉ cs.map (·.name)) (k : Class) :
    treat step (c :: cs) k = treat step [c] k >>= treat step cs := by
  by_cases hk : c.name = k.name
  · have hself : treat step (c :: cs) k = step c k := by simp [treat, hk]
    have hone : treat step [c] k = step c k := by simp [treat, hk]
    rw [hself, hone]
    cases hs : step c k with
    | error e => rfl
    | ok k' =>
      -- the other sources are about classes of other names
      have hnone : (cs.find? fun d => d.name == k'.name) = none := by
        rw [find?_eq_none]
        intro d hd hname
        refine hc (mem_map.mpr ⟨d, hd, ?_⟩)
        rw [hk, ← hstep _ _ _ hs]
        simpa using hname
      show _ = treat step cs k'
      rw [treat, hnone]
  · have hone : treat step [c] k = .ok k := by simp [treat, hk]
    have hrest : treat step (c :: cs) k = treat step cs k := by simp [treat, hk]
    rw [hone, hrest]
    rfl

theorem pass_treat_cons (hstep : KeepsNames step) (hc : c.name ∉ cs.map (·.name)) :
    pass (treat step (c :: cs)) p = .ok q ↔
      ∃ p₁, pass (treat step [c]) p = .ok p₁ ∧ pass (treat step cs) p₁ = .ok q := by
  rw [← pass_bind_eq_ok_iff, pass_congr fun k _ => treat_cons hstep hc k]

theorem class?_of_pass (hstep : KeepsNames step) (hp : p.names.Nodup)
    (h : pass (treat step cs) p = .ok q) (hk : p.class? n = some k) :
    ∃ k', q.class? n = some k' ∧ treat step cs k = .ok k' := by
  have hall := mapM_eq_ok_iff.mp (pass_eq_ok_iff.mp h).1
  obtain ⟨i, hi⟩ := mem_iff_getElem?.mp (mem_of_class? hk)
  obtain ⟨k', hk', htreat⟩ : ∃ k', q.classes[i]? = some k' ∧ treat step cs k = .ok k' := by
    clear hk h hp
    generalize p.classes = l at hall hi
    generalize q.classes = l' at hall
    induction hall generalizing i with
    | nil => cases hi
    | cons hab _ ih =>
      cases i with
      | zero =>
        cases hi
        exact ⟨_, rfl, hab⟩
      | succ i => exact ih i hi
  have hq : q.names.Nodup := names_of_pass hstep h ▸ hp
  refine ⟨k', (class?_eq_some_iff hq).mpr ⟨mem_of_getElem? hk', ?_⟩, htreat⟩
  rw [name_of_treat hstep htreat, name_of_class? hk]

theorem class?_of_pass_of_notMem (hstep : KeepsNames step) (hp : p.names.Nodup)
    (h : pass (treat step cs) p = .ok q) (hn : n ∉ cs.map (·.name)) : q.class? n = p.class? n := by
  cases hk : p.class? n with
  | none =>
    rw [← isNone_iff_eq_none, ← not_isSome, isSome_class?_congr (names_of_pass hstep h), hk]
    rfl
  | some k =>
    obtain ⟨k', hk', htreat⟩ := class?_of_pass hstep hp h hk
    have hnone : (cs.find? fun c => c.name == k.name) = none := by
      rw [find?_eq_none]
      intro c hc hname
      refine hn (mem_map.mpr ⟨c, hc, ?_⟩)
      rw [← name_of_class? hk]
      simpa using hname
    rw [treat, hnone] at htreat
    rw [hk', ← Except.ok.inj htreat]

/-- What a pass makes of every class holds of all classes after it. -/
theorem forall_of_pass {Q : Class → Prop} (hf : ∀ {k k'}, P k → f k = .ok k' → Q k')
    (h : pass f p = .ok q) (hp : ∀ k ∈ p.classes, P k) : ∀ k ∈ q.classes, Q k := by
  intro k' hk'
  obtain ⟨k, hk, hfk⟩ := exists_of_mem_mapM (pass_eq_ok_iff.mp h).1 hk'
  exact hf (hp k hk) hfk

theorem forall_of_pass_treat (hstep : ∀ {c k k'}, c.name = k.name → P k → step c k = .ok k' → P k')
    (h : pass (treat step cs) p = .ok q) (hp : ∀ k ∈ p.classes, P k) : ∀ k ∈ q.classes, P k := by
  refine forall_of_pass (fun {k k'} hk htreat => ?_) h hp
  unfold treat at htreat
  split at htreat
  · next c hc => exact hstep (by simpa using find?_some hc) hk htreat
  · cases htreat
    exact hk

theorem pass_treat_nil : pass (treat step []) p = .ok p :=
  pass_eq_ok_iff.mpr ⟨mapM_eq_ok_iff.mpr (forall₂_same.mpr fun _ _ => rfl), rfl, rfl⟩

/-- **Replacing one class is a pass** with a single source. -/
theorem setClass_iff_pass (hstep : KeepsNames step) (hp : p.names.Nodup)
    (hk : p.class? c.name = some k) :
    (∃ k', step c k = .ok k' ∧ p.setClass k' = q) ↔ pass (treat step [c]) p = .ok q := by
  have hself : treat step [c] k = step c k := by simp [treat, name_of_class? hk]
  have hset : ∀ {k'}, step c k = .ok k' → pass (treat step [c]) p = .ok (p.setClass k') := by
    intro k' hk'
    have hname : k'.name = c.name := (hstep _ _ _ hk').trans (name_of_class? hk)
    refine pass_eq_ok_iff.mpr ⟨mapM_eq_ok_iff.mpr ?_, rfl, rfl⟩
    refine forall₂_map_right_iff.mpr (forall₂_same.mpr fun a ha => ?_)
    by_cases haname : a.name = c.name
    · have hak : a = k :=
        eq_of_name_eq hp ha (mem_of_class? hk) (haname.trans (name_of_class? hk).symm)
      rw [if_pos (haname.trans hname.symm), hak, hself, hk']
    · rw [if_neg (hname ▸ haname)]
      simp [treat, Ne.symm haname]
  constructor
  · rintro ⟨k', hk', rfl⟩
    exact hset hk'
  · intro h
    obtain ⟨k', -, hk'⟩ := class?_of_pass hstep hp h hk
    rw [hself] at hk'
    exact ⟨k', hk', Except.ok.inj ((hset hk').symm.trans h)⟩

theorem pass_of_class?_none (hc : p.class? c.name = none) : pass (treat step [c]) p = .ok p := by
  refine pass_eq_ok_iff.mpr ⟨mapM_eq_ok_iff.mpr (forall₂_same.mpr fun a ha => ?_), rfl, rfl⟩
  have hne : c.name ≠ a.name := by
    intro hname
    have := find?_eq_none.mp hc a ha
    simp [hname] at this
  simp [treat, hne]

/-! ### Class names -/

/-- A class with the flags that its source asks for. -/
def flagged (cs : List ClassSource) (k : Class) : Class :=
  match cs.find? fun c => c.name == k.name with
  | some c => { k with
      isInterface := c.isInterface
      isAbstract := c.isAbstract || c.isInterface
      isApplication := !c.isLibrary && !isPredefined c.name }
  | none => k

/-- The sources of classes that a program does not have. -/
def newSources (p : Program) (cs : List ClassSource) : List ClassSource :=
  cs.filter fun c => (p.class? c.name).isNone

/-- The class that a source declares, as long as only its name is known. -/
def blank (c : ClassSource) : Class :=
  { name := c.name, super := some objectClass }

def outlined (p : Program) (cs : List ClassSource) : Program :=
  { p with classes := (p.classes ++ (newSources p cs).map blank).map (flagged cs) }

theorem name_flagged (k : Class) : (flagged cs k).name = k.name := by
  unfold flagged
  split <;> rfl

theorem super_flagged (k : Class) : (flagged cs k).super = k.super := by
  unfold flagged
  split <;> rfl

theorem flagged_of_notMem (h : k.name ∉ cs.map (·.name)) : flagged cs k = k := by
  have hnone : (cs.find? fun c => c.name == k.name) = none := by
    rw [find?_eq_none]
    intro c hc hname
    exact h (mem_map.mpr ⟨c, hc, by simpa using hname⟩)
  rw [flagged, hnone]

theorem flagged_cons (hc : c.name ∉ cs.map (·.name)) (k : Class) :
    flagged (c :: cs) k = flagged cs (flagged [c] k) := by
  by_cases hk : c.name = k.name
  · rw [flagged_of_notMem (k := flagged [c] k) (by rwa [name_flagged, ← hk])]
    simp [flagged, hk]
  · simp [flagged, hk]

/-- The first pass adds the classes that are new. -/
theorem names_outlined (p : Program) (cs : List ClassSource) :
    (outlined p cs).names = p.names ++ (newSources p cs).map (·.name) := by
  simp [Program.names, outlined, name_flagged, Function.comp_def, blank]

theorem class?_eq_none_iff : p.class? n = none ↔ n ∉ p.names := by
  simp [Program.class?, Program.names]

theorem nodup_names_outlined (hp : p.names.Nodup) (hcs : (cs.map (·.name)).Nodup) :
    (outlined p cs).names.Nodup := by
  rw [names_outlined]
  refine List.Nodup.append hp (hcs.sublist (filter_sublist.map _)) fun n hn hmem => ?_
  obtain ⟨c, hc, rfl⟩ := mem_map.mp hmem
  have hnone := (mem_filter.mp hc).2
  rw [isNone_iff_eq_none, class?_eq_none_iff] at hnone
  exact hnone hn

theorem outlined_cons (hc : c.name ∉ cs.map (·.name)) :
    outlined (outlined p [c]) cs = outlined p (c :: cs) := by
  have hnew : newSources p (c :: cs) = newSources p [c] ++ newSources (outlined p [c]) cs := by
    rw [newSources, filter_cons, newSources, newSources, filter_cons, filter_nil]
    have hrest : (cs.filter fun d => ((outlined p [c]).class? d.name).isNone) =
        cs.filter fun d => (p.class? d.name).isNone := by
      refine filter_congr fun d hd => ?_
      have hne : d.name ∉ (newSources p [c]).map (·.name) := by
        intro hmem
        obtain ⟨e, he, hname⟩ := mem_map.mp hmem
        cases mem_singleton.mp (mem_filter.mp he).1
        exact hc (mem_map.mpr ⟨d, hd, hname.symm⟩)
      rw [Bool.eq_iff_iff, isNone_iff_eq_none, isNone_iff_eq_none,
        class?_eq_none_iff, class?_eq_none_iff, names_outlined, mem_append, or_iff_left hne]
    rw [hrest]
    split <;> rfl
  have hflag : flagged (c :: cs) = flagged cs ∘ flagged [c] := funext (flagged_cons hc)
  -- the classes that are new after `c` have other names, so the flags of `c` are none of theirs
  have hlater : ∀ d ∈ newSources (outlined p [c]) cs, flagged [c] (blank d) = blank d := by
    intro d hd
    refine flagged_of_notMem fun hmem => hc ?_
    obtain ⟨e, he, hname⟩ := mem_map.mp hmem
    cases mem_singleton.mp he
    exact mem_map.mpr ⟨d, (mem_filter.mp hd).1, hname.symm⟩
  have hclasses : ((outlined p [c]).classes ++ (newSources (outlined p [c]) cs).map blank).map
      (flagged cs) = (p.classes ++ (newSources p (c :: cs)).map blank).map (flagged (c :: cs)) := by
    rw [hnew, hflag]
    generalize newSources (outlined p [c]) cs = later at hlater
    have hsame : later.map (flagged cs ∘ blank) = later.map (flagged cs ∘ flagged [c] ∘ blank) :=
      map_congr_left fun d hd => congrArg (flagged cs) (hlater d hd).symm
    simp only [outlined, map_append, List.map_map, append_assoc, hsame, Function.comp_assoc]
  exact congrArg (Program.mk · p.entries p.implicitEntries) hclasses

/-- A class is declared if its name is neither empty nor taken. -/
theorem declareClass_iff (hp : p.names.Nodup) :
    declareClass declared p c = .ok q ↔ (c.name ≠ "" ∧ c.name ∉ declared) ∧ outlined p [c] = q := by
  have hself : ∀ {k : Class}, k.name = c.name → flagged [c] k = { k with
      isInterface := c.isInterface
      isAbstract := c.isAbstract || c.isInterface
      isApplication := !c.isLibrary && !isPredefined c.name } := by
    intro k hk
    simp [flagged, hk]
  have hother : ∀ {k : Class}, k.name ≠ c.name → flagged [c] k = k := by
    intro k hk
    exact flagged_of_notMem (by simpa using hk)
  unfold declareClass
  by_cases hempty : c.name = ""
  · simp [hempty, throw, throwThe, MonadExceptOf.throw, bind, Except.bind]
  by_cases htwice : c.name ∈ declared
  · simp [hempty, htwice, throw, throwThe, MonadExceptOf.throw, bind, Except.bind]
  simp only [hempty, htwice, if_false, contains_iff_mem, ne_eq, not_false_iff, true_and]
  cases hc : p.class? c.name with
  | some k =>
    have hname := name_of_class? hc
    have hset : outlined p [c] = p.setClass (flagged [c] k) := by
      simp only [outlined, newSources, Program.setClass, filter_cons, hc, isNone_some,
        Bool.false_eq_true, if_false, filter_nil, map_nil, append_nil,
        Program.mk.injEq, and_true]
      refine map_congr_left fun a ha => ?_
      by_cases hak : a.name = k.name
      · rw [if_pos (hak.trans (name_flagged k).symm), eq_of_name_eq hp ha (mem_of_class? hc) hak]
      · rw [if_neg (name_flagged k ▸ hak), hother (hname ▸ hak)]
    rw [hset, hself hname]
    exact ⟨Except.ok.inj, congrArg Except.ok⟩
  | none =>
    have hadd : outlined p [c] = { p with classes := p.classes ++ [flagged [c] (blank c)] } := by
      simp only [outlined, newSources, filter_cons, hc, isNone_none, if_true,
        filter_nil, map_append, map_cons, map_nil, Program.mk.injEq, and_true]
      refine congrArg (· ++ _) ((map_congr_left fun a ha => hother fun hak => ?_).trans
        (List.map_id _))
      exact class?_eq_none_iff.mp hc (mem_map.mpr ⟨a, ha, hak⟩)
    rw [hadd, hself rfl]
    exact ⟨Except.ok.inj, congrArg Except.ok⟩

/-- **The first pass.** Classes can be declared just if their names are not empty and all different,
and then the order does not matter for what is known of each. -/
theorem declareClasses_iff (hp : p.names.Nodup) :
    declareClasses declared p cs = .ok q ↔
      ((∀ c ∈ cs, c.name ≠ "" ∧ c.name ∉ declared) ∧ (cs.map (·.name)).Nodup) ∧
        outlined p cs = q := by
  induction cs generalizing declared p with
  | nil =>
    have hflag : flagged [] = id := rfl
    have hnil : outlined p [] = p := by simp [outlined, newSources, hflag]
    simp [declareClasses, hnil]
  | cons c cs ih =>
    have hone : (outlined p [c]).names.Nodup := nodup_names_outlined hp (nodup_singleton _)
    have hstep : declareClasses declared p (c :: cs) = .ok q ↔ (c.name ≠ "" ∧ c.name ∉ declared) ∧
        declareClasses (c.name :: declared) (outlined p [c]) cs = .ok q := by
      rw [declareClasses, bind_eq_ok_iff]
      constructor
      · rintro ⟨p₁, h₁, h⟩
        obtain ⟨hc, rfl⟩ := (declareClass_iff hp).mp h₁
        exact ⟨hc, h⟩
      · rintro ⟨hc, h⟩
        exact ⟨_, (declareClass_iff hp).mpr ⟨hc, rfl⟩, h⟩
    rw [hstep, ih hone]
    constructor
    · rintro ⟨hc, ⟨hall, hnodup⟩, hq⟩
      have hnew : c.name ∉ cs.map (·.name) := by
        intro hmem
        obtain ⟨d, hd, hname⟩ := mem_map.mp hmem
        exact (hall d hd).2 (hname ▸ .head _)
      refine ⟨⟨fun d hd => ?_, nodup_cons.mpr ⟨hnew, hnodup⟩⟩, outlined_cons hnew ▸ hq⟩
      rcases mem_cons.mp hd with rfl | hd
      · exact hc
      · exact ⟨(hall d hd).1, fun hmem => (hall d hd).2 (.tail _ hmem)⟩
    · rintro ⟨⟨hall, hnodup⟩, hq⟩
      obtain ⟨hnew, hnodup⟩ := nodup_cons.mp hnodup
      refine ⟨hall c (.head _), ⟨fun d hd => ?_, hnodup⟩, outlined_cons hnew ▸ hq⟩
      obtain ⟨hempty, hdeclared⟩ := hall d (.tail _ hd)
      refine ⟨hempty, fun hmem => ?_⟩
      rcases mem_cons.mp hmem with hname | hmem
      · exact hnew (mem_map.mpr ⟨d, hd, hname⟩)
      · exact hdeclared hmem

/-- Adds the members to a class. -/
def memberStep (p : Program) (c : ClassSource) (k : Class) : Except LoadError Class := do
  let k ← c.fields.foldlM (declareField p) k
  c.methods.foldlM (declareMethod p) k

theorem memberStep_keeps (hfield : ∀ {b fields}, P b → P { b with fields := fields })
    (hmethod : ∀ {b source d}, readSignature p b source = .ok d → b.method? d.id.subsig = none →
      P b → P { b with methods := b.methods ++ [d] }) (hk : P k) (h : memberStep p c k = .ok k') :
    P k' := by
  obtain ⟨k₁, h₁, h⟩ := exists_of_bind_ok h
  refine foldlM_keeps (fun {b a b'} hb hm => ?_) (foldlM_keeps (fun {b a b'} hb hf => ?_) hk h₁) h
  · obtain ⟨d, hd, hnew, rfl⟩ := exists_of_declareMethod hm
    exact hmethod hd hnew hb
  · obtain ⟨name, t, isStatic, rfl⟩ := exists_of_declareField hf
    exact hfield hb

theorem keepsNames_memberStep (p : Program) : KeepsNames (memberStep p) := by
  intro c k k' h
  exact memberStep_keeps (P := fun b => b.name = k.name) id (fun _ _ => id) rfl h

theorem memberStep_congr (h : q.type? = p.type?) : memberStep q = memberStep p := by
  have hfield : declareField q = declareField p := by
    funext k text
    simp only [declareField, h]
  have hparam : readParam q = readParam p := by
    funext cls method text
    simp only [readParam, h]
  have hmethod : declareMethod q = declareMethod p := by
    funext k m
    simp only [declareMethod, readSignature, h, hparam]
  funext c k
  simp only [memberStep, hfield, hmethod]

/-- Declaring the members of a class is a pass with a single source. -/
theorem declareMembers_iff (hp : p.names.Nodup) :
    declareMembers p c = .ok q ↔ pass (treat (memberStep p) [c]) p = .ok q := by
  cases hc : p.class? c.name with
  | none =>
    rw [pass_of_class?_none hc, declareMembers, hc]
    exact Iff.rfl
  | some k =>
    rw [← setClass_iff_pass (keepsNames_memberStep p) hp hc, declareMembers, hc]
    simp only [memberStep, bind_eq_ok_iff]
    constructor
    · rintro ⟨k₁, h₁, k₂, h₂, h⟩
      exact ⟨k₂, ⟨k₁, h₁, h₂⟩, Except.ok.inj h⟩
    · rintro ⟨k₂, ⟨k₁, h₁, h₂⟩, h⟩
      exact ⟨k₁, h₁, k₂, h₂, congrArg Except.ok h⟩

/-- **The pass over the members is class by class.** -/
theorem foldlM_declareMembers_iff (hp : p.names.Nodup) (hcs : (cs.map (·.name)).Nodup) :
    cs.foldlM declareMembers p = .ok q ↔ pass (treat (memberStep p) cs) p = .ok q := by
  induction cs generalizing p with
  | nil =>
    rw [pass_treat_nil]
    exact Iff.rfl
  | cons c cs ih =>
    obtain ⟨hc, hcs⟩ := nodup_cons.mp hcs
    rw [foldlM_cons, bind_eq_ok_iff, pass_treat_cons (keepsNames_memberStep p) hc]
    refine exists_congr fun p₁ => ?_
    rw [declareMembers_iff hp]
    refine and_congr_right fun h₁ => ?_
    have hnames := names_of_pass (keepsNames_memberStep p) h₁
    rw [ih (hnames ▸ hp) hcs, memberStep_congr (type?_congr hnames)]

end Source

end HeapFlow
