import Mathlib.Logic.Equiv.Basic
import HeapFlow.Proofs.Canonical
import HeapFlow.Proofs.Precision
import HeapFlow.Proofs.Reruns

/-!
# The order of the entry methods

All entry methods are reached in the end, so their order should not be seen in a dump. It matters in
one thing: the entry methods that take arguments of a type share the objects for these, and the
first one counts as the one that made them (`Program.argumentsOwner?`).

Let these objects be handed over from the first method in the one order to the first one in the
other (`Program.rehome`). This does not show, and leads from the one analysis to the other and back
(`Turn.Between`). Only contexts of types look at the method that made an object, and of it they take
the class. So with these the dump stays the same if the classes of the first methods do
(`entry_order_irrelevant`), and may change otherwise (`entry_order_matters`).
-/

namespace HeapFlow

open List

/-- The type of the arguments, if an object is an argument of entry methods or the array of them. -/
def Obj.argumentsOf? (o : Obj) : Option Ty :=
  match o.origin with
  | .mock desc t =>
    if desc = argumentDesc then some t
    else if desc = argumentsDesc then t.elem?
    else none
  | _ => none

namespace Program

/-- **Hands the arguments of entry methods over** from the method that counts as the one that made
them in a program to the one in another, and back. -/
def rehome (p q : Program) (o : Obj) : Obj :=
  match o.argumentsOf? with
  | some t =>
    { o with container := Equiv.swap (p.argumentsOwner? t) (q.argumentsOwner? t) o.container }
  | none => o

section Rehome

variable (p q : Program) (o : Obj)

theorem origin_rehome : (p.rehome q o).origin = o.origin := by
  unfold rehome
  split <;> rfl

theorem type_rehome : (p.rehome q o).type = o.type := by
  unfold rehome
  split <;> rfl

theorem label_rehome : (p.rehome q o).label = o.label := by
  unfold rehome
  split <;> rfl

theorem rehome_comm : p.rehome q = q.rehome p := by
  funext o
  simp only [rehome, Equiv.swap_comm]

/-- Handing over twice changes nothing. -/
theorem rehome_rehome : p.rehome q (p.rehome q o) = o := by
  have hargs : (p.rehome q o).argumentsOf? = o.argumentsOf? := by
    rw [Obj.argumentsOf?, origin_rehome, Obj.argumentsOf?]
  rw [rehome, hargs]
  cases ht : o.argumentsOf? with
  | none => simp only [rehome, ht]
  | some t => simp only [rehome, ht, Equiv.swap_apply_self]

/-- The objects of two programs correspond, the arguments handed over. -/
def rehoming : Obj ≃ Obj :=
  Function.Involutive.toPerm (p.rehome q) (p.rehome_rehome q)

variable {p q o}

theorem rehome_of_none (h : o.argumentsOf? = none) : p.rehome q o = o := by
  simp only [rehome, h]

theorem rehome_of_owner {t : Ty} {m n : MethodId} (hm : p.argumentsOwner? t = some m)
    (hn : q.argumentsOwner? t = some n) :
    p.rehome q (.arguments t m) = .arguments t n ∧ p.rehome q (.argument t m) = .argument t n := by
  have harray : (Obj.arguments t m).argumentsOf? = some t := rfl
  have helem : (Obj.argument t m).argumentsOf? = some t := rfl
  have hswap : Equiv.swap (p.argumentsOwner? t) (q.argumentsOwner? t) (some m) = some n := by
    rw [← hm, Equiv.swap_apply_left, hn]
  constructor
  · rw [rehome, harray]
    exact congrArg (Obj.mock argumentsDesc (.array t)) hswap
  · rw [rehome, helem]
    exact congrArg (Obj.mock argumentDesc t) hswap

/-- Within classes, handing over does not change the type that contains an object. -/
theorem containerType_rehome
    (h : ∀ t, (p.argumentsOwner? t).map MethodId.cls = (q.argumentsOwner? t).map MethodId.cls)
    (o : Obj) : (p.rehome q o).containerType = o.containerType := by
  have hcls : ∀ o : Obj,
      o.containerType = ((o.container.map MethodId.cls).map Ty.cls).getD o.type := by
    intro o
    unfold Obj.containerType
    cases o.container <;> rfl
  cases ht : o.argumentsOf? with
  | none => rw [rehome_of_none ht]
  | some t =>
    have hswap : ∀ x, (Equiv.swap (p.argumentsOwner? t) (q.argumentsOwner? t) x).map MethodId.cls =
        x.map MethodId.cls := by
      intro x
      rw [Equiv.swap_apply_def]
      split
      · next hx => rw [hx, h t]
      · split
        · next hx => rw [hx, h t]
        · rfl
    rw [hcls, hcls, type_rehome]
    simp only [rehome, ht, hswap]

end Rehome

/-- **The same program with its entry methods in another order.** -/
structure Shuffled (p q : Program) : Prop where
  classes : q.classes = p.classes
  entries : q.entries.Perm p.entries
  implicitEntries : q.implicitEntries.Perm p.implicitEntries

namespace Shuffled

variable {p q : Program} (h : p.Shuffled q)

include h

theorem symm : q.Shuffled p :=
  ⟨h.classes.symm, h.entries.symm, h.implicitEntries.symm⟩

theorem alike : p.Alike q where
  class? := by
    funext n
    rw [Program.class?, Program.class?, h.classes]
  size := congrArg List.length h.classes

/-- Arguments have owners in both programs. -/
theorem exists_argumentsOwner? {t : Ty} {m : MethodId} (hm : p.argumentsOwner? t = some m) :
    ∃ n, q.argumentsOwner? t = some n := by
  have hentries : (q.entries.filter q.takesArguments).Perm (p.entries.filter p.takesArguments) := by
    rw [h.alike.takesArguments]
    exact h.entries.filter _
  have htype := find?_some (p := fun m => decide (p.argumentsType? m = some t)) hm
  rw [← Option.isSome_iff_exists, argumentsOwner?, find?_isSome, h.alike.argumentsType?]
  exact ⟨m, hentries.mem_iff.mpr (mem_of_find?_eq_some hm), htype⟩

/-- **Handing the arguments over leads from the one analysis to the other**, if with contexts of
types they are handed over within classes. -/
theorem between {policy : Policy}
    (hhome : ∀ k, policy = .type k → ∀ t,
      (p.argumentsOwner? t).map MethodId.cls = (q.argumentsOwner? t).map MethodId.cls)
    (o : Options) (more : List Observer) :
    (Turn.ofObjects (p.rehome q)).Between (o.setup p policy more) (o.setup q policy more) where
  program := h.alike
  bodies := id
  models _ := id
  starts hb := ⟨_, hb, id⟩
  entries _ := h.entries.mem_iff.mpr
  implicitEntries _ := h.implicitEntries.mem_iff.mpr
  arguments hm := by
    obtain ⟨n, hn⟩ := h.exists_argumentsOwner? hm
    exact ⟨n, hn, rehome_of_owner hm hn⟩
  method_nil := rfl
  object_nil := rfl
  heap := Turn.heapCtx_ofObjects _ policy
  site := Turn.siteCtx_ofObjects _ policy
  recv := Turn.recvCtx_ofObjects _ policy fun k hk => containerType_rehome (hhome k hk)
  type := p.type_rehome q
  arrays d i t n := by
    -- what a statement allocates is no argument
    have hall : ∀ x ∈ (o.setup p policy more).arraysOf d i t n, p.rehome q x = x := by
      intro x hx
      refine rehome_of_none ?_
      rcases mem_cons.mp hx with rfl | hx
      · unfold Merging.allocated
        split <;> rfl
      · obtain ⟨-, u, rfl⟩ := Obj.exists_of_mem_inners hx
        rfl
    exact (map_congr_left hall).trans (map_id' _)
  constant l := by
    have hall : ∀ x, o.merging.constant? l = some x → p.rehome q x = x := by
      intro x hx
      refine rehome_of_none ?_
      unfold Merging.constant? at hx
      split at hx
      · split at hx <;> cases hx <;> rfl
      · cases hx
        rfl
      · cases hx
    cases hl : o.merging.constant? l with
    | none => exact (congrArg (Option.map _) hl).trans hl.symm
    | some x =>
      refine (congrArg (Option.map _) hl).trans (Eq.trans ?_ hl.symm)
      exact congrArg some (hall x hl)

end Shuffled

end Program

/-! ### Loading -/

namespace Source

variable {p : Program}

theorem lookupEntries_of_perm {wrap : String → EntryError → LoadError} {texts texts' : List String}
    {ms : List MethodId} (h : texts'.Perm texts) (hms : lookupEntries p wrap texts = .ok ms) :
    ∃ ms', lookupEntries p wrap texts' = .ok ms' ∧ ms'.Perm ms := by
  obtain ⟨ms', hms', hperm⟩ := perm_comp_forall₂ h (mapM_eq_ok_iff.mp hms)
  exact ⟨ms', mapM_eq_ok_iff.mpr hms', hperm⟩

/-- **Loading with the entry methods in another order.** -/
theorem exists_load_shuffled {s s' : ProgramSource} (hclasses : s'.classes = s.classes)
    (hentries : s'.entries.Perm s.entries) (himplicit : s'.implicitEntries.Perm s.implicitEntries)
    (h : Program.load s = .ok p) : ∃ p', Program.load s' = .ok p' ∧ p.Shuffled p' := by
  obtain ⟨p₂, p₃, p₄, h⟩ := load_eq_ok_iff.mp h
  obtain ⟨entries, hentries, hperm⟩ := lookupEntries_of_perm hentries h.entries
  obtain ⟨implicit, himplicit, hperm'⟩ := lookupEntries_of_perm himplicit h.implicitEntries
  refine ⟨{ p with entries := entries, implicitEntries := implicit },
    load_eq_ok_iff.mpr ⟨p₂, p₃, p₄, ?_⟩, rfl, hperm, hperm'⟩
  exact {
    named := hclasses ▸ h.named
    distinct := hclasses ▸ h.distinct
    link := hclasses ▸ h.link
    acyclic := h.acyclic
    head := hclasses ▸ h.head
    read := hclasses ▸ h.read
    classes := h.classes
    entries := hentries
    implicitEntries := himplicit }

end Source

/-- **The results of the two programs agree.** -/
theorem Program.Shuffled.agree {p q : Program} (h : p.Shuffled q) {policy : Policy}
    (hhome : ∀ k, policy = .type k → ∀ t,
      (p.argumentsOwner? t).map MethodId.cls = (q.argumentsOwner? t).map MethodId.cls)
    {o : Options} {more : List Observer} {r r' : Result} (hr : analyze p o policy more = .ok r)
    (hr' : analyze q o policy more = .ok r')
    (hfinds : ∀ x, r.Finds x ↔ x.In (Derivable (o.setup p policy more)))
    (hfinds' : ∀ x, r'.Finds x ↔ x.In (Derivable (o.setup q policy more))) :
    Result.Agree (p.rehoming q) r r' := by
  have hto := h.between hhome o more
  have hback := h.symm.between (fun k hk t => (hhome k hk t).symm) o more
  rw [← Program.rehome_comm] at hback
  have hiff : ∀ x, r.Finds x ↔ r'.Finds (x.map (p.rehome q)) := by
    intro x
    have htwice : (x.map (p.rehome q)).map (p.rehome q) = x := by
      cases x <;> simp only [Finding.map, Program.rehome_rehome]
    rw [hfinds, hfinds']
    refine ⟨fun hx => hx.turn fun _ => hto.derivable, fun hx => ?_⟩
    -- on the way back the arguments are handed over once more, so they are where they were
    rw [← htwice]
    exact hx.turn fun _ => hback.derivable
  exact {
    program := by
      rw [program_of_analyze hr, program_of_analyze hr']
      exact h.alike
    label := p.label_rehome q
    reachable := fun m => hiff (.reached m)
    calls := fun e => hiff (.call e)
    vars := fun v x => hiff (.var v x)
    statics := fun f x => hiff (.static f x) }

/-- **The order of the entry methods does not matter**, nor that of the methods that the runtime
calls. With these permuted, loading succeeds just if it succeeded before, and every analysis of the
program writes the same dump. With contexts of types this holds if, for each type of arguments, the
first entry methods that take such arguments are methods of the same class. -/
theorem entry_order_irrelevant {s s' : ProgramSource} (hclasses : s'.classes = s.classes)
    (hentries : s'.entries.Perm s.entries)
    (himplicit : s'.implicitEntries.Perm s.implicitEntries) :
    ((∃ p, Program.load s = .ok p) ↔ ∃ p', Program.load s' = .ok p') ∧
      ∀ p p', Program.load s = .ok p → Program.load s' = .ok p' →
        ∀ (o : Options) (policy : Policy) (more : List Observer),
          o.arrayCopy = false → (∀ w ∈ more, w.Watches) →
          (∀ k, policy = .type k → ∀ t, (p.argumentsOwner? t).map MethodId.cls =
            (p'.argumentsOwner? t).map MethodId.cls) →
          ∃ r r', analyze p o policy more = .ok r ∧ analyze p' o policy more = .ok r' ∧
            r'.dump = r.dump := by
  refine ⟨⟨?_, ?_⟩, fun p p' h h' o policy more ho hmore hhome => ?_⟩
  · rintro ⟨p, h⟩
    obtain ⟨p', h', -⟩ := Source.exists_load_shuffled hclasses hentries himplicit h
    exact ⟨p', h'⟩
  · rintro ⟨p', h'⟩
    obtain ⟨p, h, -⟩ :=
      Source.exists_load_shuffled hclasses.symm hentries.symm himplicit.symm h'
    exact ⟨p, h⟩
  · obtain ⟨q, hq, hshuffled⟩ := Source.exists_load_shuffled hclasses hentries himplicit h
    cases Except.ok.inj (h'.symm.trans hq)
    obtain ⟨r, hr, hfinds⟩ := exists_analyze_finds_iff ⟨s, h⟩ ho policy hmore
    obtain ⟨r', hr', hfinds'⟩ := exists_analyze_finds_iff ⟨s', h'⟩ ho policy hmore
    have hagree := hshuffled.agree hhome hr hr' hfinds hfinds'
    exact ⟨r, r', hr, hr', (hagree.dump_eq (orderly_of_analyze ⟨s, h⟩ hmore hr)
      (orderly_of_analyze ⟨s', h'⟩ hmore hr')).symm⟩

/-- If all entry methods that take arguments take the same, the first one counts as the one that
made them. -/
theorem Program.argumentsOwner?_eq {p : Program} {u : Ty} {m : MethodId} {ms : List MethodId}
    (hms : p.entries.filter p.takesArguments = m :: ms)
    (hu : ∀ n ∈ m :: ms, p.argumentsType? n = some u) (t : Ty) :
    p.argumentsOwner? t = if t = u then some m else none := by
  rw [argumentsOwner?, hms]
  split
  · next ht =>
    refine find?_cons_of_pos (decide_eq_true ?_)
    rw [ht]
    exact hu m (.head _)
  · next ht =>
    refine find?_eq_none.mpr fun n hn hfound => ht ?_
    exact Option.some.inj ((of_decide_eq_true hfound).symm.trans (hu n hn))

/-- Two classes with entry methods that take strings. One of these calls a method of a string that
it makes, another one calls it on its first argument. -/
def mainsSource (entries : List String) : ProgramSource where
  classes := [
    { name := "String"
      methods := [{ sig := "String self()", body := ["return this"] }] },
    { name := "A"
      methods := [
        { sig := "static void main(String[] a)"
          locals := ["String s", "String t"]
          body := ["s = new String", "t = s.self()"] },
        { sig := "static void main(String[] a, int n)" }] },
    { name := "B"
      methods := [{
        sig := "static void main(String[] a)"
        locals := ["String e", "String x"]
        body := ["e = a[0]", "x = e.self()"] }] }]
  entries := entries

/-- With contexts of one type, the arguments are handed over from one method of a class to another.
-/
theorem entry_order_irrelevant_mains :
    ∃ p p' r r',
      Program.load (mainsSource ["A.main(String[])", "A.main(String[],int)", "B.main"]) = .ok p ∧
      Program.load (mainsSource ["A.main(String[],int)", "B.main", "A.main(String[])"]) = .ok p' ∧
      p.argumentsOwner? (.cls "String") = some ⟨"A", "main(String[])"⟩ ∧
      p'.argumentsOwner? (.cls "String") = some ⟨"A", "main(String[],int)"⟩ ∧
      analyze p { arrayCopy := false } (.type 1) [] = .ok r ∧
      analyze p' { arrayCopy := false } (.type 1) [] = .ok r' ∧ r'.dump = r.dump := by
  let s := mainsSource ["A.main(String[])", "A.main(String[],int)", "B.main"]
  let s' := mainsSource ["A.main(String[],int)", "B.main", "A.main(String[])"]
  let m₁ : MethodId := ⟨"A", "main(String[])"⟩
  let m₂ : MethodId := ⟨"A", "main(String[],int)"⟩
  let m₃ : MethodId := ⟨"B", "main(String[])"⟩
  obtain ⟨p, hp, hms, hu⟩ : ∃ p, Program.load s = .ok p ∧
      p.entries.filter p.takesArguments = [m₁, m₂, m₃] ∧
      ∀ n ∈ [m₁, m₂, m₃], p.argumentsType? n = some (.cls "String") :=
    exists_of_any_toOption (by decide +kernel)
  obtain ⟨p', hp', hms', hu'⟩ : ∃ p, Program.load s' = .ok p ∧
      p.entries.filter p.takesArguments = [m₂, m₃, m₁] ∧
      ∀ n ∈ [m₂, m₃, m₁], p.argumentsType? n = some (.cls "String") :=
    exists_of_any_toOption (by decide +kernel)
  have howner := Program.argumentsOwner?_eq hms hu
  have howner' := Program.argumentsOwner?_eq hms' hu'
  have hclasses : s'.classes = s.classes := rfl
  have hentries : s'.entries.Perm s.entries := by decide
  have hmore : ∀ w ∈ ([] : List Observer), w.Watches := by simp
  have hhome : ∀ k, Policy.type 1 = .type k → ∀ t,
      (p.argumentsOwner? t).map MethodId.cls = (p'.argumentsOwner? t).map MethodId.cls := by
    intro k _ t
    rw [howner, howner']
    split <;> rfl
  obtain ⟨r, r', hr, hr', hdump⟩ := (entry_order_irrelevant hclasses hentries .rfl).2 p p' hp hp'
    { arrayCopy := false } (.type 1) [] rfl hmore hhome
  exact ⟨p, p', r, r', hp, hp', howner _, howner' _, hr, hr', hdump⟩

/-- **With contexts of types the order of the entry methods may be seen in a dump.** In the example
the arguments count as made in the class of the first entry method. If this is the class in which
the other string is made, then the method of strings is analysed once for both of them. -/
theorem entry_order_matters :
    ∃ p p' r r', Program.load (mainsSource ["A.main(String[])", "B.main"]) = .ok p ∧
      Program.load (mainsSource ["B.main", "A.main(String[])"]) = .ok p' ∧
      analyze p { arrayCopy := false } (.type 1) [] = .ok r ∧
      analyze p' { arrayCopy := false } (.type 1) [] = .ok r' ∧ r'.dump ≠ r.dump := by
  let s := mainsSource ["A.main(String[])", "B.main"]
  let s' := mainsSource ["B.main", "A.main(String[])"]
  obtain ⟨p, hp, p', hp', r, hr, r', hr', hdump⟩ :
      ∃ p, Program.load s = .ok p ∧ ∃ p' ∈ (Program.load s').toOption,
        ∃ r ∈ resultWithin 200 p { arrayCopy := false } (.type 1),
        ∃ r' ∈ resultWithin 200 p' { arrayCopy := false } (.type 1), r'.dump ≠ r.dump := by
    -- sorting by insertion can be computed
    simp only [Result.dump, Result.methodLines, Result.edgeLines, Result.varLines,
      Result.staticLines, Result.heldLine, Result.labels, Text.sortTexts_eq_insertionSort]
    exact exists_of_any_toOption (by decide +kernel)
  exact ⟨p, p', r, r', hp, eq_ok_of_mem_toOption hp', analyze_of_resultWithin hr,
    analyze_of_resultWithin hr', hdump⟩

end HeapFlow
