import HeapFlow.Proofs.Contents
import HeapFlow.Proofs.Precision

/-!
# Merging strings

On request an analysis takes all string constants for one object, and all allocated strings for
another. What it finds without merging it finds with merging, once every object is replaced by the
one that it is merged into (`Merging.image`), in contexts as well. With contexts of types this
fails: these have the class in which an object was allocated, and what stands for strings from all
over the program was allocated in no class.
-/

namespace HeapFlow

/-- **The object that an object is merged into**: for a string constant the object of all string
constants, for an allocated string the object of all allocated strings, if they are merged. Any
other object stays what it is. -/
def Merging.image (a : Merging) (o : Obj) : Obj :=
  if o.type = .cls stringClass then
    match o.origin with
    | .constant (.str _) => if a.constants then .mergedConstants else o
    | .alloc _ _ => if a.allocations then .mergedStrings else o
    | _ => o
  else o

/-- **Everything that is merged on one request is merged on another.** -/
structure Merging.Within (a b : Merging) : Prop where
  constants : a.constants = true → b.constants = true
  allocations : a.allocations = true → b.allocations = true

namespace Merging

variable {a b : Merging}

theorem type_image (b : Merging) (o : Obj) : (b.image o).type = o.type := by
  unfold image
  split
  · rename_i ht
    split
    · split
      · exact ht.symm
      · rfl
    · split
      · exact ht.symm
      · rfl
    · rfl
  · rfl

theorem image_of_ne {o : Obj} (h : o.type ≠ .cls stringClass) : b.image o = o :=
  if_neg h

theorem image_mock (b : Merging) (desc : String) (t : Ty) (m : Option MethodId) :
    b.image (.mock desc t m) = .mock desc t m := by
  unfold image
  split <;> rfl

theorem image_constant? (h : a.Within b) (l : Literal) :
    (a.constant? l).map b.image = b.constant? l := by
  cases l with
  | str bs =>
    cases ha : a.constants with
    | true => simp [constant?, ha, h.constants ha, image, Obj.mergedConstants]
    | false => simp [constant?, ha, image, Obj.constant, Literal.type]
  | cls t => simp [constant?, image, Obj.constant]
  | null | int => rfl

/-- An allocated object is replaced by what is allocated with merging. -/
theorem image_allocated (h : a.Within b) (d : Method) (i : Nat) (t : Ty) :
    b.image (a.allocated d i t) = b.allocated d i t := by
  by_cases ht : t = .cls stringClass
  · subst ht
    cases ha : a.allocations with
    | true => simp [allocated, ha, h.allocations ha, image, Obj.mergedStrings]
    | false => simp [allocated, ha, image, Obj.allocated]
  · simp [allocated, ht, image, Obj.allocated]

end Merging

/-- The same analysis with other strings merged. -/
def Setup.merged (g : Setup) (b : Merging) : Setup :=
  { g with merging := b }

theorem Setup.map_image_arraysOf {g : Setup} {b : Merging} (h : g.merging.Within b) (d : Method)
    (i : Nat) (t : Ty) (n : Nat) :
    (g.arraysOf d i t n).map b.image = (g.merged b).arraysOf d i t n := by
  have hinner : ∀ {outer o : Obj}, o ∈ Obj.inners d.id outer (n - 1) t → b.image o = o := by
    intro outer o ho
    obtain ⟨-, u, rfl⟩ := Obj.exists_of_mem_inners ho
    exact Merging.image_of_ne nofun
  -- what has inner arrays is an array and no string
  have houter : Obj.inners d.id (g.merging.allocated d i t) (n - 1) t =
      Obj.inners d.id (b.allocated d i t) (n - 1) t := by
    cases ht : t.isArray with
    | true => rw [Merging.allocated_of_isArray _ _ _ ht, Merging.allocated_of_isArray _ _ _ ht]
    | false =>
      have hnil : ∀ outer, Obj.inners d.id outer (n - 1) t = [] := fun outer =>
        List.eq_nil_iff_forall_not_mem.mpr fun o ho =>
          Bool.false_ne_true (ht.symm.trans (Obj.exists_of_mem_inners ho).1)
      rw [hnil, hnil]
  rw [arraysOf, List.map_cons, Merging.image_allocated h, List.map_congr_left fun o => hinner,
    List.map_id', houter]
  rfl

/-- Replacing strings leads from the analysis that keeps them apart to the one that merges them,
unless contexts are made of types. -/
theorem Merging.between {g : Setup} {b : Merging} (h : g.merging.Within b)
    (hpolicy : ∀ k, g.policy ≠ .type k) :
    (Turn.ofObjects b.image).Between g (g.merged b) where
  program := .refl _
  bodies := id
  models _ := id
  starts hb := ⟨_, hb, id⟩
  entries _ := id
  implicitEntries _ := id
  arguments {t n} hn := ⟨n, hn, b.image_mock argumentsDesc (.array t) (some n),
    b.image_mock argumentDesc t (some n)⟩
  method_nil := rfl
  object_nil := rfl
  heap := Turn.heapCtx_ofObjects b.image g.policy
  site := Turn.siteCtx_ofObjects b.image g.policy
  recv := Turn.recvCtx_ofObjects b.image g.policy fun k hk => absurd hk (hpolicy k)
  type := b.type_image
  arrays := Setup.map_image_arraysOf h
  constant := image_constant? h

/-- **Options that differ in nothing but the strings that are merged**: all that the first ones
merge, the second ones merge as well. -/
structure Options.MergesLess (o o' : Options) : Prop where
  merging : o.merging.Within o'.merging
  others : o' = { o with
    mergeStringConstants := o'.mergeStringConstants
    mergeStringObjects := o'.mergeStringObjects }

theorem Options.MergesLess.setup_eq {o o' : Options} (h : o.MergesLess o') (p : Program)
    (policy : Policy) (more : List Observer) :
    o'.setup p policy more = (o.setup p policy more).merged o'.merging := by
  rw [h.others]
  rfl

/-- **Merging strings makes an analysis coarser and nothing else.** What is found without merging is
found with merging, if every object is replaced by the one that it is merged into: the objects of
variables, of static fields and of arrays, which are themselves not merged, and of fields. The same
methods are reached, and the same call edges are there, or more. Policies with contexts of types are
excepted. -/
theorem merging_finds_more {p : Program} (h : p.Accepted) {o o' : Options} (hle : o.MergesLess o')
    (ho : o.arrayCopy = false) {policy : Policy} (hpolicy : ∀ k, policy ≠ .type k)
    {more : List Observer} (hmore : ∀ w ∈ more, w.Watches) :
    ∃ r r', analyze p o policy more = .ok r ∧ analyze p o' policy more = .ok r' ∧
      (∀ x, r.Finds x → r'.Finds (x.map o'.merging.image)) ∧
      ∀ a x, r.Finds (.elems a x) → r'.Finds (.elems a (o'.merging.image x)) := by
  have ho' : o'.arrayCopy = false := by
    rw [hle.others]
    exact ho
  obtain ⟨r, hr, hfinds⟩ := exists_analyze_finds_iff h ho policy hmore
  obtain ⟨r', hr', hfinds'⟩ := exists_analyze_finds_iff h ho' policy hmore
  have hbetween := Merging.between (g := o.setup p policy more) hle.merging hpolicy
  have hall : ∀ x, r.Finds x → r'.Finds (x.map o'.merging.image) := by
    intro x hx
    rw [hfinds', hle.setup_eq]
    exact ((hfinds x).mp hx).turn (T := .ofObjects o'.merging.image) fun _ => hbetween.derivable
  refine ⟨r, r', hr, hr', hall, fun a x hx => ?_⟩
  -- what has elements is an array and no string
  obtain ⟨C, C', hder⟩ := (hfinds _).mp hx
  obtain ⟨t, ht, -⟩ := hder.fits_elems
  have ha : o'.merging.image a = a :=
    Merging.image_of_ne fun hstring => nomatch ht.symm.trans hstring
  have helems := hall _ hx
  rwa [Finding.map, ha] at helems

/-- Two constants and an allocated string, which is put into an array. A method of strings returns
its receiver. -/
def wordsSource : ProgramSource where
  classes := [
    { name := "String"
      methods := [{ sig := "String self()", body := ["return this"] }] },
    { name := "Main"
      methods := [{
        sig := "static void main()"
        locals := ["String a", "String b", "String c", "String d", "String[] row"]
        body := ["a = \"1\"", "b = \"2\"", "c = a.self()", "d = b.self()", "a = new String",
          "row = new String[1]", "row[0] = a"] }] }]
  entries := ["Main.main"]

def wordsVar : Var :=
  .declared ⟨"Main", "main()"⟩ 3

/-- With contexts of one object. Without merging the variable holds the second constant and not the
first; with merging it holds what stands for both, and the array holds what stands for the allocated
string. -/
theorem merging_finds_more_words :
    let apart : Options := { arrayCopy := false }
    let merged : Options :=
      { arrayCopy := false, mergeStringConstants := true, mergeStringObjects := true }
    ∃ p r r', Program.load wordsSource = .ok p ∧ apart.MergesLess merged ∧
      analyze p apart (.obj 1) [] = .ok r ∧ analyze p merged (.obj 1) [] = .ok r' ∧
      (∀ x, r.Finds x → r'.Finds (x.map merged.merging.image)) ∧
      r.Finds (.var wordsVar (.constant (.str [50]))) ∧
      ¬ r.Finds (.var wordsVar (.constant (.str [49]))) ∧
      r'.Finds (.var wordsVar .mergedConstants) ∧
      ∃ array string, r.Finds (.elems array string) ∧
        merged.merging.image string = .mergedStrings ∧
        r'.Finds (.elems array .mergedStrings) := by
  intro apart merged
  obtain ⟨p, hload, r, hr, htwo, hone, array, harray, string, -, hstring, himage⟩ :
      ∃ p, Program.load wordsSource = .ok p ∧ ∃ r ∈ resultWithin 200 p apart (.obj 1),
          r.Lists (r.pointsTo wordsVar) (.constant (.str [50])) ∧
          ¬ r.Lists (r.pointsTo wordsVar) (.constant (.str [49])) ∧
          ∃ array ∈ r.registry.heap.get? 3, ∃ string ∈ r.registry.heap.get? 2,
            r.Lists (r.elemsPointsTo 3) string ∧
            merged.merging.image string = .mergedStrings :=
    exists_of_any_toOption (by decide +kernel)
  have hr := analyze_of_resultWithin hr
  have hwatch : ∀ w ∈ ([] : List Observer), w.Watches := by simp
  have hle : apart.MergesLess merged := ⟨⟨nofun, nofun⟩, rfl⟩
  have hpolicy : ∀ k, Policy.obj 1 ≠ .type k := nofun
  obtain ⟨s, s', hs, hs', hall, helems⟩ :=
    merging_finds_more ⟨_, hload⟩ hle rfl hpolicy hwatch
  cases hr.symm.trans hs
  have hfound : r.Finds (.elems array string) := ⟨3, harray, hstring⟩
  refine ⟨p, r, s', hload, hle, hr, hs', hall, htwo, hone, ?_, array, string, hfound, himage, ?_⟩
  · exact hall (.var wordsVar (.constant (.str [50]))) htwo
  · exact himage ▸ helems array string hfound

end HeapFlow
