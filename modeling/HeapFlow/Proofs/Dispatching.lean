import HeapFlow.Proofs.Remembering

/-!
# Dispatch

A receiver has the methods of its class and of everything above the class, as far as they have a
body. Where several classes provide a method, the nearest superclass comes first, and the interfaces
come after all superclasses, depth first in the order in which they are declared
(`Program.Upward`, `Program.Visits`). An abstract method hides nothing.
-/

namespace HeapFlow

open List Relation

/-- Whether a class declares a method with a body under a subsignature. -/
def Class.provides (k : Class) (subsig : String) : Bool :=
  k.methods.any fun m => m.id.subsig == subsig && !m.isAbstract

theorem Class.Signed.exists_of_provides {k : Class} (hk : k.Signed) {subsig : String}
    (h : k.provides subsig = true) : ∃ d, k.method? subsig = some d ∧ d.isAbstract = false := by
  obtain ⟨d, hd, hprovides⟩ := any_eq_true.mp h
  rw [Bool.and_eq_true, beq_iff_eq, Bool.not_eq_true'] at hprovides
  obtain ⟨rfl, habstract⟩ := hprovides
  exact ⟨d, hk.method?_subsig hd, habstract⟩

theorem Class.provides_of_method? {k : Class} {subsig : String} {d : Method}
    (hd : k.method? subsig = some d) (habstract : d.isAbstract = false) :
    k.provides subsig = true := by
  refine any_eq_true.mpr ⟨d, mem_of_find?_eq_some hd, ?_⟩
  rw [find?_some hd, habstract]
  rfl

theorem map_findSome?_eq_map_find? {α β γ : Type} {l : List α} {ask : α → Option β} {q : α → Bool}
    {f : α → γ} {g : β → γ} (h : ∀ a ∈ l, (ask a).map g = if q a then some (f a) else none) :
    (l.findSome? ask).map g = (l.find? q).map f := by
  induction l with
  | nil => rfl
  | cons a l ih =>
    have ha := h a (.head _)
    have hl := ih fun b hb => h b (.tail _ hb)
    rw [findSome?_cons, find?_cons]
    cases hask : ask a with
    | none | some => cases hq : q a <;> simp_all

namespace Program

variable {p : Program}

/-- Dispatch is a search. -/
theorem dispatch_eq (recv : Ty) (subsig : String) : p.dispatch recv subsig =
    (receiverClass? recv).bind
      (p.search fun k => (k.method? subsig).filter fun m => !m.isAbstract) := by
  refine congrArg (Option.bind _) (funext fun c => congrArg (p.search · c) (funext fun k => ?_))
  cases k.method? subsig with
  | none => rfl
  | some m => cases h : m.isAbstract <;> simp [h, Option.filter]

theorem Accepted.map_filter_method? (hp : p.Accepted) {k : Class} (hk : k ∈ p.classes)
    (subsig : String) : ((k.method? subsig).filter fun m => !m.isAbstract).map (·.id) =
      if k.provides subsig then some ⟨k.name, subsig⟩ else none := by
  by_cases hprovides : k.provides subsig = true
  · obtain ⟨d, hd, habstract⟩ := (hp.signed hk).exists_of_provides hprovides
    have hcls := hp.wellFormed.cls hk (mem_of_find?_eq_some hd)
    have hsubsig : d.id.subsig = subsig := by simpa using find?_some hd
    rw [if_pos hprovides, hd, Option.filter_some, habstract, ← hcls, ← hsubsig]
    rfl
  · rw [if_neg hprovides, Option.map_eq_none_iff, Option.filter_eq_none_iff]
    intro d hd habstract
    exact hprovides (Class.provides_of_method? hd (by simpa using habstract))

/-- **Dispatch takes the first class that provides the method**, in the order of the search. -/
theorem Upward.map_dispatch {c : String} {up across : List Class} (hup : p.Upward c up)
    (hacross : p.Visits (up.flatMap (·.interfaces)) across) (hp : p.Accepted) (hl : p.Layered)
    (subsig : String) :
    (p.dispatch (.cls c) subsig).map (·.id) =
      ((up ++ across).find? (·.provides subsig)).map fun k => ⟨k.name, subsig⟩ := by
  rw [dispatch_eq, receiverClass?, Option.bind_some, hup.search_eq _ hl hacross]
  refine map_findSome?_eq_map_find? fun k hk => hp.map_filter_method? ?_ subsig
  exact mem_of_class? ((hup.mem_iff hl hacross).mp hk).1

end Program

/-- **Dispatch is exact.** In an accepted program whose superclasses and interfaces make no cycle,
and after any questions, a receiver of a class has no method under a subsignature just if nothing
above the class provides one. If it has one, this is declared with a body in a class or interface
above the class: the nearest superclass that provides one, or else the first interface, depth first
in the order of declaration. An array has the methods of the root class. -/
theorem dispatch_exact {p : Program} (hp : p.Accepted) (hl : p.Layered) {w : Workbench}
    (hw : p.Asked w) {c : String} (hc : (p.class? c).isSome = true) (ref : MethodId) :
    ((w.dispatch (.cls c) ref.subsig).1 = none ↔
      ∀ k, p.class? k.name = some k → ReflTransGen p.Link c k.name →
        k.provides ref.subsig = false) ∧
    (∀ m, (w.dispatch (.cls c) ref.subsig).1 = some m →
      m.subsig = ref.subsig ∧ ReflTransGen p.Link c m.cls ∧
        ∃ d, p.method? m = some d ∧ d.isAbstract = false) ∧
    (∃ up across, p.Upward c up ∧ p.Visits (up.flatMap (·.interfaces)) across ∧
      (w.dispatch (.cls c) ref.subsig).1 =
        ((up.find? (·.provides ref.subsig)).or (across.find? (·.provides ref.subsig))).map
          fun k => ⟨k.name, ref.subsig⟩) ∧
    (∀ t, (w.dispatch (.array t) ref.subsig).1 = (w.dispatch (.cls objectClass) ref.subsig).1) ∧
    ∀ w' cls, p.Asked w' → (w'.dispatch (.cls c) (MethodId.mk cls ref.subsig).subsig).1 =
      (w.dispatch (.cls c) ref.subsig).1 := by
  have hanswer : ∀ {w}, p.Asked w → ∀ recv subsig,
      (w.dispatch recv subsig).1 = (p.dispatch recv subsig).map (·.id) :=
    fun hw recv subsig => (hw.remembers.dispatch recv subsig).1
  obtain ⟨up, hup⟩ := hp.linked.exists_upward hl hc
  obtain ⟨across, hacross⟩ := hp.linked.exists_visits hl hup
  have hfirst := (hanswer hw _ _).trans (hup.map_dispatch hacross hp hl ref.subsig)
  refine ⟨?_, fun m hm => ?_, ⟨up, across, hup, hacross, ?_⟩, fun t => ?_, fun w' cls hw' => ?_⟩
  · rw [hfirst, Option.map_eq_none_iff, find?_eq_none]
    refine forall_congr' fun k => ?_
    rw [hup.mem_iff hl hacross, and_imp, Bool.not_eq_true]
  · rw [hfirst] at hm
    obtain ⟨k, hk, rfl⟩ := Option.map_eq_some_iff.mp hm
    obtain ⟨hclass, hlink⟩ := (hup.mem_iff hl hacross).mp (mem_of_find?_eq_some hk)
    have hprovides : k.provides ref.subsig = true := by simpa using find?_some hk
    obtain ⟨d, hd, habstract⟩ :=
      (hp.signed (Program.mem_of_class? hclass)).exists_of_provides hprovides
    refine ⟨rfl, hlink, d, ?_, habstract⟩
    rw [Program.method?, hclass]
    exact hd
  · rw [hfirst, find?_append]
  · rw [hanswer hw, hanswer hw]
    rfl
  · rw [hanswer hw', hanswer hw]

/-- An interface with a method, one that declares it without a body, and one with a method of its
own; a class has the last two for interfaces, and its superclass declares the method without a body.
-/
def defaultsSource : ProgramSource where
  classes := [
    { name := "Greeting", isInterface := true
      methods := [{ sig := "void greet()", body := ["return"] }] },
    { name := "Polite", isInterface := true, implements := ["Greeting"]
      methods := [{ sig := "void greet()" }] },
    { name := "Short", isInterface := true
      methods := [{ sig := "void greet()", body := ["return"] }] },
    { name := "Person", isAbstract := true, methods := [{ sig := "abstract void greet()" }] },
    { name := "Friend", superclass := "Person", implements := ["Polite", "Short"] }]

theorem layered_defaults {p : Program} (hp : Program.load defaultsSource = .ok p) : p.Layered := by
  obtain ⟨q, hq, hrank⟩ : ∃ q, Program.load defaultsSource = .ok q ∧
      ∀ k ∈ q.classes, ∀ b ∈ k.super.toList ++ k.interfaces,
        ["Object", "Greeting", "Polite", "Short", "Person"].idxOf b <
          ["Object", "Greeting", "Polite", "Short", "Person"].idxOf k.name :=
    exists_of_any_toOption (by decide +kernel)
  cases Except.ok.inj (hp.symm.trans hq)
  exact Program.layered_of_rank _ hrank

/-- The interface of the first interface comes before the second interface, whatever is declared
without a body on the way. The answer that is remembered then is the same, and the superclass has no
such method. -/
theorem dispatch_exact_defaults : ∃ p, Program.load defaultsSource = .ok p ∧ p.Layered ∧
    let w := (Workbench.dispatch { program := p } (.cls "Friend") "greet()").2
    (p.Asked w ∧ w.remembered = [((.cls "Friend", "greet()"), some ⟨"Greeting", "greet()"⟩)]) ∧
    (∃ d, p.method? ⟨"Greeting", "greet()"⟩ = some d ∧ d.isAbstract = false) ∧
    (w.dispatch (.cls "Friend") "greet()").1 = some ⟨"Greeting", "greet()"⟩ ∧
    ∀ k, p.class? k.name = some k → ReflTransGen p.Link "Person" k.name →
      k.provides "greet()" = false := by
  obtain ⟨p, hp, hremembered, hfriend, hperson, hclasses⟩ :
      ∃ p, Program.load defaultsSource = .ok p ∧
      let w := (Workbench.dispatch { program := p } (.cls "Friend") "greet()").2
      w.remembered = [((.cls "Friend", "greet()"), some ⟨"Greeting", "greet()"⟩)] ∧
      (w.dispatch (.cls "Friend") "greet()").1 = some ⟨"Greeting", "greet()"⟩ ∧
      (w.dispatch (.cls "Person") "greet()").1 = none ∧
      ((p.class? "Friend").isSome = true ∧ (p.class? "Person").isSome = true) :=
    exists_of_any_toOption (by decide +kernel)
  have hlayered := layered_defaults hp
  have hasked := Program.Asked.start (p := p) |>.dispatch (.cls "Friend") "greet()"
  obtain ⟨-, hmethod, -⟩ :=
    dispatch_exact ⟨_, hp⟩ hlayered hasked hclasses.1 ⟨"Polite", "greet()"⟩
  obtain ⟨hnone, -⟩ := dispatch_exact ⟨_, hp⟩ hlayered hasked hclasses.2 ⟨"Person", "greet()"⟩
  exact ⟨p, hp, hlayered, ⟨hasked, hremembered⟩, (hmethod _ hfriend).2.2, hfriend, hnone.mp hperson⟩

end HeapFlow
