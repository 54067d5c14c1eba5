import HeapFlow.Proofs.Precision

/-!
# Looking at more finds more

Options widen or narrow what an analysis looks at: whether it starts also from the methods that the
runtime calls, whether it initializes classes and runs threads, and whether it reads the bodies of
library methods. They enter the rules in two places only: some rules apply if their observer is
there, and some to methods whose bodies count. With more of these there are more inferences from the
same facts. Array elements are not copied, because only then a result says all that is derivable.
-/

namespace HeapFlow

/-- The same analysis with other observers, and with or without the bodies of library methods. -/
def Setup.having (g : Setup) (onlyApp : Bool) (observers : List Observer) : Setup :=
  { g with onlyApp, observers }

/-- **An analysis looks at no more than another one** with the given observers, which reads library
methods or does not. -/
structure Setup.Narrower (g : Setup) (onlyApp : Bool) (observers : List Observer) : Prop where
  bodies : onlyApp = true → g.onlyApp = true
  entries : ∀ {b}, .entryPoints b ∈ g.observers →
    ∃ b', .entryPoints b' ∈ observers ∧ (b = true → b' = true)
  models : ∀ {o}, (∀ b, o ≠ .entryPoints b) → ¬ o.Watches → o ∈ g.observers → o ∈ observers

namespace Setup.Narrower

variable {g : Setup} {b : Bool} {os : List Observer} (h : g.Narrower b os)

include h

theorem between : (Turn.ofContexts id id).Between g (g.having b os) where
  program := .refl _
  bodies := h.bodies
  models {o} ho := by
    simp only [List.mem_cons, List.not_mem_nil, or_false] at ho
    rcases ho with rfl | rfl | rfl <;> exact h.models nofun id
  starts := h.entries
  entries _ := id
  implicitEntries _ := id
  arguments hn := ⟨_, hn, rfl, rfl⟩
  method_nil := rfl
  object_nil := rfl
  heap _ := rfl
  site _ := rfl
  recv _ _ := rfl
  type _ := rfl
  arrays _ _ _ _ := List.map_id _
  constant _ := Option.map_id_apply

/-- **What is derivable is derivable with more.** -/
theorem derivable {f : Fact} (hf : Derivable g f) : Derivable (g.having b os) f := by
  rw [← Turn.fact_ofContexts_id f]
  exact h.between.derivable hf

end Setup.Narrower

/-- **Options that let an analysis look at no more than others do.** Which strings are merged is the
same. -/
structure Options.Narrower (o o' : Options) : Prop where
  onlyApp : o'.onlyApp = true → o.onlyApp = true
  implicitEntries : o.implicitEntries = true → o'.implicitEntries = true
  classInit : o.classInit = true → o'.classInit = true
  threadStart : o.threadStart = true → o'.threadStart = true
  merging : o'.merging = o.merging

namespace Options.Narrower

variable {o o' : Options} (hle : o.Narrower o') (p : Program) (policy : Policy)
  {more : List Observer} (more' : List Observer)

include hle

theorem setup (ho : o.arrayCopy = false) (hmore : ∀ w ∈ more, w.Watches) :
    (o.setup p policy more).Narrower o'.onlyApp (o'.observers ++ more') where
  bodies := hle.onlyApp
  entries {b} hb := by
    have hasked := mem_observers_setup hmore id hb
    simp only [Observer.entryPoints.injEq, reduceCtorEq, false_and, or_false] at hasked
    subst hasked
    exact ⟨o'.implicitEntries, by simp [observers], hle.implicitEntries⟩
  models {w} hentry hw hmem := by
    rcases mem_observers_setup hmore hw hmem with rfl | ⟨rfl, hc⟩ | ⟨rfl, ht⟩ | ⟨-, ha⟩
    · exact absurd rfl (hentry _)
    · simp [observers, hle.classInit hc]
    · simp [observers, hle.threadStart ht]
    · exact absurd (ho.symm.trans ha) Bool.false_ne_true

theorem setup_eq :
    (o.setup p policy more).having o'.onlyApp (o'.observers ++ more') =
      o'.setup p policy more' := by
  rw [Setup.having, Options.setup, Options.setup, hle.merging]

end Options.Narrower

theorem Finding.In.mono {D E : Fact → Prop} (h : ∀ f, D f → E f) {x : Finding} (hx : x.In D) :
    x.In E := by
  have hx := hx.turn (T := .ofContexts id id) (E := E) fun f hf => by
    rw [Turn.fact_ofContexts_id]
    exact h f hf
  rwa [show x.map (Turn.ofContexts id id).item = x from x.map_id] at hx

/-- **Looking at more finds more.** An analysis that starts from more methods, initializes classes,
runs threads or reads the bodies of library methods, where another one does not, has all the
findings of the other one, if neither copies array elements: the objects of variables, of fields and
of arrays, the reachable methods and the call edges. -/
theorem wider_finds_more {p : Program} (h : p.Accepted) {o o' : Options} (hle : o.Narrower o')
    (ho : o.arrayCopy = false) (ho' : o'.arrayCopy = false) (policy : Policy)
    {more more' : List Observer} (hmore : ∀ w ∈ more, w.Watches)
    (hmore' : ∀ w ∈ more', w.Watches) :
    ∃ r r', analyze p o policy more = .ok r ∧ analyze p o' policy more' = .ok r' ∧
      ∀ x, r.Finds x → r'.Finds x := by
  obtain ⟨r, hr, hfinds⟩ := exists_analyze_finds_iff h ho policy hmore
  obtain ⟨r', hr', hfinds'⟩ := exists_analyze_finds_iff h ho' policy hmore'
  refine ⟨r, r', hr, hr', fun x hx => (hfinds' x).mpr ?_⟩
  have hsetup : (o.setup p policy more).having o'.onlyApp (o'.observers ++ more') =
      o'.setup p policy more' := hle.setup_eq p policy more'
  rw [← hsetup]
  exact ((hfinds x).mp hx).mono fun f => (hle.setup p policy more' ho hmore).derivable

/-- A program with a thread, an initializer, a library method that makes an object and a method that
the runtime calls. -/
def serviceSource : ProgramSource where
  classes := [
    { name := "Thread", isLibrary := true
      methods := [{ sig := "native void start()" }, { sig := "void run()" }] },
    { name := "Pool", isLibrary := true
      methods := [{
        sig := "static Object take()"
        locals := ["Object x"]
        body := ["x = new Object", "return x"] }] },
    { name := "Worker", superclass := "Thread", methods := [{ sig := "void run()" }] },
    { name := "Config"
      fields := ["static Object value"]
      methods := [{ sig := "static void <clinit>()" }] },
    { name := "Main"
      methods := [
        { sig := "static void main()"
          locals := ["Worker w", "Object o", "Object c"]
          body := ["w = new Worker", "w.start()", "o = Pool.take()", "c = Config.value"] },
        { sig := "static void exit()" }] }]
  entries := ["Main.main"]
  implicitEntries := ["Main.exit"]

/-- The methods of the example that the runtime calls in one way or another. -/
def serviceCallbacks : List MethodId :=
  [⟨"Main", "exit()"⟩, ⟨"Config", "<clinit>()"⟩, ⟨"Worker", "run()"⟩]

def serviceVar : Var :=
  .declared ⟨"Main", "main()"⟩ 1

/-- The theorem at the example, with contexts of one object. Each of the options lets something be
found that is not found without it: the methods that are reached and the object from the library. -/
theorem wider_finds_more_service :
    let narrow : Options :=
      { onlyApp := true, classInit := false, threadStart := false, arrayCopy := false }
    let wide : Options := { implicitEntries := true, arrayCopy := false }
    ∃ p r r', Program.load serviceSource = .ok p ∧ narrow.Narrower wide ∧
      analyze p narrow (.obj 1) [] = .ok r ∧ analyze p wide (.obj 1) [] = .ok r' ∧
      (∀ x, r.Finds x → r'.Finds x) ∧
      (∀ m ∈ serviceCallbacks, r'.Finds (.reached m) ∧ ¬ r.Finds (.reached m)) ∧
      ∃ o, r'.Finds (.var serviceVar o) ∧ ¬ r.Finds (.var serviceVar o) := by
  intro narrow wide
  obtain ⟨p, hload, r, hr, r', hr', hmethods, o, -, hfinds', hfinds⟩ :
      ∃ p, Program.load serviceSource = .ok p ∧ ∃ r ∈ resultWithin 200 p narrow (.obj 1),
        ∃ r' ∈ resultWithin 200 p wide (.obj 1),
        (∀ m ∈ serviceCallbacks, m ∈ r'.reachable ∧ m ∉ r.reachable) ∧
        ∃ o ∈ (r'.pointsTo serviceVar).head?.bind r'.registry.heap.get?,
          r'.Lists (r'.pointsTo serviceVar) o ∧ ¬ r.Lists (r.pointsTo serviceVar) o :=
    exists_of_any_toOption (by decide +kernel)
  have hr := analyze_of_resultWithin hr
  have hr' := analyze_of_resultWithin hr'
  have hwatch : ∀ w ∈ ([] : List Observer), w.Watches := by simp
  have hle : narrow.Narrower wide := by constructor <;> decide
  obtain ⟨s, s', hs, hs', hall⟩ :=
    wider_finds_more ⟨_, hload⟩ hle rfl rfl (.obj 1) hwatch hwatch
  cases hr.symm.trans hs
  cases hr'.symm.trans hs'
  exact ⟨p, r, r', hload, hle, hr, hr', hall, hmethods, o, hfinds', hfinds⟩

end HeapFlow
