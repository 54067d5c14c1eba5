import HeapFlow.Proofs.Dispatching
import HeapFlow.Proofs.Returning
import HeapFlow.Proofs.Rooting
import HeapFlow.Proofs.Shapes

/-!
# Initialized classes

A class is initialized when a reached method uses it. Its superclass is initialized with it, and its
initializer is reached, which may use more classes, and the first one again. So a class is marked as
initialized before any of this is done, and for some time there are initialized classes whose
superclasses are not initialized, or whose initializers are not reached. What is missing then stands
on the agenda in front of what was there when the outermost call began (`State.ClosedBut`,
`Setup.Tame.exists_outer`); so nothing is missing when it returns.

The observers are told of a class right after it is marked. No other news is pending in front of
that, and telling them leaves nothing to do (`Machine.Foremost`); so each of them is told once.

All this needs that no interface is above itself. Loading accepts programs in which one is, and then
the search for a finalizer, and with it the initialization, may have no end
(`initialization_without_end`).
-/

namespace HeapFlow

open List Relation

/-- **A method uses a class actively.** -/
inductive Program.ActiveUse (p : Program) (d : Method) : String → Prop where
  | static (h : d.isStatic = true) : ActiveUse p d d.id.cls
  | new {x : Slot} {t : Ty} {n : Nat} {c : String} (hs : .new x t n ∈ d.body)
      (hc : t.base = .cls c) : ActiveUse p d c
  | literal {x : Slot} {l : Literal} {c : String} (hs : .const x l ∈ d.body)
      (hc : l.type = .cls c) : ActiveUse p d c
  | classLiteral {x : Slot} {t : Ty} {c : String} (hs : .const x (.cls t) ∈ d.body)
      (hc : t.base = .cls c) : ActiveUse p d c
  | load {x : Slot} {f : FieldId} (hs : .loadStatic x f ∈ d.body) : ActiveUse p d f.cls
  | store {x : Slot} {f : FieldId} (hs : .storeStatic f x ∈ d.body) : ActiveUse p d f.cls
  | call {c : Call} {m : Method} (hs : .invoke c ∈ d.body) (hkind : c.kind = .static)
      (hm : p.resolve c.target = some m) : ActiveUse p d m.id.cls

namespace Program

variable {p : Program} {d : Method} {c : String}

theorem mem_classOfType {t : Ty} : c ∈ classOfType t ↔ t.base = .cls c := by
  unfold classOfType
  split
  · next h => simp [h, eq_comm]
  · next h => simpa using h c

theorem mem_stmtUses_const {x : Slot} {l : Literal} : c ∈ p.stmtUses (.const x l) ↔
    l.type = .cls c ∨ ∃ t, l = .cls t ∧ t.base = .cls c := by
  cases l with
  | _ => simp [stmtUses, mem_classOfType, Literal.type, Ty.base]

/-- The uses that the observer sees are the active ones. -/
theorem mem_activeUses_iff : c ∈ p.activeUses d ↔ p.ActiveUse d c := by
  simp only [activeUses, mem_append, mem_flatMap]
  constructor
  · rintro (hc | ⟨s, hs, hc⟩)
    · split at hc
      · next h =>
        rw [mem_singleton.mp hc]
        exact .static h
      · cases hc
    · cases s with
      | new x t n => exact .new hs (mem_classOfType.mp hc)
      | const x l =>
        rcases mem_stmtUses_const.mp hc with htype | ⟨t, rfl, hbase⟩
        · exact .literal hs htype
        · exact .classLiteral hs hbase
      | loadStatic x f =>
        rw [mem_singleton.mp hc]
        exact .load hs
      | storeStatic f x =>
        rw [mem_singleton.mp hc]
        exact .store hs
      | invoke k =>
        simp only [stmtUses] at hc
        split at hc
        · next hkind =>
          split at hc
          · next m hm =>
            rw [mem_singleton.mp hc]
            exact .call hs hkind hm
          · cases hc
        · cases hc
      | _ => cases hc
  · intro h
    cases h with
    | static h => exact .inl (by simp [h])
    | new hs hc => exact .inr ⟨_, hs, mem_classOfType.mpr hc⟩
    | literal hs hc => exact .inr ⟨_, hs, mem_stmtUses_const.mpr (.inl hc)⟩
    | classLiteral hs hc => exact .inr ⟨_, hs, mem_stmtUses_const.mpr (.inr ⟨_, rfl, hc⟩)⟩
    | load hs | store hs => exact .inr ⟨_, hs, mem_singleton_self _⟩
    | call hs hkind hm => exact .inr ⟨_, hs, by simp [stmtUses, hkind, hm]⟩

/-- **A class that is used is declared.** -/
theorem Accepted.class?_of_activeUse (hp : p.Accepted) {m : MethodId} (hd : p.method? m = some d)
    (h : p.ActiveUse d c) : (p.class? c).isSome = true := by
  have hstatic : ∀ {f}, p.DeclaresStatic f → (p.class? f.cls).isSome = true := by
    rintro f ⟨x, hx, -⟩
    obtain ⟨k, hk, -⟩ := Option.bind_eq_some_iff.mp hx
    rw [hk, Option.isSome_some]
  have hshape : ∀ s ∈ d.body, p.StmtShape d s := fun s hs => (hp.shape hd hs).2
  cases h with
  | static =>
    obtain ⟨k, hk, -⟩ := method?_eq_some hd
    rw [hp.wellFormed.id_eq hd, hk, Option.isSome_some]
  | new hs hc => exact (hshape _ hs).1 c hc
  | @literal x l c hs hc =>
    -- the only constants that are objects are strings and classes
    cases l with
    | str | cls =>
      cases hc
      exact hp.class?_base (by decide)
    | _ => cases hc
  | classLiteral hs hc => exact hshape _ hs c hc
  | load hs | store hs => exact hstatic (hshape _ hs)
  | @call k n hs hkind hm =>
    obtain ⟨a, ha, han⟩ := exists_of_search hm
    rw [hp.wellFormed.cls (mem_of_class? ha) (mem_of_find?_eq_some han), ha, Option.isSome_some]

end Program

/-! ### Each class once -/

/-- **At this moment a class is marked** as initialized. -/
structure Machine.Marks (g : Setup) (m : Machine) (c : String) : Prop where
  agenda : ∃ rest, m.agenda = .initClass c :: rest
  new : c ∉ m.state.initialized
  marked : c ∈ (m.step g).state.initialized
  next : ∃ rest, (m.step g).agenda = .notify (.initialized c) g.observers :: rest

namespace Machine

variable {g : Setup} {m : Machine} {c : String}

/-- The task that initializes a class marks it, or it is marked already. -/
theorem Performs.marks {rest ts : List Task} {s' : State}
    (hp : m.Performs g (.initClass c) rest ts s') :
    ts = [] ∧ s' = m.state ∨
      m.Marks g c ∧ ∀ b ∈ s'.initialized, b ∈ m.state.initialized ∨ b = c := by
  rcases Act.initClass_cases hp.run with hnone | ⟨k, above, -, hnew, rfl, rfl, -⟩
  · exact .inl hnone
  · refine .inr ⟨⟨⟨rest, hp.agenda⟩, hnew, by simp [hp.next], ⟨_, by rw [hp.next]; rfl⟩⟩, ?_⟩
    simp

section Steady

variable (hg : g.Tame) (hm : m.Steady g)

include hg hm

theorem Steady.initialized_eq {t : Task} {rest ts : List Task} {s' : State}
    (hp : m.Performs g t rest ts s') (ht : ¬ ∃ b, t = .initClass b) :
    s'.initialized = m.state.initialized := by
  have hmem : t ∈ m.agenda := hp.agenda ▸ .head _
  exact Act.initialized_perform hg.wellFormed hg.honest hm.known.state hm.sound.wf
    (hm.known.agenda t hmem) (hm.sound.supported t hmem).means (fun b hb => ht ⟨b, hb⟩) hp.run

theorem Steady.initialized_step (hc : c ∈ m.state.initialized) :
    c ∈ (m.step g).state.initialized := by
  cases hA : m.agenda with
  | nil => rwa [step_of_nil hA]
  | cons t rest =>
    obtain ⟨ts, s', hp, hnext⟩ := hm.performs hg hA
    rw [hp.next] at hnext ⊢
    exact hp.initialized hm hc

/-- **Classes are marked by the task that is there for it**, and by no other. -/
theorem Steady.marks_of_step (hc : c ∈ (m.step g).state.initialized) :
    c ∈ m.state.initialized ∨ m.Marks g c := by
  cases hA : m.agenda with
  | nil =>
    rw [step_of_nil hA] at hc
    exact .inl hc
  | cons t rest =>
    obtain ⟨ts, s', hp, -⟩ := hm.performs hg hA
    rw [hp.next] at hc
    by_cases ht : ∃ b, t = .initClass b
    · obtain ⟨b, rfl⟩ := ht
      rcases hp.marks with ⟨-, rfl⟩ | ⟨hmarks, honly⟩
      · exact .inl hc
      · rcases honly c hc with hc | rfl
        · exact .inl hc
        · exact .inr hmarks
    · exact .inl (hm.initialized_eq hg hp ht ▸ hc)

end Steady

end Machine

namespace Setup

variable {g : Setup} {c : String} (hg : g.Tame)

include hg

theorem Tame.initialized_mono {i j : Nat} (hij : i ≤ j)
    (hc : c ∈ (g.moment i).state.initialized) : c ∈ (g.moment j).state.initialized := by
  induction j, hij using Nat.le_induction with
  | base => exact hc
  | succ j _ ih =>
    rw [moment_succ]
    exact (hg.steady_moment j).initialized_step hg ih

/-- An initialized class has been marked at some moment. -/
theorem Tame.exists_marks {n : Nat} (hc : c ∈ (g.moment n).state.initialized) :
    ∃ j < n, (g.moment j).Marks g c := by
  induction n with
  | zero => cases hc
  | succ n ih =>
    rw [moment_succ] at hc
    rcases (hg.steady_moment n).marks_of_step hg hc with hc | hc
    · obtain ⟨j, hj, hmarks⟩ := ih hc
      exact ⟨j, Nat.lt_succ_of_lt hj, hmarks⟩
    · exact ⟨n, Nat.lt_succ_self n, hc⟩

/-- A class is marked once. -/
theorem Tame.marks_unique {i j : Nat} (hi : (g.moment i).Marks g c) (hj : (g.moment j).Marks g c) :
    i = j := by
  have hlt : ∀ {i j}, (g.moment i).Marks g c → (g.moment j).Marks g c → ¬ i < j := by
    intro i j hi hj hij
    have hmarked := hi.marked
    rw [← moment_succ] at hmarked
    exact hj.new (hg.initialized_mono hij hmarked)
  exact Nat.le_antisymm (Nat.not_lt.mp (hlt hj hi)) (Nat.not_lt.mp (hlt hi hj))

end Setup

/-! ### Telling the observers -/

namespace Machine

variable {g : Setup} {m : Machine} {c : String}

/-- News of initialized classes is told before anything else is done. -/
def Foremost (m : Machine) : Prop :=
  ∀ c os, .notify (.initialized c) os ∉ m.agenda.tail

/-- At this moment observers are to be told of an initialized class. -/
def Tells (m : Machine) (c : String) (os : List Observer) : Prop :=
  ∃ rest, m.agenda = .notify (.initialized c) os :: rest

/-- One observer after the other is told. -/
theorem Steady.tells_step (hg : g.Tame) (hm : m.Steady g) {o : Observer} {os : List Observer}
    (h : m.Tells c (o :: os)) : (m.step g).Tells c os := by
  obtain ⟨rest, hA⟩ := h
  obtain ⟨ts, s', hp, -⟩ := hm.performs hg hA
  have hts : ts = [.notify (.initialized c) os] := by
    cases hp.leaves with
    | tell => rfl
  refine ⟨rest, ?_⟩
  rw [hp.next, hts]
  rfl

section Step

variable {t : Task} {rest ts : List Task} {s' : State} (hp : m.Performs g t rest ts s')

include hp

variable {os : List Observer}

/-- **Where news of an initialized class comes from**: the class has been marked, or another
observer has been told. -/
theorem Performs.tells_back (h : .notify (.initialized c) os ∈ ts) :
    (∃ o, m.Tells c (o :: os)) ∨ os = g.observers ∧ m.Marks g c := by
  cases hp.leaves.arises h with
  | again o => exact .inl ⟨o, rest, hp.agenda⟩
  | quiet _ _ hinit =>
    cases hinit c rfl
    rcases hp.marks with ⟨rfl, -⟩ | ⟨hmarks, -⟩
    · cases h
    · exact .inr ⟨rfl, hmarks⟩

theorem Performs.notMem_tail : .notify (.initialized c) os ∉ ts.tail := by
  intro h
  have hmem := mem_of_mem_tail h
  have hleaves := hp.leaves
  cases hp.leaves.arises hmem with
  | again o =>
    cases hleaves with
    | tell => cases h
  | quiet _ _ hinit =>
    cases hinit c rfl
    rcases Act.initClass_cases hp.run with ⟨rfl, -⟩ | ⟨k, above, -, -, -, rfl, habove⟩
    · cases hmem
    · rcases mem_append.mp h with h | h
      · obtain ⟨u, -, hu⟩ := habove _ h
        cases hu
      · cases mem_singleton.mp h

/-- A step keeps news in front. -/
theorem Foremost.step (h : m.Foremost) : Foremost { state := s', agenda := ts ++ rest } := by
  have hrest : ∀ c os, .notify (.initialized c) os ∉ rest := by
    intro c os
    have htail := h c os
    rwa [hp.agenda] at htail
  intro c os hmem
  cases ts with
  | nil => exact hrest c os (mem_of_mem_tail hmem)
  | cons u us =>
    rcases mem_append.mp hmem with hmem | hmem
    · exact hp.notMem_tail hmem
    · exact hrest c os hmem

end Step

end Machine

namespace Setup

variable {g : Setup} {c : String} (hg : g.Tame)

include hg

theorem Tame.foremost_moment (n : Nat) : (g.moment n).Foremost := by
  refine (Machine.Steady.induction hg (I := Machine.Foremost) (fun c os h => ?_)
    (fun _ hp _ h => h.step hp) n).2
  simp [Setup.initial] at h

variable {os : List Observer}

/-- Once a class is marked, its observers are told one after the other. -/
theorem Tame.tells_of_marks {j : Nat} (h : (g.moment j).Marks g c) {l : List Observer}
    (hos : g.observers = l ++ os) : (g.moment (j + 1 + l.length)).Tells c os := by
  induction l using List.reverseRecOn generalizing os with
  | nil =>
    cases hos
    obtain ⟨rest, hrest⟩ := h.next
    exact ⟨rest, by rw [length_nil, Nat.add_zero, moment_succ, hrest]⟩
  | append_singleton l o ih =>
    have hsplit : g.observers = l ++ o :: os := by simpa using hos
    rw [length_append, length_singleton, ← Nat.add_assoc, moment_succ]
    exact (hg.steady_moment _).tells_step hg (ih hsplit)

/-- **Observers are told of a class after it has been marked**, and each has its moment. -/
theorem Tame.exists_marks_of_tells {n : Nat} (h : (g.moment n).Tells c os) :
    ∃ j l, (g.moment j).Marks g c ∧ g.observers = l ++ os ∧ n = j + 1 + l.length := by
  induction n generalizing os with
  | zero =>
    obtain ⟨rest, hA⟩ := h
    cases hA
  | succ n ih =>
    rw [moment_succ] at h
    obtain ⟨tail, htail⟩ := h
    cases hA : (g.moment n).agenda with
    | nil =>
      rw [Machine.step_of_nil hA, hA] at htail
      cases htail
    | cons t rest =>
      obtain ⟨ts, s', hp, -⟩ := (hg.steady_moment n).performs hg hA
      rw [hp.next] at htail
      change ts ++ rest = _ :: tail at htail
      -- the news is not from further back, as nothing stood in front of it
      have hmem : .notify (.initialized c) os ∈ ts := by
        cases ts with
        | nil =>
          have hrest := hg.foremost_moment n c os
          rw [hA, tail_cons, ← nil_append rest, htail] at hrest
          exact absurd (.head _) hrest
        | cons u us =>
          cases htail
          exact .head _
      rcases hp.tells_back hmem with ⟨o, ho⟩ | ⟨rfl, hmarks⟩
      · obtain ⟨j, l, hmarks, hl, rfl⟩ := ih ho
        exact ⟨j, l ++ [o], hmarks, by simpa using hl, by simp [Nat.add_assoc]⟩
      · exact ⟨n, [], hmarks, rfl, rfl⟩

end Setup

/-! ### What is missing while a class is initialized -/

theorem State.settled_initialized_iff {s : State} {c : String} :
    s.Settled (.initialized c) ↔ c ∈ s.initialized := by
  refine ⟨?_, fun hc => ⟨.initialized c, hc, .initialized c⟩⟩
  rintro ⟨x, hx, hf⟩
  cases hf
  exact hx

/-- **Nothing is missing of the initialized classes but what some tasks owe**: neither their
superclasses nor their initializers. -/
def State.ClosedBut (g : Setup) (s : State) (ts : List Task) : Prop :=
  ∀ ⦃c f⦄, c ∈ s.initialized → Follows g (.initialized c) f → s.Has f ∨ Owed g s.registry ts f

section ClosedBut

variable {g : Setup} {s : State} {ts : List Task}

theorem State.ClosedBut.mono (h : s.ClosedBut g []) : s.ClosedBut g ts := by
  intro c f hc hf
  rcases h hc hf with hhas | ⟨t, ht, -⟩
  · exact .inl hhas
  · cases ht

/-- A task pays what it owes, or leaves it to its tasks. -/
theorem State.ClosedBut.step {m : Machine} {t : Task} {us rest : List Task} {s' : State}
    (hp : m.Performs g t (us ++ rest) ts s') (h : m.state.ClosedBut g (t :: us)) :
    s'.ClosedBut g (ts ++ us) := by
  intro c f hc hf
  have hkept : f.Kept g := Fact.kept_of_ne_flow fun F hF => by
    subst hF
    cases hf
  refine hp.effect.due_of_follows hkept (State.settled_initialized_iff.mpr hc) hf fun hold => ?_
  exact h (State.settled_initialized_iff.mp hold) hf

end ClosedBut

namespace Setup

variable {g : Setup} (hg : g.Tame)

/-- **No class is being initialized** at a moment: every call to initialize one has returned. -/
def Resting (g : Setup) (n : Nat) : Prop :=
  ∀ j < n, ∀ c rest, (g.moment j).agenda = .initClass c :: rest →
    ∃ k, (g.moment j).Returns g rest k ∧ j + k ≤ n

/-- **What is under way at a moment**: nothing is missing but what the tasks `us` owe, and if there
are any, then they belong to a call to initialize a class that left `rest` behind. -/
structure Outer (g : Setup) (n : Nat) (us rest : List Task) : Prop where
  agenda : (g.moment n).agenda = us ++ rest
  closed : (g.moment n).state.ClosedBut g us
  begun : us = [] ∨ ∃ j < n, ∃ c, (g.moment j).agenda = .initClass c :: rest ∧
    ∀ i, j ≤ i → i ≤ n → ∃ u vs, (g.moment i).agenda = u :: (vs ++ rest)

section Tame

include hg

variable {rest : List Task} {c : String} {n : Nat}

theorem Tame.outer_step {j : Nat} {t : Task} {us : List Task} (hj : j ≤ n)
    (hcall : (g.moment j).agenda = .initClass c :: rest)
    (hduring : ∀ i, j ≤ i → i ≤ n → ∃ u vs, (g.moment i).agenda = u :: (vs ++ rest))
    (hA : (g.moment n).agenda = t :: (us ++ rest))
    (hclosed : (g.moment n).state.ClosedBut g (t :: us)) : ∃ vs, g.Outer (n + 1) vs rest := by
  obtain ⟨ts, s', hp, -⟩ := (hg.steady_moment n).performs hg hA
  have hnext : g.moment (n + 1) = { state := s', agenda := (ts ++ us) ++ rest } := by
    rw [moment_succ, hp.next, append_assoc]
  refine ⟨ts ++ us, by rw [hnext], ?_, ?_⟩
  · rw [hnext]
    exact hclosed.step hp
  · cases hus : ts ++ us with
    | nil => exact .inl rfl
    | cons u vs =>
      refine .inr ⟨j, Nat.lt_succ_of_le hj, c, hcall, fun i hji hin => ?_⟩
      rcases Nat.le_succ_iff.mp hin with hin | rfl
      · exact hduring i hji hin
      · exact ⟨u, vs, by rw [hnext, hus]; rfl⟩

/-- **At every moment** what is missing is owed by one outermost call. -/
theorem Tame.exists_outer (n : Nat) : ∃ us rest, g.Outer n us rest := by
  induction n with
  | zero => exact ⟨[], _, rfl, fun _ _ hc => (not_mem_nil hc).elim, .inl rfl⟩
  | succ n ih =>
    obtain ⟨us, rest, hagenda, hclosed, hbegun⟩ := ih
    cases us with
    | cons t us =>
      obtain ⟨j, hj, c, hcall, hduring⟩ := hbegun.resolve_left (cons_ne_nil t us)
      obtain ⟨vs, hvs⟩ := hg.outer_step hj.le hcall hduring hagenda hclosed
      exact ⟨vs, rest, hvs⟩
    | nil =>
      rw [nil_append] at hagenda
      cases rest with
      | nil =>
        have hsame : g.moment (n + 1) = g.moment n := by
          rw [moment_succ, Machine.step_of_nil hagenda]
        exact ⟨[], [], by rw [hsame, hagenda]; rfl, by rwa [hsame], .inl rfl⟩
      | cons t rest =>
        by_cases ht : ∃ c, t = .initClass c
        · -- a call begins
          obtain ⟨c, rfl⟩ := ht
          have hfirst : (g.moment n).agenda = .initClass c :: ([] ++ rest) := hagenda
          obtain ⟨vs, hvs⟩ := hg.outer_step le_rfl hagenda
            (fun i hni hin => ⟨.initClass c, [], le_antisymm hni hin ▸ hfirst⟩) hfirst hclosed.mono
          exact ⟨vs, rest, hvs⟩
        · -- any other task leaves the initialized classes as they are
          have hm := hg.steady_moment n
          obtain ⟨ts, s', hp, -⟩ := hm.performs hg hagenda
          have hinit := hm.initialized_eq hg hp ht
          have hnext : g.moment (n + 1) = { state := s', agenda := ts ++ rest } := by
            rw [moment_succ, hp.next]
          refine ⟨[], ts ++ rest, by rw [hnext]; rfl, ?_, .inl rfl⟩
          intro c f hc hf
          rw [hnext] at hc ⊢
          rcases hclosed (hinit ▸ hc) hf with hhas | ⟨u, hu, -⟩
          · exact .inl (hp.effect.has hhas)
          · cases hu

/-- **Nothing is missing when no class is being initialized.** -/
theorem Tame.closed_of_resting (h : g.Resting n) : (g.moment n).state.ClosedBut g [] := by
  obtain ⟨us, rest, -, hclosed, hbegun⟩ := hg.exists_outer n
  rcases hbegun with rfl | ⟨j, hj, c, hcall, hduring⟩
  · exact hclosed
  · -- the call has returned by now, but it should still be under way
    obtain ⟨k, hk, hle⟩ := h j hj c rest hcall
    obtain ⟨u, vs, hrest⟩ := hduring (j + k) (Nat.le_add_right j k) hle
    rw [moment_add, hk.agenda] at hrest
    have hlength := congrArg List.length hrest
    simp at hlength
    omega

/-- **Nothing is missing when an outermost call returns.** -/
theorem Tame.closed_of_returns {k : Nat} (hA : (g.moment n).agenda = .initClass c :: rest)
    (hn : g.Resting n) (hk : (g.moment n).Returns g rest k) :
    (g.moment (n + k)).state.ClosedBut g [] := by
  have hfirst : (g.moment n).agenda = [.initClass c] ++ rest := hA
  rw [moment_add]
  exact hk.induction hg (I := fun s ts => s.ClosedBut g ts) (fun _ hp h => h.step hp)
    (hg.steady_moment n) hfirst (hg.closed_of_resting hn).mono

end Tame

end Setup

/-- **A class is used**: a reached method whose body counts uses it, or a class below it. -/
def State.Uses (g : Setup) (s : State) (c : String) : Prop :=
  ∃ M d u, s.Settled (.reached M) ∧ g.Translates M.item ∧ g.program.method? M.item = some d ∧
    g.program.ActiveUse d u ∧ ReflTransGen g.program.Super u c

/-- A fact is backed: it is derivable, and if a class is initialized, it is used. -/
def Fact.Backed (g : Setup) (s : State) (f : Fact) : Prop :=
  Derivable g f ∧ ∀ c, f = .initialized c → s.Uses g c

/-- A class is initialized because a method uses it, or with a class below it. -/
theorem Follows.of_initialized {g : Setup} {x : Fact} {c : String}
    (h : Follows g x (.initialized c)) :
    (∃ m d, x = .announced m ∧ g.program.method? m = some d ∧ g.program.ActiveUse d c) ∨
      ∃ b, x = .initialized b ∧ g.program.Super b c := by
  cases h with
  | init _ hd hc _ => exact .inl ⟨_, _, rfl, hd, Program.mem_activeUses_iff.mp hc⟩
  | super hc hu _ => exact .inr ⟨_, rfl, _, hc, hu⟩
  | stmt _ _ _ hf | wire hf => cases hf
  | use _ hf =>
    cases hf with
    | call _ _ _ _ hf | run _ _ _ hf => cases hf

namespace Machine

variable {g : Setup} {m : Machine}

/-- A method that has been announced is reached. -/
theorem Steady.exists_reached (hm : m.Steady g) {id : MethodId}
    (h : m.state.Settled (.announced id)) :
    ∃ M, m.state.Settled (.reached M) ∧ M.item = id ∧ g.Translates id := by
  obtain ⟨x, hx, hf⟩ := h
  cases hf
  obtain ⟨cm, hcm, rfl, ht⟩ := (hm.announced _).mp hx
  obtain ⟨M, hM⟩ := hm.sound.wf.methodIs hcm
  exact ⟨M, ⟨.reached cm, hcm, .reached hM⟩, hM.methodId.symm, ht⟩

/-- **A run does not leave the backed facts.** -/
theorem Steady.stableOn_backed (hg : g.Tame) (hm : m.Steady g) :
    StableOn g m.state.Settled (Fact.Backed g m.state) := by
  have hderivable := Derivable.stableOn hg.wellFormed m.state.Settled
  refine ⟨fun {x f} hx hb hf => ⟨hderivable.follow hx hb.1 hf, ?_⟩,
    fun he hO hP => ⟨hderivable.flow he.1 hO.1 hP, by simp⟩,
    fun hO hC hd hv => ⟨hderivable.current hO.1 hC.1 hd hv, by simp⟩,
    fun ho hS hb ht hf => ⟨hderivable.copy ho hS hb.1 ht hf, ?_⟩, fun h => hderivable.fits h.1⟩
  · rintro c rfl
    rcases hf.of_initialized with ⟨id, d, rfl, hd, hc⟩ | ⟨b, rfl, hsuper⟩
    · obtain ⟨M, hM, rfl, ht⟩ := hm.exists_reached hx
      exact ⟨M, d, c, hM, ht, hd, hc, .refl⟩
    · obtain ⟨M, d, u, hM, ht, hd, hu, hub⟩ := hb.2 b rfl
      exact ⟨M, d, u, hM, ht, hd, hu, hub.tail hsuper⟩
  · rintro c rfl
    cases hf

structure Backed (g : Setup) (m : Machine) : Prop where
  has : ∀ f, m.state.Has f → f.Backed g m.state
  supported : ∀ t ∈ m.agenda, t.Supported g (Fact.Backed g m.state) m.state.registry

theorem backed_initial (g : Setup) (script : Script) : (g.initial script).Backed g where
  has f hf := absurd hf (State.not_has_initial script f)
  supported t ht := by
    have hsup := (sound_initial g script).supported t ht
    refine ⟨hsup.means, fun f hf => ⟨hsup.owes f hf, ?_⟩⟩
    rintro c rfl
    rcases mem_triple.mp ht with rfl | rfl | rfl
    · cases hf with
      | notify _ hf =>
        cases hf with
        | entry hf =>
          cases hf with
          | args _ hf => cases hf
    · cases hf
    · cases hf

/-- **A step keeps this**: as methods stay reached, used classes stay used. -/
theorem Backed.step (hg : g.Tame) {t : Task} {rest ts : List Task} {s' : State}
    (hp : m.Performs g t rest ts s') (hm' : Steady g { state := s', agenda := ts ++ rest })
    (h : m.Backed g) : Backed g { state := s', agenda := ts ++ rest } := by
  have hmono : ∀ f : Fact, f.Backed g m.state → f.Backed g s' := by
    rintro f ⟨hf, huses⟩
    refine ⟨hf, fun c hc => ?_⟩
    obtain ⟨M, d, u, hM, hrest⟩ := huses c hc
    exact ⟨M, d, u, hp.effect.settled hM, hrest⟩
  have hsup : ∀ u ∈ m.agenda, u.Supported g (Fact.Backed g s') m.state.registry := fun u hu =>
    ⟨(h.supported u hu).means, fun f hf => hmono f ((h.supported u hu).owes f hf)⟩
  rw [hp.agenda] at hsup
  obtain ⟨hhas, hts⟩ := hp.effect.sound (hm'.stableOn_backed hg) (fun f hf => hmono f (h.has f hf))
    (hsup t (.head _)).owes
  refine ⟨hhas, fun u hu => ?_⟩
  rcases mem_append.mp hu with hu | hu
  · exact hts u hu
  · exact (hsup u (.tail _ hu)).mono hp.effect.le

end Machine

/-- **In the end the used classes are initialized, and no others are.** -/
theorem Setup.Tame.mem_initialized_iff {g : Setup} (hg : g.Tame) (hp : g.program.Accepted)
    (ho : .classInit ∈ g.observers) {c : String} :
    c ∈ (g.solve []).state.initialized ↔ (g.solve []).state.Uses g c := by
  constructor
  · intro hc
    obtain ⟨n, hn, -⟩ := hg.exists_solve_eq_moment
    have hbacked := (Machine.Steady.induction hg (I := fun m => m.Backed g)
      (Machine.backed_initial g []) (fun _ hperf hm' h => h.step hg hperf hm') n).2
    rw [hn] at hc ⊢
    exact (hbacked.has _ (State.settled_initialized_iff.mpr hc).has).2 c rfl
  · rintro ⟨M, d, u, hM, ht, hd, hu, huc⟩
    have hkept : ∀ {f : Fact}, (∀ F, f ≠ .flow F) → f.Kept g := Fact.kept_of_ne_flow
    have hmethod := hg.settled_of_follows (hkept (by simp)) hM (.announce ht)
    -- the class that is used, and then the classes above it
    induction huc with
    | refl =>
      exact State.settled_initialized_iff.mp (hg.settled_of_follows (hkept (by simp)) hmethod
        (.init ho hd (Program.mem_activeUses_iff.mpr hu) (hp.class?_of_activeUse hd hu)))
    | tail _ hsuper ih =>
      have hdeclared := hp.linked.declared hsuper.link
      obtain ⟨k, hk, hs⟩ := hsuper
      exact State.settled_initialized_iff.mp (hg.settled_of_follows (hkept (by simp))
        (State.settled_initialized_iff.mpr ih) (.super hk hs hdeclared))

/-- At this moment an outermost call to initialize a class returns. -/
def Setup.Completes (g : Setup) (n : Nat) : Prop :=
  ∃ j c rest k, g.Resting j ∧ (g.moment j).agenda = .initClass c :: rest ∧
    (g.moment j).Returns g rest k ∧ n = j + k

/-- **How an analysis initializes classes.** -/
structure Setup.InitializesClasses (g : Setup) : Prop where
  returns : ∀ {n c rest}, (g.moment n).agenda = .initClass c :: rest →
    ∃ k, (g.moment n).Returns g rest k
  /-- For each observer there is one moment at which it is told of an initialized class. -/
  once : ∀ {c os}, c ∈ (g.solve []).state.initialized → os <:+ g.observers →
    ∃! n, (g.moment n).Tells c os
  told : ∀ {n c os}, (g.moment n).Tells c os →
    c ∈ (g.solve []).state.initialized ∧ os <:+ g.observers
  above : ∀ {n a b}, g.Completes n → a ∈ (g.moment n).state.initialized → g.program.Super a b →
    b ∈ (g.moment n).state.initialized
  reached : ∀ {n a k d}, g.Completes n → a ∈ (g.moment n).state.initialized →
    g.program.class? a = some k → k.clinit? = some d →
    (g.moment n).state.Settled (.reached ⟨[], d.id⟩)
  /-- In the end the initialized classes are those that are used, and those above them. -/
  used : ∀ c, c ∈ (g.solve []).state.initialized ↔
    ∃ M d u, (g.solve []).state.Settled (.reached M) ∧ g.Translates M.item ∧
      g.program.method? M.item = some d ∧ g.program.ActiveUse d u ∧
      ReflTransGen g.program.Super u c

section Completed

variable {g : Setup} (hg : g.Tame)

include hg

variable {c : String} {os : List Observer}

/-- When an outermost call returns, what is due for an initialized class has been done. -/
theorem Setup.Tame.settled_of_completes {n : Nat} (hn : g.Completes n) {f : Fact}
    (hc : c ∈ (g.moment n).state.initialized) (hf : Follows g (.initialized c) f) :
    (g.moment n).state.Settled f := by
  have hwaits : ¬ f.Waits := by
    cases hf with
    | super | clinit => exact id
  obtain ⟨j, b, rest, k, hj, hA, hk, rfl⟩ := hn
  rcases hg.closed_of_returns hA hj hk hc hf with hhas | ⟨u, hu, -⟩
  · exact hhas.settled hwaits
  · cases hu

/-- **Every observer is told of an initialized class once.** -/
theorem Setup.Tame.existsUnique_tells (hc : c ∈ (g.solve []).state.initialized)
    (hos : os <:+ g.observers) : ∃! n, (g.moment n).Tells c os := by
  obtain ⟨last, hlast, -⟩ := hg.exists_solve_eq_moment
  obtain ⟨j, -, hmarks⟩ := hg.exists_marks (hlast ▸ hc)
  obtain ⟨l, hl⟩ := hos
  refine ⟨j + 1 + l.length, hg.tells_of_marks hmarks hl.symm, fun n hn => ?_⟩
  -- the class is marked once, and as many observers come before
  obtain ⟨i, l', hmarks', hl', rfl⟩ := hg.exists_marks_of_tells hn
  rw [hg.marks_unique hmarks' hmarks, append_cancel_right (hl'.symm.trans hl.symm)]

theorem Setup.Tame.mem_initialized_of_tells {n : Nat} (h : (g.moment n).Tells c os) :
    c ∈ (g.solve []).state.initialized ∧ os <:+ g.observers := by
  obtain ⟨j, l, hmarks, hl, -⟩ := hg.exists_marks_of_tells h
  obtain ⟨last, hlast, hend⟩ := hg.exists_solve_eq_moment
  refine ⟨?_, l, hl.symm⟩
  -- beyond the end nothing happens
  have hbeyond : g.moment (last + (j + 1)) = g.moment last := by
    rw [moment_add, Machine.run_of_nil hend]
  have hmarked := hmarks.marked
  rw [← moment_succ] at hmarked
  rw [hlast, ← hbeyond]
  exact hg.initialized_mono (Nat.le_add_left _ _) hmarked

end Completed

/-- **Classes are initialized on their first use, and completely**, where no interface is above
itself. In every analysis that initializes classes, each call to initialize one returns, though
initializers may use each other in circles, and so does every walk of the hierarchy that it makes;
every observer is told of each initialized class once; when an outermost call returns, the
superclasses of the initialized classes are initialized and their initializers are reached; and in
the end the initialized classes are those that reached methods use, and those above. -/
theorem classes_initialized_on_use {p : Program} (h : p.Accepted) (hlayered : p.Layered)
    {o : Options} (ho : o.classInit = true) (policy : Policy) {more : List Observer}
    (hmore : ∀ w ∈ more, w.Watches) :
    (o.setup p policy more).InitializesClasses ∧ p.WalksEnd := by
  have hg := Options.tame_setup h o policy hmore
  have hobs : .classInit ∈ (o.setup p policy more).observers := by
    simp [Options.setup, Options.observers, ho]
  refine ⟨?_, h.linked.walksEnd hlayered⟩
  exact {
    returns := fun {n c rest} hA => hg.exists_returns (show _ = [.initClass c] ++ rest from hA)
    once := hg.existsUnique_tells
    told := hg.mem_initialized_of_tells
    above := fun hn ha hsuper => by
      have hdeclared := h.linked.declared hsuper.link
      obtain ⟨k, hk, hs⟩ := hsuper
      exact State.settled_initialized_iff.mp
        (hg.settled_of_completes hn ha (.super hk hs hdeclared))
    reached := fun hn ha hk hd => hg.settled_of_completes hn ha (.clinit hk hd)
    used := fun c => hg.mem_initialized_iff h hobs }

/-- A class whose initializer makes an object of a subclass; and the initializer of the subclass
uses a class whose initializer uses the subclass. -/
def circleSource : ProgramSource where
  classes := [
    { name := "Shape"
      methods := [
        { sig := "static void <clinit>()", locals := ["Shape s"], body := ["s = new Circle"] }] },
    { name := "Circle", superclass := "Shape"
      methods := [
        { sig := "static void <clinit>()", locals := ["Object x"], body := ["x = Ruler.unit"] },
        { sig := "static void main()" }] },
    { name := "Ruler"
      fields := ["static Object unit"]
      methods := [
        { sig := "static void <clinit>()", locals := ["Circle c"]
          body := ["c = new Circle", "Ruler.unit = c"] }] }]
  entries := ["Circle.main"]

set_option maxRecDepth 100000 in
/-- The first call to initialize a class is an outermost one, and when it returns, the initializer
of the superclass is reached. -/
theorem classes_initialized_on_use_circle : ∃ p, Program.load circleSource = .ok p ∧
    p.Layered ∧ p.WalksEnd ∧
    let g := Options.setup {} p .insensitive []
    g.InitializesClasses ∧
      (g.solve []).state.initialized = ["Circle", "Shape", "Object", "Ruler"] ∧
      ∃ n, g.Completes n ∧ "Circle" ∈ (g.moment n).state.initialized ∧
        (g.moment n).state.Settled (.reached ⟨[], ⟨"Shape", "<clinit>()"⟩⟩) := by
  obtain ⟨p, hload, hrank, hend, hlist, hcall, hmarked, hbefore, hcircle, hshape⟩ :
      ∃ p, Program.load circleSource = .ok p ∧
        (∀ k ∈ p.classes, ∀ b ∈ k.super.toList ++ k.interfaces,
          ["Object", "Shape"].idxOf b < ["Object", "Shape"].idxOf k.name) ∧
        let g := Options.setup {} p .insensitive []
        (g.moment 200).agenda.isEmpty = true ∧
        (g.moment 200).state.initialized = ["Circle", "Shape", "Object", "Ruler"] ∧
        (g.moment 5).agenda.head? = some (.initClass "Circle") ∧
        "Circle" ∈ (g.moment 6).state.initialized ∧
        (List.range 5).map (fun j => (g.moment j).agenda.head?) =
          [some (.notify .start g.observers), some (.entry ⟨"Circle", "main()"⟩), some (.reach 0),
            some (.notify (.method ⟨"Circle", "main()"⟩) g.observers),
            some (.notify (.method ⟨"Circle", "main()"⟩) g.observers.tail)] ∧
        (p.class? "Circle").any (·.super == some "Shape") = true ∧
        (p.class? "Shape").any (fun k => k.clinit?.any (·.id == ⟨"Shape", "<clinit>()"⟩)) = true :=
    exists_of_any_toOption (by decide +kernel)
  simp only [Option.any_eq_true, beq_iff_eq] at hcircle hshape
  obtain ⟨circle, hcircle, hsuper⟩ := hcircle
  obtain ⟨shape, hshape, d, hd, hid⟩ := hshape
  obtain ⟨rest, hA⟩ := head?_eq_some_iff.mp hcall
  have hmore : ∀ w ∈ ([] : List Observer), w.Watches := by simp
  have hg := Options.tame_setup ⟨_, hload⟩ {} .insensitive hmore
  have hlayered := Program.layered_of_rank _ hrank
  obtain ⟨hall, hwalks⟩ :=
    classes_initialized_on_use ⟨_, hload⟩ hlayered (o := {}) rfl .insensitive hmore
  have hfirst : (Options.setup {} p .insensitive []).Resting 5 := by
    intro j hj c us hus
    have hhead := congrArg (·[j]?) hbefore
    simp only [getElem?_map, getElem?_range hj, Option.map_some, hus] at hhead
    have hcases : j = 0 ∨ j = 1 ∨ j = 2 ∨ j = 3 ∨ j = 4 := by omega
    rcases hcases with rfl | rfl | rfl | rfl | rfl <;> simp at hhead
  obtain ⟨k, hk⟩ := hall.returns hA
  have hcompletes : (Options.setup {} p .insensitive []).Completes (5 + k) :=
    ⟨5, "Circle", rest, k, hfirst, hA, hk, rfl⟩
  have hpos : 1 ≤ k := by
    refine Nat.one_le_iff_ne_zero.mpr fun hzero => ?_
    subst hzero
    exact cons_ne_self _ _ (hA.symm.trans hk.agenda)
  have hold := hg.initialized_mono (Nat.add_le_add_left hpos 5) hmarked
  have habove := hall.above hcompletes hold ⟨circle, hcircle, hsuper⟩
  refine ⟨p, hload, hlayered, hwalks, hall, ?_, 5 + k, hcompletes, hold, ?_⟩
  · have hsolve : (Options.setup {} p .insensitive []).solve [] = _ :=
      Machine.settle_eq_run (List.isEmpty_iff.mp hend)
    rw [hsolve]
    exact hlist
  · rw [← hid]
    exact hall.reached hcompletes habove hshape hd

/-- Two interfaces that are above each other, and a class below them. The initializer of another
class makes an object of it, and the finalizer of the root class has no body. -/
def roundSource : ProgramSource where
  classes := [
    { name := "Object", isAbstract := true, methods := [{ sig := "abstract void finalize()" }] },
    { name := "Finalizer", methods := [{ sig := "static void register(Object o)" }] },
    { name := "I", isInterface := true, implements := ["J"] },
    { name := "J", isInterface := true, implements := ["I"] },
    { name := "C", implements := ["I"] },
    { name := "D"
      methods := [
        { sig := "static void <clinit>()", locals := ["C x"], body := ["x = new C"] },
        { sig := "static void main()" }] }]
  entries := ["D.main"]

set_option maxRecDepth 100000 in
/-- **Where interfaces are above each other, a class may never be initialized.** A call to
initialize a class has come to the allocation in the initializer, which asks whether the objects
have a finalizer; and the search for it has no end. -/
theorem initialization_without_end : ∃ p, Program.load roundSource = .ok p ∧
    let g := Options.setup {} p .insensitive []
    let ask := fun k : Class => (k.method? rootFinalize.subsig).filter fun d => !d.isAbstract
    (∃ n k rest l m, (g.moment n).agenda = .initClass "D" :: rest ∧
      (g.moment (n + k)).agenda = .enact m 0 :: (l ++ rest) ∧
      (g.moment (n + k)).state.registry.methodId m = ⟨"D", "<clinit>()"⟩) ∧
    p.stmt? ⟨"D", "<clinit>()"⟩ 0 = some (.new 0 (.cls "C") 1) ∧
    p.needsFinalizer (.cls "C") = ((p.search ask "C").map (·.id) != some rootFinalize) ∧
    ∀ r, ¬ p.Finds ask ["C"] r := by
  obtain ⟨p, hload, hcall, hinside, hrest, hmethod, hstmt, hfinalizers, hround⟩ :
      ∃ p, Program.load roundSource = .ok p ∧
        let g := Options.setup {} p .insensitive []
        (g.moment 5).agenda.head? = some (.initClass "D") ∧
        (g.moment 34).agenda.head? = some (.enact 1 0) ∧
        (g.moment 5).agenda.tail <:+ (g.moment 34).agenda.tail ∧
        (g.moment 34).state.registry.methodId 1 = ⟨"D", "<clinit>()"⟩ ∧
        p.stmt? ⟨"D", "<clinit>()"⟩ 0 = some (.new 0 (.cls "C") 1) ∧
        p.hasFinalizers = true ∧
        ∀ i ∈ ["C", "I", "J"], (p.class? i).any (fun k => (p.class? objectClass).any fun o =>
          k.super == some objectClass && o.super == none && ([k, o].findSome? fun k =>
            (k.method? rootFinalize.subsig).filter fun d => !d.isAbstract).isNone &&
          ([k, o].flatMap (·.interfaces)).head?.any (["C", "I", "J"].contains ·)) = true :=
    exists_of_any_toOption (by decide +kernel)
  refine ⟨p, hload, ?_, hstmt, ?_, fun r => ?_⟩
  · obtain ⟨rest, hA⟩ := head?_eq_some_iff.mp hcall
    obtain ⟨us, hB⟩ := head?_eq_some_iff.mp hinside
    rw [hA, hB] at hrest
    obtain ⟨l, hl⟩ : rest <:+ us := hrest
    exact ⟨5, 29, rest, l, 1, hA, hl ▸ hB, hmethod⟩
  · rw [Program.needsFinalizer, hfinalizers, Program.dispatch_eq]
    rfl
  · refine Program.not_finds (S := (· ∈ ["C", "I", "J"])) (fun i hi => ?_) mem_cons_self [] r
    have hi := hround i hi
    simp only [Option.any_eq_true, Bool.and_eq_true, beq_iff_eq, Option.isNone_iff_eq_none,
      contains_iff_mem] at hi
    obtain ⟨k, hk, o, ho, ⟨⟨hsuper, htop⟩, hno⟩, j, hj, hin⟩ := hi
    obtain ⟨js, hjs⟩ := head?_eq_some_iff.mp hj
    exact ⟨[k, o], .up hk hsuper (.top ho htop), hno, j, js, hjs, hin⟩

end HeapFlow
