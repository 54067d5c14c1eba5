import Mathlib.Algebra.GroupWithZero.Nat
import HeapFlow.Proofs.View
import HeapFlow.Solver.Machine

/-!
# What tasks owe

A task on the agenda stands for facts that have not been added yet (`Task.Owes`). `Task.Supported`
is what the tasks of an agenda need to be carried out without leaving a set of facts. Entry methods
that take arguments of one type share them, and they count as made for the first of these methods;
so the agenda must have the first one first (`Orderly`). For termination tasks have a `Task.weight`:
more than that of what they leave to do, unless something new is settled.
-/

namespace HeapFlow

open List

/-- The classes whose initialization a method asks for. -/
theorem Program.mem_initializations_iff {p : Program} {m : MethodId} {t : Task} :
    t ∈ p.initializations m ↔
      ∃ d, p.method? m = some d ∧ ∃ c ∈ p.activeUses d, Task.initClass c = t := by
  unfold initializations
  split <;> simp [*]

theorem mem_between {first last t : Task} {ts : List Task} :
    t ∈ first :: ts ++ [last] ↔ t = first ∨ t ∈ ts ∨ t = last := by
  simp

theorem mem_triple {a b c t : Task} : t ∈ [a, b, c] ↔ t = a ∨ t = b ∨ t = c := by
  simp

/-- The facts that an observer is to bring when it is told of an event. -/
inductive Observer.Brings (g : Setup) (r : Registry) : Event → Observer → Fact → Prop where
  | entry {b : Bool} {f : Fact} (hf : EntryFact g b f) : Brings g r .start (.entryPoints b) f
  | init {m : MethodId} {d : Method} {c : String} (hd : g.program.method? m = some d)
      (hc : c ∈ g.program.activeUses d) (hk : (g.program.class? c).isSome = true) :
      Brings g r (.method m) .classInit (.initialized c)
  | ask {m : CMethodId} {M : At MethodId} (hM : r.MethodIs m M)
      (h : g.program.returnsThread M.item = true) : Brings g r (.methodIn m) .threads (.asks M.ctx)
  | start {p : PtrId} {delta : Objects} {C : Ctx} {o : CObjId} {O : At Obj}
      (hp : r.PtrIs p (.var C (.declared threadStart 0))) (ho : o ∈ delta) (hO : r.ObjIs o O)
      (h : g.program.hasThreads = true) : Brings g r (.grown p delta) .threads (.started O)
  | run {p : PtrId} {delta : Objects} {C : Ctx} {o : CObjId} {O : At Obj} {n : Method} {f : Fact}
      (hp : r.PtrIs p (.var C (.declared threadStart 0))) (ho : o ∈ delta) (hO : r.ObjIs o O)
      (h : g.program.hasThreads = true) (hn : g.program.runMethod? O.item.type = some n)
      (hf : BindFact g .other ⟨C, .threadRun⟩ O n.id f) : Brings g r (.grown p delta) .threads f
  | copy {p : PtrId} {delta : Objects} {C : Ctx} {v : Var} {o : CObjId} {O : At Obj} {f : Fact}
      (hp : r.PtrIs p (.var C v)) (ho : o ∈ delta) (hO : r.ObjIs o O) (hf : CopyFact g C O v f) :
      Brings g r (.grown p delta) .arrayCopy f

/-- **The facts that a task owes.** -/
inductive Task.Owes (g : Setup) (r : Registry) : Task → Fact → Prop where
  | notify {e : Event} {os : List Observer} {o : Observer} {f : Fact} (ho : o ∈ os)
      (hf : o.Brings g r e f) : Owes g r (.notify e os) f
  | entry (m : MethodId) : Owes g r (.entry m) (.reached ⟨[], m⟩)
  | arguments {m : MethodId} {f : Fact} (hf : ArgFact g m f) : Owes g r (.arguments m) f
  | reach {m : CMethodId} {M : At MethodId} (hM : r.MethodIs m M) : Owes g r (.reach m) (.reached M)
  | enact {m : CMethodId} {M : At MethodId} {d : Method} {i : Nat} {st : Stmt} {f : Fact}
      (hM : r.MethodIs m M) (hd : g.program.method? M.item = some d) (hst : d.body[i]? = some st)
      (hf : StmtFact g M d i st f) : Owes g r (.enact m i) f
  | initClass {c : String} (hk : (g.program.class? c).isSome = true) :
      Owes g r (.initClass c) (.initialized c)
  | clinit {c : String} {k : Class} {d : Method} (hc : g.program.class? c = some k)
      (hd : k.clinit? = some d) : Owes g r (.clinit c) (.reached ⟨[], d.id⟩)
  | receive {c : CtxId} {site : CallSite} {l : List CObjId} {C : Ctx} {o : CObjId} {O : At Obj}
      {k : Call} {n : Method} {f : Fact} (hC : r.CtxIs c C) (ho : o ∈ l) (hO : r.ObjIs o O)
      (hk : g.program.call? site = some k) (hn : g.program.callee? k O.item.type = some n)
      (hf : BindFact g k.kind ⟨C, site⟩ O n.id f) : Owes g r (.receive c site l) f
  | dispatch {i : CSiteId} {S : At CallSite} {o : CObjId} {O : At Obj} {k : Call} {n : Method}
      {f : Fact} (hS : r.SiteIs i S) (hO : r.ObjIs o O) (hk : g.program.call? S.item = some k)
      (hn : g.program.callee? k O.item.type = some n) (hf : BindFact g k.kind S O n.id f) :
      Owes g r (.dispatch i o) f
  | wire {e : CCallEdge} {E : CallEdge (At CallSite) (At MethodId)} {f : Fact} (hE : r.EdgeIs e E)
      (hf : WireFact g E f) : Owes g r (.wire e) f

/-- The facts that an agenda owes. -/
def Owed (g : Setup) (r : Registry) (ts : List Task) (f : Fact) : Prop :=
  ∃ t ∈ ts, t.Owes g r f

theorem Owed.append {g : Setup} {r : Registry} {ts : List Task} {f : Fact} (us : List Task)
    (h : Owed g r ts f) : Owed g r (ts ++ us) f := by
  obtain ⟨t, ht, hf⟩ := h
  exact ⟨t, mem_append_left _ ht, hf⟩

/-! ### Meaning something -/

/-- The numbers of an event mean something, as far as observers look at them. -/
def Event.Means (r : Registry) : Event → Prop
  | .methodIn m => ∃ M, r.MethodIs m M
  | .grown p delta => (∃ C v, r.PtrIs p (.var C v)) ∧ ∀ o ∈ delta, ∃ O, r.ObjIs o O
  | _ => True

/-- The calls made at a call site take a receiver. -/
def Program.TakesReceiver (p : Program) (site : CallSite) : Prop :=
  ∀ k, p.call? site = some k → k.kind = .virtual ∨ k.kind = .interface ∨ k.kind = .special

/-- The numbers of a task mean something, and it can be carried out. -/
def Task.Means (g : Setup) (r : Registry) : Task → Prop
  | .notify e os => os ⊆ g.observers ∧ e.Means r
  | .reach m => ∃ M, r.MethodIs m M
  | .enact m _ => ∃ M, r.MethodIs m M
  | .receive c site l =>
      (∃ C, r.CtxIs c C) ∧ (∀ o ∈ l, ∃ O, r.ObjIs o O) ∧ g.program.TakesReceiver site
  | .dispatch i o => (∃ S, r.SiteIs i S ∧ g.program.TakesReceiver S.item) ∧ ∃ O, r.ObjIs o O
  | .wire e => ∃ E, r.EdgeIs e E ∧ E.Fits g.program
  | .op _ => False
  | .answer _ => False
  | _ => True

/-- A task can be carried out, and what it owes is in a set of facts. -/
structure Task.Supported (g : Setup) (D : Fact → Prop) (r : Registry) (t : Task) : Prop where
  means : t.Means g r
  owes : ∀ f, t.Owes g r f → D f

/-- News is supported if the observers may bring what they are to bring. -/
theorem Task.supported_notify {g : Setup} {D : Fact → Prop} {r : Registry} {e : Event}
    (he : e.Means r) (h : ∀ o ∈ g.observers, ∀ f, o.Brings g r e f → D f) :
    (Task.notify e g.observers).Supported g D r := by
  refine ⟨⟨List.Subset.refl _, he⟩, fun f hf => ?_⟩
  cases hf with
  | notify ho hf => exact h _ ho f hf

theorem Task.supported_reach {g : Setup} {D : Fact → Prop} {r : Registry} {i : CMethodId}
    {M : At MethodId} (hi : r.MethodIs i M) (h : D (.reached M)) :
    (Task.reach i).Supported g D r := by
  refine ⟨⟨_, hi⟩, fun f hf => ?_⟩
  cases hf with
  | reach hM => exact hi.unique hM ▸ h

section Transport

variable {g : Setup} {r r' : Registry} (hle : r ≤ r') {e : Event} {o : Observer} {t : Task}
  {f : Fact}

include hle

theorem Observer.Brings.mono (h : o.Brings g r e f) : o.Brings g r' e f := by
  cases h with
  | entry hf => exact .entry hf
  | init hd hc hk => exact .init hd hc hk
  | ask hM h => exact .ask (hM.mono hle) h
  | start hp ho hO h => exact .start (hp.mono hle) ho (hO.mono hle) h
  | run hp ho hO h hn hf => exact .run (hp.mono hle) ho (hO.mono hle) h hn hf
  | copy hp ho hO hf => exact .copy (hp.mono hle) ho (hO.mono hle) hf

/-- What a task owes it owes under more numbers. -/
theorem Task.Owes.mono (h : t.Owes g r f) : t.Owes g r' f := by
  cases h with
  | notify ho hf => exact .notify ho (hf.mono hle)
  | entry m => exact .entry m
  | arguments hf => exact .arguments hf
  | reach hM => exact .reach (hM.mono hle)
  | enact hM hd hst hf => exact .enact (hM.mono hle) hd hst hf
  | initClass hk => exact .initClass hk
  | clinit hc hd => exact .clinit hc hd
  | receive hC ho hO hk hn hf => exact .receive (hC.mono hle) ho (hO.mono hle) hk hn hf
  | dispatch hS hO hk hn hf => exact .dispatch (hS.mono hle) (hO.mono hle) hk hn hf
  | wire hE hf => exact .wire (hE.mono hle) hf

theorem Event.Means.mono (h : e.Means r) : e.Means r' := by
  cases e with
  | methodIn m =>
    obtain ⟨M, hM⟩ := h
    exact ⟨M, hM.mono hle⟩
  | grown p delta =>
    obtain ⟨⟨C, v, hp⟩, hO⟩ := h
    refine ⟨⟨C, v, hp.mono hle⟩, fun o ho => ?_⟩
    obtain ⟨O, hO⟩ := hO o ho
    exact ⟨O, hO.mono hle⟩
  | _ => exact trivial

theorem Task.Means.mono (h : t.Means g r) : t.Means g r' := by
  cases t with
  | notify e os => exact ⟨h.1, h.2.mono hle⟩
  | reach | enact =>
    obtain ⟨M, hM⟩ := h
    exact ⟨M, hM.mono hle⟩
  | receive c site l =>
    obtain ⟨⟨C, hC⟩, hO, hk⟩ := h
    refine ⟨⟨C, hC.mono hle⟩, fun o ho => ?_, hk⟩
    obtain ⟨O, hO⟩ := hO o ho
    exact ⟨O, hO.mono hle⟩
  | dispatch i o =>
    obtain ⟨⟨S, hS, hk⟩, O, hO⟩ := h
    exact ⟨⟨S, hS.mono hle, hk⟩, O, hO.mono hle⟩
  | wire e =>
    obtain ⟨E, hE, hfits⟩ := h
    exact ⟨E, hE.mono hle, hfits⟩
  | op | answer => exact h.elim
  | _ => exact trivial

theorem Observer.Brings.back (hm : e.Means r) (h : o.Brings g r' e f) : o.Brings g r e f := by
  cases h with
  | entry hf => exact .entry hf
  | init hd hc hk => exact .init hd hc hk
  | ask hM h =>
    obtain ⟨M', hM'⟩ := hm
    cases (hM'.mono hle).unique hM
    exact .ask hM' h
  | start hp ho hO h =>
    obtain ⟨⟨C', v', hp'⟩, hO'⟩ := hm
    obtain ⟨O', hO'⟩ := hO' _ ho
    cases (hp'.mono hle).unique hp
    cases (hO'.mono hle).unique hO
    exact .start hp' ho hO' h
  | run hp ho hO h hn hf =>
    obtain ⟨⟨C', v', hp'⟩, hO'⟩ := hm
    obtain ⟨O', hO'⟩ := hO' _ ho
    cases (hp'.mono hle).unique hp
    cases (hO'.mono hle).unique hO
    exact .run hp' ho hO' h hn hf
  | copy hp ho hO hf =>
    obtain ⟨⟨C', v', hp'⟩, hO'⟩ := hm
    obtain ⟨O', hO'⟩ := hO' _ ho
    cases (hp'.mono hle).unique hp
    cases (hO'.mono hle).unique hO
    exact .copy hp' ho hO' hf

/-- It owes nothing more under more numbers, if its own mean something. -/
theorem Task.Owes.back (hm : t.Means g r) (h : t.Owes g r' f) : t.Owes g r f := by
  cases h with
  | notify ho hf => exact .notify ho (hf.back hle hm.2)
  | entry m => exact .entry m
  | arguments hf => exact .arguments hf
  | reach hM =>
    obtain ⟨M', hM'⟩ := hm
    cases (hM'.mono hle).unique hM
    exact .reach hM'
  | enact hM hd hst hf =>
    obtain ⟨M', hM'⟩ := hm
    cases (hM'.mono hle).unique hM
    exact .enact hM' hd hst hf
  | initClass hk => exact .initClass hk
  | clinit hc hd => exact .clinit hc hd
  | receive hC ho hO hk hn hf =>
    obtain ⟨⟨C', hC'⟩, hO', -⟩ := hm
    obtain ⟨O', hO'⟩ := hO' _ ho
    cases (hC'.mono hle).unique hC
    cases (hO'.mono hle).unique hO
    exact .receive hC' ho hO' hk hn hf
  | dispatch hS hO hk hn hf =>
    obtain ⟨⟨S', hS', -⟩, O', hO'⟩ := hm
    cases (hS'.mono hle).unique hS
    cases (hO'.mono hle).unique hO
    exact .dispatch hS' hO' hk hn hf
  | wire hE hf =>
    obtain ⟨E', hE', -⟩ := hm
    cases (hE'.mono hle).unique hE
    exact .wire hE' hf

theorem Task.Supported.mono {D : Fact → Prop} (h : t.Supported g D r) : t.Supported g D r' :=
  ⟨h.means.mono hle, fun f hf => h.owes f (hf.back hle h.means)⟩

end Transport

/-- An entry method can be given its arguments after the tasks `pre`: it is the first one of those
that share them, or the first one has been given them, or is among these tasks. -/
def Program.MayGive (p : Program) (r : Registry) (pre : List Task) (m : MethodId) : Prop :=
  ∀ t, p.argumentsType? m = some t →
    ∃ n, p.argumentsOwner? t = some n ∧ (m = n ∨ r.Provides t n ∨ .arguments n ∈ pre)

/-- **Arguments are given in order**: first to the entry method that counts as having made them. -/
def Orderly (g : Setup) (r : Registry) (ts : List Task) : Prop :=
  ∀ pre m post, ts = pre ++ .arguments m :: post → g.program.MayGive r pre m

section Order

variable {g : Setup} {r r' : Registry} {ts us : List Task}

theorem Orderly.of_none (h : ∀ m, .arguments m ∉ ts) : Orderly g r ts := by
  rintro pre m post rfl
  exact absurd (by simp) (h m)

theorem Orderly.append (h : Orderly g r ts) (h' : Orderly g r us) : Orderly g r (ts ++ us) := by
  intro pre m post heq
  rcases append_eq_append_iff.mp heq with ⟨l, rfl, hl⟩ | ⟨l, hl, hpost⟩
  · intro t ht
    obtain ⟨n, hn, hmn⟩ := h' l m post hl t ht
    exact ⟨n, hn, hmn.imp_right (.imp_right (mem_append_right _))⟩
  · cases l with
    | nil =>
      intro t ht
      obtain ⟨n, hn, hmn⟩ := h' [] m post hpost.symm t ht
      exact ⟨n, hn, hmn.imp_right (.imp_right fun h => absurd h not_mem_nil)⟩
    | cons x l =>
      cases hpost
      exact h pre m l hl

/-- When a task is done, the rest is in order. -/
theorem Orderly.tail {t : Task} (h : Orderly g r (t :: ts)) (hle : r ≤ r')
    (hdone : ∀ m, t = .arguments m → r'.Supplies g.program m) : Orderly g r' ts := by
  rintro pre m post rfl u hu
  obtain ⟨n, hn, hmn⟩ := h (t :: pre) m post rfl u hu
  refine ⟨n, hn, hmn.imp_right fun hmn => ?_⟩
  rcases hmn with hprov | hmem
  · exact .inl (hprov.mono hle)
  · rcases mem_cons.mp hmem with rfl | hmem
    · refine .inl (hdone n rfl u n ?_ hn)
      simpa using find?_some hn
    · exact .inr hmem

/-- Arguments are first given in order. -/
theorem orderly_arguments (r : Registry) :
    Orderly g r ((g.program.entries.filter g.program.takesArguments).map .arguments) := by
  intro pre m post heq t ht
  obtain ⟨l, l', hl, rfl, hl'⟩ := map_eq_append_iff.mp heq
  obtain ⟨m', l'', rfl, hm, -⟩ := map_eq_cons_iff.mp hl'
  cases hm
  unfold Program.argumentsOwner?
  rw [hl, find?_append]
  -- the first one that takes such arguments is this one, unless there is one before it
  cases hfind : l.find? fun n => g.program.argumentsType? n = some t with
  | some n =>
    exact ⟨n, rfl, .inr (.inr (mem_map.mpr ⟨n, mem_of_find?_eq_some hfind, rfl⟩))⟩
  | none => exact ⟨m, by simp [ht], .inl rfl⟩

end Order

/-- The weight of what an observer leaves to do when it is told of an event, with the call edges
that it lets wait. -/
def Observer.weight (g : Setup) (e : Event) : Observer → Nat
  | .entryPoints b => match e with
    | .start => 2 * (g.program.entries ++ (if b then g.program.implicitEntries else [])).length +
        (g.program.entries.filter g.program.takesArguments).length
    | _ => 0
  | .classInit => match e with
    | .method m => (g.program.initializations m).length
    | _ => 0
  | .threads => match e with
    | .grown _ delta => delta.toList.length
    | _ => 0
  | _ => 0

/-- **The weight of a task**: more than what it leaves to do and the call edges that it lets wait,
unless it settles something new. -/
def Task.weight (g : Setup) : Task → Nat
  | .notify e os => (os.map fun o => o.weight g e + 1).sum + 1
  | .entry _ => 2
  | .enact _ _ => g.observers.length + 3
  | .clinit _ => 2
  | .receive _ _ l => l.length * (g.observers.length + 3) + 1
  | .dispatch _ _ => g.observers.length + 3
  | .wire _ => g.observers.length + 2
  | .finish => g.observers.length + 2
  | _ => 1

def agendaWeight (g : Setup) (ts : List Task) : Nat :=
  (ts.map (Task.weight g)).sum

/-- The number of observers that are still to be told of a new method. -/
def Task.announcing : Task → Nat
  | .notify (.method _) os => os.length
  | _ => 0

/-- The number of times that an observer is still to be told of a new method. -/
def announcements (ts : List Task) : Nat :=
  (ts.map Task.announcing).sum

section Weights

variable {g : Setup}

@[simp] theorem agendaWeight_nil : agendaWeight g [] = 0 := rfl

variable {ts us : List Task}

@[simp] theorem agendaWeight_cons {t : Task} :
    agendaWeight g (t :: ts) = t.weight g + agendaWeight g ts := rfl

@[simp] theorem agendaWeight_append :
    agendaWeight g (ts ++ us) = agendaWeight g ts + agendaWeight g us := by
  simp [agendaWeight]

/-- Tasks of the same weight. -/
theorem agendaWeight_map {α : Type} {f : α → Task} {k : Nat} (h : ∀ x, (f x).weight g = k)
    (l : List α) : agendaWeight g (l.map f) = l.length * k := by
  induction l with
  | nil => simp
  | cons x l ih =>
    rw [map_cons, agendaWeight_cons, h, ih, length_cons, Nat.succ_mul, Nat.add_comm]

@[simp] theorem announcements_nil : announcements [] = 0 := rfl

@[simp] theorem announcements_cons {t : Task} :
    announcements (t :: ts) = t.announcing + announcements ts := rfl

@[simp] theorem announcements_append :
    announcements (ts ++ us) = announcements ts + announcements us := by
  simp [announcements]

theorem announcements_eq_zero (h : ∀ t ∈ ts, t.announcing = 0) : announcements ts = 0 := by
  induction ts with
  | nil => rfl
  | cons t ts ih =>
    rw [announcements_cons, h t (.head _), ih fun t ht => h t (.tail _ ht)]

theorem weight_notify_idle {e : Event} (h : ∀ o : Observer, o.weight g e = 0)
    (os : List Observer) : (Task.notify e os).weight g = os.length + 1 := by
  simp [Task.weight, h]

end Weights

end HeapFlow
