import Mathlib.Logic.Relation
import HeapFlow.Proofs.Meaning
import HeapFlow.Solver.Machine

/-!
# Observers that intervene

The observers of the library react in fixed ways. Others may do anything that the interface of the
analysis allows, at any event, as often as they like. An observer that is being told of an event is
the first one of a `notify` task at the head of the agenda; while it stands there, anything it may
do may happen (`Machine.Moves`). What it calls for at once is done before it gets its next turn. It
names things by numbers that have been given out (`Mutation.Known`).
-/

namespace HeapFlow

namespace Registry

def HasObject (r : Registry) (o : CObjId) : Prop :=
  ∃ x, r.obj? o = some x

def HasPointer (r : Registry) (p : PtrId) : Prop :=
  ∃ x, r.pointers.get? p = some x

def HasMethod (r : Registry) (m : CMethodId) : Prop :=
  ∃ k, r.methods.get? m = some k

variable {r r' : Registry} (hle : r ≤ r')

include hle

theorem obj?_of_le {o : CObjId} {x : Obj} (h : r.obj? o = some x) : r'.obj? o = some x := by
  obtain ⟨k, hk, hx⟩ := Option.bind_eq_some_iff.mp h
  exact Option.bind_eq_some_iff.mpr ⟨k, hle.objects o k hk, hle.heap _ _ hx⟩

/-- Numbers stay given out. -/
theorem HasObject.mono {o : CObjId} (h : r.HasObject o) : r'.HasObject o := by
  obtain ⟨x, hx⟩ := h
  exact ⟨x, obj?_of_le hle hx⟩

theorem HasPointer.mono {p : PtrId} (h : r.HasPointer p) : r'.HasPointer p := by
  obtain ⟨x, hx⟩ := h
  exact ⟨x, hle.pointers p x hx⟩

theorem HasMethod.mono {m : CMethodId} (h : r.HasMethod m) : r'.HasMethod m := by
  obtain ⟨k, hk⟩ := h
  exact ⟨k, hle.methods m k hk⟩

/-- They keep their meaning. -/
theorem HasObject.objType_eq {o : CObjId} (h : r.HasObject o) : r'.objType o = r.objType o := by
  obtain ⟨x, hx⟩ := h
  rw [objType, objType, hx, obj?_of_le hle hx]

theorem HasPointer.get?_eq {p : PtrId} (h : r.HasPointer p) :
    r'.pointers.get? p = r.pointers.get? p := by
  obtain ⟨x, hx⟩ := h
  rw [hx, hle.pointers p x hx]

theorem HasMethod.methodId_eq {m : CMethodId} (h : r.HasMethod m) :
    r'.methodId m = r.methodId m := by
  obtain ⟨k, hk⟩ := h
  rw [methodId, methodId, hk, hle.methods m k hk]

end Registry

/-- A change that an observer may make. -/
inductive Mutation where
  | addObjects (p : PtrId) (t : Objects)
  | addFlow (src dst : PtrId) (kind : FlowKind) (t : Transfer)
  | addCall (e : CCallEdge)
  | reach (m : CMethodId)
  | entry (m : MethodId)
  | init (cls : String)

namespace Mutation

/-- The numbers of a change have been given out. -/
def Known (r : Registry) : Mutation → Prop
  | addObjects p t => r.HasPointer p ∧ ∀ o ∈ t, r.HasObject o
  | addFlow _ dst _ t => r.HasPointer dst ∧ ∀ o, t = .always o → r.HasObject o
  | addCall e => r.HasMethod e.callee
  | reach m => r.HasMethod m
  | entry _ => True
  | init _ => True

/-- What a change does, and what it leaves to do at once. -/
def act (g : Setup) : Mutation → Act (List Task)
  | addObjects p t => do
    Act.addObjects p t
    pure []
  | addFlow src dst kind t => do
    Act.addFlow g src dst kind t
    pure []
  | addCall e => do
    Act.addCall e
    pure []
  | reach m => pure [.reach m]
  | entry m => Act.entry m
  | init c => pure [.initClass c]

end Mutation

namespace Machine

/-- An observer is being told of an event. -/
def Telling (m : Machine) : Prop :=
  ∃ e o os rest, m.agenda = .notify e (o :: os) :: rest

/-- What an observer may do while it is being told. -/
inductive Intervenes (g : Setup) (m : Machine) : Machine → Prop where
  | consult {r : Registry} (h : m.Telling) (hr : m.state.registry ≤ r) :
      Intervenes g m { m with state := { m.state with registry := r } }
  | mutate {x : Mutation} {ts : List Task} {s : State} (h : m.Telling)
      (hx : x.Known m.state.registry) (hok : x.act g m.state = .ok ts s) :
      Intervenes g m { m with state := s, agenda := ts ++ m.agenda }

/-- What may happen next: the first task of the agenda is performed, or the observer that is being
told intervenes. -/
inductive Moves (g : Setup) (m : Machine) : Machine → Prop where
  | step : Moves g m (m.step g)
  | intervene {m' : Machine} (h : m.Intervenes g m') : Moves g m m'

/-- **A run with any observers leads from one machine to another.** -/
def Leads (g : Setup) : Machine → Machine → Prop :=
  Relation.ReflTransGen (Moves g)

end Machine

/-- **A run from the start in which no task fails**, with the tasks that have been performed, the
latest first. -/
inductive Setup.Run (g : Setup) (script : Script) : List Task → Machine → Prop where
  | start : Run g script [] (g.initial script)
  | perform {done : List Task} {m : Machine} {t : Task} {rest ts : List Task} {s : State}
      (h : Run g script done m) (hm : m.agenda = t :: rest)
      (hok : Act.perform g t m.state = .ok ts s) :
      Run g script (t :: done) { m with state := s, agenda := ts ++ rest }
  | intervene {done : List Task} {m m' : Machine} (h : Run g script done m)
      (hm : m.Intervenes g m') : Run g script done m'

/-- A run from the start leads to its machine. -/
theorem Setup.Run.leads {g : Setup} {script : Script} {done : List Task} {m : Machine}
    (h : g.Run script done m) : (g.initial script).Leads g m := by
  induction h with
  | start => exact .refl
  | @perform done m t rest ts s _ hm hok ih =>
    have hstep : m.step g = { m with state := s, agenda := ts ++ rest } := by
      simp only [Machine.step, hm, hok]
    exact ih.tail (hstep ▸ .step)
  | intervene _ hm ih => exact ih.tail (.intervene hm)

end HeapFlow
