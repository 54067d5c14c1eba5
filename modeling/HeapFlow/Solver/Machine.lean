import HeapFlow.Solver.Models
import HeapFlow.Solver.Operations
import HeapFlow.Solver.Body

/-!
# Running an analysis

A run is a machine with an *agenda*, a list of tasks. A step takes the first task off the agenda,
performs it, and puts what it leaves to do in front of the rest; so a task is done with all its
consequences before the next one begins, as if it were a call that returns. The agenda begins with
the news of the start and ends with that of the finish, with the waiting work in between.

A task that fails ends the run, unless an operation of a script is under way: then the rest of that
operation is given up, and the failure is its answer.
-/

namespace HeapFlow

/-- The lists of the result: each thing once, variables and methods in the order in which they
turned up, objects by number. -/
def Snapshot.of (r : Registry) (calls : CallGraph CSiteId CMethodId) : Snapshot where
  vars := (r.pointers.toList.filterMap fun
    | .var _ v => some v
    | _ => none).eraseDups
  objects := (r.objects.toList.map (·.item)).eraseDups.mergeSort
  reachable := (calls.reachable.map r.methodId).eraseDups

namespace Act

variable (g : Setup)

/-- Does the next piece of waiting work, and goes on as long as there is any. -/
def drain : Act (List Task) := do
  let s ← get
  match s.work.poll with
  | none => pure []
  | some (w, rest) =>
    set { s with work := rest }
    let tasks ← match w with
      | .objects p t => deliver g p t
      | .call e => connect e
    pure (tasks ++ [.drain])

def takeSnapshot : Act Unit :=
  modify fun s => { s with snapshot := some (Snapshot.of s.registry s.calls) }

/-- What an observer does when it is told of an event. -/
def react (e : Event) : Observer → Act (List Task)
  | .entryPoints implicit => match e with
    | .start => enter g implicit
    | _ => pure []
  | .classInit => match e with
    | .method m => pure (g.program.initializations m)
    | _ => pure []
  | .threads => match e with
    | .grown p delta => do threadsGrown g p delta; pure []
    | .methodIn m => do threadsReached g m; pure []
    | _ => pure []
  | .arrayCopy => match e with
    | .method m => do copiesReached g m; pure []
    | .grown p delta => do copiesGrown g p delta; pure []
    | _ => pure []
  | .checker => do check g e; pure []
  | .profiler => do count e; pure []
  | .recorder lead scripted => record g lead scripted e

/-- Tells the first observer of an event; the others are told when it has reacted. -/
def notify (e : Event) : List Observer → Act (List Task)
  | [] => pure []
  | o :: os => do pure ((← react g e o) ++ [.notify e os])

/-- Performs a task and returns what it leaves to do. -/
def perform : Task → Act (List Task)
  | .notify e os => notify g e os
  | .entry m => entry m
  | .arguments m => do giveArguments g m; pure []
  | .reach m => reach g m
  | .enact m i => do
    let id := (← get).registry.methodId m
    match g.program.method? id, g.program.stmt? id i with
    | some d, some stmt => enact g m d i stmt
    | _, _ => pure []
  | .initClass c => initClass g c
  | .clinit c => clinit g c
  | .receive ctx site objs => receive ctx site objs
  | .dispatch s o => dispatch g s o
  | .wire e => wire g e
  | .op o => carryOut g o
  | .answer a => do answer a; pure []
  | .drain => drain g
  | .finish => do takeSnapshot; pure [.notify .finish g.observers]

end Act

structure Machine where
  state : State
  agenda : List Task
  failure : Option Failure := none

namespace Machine

/-- What is left of an agenda when the operation under way is given up; none if there is no such
operation. -/
def giveUp : List Task → Option (List Task)
  | [] => none
  | .answer _ :: rest => some rest
  | _ :: rest => giveUp rest

def step (g : Setup) (m : Machine) : Machine :=
  match m.agenda with
  | [] => m
  | t :: rest => match Act.perform g t m.state with
    | .ok tasks s => { m with state := s, agenda := tasks ++ rest }
    | .error e s => match giveUp rest with
      | some rest => { m with state := s.write (.failed e), agenda := rest }
      | none => { state := s, agenda := [], failure := some e }

/-- Performs tasks until there are none, at most `n`. -/
def run (g : Setup) : (n : Nat) → Machine → Machine
  | 0, m => m
  | n + 1, m => if m.agenda.isEmpty then m else run g n (m.step g)

instance : Inhabited Machine :=
  ⟨{ state := {}, agenda := [] }⟩

/-- Performs tasks until there are none. -/
def settle (g : Setup) (m : Machine) : Machine :=
  Id.run (repeatM (fun m => pure (if m.agenda.isEmpty then .inr m else .inl (m.step g))) m)

theorem settle_eq (g : Setup) (m : Machine) :
    m.settle g = if m.agenda.isEmpty then m else (m.step g).settle g := by
  rw [settle, repeatM_eq_of_monadTail]
  by_cases h : m.agenda.isEmpty = true
  · rw [if_pos h]
    simp [repeatM.body, h]
  · rw [if_neg h, settle]
    simp [repeatM.body, h]

end Machine

namespace Setup

def initial (g : Setup) (script : Script) : Machine where
  state := { script := script }
  agenda := [.notify .start g.observers, .drain, .finish]

/-- **Runs an analysis** to its end. -/
def solve (g : Setup) (script : Script) : Machine :=
  (g.initial script).settle g

end Setup

namespace Options

def observers (o : Options) : List Observer :=
  [.entryPoints o.implicitEntries] ++
  (if o.classInit then [.classInit] else []) ++
  (if o.threadStart then [.threads] else []) ++
  (if o.arrayCopy then [.arrayCopy] else [])

/-- The setup of an analysis with further observers behind those that the options ask for. -/
def setup (o : Options) (p : Program) (policy : Policy) (more : List Observer) : Setup where
  program := p
  policy := policy
  merging := o.merging
  onlyApp := o.onlyApp
  observers := o.observers ++ more

end Options

end HeapFlow
