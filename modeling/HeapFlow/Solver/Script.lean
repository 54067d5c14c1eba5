import HeapFlow.WorkList

/-!
# Scripts

An observer of an analysis may be given a script: operations to be carried out when it is told of an
event. The operations are those that any observer may use to add facts – objects for a pointer, flow
edges, call edges, reachable methods, entry methods, initialized classes – and a few that only look.

What an operation speaks of is *described* rather than given by number, because it need not have
turned up yet; it is entered into the registry when the operation is carried out.
-/

namespace HeapFlow

structure ObjectSpec where
  ctx : List Elem := []
  request : HeapRequest
deriving DecidableEq, Repr, Inhabited

inductive PointerSpec where
  | var (ctx : List Elem) (v : Var)
  | field (base : ObjectSpec) (f : FieldId)
  | elems (array : ObjectSpec)
  | static (f : FieldId)
deriving DecidableEq, Repr, Inhabited

inductive TransferSpec where
  | all
  | ofType (t : Ty)
  | least
  | nothing
  | always (o : ObjectSpec)
  | custom (key : Nat)
deriving DecidableEq, Repr, Inhabited

structure MethodSpec where
  ctx : List Elem := []
  method : MethodId
deriving DecidableEq, Repr, Inhabited

inductive Op where
  | addObjects (p : PointerSpec) (objs : List ObjectSpec)
  | addFlow (src dst : PointerSpec) (kind : FlowKind) (t : TransferSpec)
  /-- Adds a call edge from the call statement at a position of the caller. -/
  | addCall (kind : CallKind) (caller : MethodSpec) (index : Nat) (callee : MethodSpec)
  | reach (m : MethodSpec)
  | entry (m : MethodId)
  | init (cls : String)
  /-- Shows the objects of a pointer. -/
  | look (p : PointerSpec)
  /-- Shows the policy of the finished result. -/
  | result
  /-- Starts the analysis, which has started already. -/
  | solve
  | checkMethod (m : MethodSpec)
  /-- Tells the checker that a variable has grown. -/
  | checkPointer (p : PointerSpec)
deriving DecidableEq, Repr, Inhabited

def Op.name : Op → String
  | addObjects .. => "add_pts"
  | addFlow .. => "add_edge"
  | addCall .. => "call_edge"
  | reach .. => "cs_method"
  | entry .. => "entry"
  | init .. => "init"
  | look .. => "pts"
  | result => "result"
  | solve => "solve"
  | checkMethod .. => "check_method"
  | checkPointer .. => "check_pts"

/-- A script: to the text of an event, the operations carried out the first time it happens. -/
abbrev Script := List (String × List Op)

inductive OpAnswer where
  /-- That it is done; the sizes of the analysis are told along. -/
  | done (name : String)
  | text (s : String)
  | texts (l : List String)
deriving DecidableEq, Repr, Inhabited

end HeapFlow
