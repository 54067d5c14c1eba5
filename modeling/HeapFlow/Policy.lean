import HeapFlow.Registry.Basic
import HeapFlow.Text.Decimal
import HeapFlow.Text.CharClass

/-!
# Context policies

A policy says in which context a callee runs and in which context an object is made. The contexts of
a policy with limit `k` have at most `k` elements, those of objects at most `k - 1`:

| policy | the callee's context |
|---|---|
| `insensitive` | empty |
| `call k` | the caller's context and the call site |
| `obj k` | the receiver's context and the receiver; without receiver, the caller's context |
| `type k` | as `obj k`, with the class that allocates the receiver in place of the receiver |
-/

namespace HeapFlow

/-- How contexts are chosen. -/
inductive Policy where
  | insensitive
  /-- By the last `k` call sites. -/
  | call (k : Nat)
  /-- By the last `k` receiver objects. -/
  | obj (k : Nat)
  /-- By the classes that allocate the last `k` receiver objects. -/
  | type (k : Nat)
deriving DecidableEq, Repr, Inhabited

/-- Why a text names no policy. -/
inductive PolicyError where
  | unknown (name : String)
  /-- The limit is not a positive number. -/
  | limit (name : String)
deriving DecidableEq, Repr

def PolicyError.message : PolicyError → String
  | unknown n => "unknown context selector " ++ Text.quote n
  | limit n => "unknown context selector " ++ Text.quote n ++ ": limit must be a positive integer"

namespace Policy

def name : Policy → String
  | insensitive => "ci"
  | call k => toString k ++ "-call"
  | obj k => toString k ++ "-obj"
  | type k => toString k ++ "-type"

def ofKind? (k : Nat) : String → Option Policy
  | "call" => some (call k)
  | "cfa" => some (call k)
  | "obj" => some (obj k)
  | "type" => some (type k)
  | _ => none

/-- The policy with a name: `ci`, or a positive number, a hyphen and a kind. -/
def parse (name : String) : Except PolicyError Policy :=
  if name = "ci" then .ok insensitive
  else match Text.cutAt? '-' name.toList with
    | none => .error (.unknown name)
    | some (digits, kind) => match Text.readInt64 digits with
      | .error _ => .error (.limit name)
      | .ok k =>
        if k < 1 then .error (.limit name)
        else match ofKind? k.toNat (String.ofList kind) with
          | some p => .ok p
          | none => .error (.unknown name)

def limit : Policy → Nat
  | insensitive => 0
  | call k => k
  | obj k => k
  | type k => k

/-! ### Choosing contexts -/

def staticContext (p : Policy) (r : Registry) (site : CSiteId) : CtxId × Registry :=
  match p with
  | insensitive => (Contexts.emptyCtx, r)
  | call k => r.append (r.siteContext site) (.site (r.callSite site)) k
  | obj _ => (r.siteContext site, r)
  | type _ => (r.siteContext site, r)

def calleeContext (p : Policy) (r : Registry) (site : CSiteId) (recv : CObjId) : CtxId × Registry :=
  match p with
  | insensitive => (Contexts.emptyCtx, r)
  | call k => r.append (r.siteContext site) (.site (r.callSite site)) k
  | obj k => r.append (r.objContext recv) (.obj (r.objId recv)) k
  | type k =>
    let made := match r.obj? recv with
      | some o => o.containerType
      | none => .null
    r.append (r.objContext recv) (.type made) k

def heapContext (p : Policy) (r : Registry) (m : CMethodId) : CtxId × Registry :=
  match p with
  | insensitive => (Contexts.emptyCtx, r)
  | call k => r.last (r.methodContext m) (k - 1)
  | obj k => r.last (r.methodContext m) (k - 1)
  | type k => r.last (r.methodContext m) (k - 1)

end Policy

end HeapFlow
