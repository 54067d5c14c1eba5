import HeapFlow.Collection.Table
import HeapFlow.Heap

/-!
# Contexts

A context is a finite sequence of elements – call sites, objects, types – that tells apart several
instances of one method or object. Contexts are numbered as they turn up; the empty context has
number zero.

A context with elements is kept as the number of the context without its youngest element, that
element, and its length. `Contexts.elems` walks back to the empty context and gathers the elements.

Contexts are kept short by dropping their oldest elements: `Contexts.append` and `Contexts.last`
keep a given number of the youngest. A limit below zero counts as zero.
-/

namespace HeapFlow

abbrev CtxId := Nat

inductive Elem where
  | site (s : CallSite)
  | obj (o : ObjId)
  | type (t : Ty)
  | word (s : String)
  | number (n : Int)
deriving DecidableEq, Repr, Inhabited

def Elem.text (h : Heap) : Elem → String
  | site s => s.label
  | obj o => match h.get? o with
    | some x => x.label
    | none => ""
  | type t => t.name
  | word s => s
  | number n => toString n

/-- A context with elements: what stands before its youngest element, and that element. -/
structure CtxStep where
  before : CtxId
  elem : Elem
deriving DecidableEq, Repr

/-- The length of a context, where the lengths of all but the empty one are listed. -/
def lengthIn (lengths : Array Nat) : CtxId → Nat
  | 0 => 0
  | i + 1 => lengths.getD i 0

/-- **The contexts seen so far.** -/
structure Contexts where
  /-- The contexts with elements; the one at place `i` has number `i + 1`. -/
  steps : Table CtxStep
  lengths : Array Nat
  /-- Every context with elements has a length. -/
  size_lengths : lengths.size = steps.size
  /-- A context is younger than the one it extends, and longer by one. -/
  linked : ∀ {i s}, steps.get? i = some s →
    s.before ≤ i ∧ lengthIn lengths (i + 1) = lengthIn lengths s.before + 1

namespace Contexts

def emptyCtx : CtxId := 0

/-- Only the empty context has been seen. -/
def start : Contexts where
  steps := Table.empty
  lengths := #[]
  size_lengths := rfl
  linked h := by simp at h

instance : Inhabited Contexts := ⟨start⟩

def size (t : Contexts) : Nat :=
  t.steps.size + 1

def length (t : Contexts) (c : CtxId) : Nat :=
  lengthIn t.lengths c

def step? (t : Contexts) : CtxId → Option CtxStep
  | 0 => none
  | i + 1 => t.steps.get? i

/-- Gathers the `n` youngest elements of a context in front of others. -/
def gather (t : Contexts) : (n : Nat) → CtxId → List Elem → List Elem
  | 0, _, es => es
  | n + 1, c, es => match t.step? c with
    | some s => t.gather n s.before (s.elem :: es)
    | none => es

def elems (t : Contexts) (c : CtxId) : List Elem :=
  t.gather (t.length c) c []

/-- A context that is new is added behind the others. -/
def push (t : Contexts) (s : CtxStep) (h : t.steps.find? s = none) (hs : s.before < t.size) :
    Contexts where
  steps := t.steps.push s h
  lengths := t.lengths.push (t.length s.before + 1)
  size_lengths := by rw [Table.size_push, Array.size_push, t.size_lengths]
  linked := by
    have hold : ∀ c, c < t.size →
        lengthIn (t.lengths.push (t.length s.before + 1)) c = t.length c := by
      intro c hc
      cases c with
      | zero => rfl
      | succ i =>
        have hi : i < t.lengths.size := t.size_lengths ▸ Nat.lt_of_succ_lt_succ hc
        simp [lengthIn, length, Array.getElem?_push, Nat.ne_of_lt hi]
    intro i x hx
    rw [Table.get?_push] at hx
    split at hx
    · rename_i hi
      cases hx
      refine ⟨hi ▸ Nat.le_of_lt_succ hs, ?_⟩
      rw [hold _ hs, hi, ← t.size_lengths]
      simp [lengthIn]
    · rename_i hi
      obtain ⟨hbefore, hlength⟩ := t.linked hx
      have hlt : i < t.steps.size := (Array.getElem?_eq_some_iff.1 hx).1
      have hx : x.before < t.size := Nat.lt_succ_of_le (Nat.le_trans hbefore (Nat.le_of_lt hlt))
      rw [hold (i + 1) (Nat.succ_lt_succ hlt), hold x.before hx]
      exact ⟨hbefore, hlength⟩

/-- The context with one more element. Nothing follows a context that has not been seen. -/
def child (t : Contexts) (c : CtxId) (e : Elem) : CtxId × Contexts :=
  if hc : c < t.size then
    match h : t.steps.find? ⟨c, e⟩ with
    | some i => (i + 1, t)
    | none => (t.size, t.push ⟨c, e⟩ h hc)
  else (emptyCtx, t)

def extend (t : Contexts) (c : CtxId) : List Elem → CtxId × Contexts
  | [] => (c, t)
  | e :: es => let (c, t) := t.child c e; t.extend c es

def make (t : Contexts) (es : List Elem) : CtxId × Contexts :=
  t.extend emptyCtx es

/-- The context of the `k` youngest elements of `c` followed by `e`. -/
def append (t : Contexts) (c : CtxId) (e : Elem) (k : Int) : CtxId × Contexts :=
  if k ≤ 0 then (emptyCtx, t)
  else if t.length c < k then t.child c e
  else
    let es := t.elems c
    t.make (es.drop (es.length - k.toNat + 1) ++ [e])

/-- The context of the `k` youngest elements of `c`. -/
def last (t : Contexts) (c : CtxId) (k : Int) : CtxId × Contexts :=
  if k ≤ 0 then (emptyCtx, t)
  else if t.length c ≤ k then (c, t)
  else
    let es := t.elems c
    t.make (es.drop (es.length - k.toNat))

def text (t : Contexts) (h : Heap) (c : CtxId) : String :=
  "[" ++ ", ".intercalate ((t.elems c).map (Elem.text h)) ++ "]"

end Contexts

end HeapFlow
