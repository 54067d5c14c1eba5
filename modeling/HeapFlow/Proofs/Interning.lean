import Mathlib.Data.Set.Function
import HeapFlow.Proofs.Altering
import HeapFlow.Proofs.Findings

/-!
# Numbers stand for what was asked for

A registry is only ever changed by asking it for something (`Demand`), so the registries that can
come about are those after a *history* of demands (`Registry.after`). What such a registry holds is
said here in terms of its history alone. Two contexts are the same number exactly if they have the
same elements, of which a context that is cut keeps the youngest, `List.rtake`. Objects, methods and
call sites in contexts and pointers follow one pattern (`Registry.Canonical`), and one argument
covers them (`toList_after`, `canonical_of_table`).
-/

namespace HeapFlow

open Contexts

open Table

/-- What can be asked of a registry. -/
inductive Demand where
  | request (g : Merging) (a : Ask)
  | context (es : List Elem)
  | append (c : CtxId) (e : Elem) (k : Int)
  | last (c : CtxId) (k : Int)
  | object (c : CtxId) (o : ObjId)
  | pointer (x : Pointer)
  | method (c : CtxId) (m : MethodId)
  | site (c : CtxId) (s : CallSite)

namespace Registry

variable (p : Program)

/-- The registry after one demand more. A pointer that does not exist is refused, and then nothing
changes. -/
def meet (r : Registry) : Demand → Registry
  | .request g a => (r.request g a).2
  | .context es => (r.context es).2
  | .append c e k => (r.append c e k).2
  | .last c k => (r.last c k).2
  | .object c o => (r.object c o).2
  | .pointer x => if (r.admits p x).isOk then (r.pointer x).2 else r
  | .method c m => (r.method c m).2
  | .site c s => (r.site c s).2

/-- The registry after a history of demands, youngest first. -/
def after : List Demand → Registry
  | [] => {}
  | d :: history => (after history).meet p d

/-- A demand takes nothing away. -/
theorem le_meet (r : Registry) (d : Demand) : r ≤ r.meet p d := by
  cases d with
  | request g a => exact le_request r g a
  | context es => exact le_context r es
  | append c e k => exact le_append r c e k
  | last c k => exact le_last r c k
  | object c o => exact le_object r c o
  | pointer x =>
    rw [meet]
    split
    · exact le_pointer r x
    · exact le_refl r
  | method c m => exact le_method r c m
  | site c s => exact le_site r c s

theorem le_after (later history : List Demand) : after p history ≤ after p (later ++ history) := by
  induction later with
  | nil => exact le_refl _
  | cons d later ih => exact le_trans ih (le_meet p _ d)

variable {p}

/-- An answer is a context that has been seen, with the given elements. -/
def Yields (a : CtxId × Registry) (es : List Elem) : Prop :=
  a.1 < a.2.contexts.size ∧ a.2.contexts.elems a.1 = es

/-- **The contexts of a registry are interned sequences.** -/
structure InternsContexts (r : Registry) : Prop where
  elems_iff : ∀ {c c'}, c < r.contexts.size → c' < r.contexts.size →
    (r.contexts.elems c = r.contexts.elems c' ↔ c = c')
  length_eq : ∀ {c}, c < r.contexts.size → r.contexts.length c = (r.contexts.elems c).length
  context : ∀ es, Yields (r.context es) es
  append : ∀ {c} e k, c < r.contexts.size →
    Yields (r.append c e k) ((r.contexts.elems c ++ [e]).rtake k.toNat)
  last : ∀ {c} k, c < r.contexts.size → Yields (r.last c k) ((r.contexts.elems c).rtake k.toNat)

/-- The answers to demands for contexts. -/
theorem internsContexts (r : Registry) : r.InternsContexts where
  elems_iff hc hc' := ⟨elems_inj _ hc _ hc', congrArg _⟩
  length_eq hc := (length_elems _ hc).symm
  context es := get?_eq_some_iff.mp (gives_make r.contexts es).get
  append e k hc := get?_eq_some_iff.mp (gives_append (get?_eq_some_iff.mpr ⟨hc, rfl⟩) e k).get
  last k hc := get?_eq_some_iff.mp (gives_last (get?_eq_some_iff.mpr ⟨hc, rfl⟩) k).get

theorem yields_of_le {r r' : Registry} (h : r ≤ r') {c : CtxId} (hc : c < r.contexts.size) :
    Yields (c, r') (r.contexts.elems c) :=
  get?_eq_some_iff.mp (h.contexts c _ (get?_eq_some_iff.mpr ⟨hc, rfl⟩))

end Registry

/-- **Contexts are interned sequences of elements**, after every history of demands, and every
context keeps its elements whatever is asked for later. -/
theorem contexts_interned (p : Program) (history : List Demand) :
    let r := Registry.after p history
    r.InternsContexts ∧ ∀ later c, c < r.contexts.size →
      Registry.Yields (c, Registry.after p (later ++ history)) (r.contexts.elems c) := by
  refine ⟨Registry.internsContexts _, fun later c hc => ?_⟩
  exact Registry.yields_of_le (Registry.le_after p later history) hc

/-! ### Keys and histories -/

namespace Table

variable {κ : Type} [DecidableEq κ]

omit [DecidableEq κ] in
theorem getElem?_toList (t : Table κ) (i : Nat) : t.toList[i]? = t.get? i :=
  Array.getElem?_toList

theorem mem_toList_iff {t : Table κ} {k : κ} : k ∈ t.toList ↔ ∃ i, t.find? k = some i := by
  simp only [List.mem_iff_getElem?, getElem?_toList, find?_eq_some_iff]

/-- The table after a request, if there is one. -/
def grow (t : Table κ) : Option κ → Table κ
  | some k => (t.intern k).2
  | none => t

/-- A key is appended if it is new. -/
theorem toList_intern (t : Table κ) (k : κ) :
    (t.intern k).2.toList = if k ∈ t.toList then t.toList else t.toList ++ [k] := by
  cases h : t.find? k with
  | some i => rw [intern_of_find? h, if_pos (mem_toList_iff.mpr ⟨i, h⟩)]
  | none =>
    have hk : k ∉ t.toList := by
      rw [mem_toList_iff, h]
      simp
    rw [intern_of_new h, if_neg hk]
    exact Array.toList_push

end Table

namespace Registry

variable {κ : Type} [DecidableEq κ] {p : Program}

/-- The keys that a history wants to exist, oldest first, where `want` tells which key a demand
wants in a registry. -/
def wanted (p : Program) (want : Registry → Demand → Option κ) : List Demand → List κ
  | [] => []
  | d :: history => wanted p want history ++ (want (after p history) d).toList

/-- The keys that a history creates: each key is created when it is wanted for the first time. -/
def created (p : Program) (want : Registry → Demand → Option κ) (history : List Demand) : List κ :=
  (wanted p want history).eraseDups

/-- **The keys of a table are those that were created**, if a demand interns the key that it wants
and does nothing else to the table. -/
theorem toList_after (table : Registry → Table κ) (want : Registry → Demand → Option κ)
    (hstart : table {} = Table.empty)
    (hmeet : ∀ r d, table (r.meet p d) = (table r).grow (want r d)) (history : List Demand) :
    (table (after p history)).toList = created p want history := by
  induction history with
  | nil =>
    rw [after, hstart]
    rfl
  | cons d history ih =>
    rw [after, hmeet, created, wanted]
    cases want (after p history) d with
    | none => simpa [Table.grow, created] using ih
    | some k =>
      rw [Table.grow, toList_intern, ih, Option.toList_some, eraseDups_concat]
      simp only [created, List.mem_eraseDups]

/-- **The numbers of one sort of elements are canonical**: `keys` are the keys that have been
created, oldest first, `index` maps keys to numbers, `has` tells which number has which key, and
`ask` asks for a key. -/
structure Canonical {κ : Type} (r : Registry) (keys : List κ) (index : κ → Option Nat)
    (has : Nat → κ → Prop) (ask : κ → Nat × Registry) : Prop where
  bijOn : Set.BijOn (fun k => (ask k).1) {k | k ∈ keys} (Set.Iio keys.length)
  index_iff : ∀ k i, index k = some i ↔ keys[i]? = some k
  has_iff : ∀ i k, has i k ↔ keys[i]? = some k
  again : ∀ k ∈ keys, has (ask k).1 k ∧ (ask k).2 = r

/-- A table of keys makes its numbers canonical. -/
theorem canonical_of_table {r : Registry} {keys : List κ} {has : Nat → κ → Prop}
    {ask : κ → Nat × Registry} {t : Table κ} (hkeys : t.toList = keys)
    (hhas : ∀ i k, has i k ↔ t.get? i = some k)
    (hask : ∀ k i, t.find? k = some i → ask k = (i, r)) : r.Canonical keys t.find? has ask := by
  subst hkeys
  have hget : ∀ {k i}, t.get? i = some k → ask k = (i, r) := fun h =>
    hask _ _ (find?_eq_some_iff.mpr h)
  have hmem : ∀ {k}, k ∈ t.toList → ∃ i, t.get? i = some k ∧ ask k = (i, r) := by
    intro k hk
    obtain ⟨i, hi⟩ := mem_toList_iff.mp hk
    exact ⟨i, find?_eq_some_iff.mp hi, hask k i hi⟩
  refine ⟨⟨?_, ?_, ?_⟩, fun k i => ?_, fun i k => ?_, fun k hk => ?_⟩
  · intro k hk
    obtain ⟨i, hi, hk⟩ := hmem hk
    simp only [hk]
    exact lt_size_of_get? hi
  · intro k hk k' hk' h
    obtain ⟨i, hi, hk⟩ := hmem hk
    obtain ⟨i', hi', hk'⟩ := hmem hk'
    simp only [hk, hk'] at h
    exact Option.some.inj (hi.symm.trans (h ▸ hi'))
  · intro i hi
    obtain ⟨k, hk⟩ := exists_get? (t := t) hi
    exact ⟨k, mem_toList_iff.mpr ⟨i, find?_eq_some_iff.mpr hk⟩, by simp only [hget hk]⟩
  · rw [getElem?_toList, find?_eq_some_iff]
  · rw [hhas, getElem?_toList]
  · obtain ⟨i, hi, hk⟩ := hmem hk
    rw [hk]
    exact ⟨(hhas i k).mpr hi, rfl⟩

end Registry

namespace Demand

def object? : Demand → Option (InCtx ObjId)
  | object c o => some ⟨c, o⟩
  | _ => none

def method? : Demand → Option (InCtx MethodId)
  | method c m => some ⟨c, m⟩
  | _ => none

def site? : Demand → Option (InCtx CallSite)
  | site c s => some ⟨c, s⟩
  | _ => none

/-- The pointer that a demand is for, if it exists. -/
def pointer? (p : Program) (r : Registry) : Demand → Option Pointer
  | pointer x => if (r.admits p x).isOk then some x else none
  | _ => none

end Demand

theorem PointerParts.pointer?_eq_some_iff {d : PointerParts} {x : Pointer} :
    d.pointer? = some x ↔ d = x.parts := by
  obtain ⟨kind, ctx, var, base, field⟩ := d
  constructor
  · intro h
    unfold pointer? at h
    split at h
    case h_5 => cases h
    all_goals
      obtain ⟨hc, hx⟩ := Option.ite_none_right_eq_some.mp h
      cases hx
      simp_all [Pointer.parts]
  · intro h
    cases x <;> cases h <;> simp [pointer?]

namespace Registry

/-- Number `i` of `n` has key `k`, as two functions that read its parts off tell. -/
def Reads {α : Type} (n : Nat) (ctx : Nat → CtxId) (item : Nat → α) (i : Nat) (k : InCtx α) :
    Prop :=
  i < n ∧ ctx i = k.ctx ∧ item i = k.item

theorem reads_iff {α : Type} {t : Table (InCtx α)} {ctx : Nat → CtxId} {item : Nat → α}
    (h : ∀ {i k}, t.get? i = some k → ctx i = k.ctx ∧ item i = k.item) (i : Nat) (k : InCtx α) :
    Reads t.size ctx item i k ↔ t.get? i = some k := by
  constructor
  · rintro ⟨hi, hctx, hitem⟩
    obtain ⟨l, hl⟩ := exists_get? hi
    obtain ⟨hctx', hitem'⟩ := h hl
    obtain ⟨c, a⟩ := k
    obtain rfl : l = ⟨c, a⟩ := by
      cases l
      exact congrArg₂ _ (hctx'.symm.trans hctx) (hitem'.symm.trans hitem)
    exact hl
  · intro hk
    exact ⟨lt_size_of_get? hk, h hk⟩

/-- **The numbers of a registry are canonical**, given the history after which it came about. -/
structure HandlesCanonical (p : Program) (history : List Demand) (r : Registry) : Prop where
  objects : r.Canonical (created p (fun _ => Demand.object?) history) r.objects.find?
    (Reads r.objects.size r.objContext r.objId) fun k => r.object k.ctx k.item
  methods : r.Canonical (created p (fun _ => Demand.method?) history) r.methods.find?
    (Reads r.methods.size r.methodContext r.methodId) fun k => r.method k.ctx k.item
  sites : r.Canonical (created p (fun _ => Demand.site?) history) r.sites.find?
    (Reads r.sites.size r.siteContext r.callSite) fun k => r.site k.ctx k.item
  pointers : r.Canonical (created p (Demand.pointer? p) history) r.pointers.find?
    (fun i x => r.info? i = some x.parts) r.pointer
  method? : ∀ c m i, r.method? c m = some i ↔
    (created p (fun _ => Demand.method?) history)[i]? = some ⟨c, m⟩
  /-- A description is found exactly if it is one of a pointer that was created. -/
  lookup : ∀ d i, r.lookup d = some i ↔
    ∃ x, (created p (Demand.pointer? p) history)[i]? = some x ∧ d = x.parts
  instancesOf : ∀ o, (r.instancesOf o).Pairwise (· < ·) ∧
    ∀ i, i ∈ r.instancesOf o ↔ i < r.objects.size ∧ r.objId i = o
  pointersOf : ∀ v, (r.pointersOf v).Pairwise (· < ·) ∧
    ∀ i, i ∈ r.pointersOf v ↔ ∃ c, r.info? i = some (Pointer.var c v).parts

variable (p : Program) (history : List Demand)

/-- **A demand grows the tables by the keys that it wants.** -/
theorem tables_meet (r : Registry) (d : Demand) :
    (r.meet p d).objects.toTable = r.objects.grow d.object? ∧
    (r.meet p d).methods = r.methods.grow d.method? ∧
    (r.meet p d).sites = r.sites.grow d.site? ∧
    (r.meet p d).pointers.toTable = r.pointers.grow (d.pointer? p r) := by
  cases d with
  | pointer x =>
    rw [meet, Demand.pointer?]
    split <;> exact ⟨rfl, rfl, rfl, rfl⟩
  | _ => exact ⟨rfl, rfl, rfl, rfl⟩

theorem toList_objects :
    (after p history).objects.toList = created p (fun _ => Demand.object?) history :=
  toList_after (·.objects.toTable) _ rfl (fun r d => (tables_meet p r d).1) history

theorem toList_methods :
    (after p history).methods.toList = created p (fun _ => Demand.method?) history :=
  toList_after methods _ rfl (fun r d => (tables_meet p r d).2.1) history

theorem toList_sites : (after p history).sites.toList = created p (fun _ => Demand.site?) history :=
  toList_after sites _ rfl (fun r d => (tables_meet p r d).2.2.1) history

/-- Pointers that do not exist are not created. -/
theorem toList_pointers :
    (after p history).pointers.toList = created p (Demand.pointer? p) history :=
  toList_after (·.pointers.toTable) _ rfl (fun r d => (tables_meet p r d).2.2.2) history

theorem info?_eq_some_iff {r : Registry} {i : PtrId} {x : Pointer} :
    r.info? i = some x.parts ↔ r.pointers.get? i = some x := by
  rw [info?, Option.map_eq_some_iff]
  constructor
  · rintro ⟨y, hy, hparts⟩
    -- a description determines the pointer that it means
    have hx := PointerParts.pointer?_eq_some_iff.mpr hparts.symm
    rw [PointerParts.pointer?_eq_some_iff.mpr rfl] at hx
    exact Option.some.inj hx ▸ hy
  · exact fun h => ⟨x, h, rfl⟩

end Registry

open Registry in
/-- **Numbers are canonical** after every history of demands: in each sort they are in bijection
with the keys that the history has created, the index of the sort has these keys with their numbers,
asking for such a key gives its number and changes nothing, looking up finds what was created, and
the members of a group are listed in the order of their creation. -/
theorem handles_canonical (p : Program) (history : List Demand) :
    HandlesCanonical p history (after p history) where
  objects := by
    refine canonical_of_table (toList_objects p history) (reads_iff fun h => ?_) fun k i h => ?_
    · simp only [objContext, objId, h, and_self]
    · simp only [object, Catalog.intern_of_find? h]
  methods := by
    refine canonical_of_table (toList_methods p history) (reads_iff fun h => ?_) fun k i h => ?_
    · simp only [methodContext, methodId, h, and_self]
    · simp only [method, intern_of_find? h]
  sites := by
    refine canonical_of_table (toList_sites p history) (reads_iff fun h => ?_) fun k i h => ?_
    · simp only [siteContext, callSite, h, and_self]
    · simp only [site, intern_of_find? h]
  pointers := by
    refine canonical_of_table (toList_pointers p history) (fun i x => info?_eq_some_iff) ?_
    intro x i h
    simp only [pointer, Catalog.intern_of_find? h]
  method? c m i := by
    rw [← toList_methods, getElem?_toList]
    exact find?_eq_some_iff
  lookup d i := by
    rw [← toList_pointers, getElem?_toList, lookup, Option.bind_eq_some_iff]
    simp only [PointerParts.pointer?_eq_some_iff, pointer?, find?_eq_some_iff, and_comm]
  instancesOf o := by
    refine ⟨Catalog.pairwise_members _ o, fun i => ?_⟩
    rw [mem_instancesOf]
    constructor
    · rintro ⟨c, hc⟩
      exact ⟨lt_size_of_get? hc, by simp only [objId, hc]⟩
    · rintro ⟨hi, rfl⟩
      obtain ⟨k, hk⟩ := exists_get? hi
      exact ⟨k.ctx, by simp only [objId, hk]⟩
  pointersOf v := by
    refine ⟨Catalog.pairwise_members _ v, fun i => ?_⟩
    simp only [mem_pointersOf, info?_eq_some_iff]

end HeapFlow
