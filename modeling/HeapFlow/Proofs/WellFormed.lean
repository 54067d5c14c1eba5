import HeapFlow.Proofs.Derivations

/-!
# Well-formed programs

An analysis relies on a few properties of its program (`Program.WellFormed`). That a call has as
many arguments as the method it names has parameters is checked against one method, but dispatch may
select a method of another class. The two have the same subsignature, and that says how many
parameters there are (`arity`). So every call edge that the rules derive joins a call and a method
that fit each other (`Derivable.fits`).
-/

namespace HeapFlow

open List

/-- The number of parameters that a subsignature lists. -/
def arity (subsig : String) : Nat :=
  match subsig.toList.dropWhile (· ≠ '(') with
  | _ :: ')' :: _ => 0
  | l => l.count ',' + 1

namespace Program

/-- What an analysis relies on in a statement. -/
def StmtOk (p : Program) : Stmt → Prop
  | .new _ t n => 1 < n → n ≤ t.dims
  | .load _ _ f => (p.field? f).any (·.isStatic) = false
  | .store _ f _ => (p.field? f).any (·.isStatic) = false
  | .loadStatic _ f => (p.field? f).any (·.isStatic) = true
  | .storeStatic f _ => (p.field? f).any (·.isStatic) = true
  | .invoke c => c.args.length = arity c.target.subsig ∧
      (c.receiver.isSome = true → c.kind = .virtual ∨ c.kind = .interface ∨ c.kind = .special)
  | _ => True

/-- What an analysis relies on in a program. -/
structure WellFormed (p : Program) : Prop where
  cls : ∀ {k d}, k ∈ p.classes → d ∈ k.methods → d.id.cls = k.name
  params : ∀ {k d}, k ∈ p.classes → d ∈ k.methods → d.params.length = arity d.id.subsig
  receiver : ∀ {k d}, k ∈ p.classes → d ∈ k.methods → d.isStatic = false → 0 ∉ d.params
  stmts : ∀ {k d s}, k ∈ p.classes → d ∈ k.methods → s ∈ d.body → p.StmtOk s

section Lookup

variable {p : Program} {c : String} {k : Class} {m : MethodId} {d : Method}

theorem mem_of_class? (h : p.class? c = some k) : k ∈ p.classes :=
  mem_of_find?_eq_some h

theorem name_of_class? (h : p.class? c = some k) : k.name = c := by
  simpa using find?_some h

theorem class?_of_mem_chainFrom {n : Nat} (h : k ∈ p.chainFrom n c) : p.class? k.name = some k := by
  induction n generalizing c with
  | zero => simp [chainFrom] at h
  | succ n ih =>
    unfold chainFrom at h
    split at h
    · simp at h
    · rename_i k' hk'
      rcases mem_cons.mp h with rfl | h
      · rwa [name_of_class? hk']
      · split at h
        · simp at h
        · exact ih h

/-- A search finds what a class answers. -/
theorem exists_of_search {α : Type} {ask : Class → Option α} {a : α} (h : p.search ask c = some a) :
    ∃ k, p.class? k.name = some k ∧ ask k = some a := by
  unfold search at h
  generalize p.depthBound = n at h
  induction n generalizing c with
  | zero => simp [searchFrom] at h
  | succ n ih =>
    unfold searchFrom at h
    split at h
    · rename_i b hb
      obtain ⟨k, hk, hkb⟩ := exists_of_findSome?_eq_some hb
      exact ⟨k, class?_of_mem_chainFrom hk, h ▸ hkb⟩
    · obtain ⟨k, -, hk⟩ := exists_of_findSome?_eq_some h
      obtain ⟨i, -, hi⟩ := exists_of_findSome?_eq_some hk
      exact ih hi

theorem method?_eq_some (h : p.method? m = some d) :
    ∃ k, p.class? m.cls = some k ∧ k.method? m.subsig = some d :=
  Option.bind_eq_some_iff.mp h

theorem isStatic_of_instance {x : Option Method} {m : Method}
    (h : (x.filter fun m => !m.isAbstract && !m.isStatic) = some m) : m.isStatic = false := by
  have hinstance := (Option.filter_eq_some_iff.mp h).2
  simp only [Bool.and_eq_true, Bool.not_eq_true'] at hinstance
  exact hinstance.2

theorem call?_body {i : Nat} {c : Call} (hd : p.method? m = some d)
    (hi : d.body[i]? = some (.invoke c)) : p.call? (.body m i) = some c := by
  simp [call?, stmt?, hd, hi, Stmt.call?]

end Lookup

namespace WellFormed

variable {p : Program} (hp : p.WellFormed)

include hp

variable {d : Method} {subsig : String} {m target : MethodId} {t : Ty} {c : Call}

theorem method?_id {k : Class} (hk : p.class? k.name = some k) (hd : k.method? subsig = some d) :
    d.id.subsig = subsig ∧ p.method? d.id = some d := by
  have hmem : d ∈ k.methods := mem_of_find?_eq_some hd
  have hsub : d.id.subsig = subsig := by simpa using find?_some hd
  refine ⟨hsub, ?_⟩
  rw [method?, hp.cls (mem_of_class? hk) hmem, hk, hsub]
  exact hd

theorem id_eq (h : p.method? m = some d) : d.id = m := by
  obtain ⟨k, hk, hd⟩ := method?_eq_some h
  have hcls := hp.cls (mem_of_class? hk) (mem_of_find?_eq_some hd)
  have hsub : d.id.subsig = m.subsig := by simpa using find?_some hd
  rw [name_of_class? hk] at hcls
  cases hm : d.id
  cases m
  simp_all

theorem stmtOk {s : Stmt} (h : p.method? m = some d) (hs : s ∈ d.body) : p.StmtOk s := by
  obtain ⟨k, hk, hd⟩ := method?_eq_some h
  exact hp.stmts (mem_of_class? hk) (mem_of_find?_eq_some hd) hs

theorem params_length (h : p.method? m = some d) : d.params.length = arity m.subsig := by
  obtain ⟨k, hk, hd⟩ := method?_eq_some h
  rw [hp.params (mem_of_class? hk) (mem_of_find?_eq_some hd), hp.id_eq h]

theorem receiver_notMem_params (h : p.method? m = some d) (hd : d.isStatic = false) :
    0 ∉ d.params := by
  obtain ⟨k, hk, hk'⟩ := method?_eq_some h
  exact hp.receiver (mem_of_class? hk) (mem_of_find?_eq_some hk') hd

theorem resolve_spec {m : Method} (h : p.resolve target = some m) :
    m.id.subsig = target.subsig ∧ p.method? m.id = some m := by
  obtain ⟨k, hk, hd⟩ := exists_of_search h
  exact hp.method?_id hk hd

/-- Dispatch finds a method with the subsignature. -/
theorem dispatch_spec {m : Method} (h : p.dispatch t subsig = some m) :
    m.id.subsig = subsig ∧ p.method? m.id = some m := by
  obtain ⟨c, -, hc⟩ := Option.bind_eq_some_iff.mp h
  obtain ⟨k, hk, hd⟩ := exists_of_search hc
  split at hd
  · rename_i n hn
    split at hd
    · cases hd
    · cases hd
      exact hp.method?_id hk hn
  · cases hd

theorem staticCallee?_spec {m : Method} (h : p.staticCallee? target = some m) :
    m.id.subsig = target.subsig ∧ p.method? m.id = some m :=
  hp.resolve_spec (Option.filter_eq_some_iff.mp h).1

theorem callee?_spec {m : Method} (h : p.callee? c t = some m) :
    m.id.subsig = c.target.subsig ∧ p.method? m.id = some m := by
  have hfound := (Option.filter_eq_some_iff.mp h).1
  split at hfound
  · exact hp.resolve_spec hfound
  · exact hp.dispatch_spec hfound
  · exact hp.dispatch_spec hfound
  · cases hfound

theorem runMethod?_spec {m : Method} (h : p.runMethod? t = some m) : p.method? m.id = some m :=
  (hp.dispatch_spec (Option.filter_eq_some_iff.mp h).1).2

theorem clinit?_spec {c : String} {k : Class} (hc : p.class? c = some k) (hd : k.clinit? = some d) :
    p.method? d.id = some d :=
  (hp.method?_id (name_of_class? hc ▸ hc) hd).2

/-- A call has as many arguments as its subsignature lists. -/
theorem args_length {site : CallSite} (hc : p.call? site = some c) :
    c.args.length = arity c.target.subsig := by
  cases site with
  | body m i =>
    obtain ⟨s, hs, hcall⟩ := Option.bind_eq_some_iff.mp hc
    obtain ⟨d, hd, hs⟩ := Option.bind_eq_some_iff.mp hs
    cases s with
    | invoke c' =>
      cases hcall
      exact (hp.stmtOk hd (mem_of_getElem? hs)).1
    | _ => cases hcall
  | register m i =>
    have harity : 1 = arity finalizerRegister.subsig := by decide +kernel
    simp only [call?] at hc
    split at hc
    · cases hc
      exact harity
    · cases hc
  | threadRun =>
    cases hc
    decide +kernel

theorem arrayCopy_args (hd : p.method? m = some d) (hs : .invoke c ∈ d.body)
    (hc : p.isArrayCopy c = true) : c.args.length = 5 := by
  simp only [isArrayCopy, Bool.and_eq_true, beq_iff_eq, Option.map_eq_some_iff] at hc
  obtain ⟨-, n, hn, hid⟩ := hc
  have hsub := (hp.resolve_spec hn).1
  rw [(hp.stmtOk hd hs).1, ← hsub, hid]
  decide +kernel

end WellFormed

end Program

/-- The call of an edge has as many arguments as the callee has parameters. Edges made by models
pass no arguments. -/
def CallEdge.Fits (p : Program) (e : CallEdge (At CallSite) (At MethodId)) : Prop :=
  e.kind ≠ .other → ∀ c d, p.call? e.site.item = some c → p.method? e.callee.item = some d →
    c.args.length = d.params.length

section Fits

variable {g : Setup} {e : CallEdge (At CallSite) (At MethodId)}

theorem Derivable.exists_follows_call (h : Derivable g (.call e)) : ∃ f, Follows g f (.call e) := by
  cases h with
  | infer hF h =>
    cases h with
    | given h =>
      obtain ⟨b, -, he⟩ := h
      cases he with
      | args hm hf => cases hf
    | follow hh hm hf => exact ⟨_, hf⟩
    | copy ho hh hm ht hf => cases hf

variable (hp : g.program.WellFormed)

include hp

/-- **An edge that follows from a fact leads to a method with the subsignature that the call
names.** Edges made by models are another matter. -/
theorem Follows.subsig_eq {h : Fact} (hf : Follows g h (.call e)) (hk : e.kind ≠ .other) {c : Call}
    (hc : g.program.call? e.site.item = some c) : e.callee.item.subsig = c.target.subsig := by
  cases hf with
  | stmt ht hd hs hf =>
    cases hf with
    | register dst n ht hm =>
      simp only [Setup.staticEdge, Program.call?, Program.stmt?, hd, Option.bind_some, hs,
        Option.some.injEq] at hc
      subst hc
      exact (hp.staticCallee?_spec hm).1
    | call _ hm =>
      cases Option.some.inj ((Program.call?_body hd hs).symm.trans hc)
      exact (hp.staticCallee?_spec hm).1
  | wire hf => cases hf
  | use ht hf =>
    cases hf with
    | call hd hs hv hn hf =>
      cases hf
      cases Option.some.inj ((Program.call?_body hd hs).symm.trans hc)
      exact (hp.callee?_spec hn).1
    | run ht hp hn hf =>
      cases hf
      exact absurd rfl hk

/-- **Calls and callees fit.** -/
theorem Derivable.fits (h : Derivable g (.call e)) : e.Fits g.program := by
  intro hk c d hc hd
  obtain ⟨f, hf⟩ := h.exists_follows_call
  rw [hp.params_length hd, hf.subsig_eq hp hk hc]
  exact hp.args_length hc

end Fits

/-- **What a step of a run needs of a set of facts in order not to leave it**: the set is closed
under the rules as far as their premises are settled, that is among the facts `S`, and its call
edges join calls and methods that fit. -/
structure StableOn (g : Setup) (S D : Fact → Prop) : Prop where
  follow : ∀ {h f}, S h → D h → Follows g h f → D f
  flow : FlowClosed g D
  current : ∀ {O C d v}, D (.started O) → D (.asks C) →
    g.program.method? threadCurrent = some d → v ∈ d.returned →
    D (.holds (.var C (.declared threadCurrent v)) O)
  copy : ∀ {C v O f}, .arrayCopy ∈ g.observers → S (.holds (.var C v) O) →
    D (.holds (.var C v) O) → g.Translates v.method → CopyFact g C O v f → D f
  fits : ∀ {e}, D (.call e) → e.Fits g.program

theorem Derivable.stableOn {g : Setup} (hp : g.program.WellFormed) (S : Fact → Prop) :
    StableOn g S (Derivable g) where
  follow _ hh hf := (Derivable.stable g).follow hh hf
  flow := (Derivable.stable g).flow
  current := (Derivable.stable g).current
  copy ho _ hh ht hf := (Derivable.stable g).copy ho hh ht hf
  fits h := h.fits hp

end HeapFlow
