import Mathlib.Data.Set.Insert
import HeapFlow.Proofs.Parts
import HeapFlow.Proofs.Registered

/-!
# The facts of a state

A state holds facts in numbers (`Note`); with the meanings of the numbers, notes are facts
(`Registry.NoteIs`). Either a fact is *settled*: it is written down for good, and what follows from
it is taken care of (`State.Settled`). Or it *waits*: the object or call edge is in the work list
(`State.Has` covers both). `State.Wf` is what holds of the state of a run between two tasks. Besides
good order of its parts it says that what flows from a settled object is there or waits.
-/

namespace HeapFlow

/-- A fact in numbers. -/
inductive Note where
  | holds (p : PtrId) (o : CObjId)
  | flow (src dst : PtrId) (kind : FlowKind) (t : Transfer)
  | call (e : CCallEdge)
  | reached (m : CMethodId)
  | announced (m : MethodId)
  | initialized (c : String)
  | started (o : CObjId)
  | asks (c : CtxId)

/-- The transfer of a flow. -/
def Flow.transfer (F : Flow) : Transfer :=
  match F.filter with
  | none => .all
  | some t => .ofType t

theorem Flow.transfer_inj {F G : Flow} (h : F.transfer = G.transfer) : F.filter = G.filter := by
  unfold transfer at h
  split at h <;> split at h <;> simp_all

namespace Registry

/-- What a call edge in numbers means. -/
structure EdgeIs (r : Registry) (e : CCallEdge) (E : CallEdge (At CallSite) (At MethodId)) :
    Prop where
  kind : e.kind = E.kind
  site : r.SiteIs e.site E.site
  callee : r.MethodIs e.callee E.callee

/-- What a set of objects in numbers means. -/
structure SetIs (r : Registry) (t : Objects) (T : Set (At Obj)) : Prop where
  means : ∀ o ∈ t, ∃ O ∈ T, r.ObjIs o O
  covers : ∀ O ∈ T, ∃ o ∈ t, r.ObjIs o O

/-- What a note means. -/
inductive NoteIs (r : Registry) : Note → Fact → Prop where
  | holds {p o P O} (hp : r.PtrIs p P) (ho : r.ObjIs o O) : NoteIs r (.holds p o) (.holds P O)
  | flow {a b k t} {F : Flow} (ha : r.PtrIs a F.src) (hb : r.PtrIs b F.dst) (hk : k = F.kind)
      (ht : t = F.transfer) : NoteIs r (.flow a b k t) (.flow F)
  | call {e E} (h : r.EdgeIs e E) : NoteIs r (.call e) (.call E)
  | reached {m M} (h : r.MethodIs m M) : NoteIs r (.reached m) (.reached M)
  | announced (m : MethodId) : NoteIs r (.announced m) (.announced m)
  | initialized (c : String) : NoteIs r (.initialized c) (.initialized c)
  | started {o O} (h : r.ObjIs o O) : NoteIs r (.started o) (.started O)
  | asks {c C} (h : r.CtxIs c C) : NoteIs r (.asks c) (.asks C)

section

variable {r r' : Registry} {x y : Note} {f f' : Fact} {E : CallEdge (At CallSite) (At MethodId)}
  {e : CCallEdge} {t : Objects}

theorem EdgeIs.mono (hle : r ≤ r') (h : r.EdgeIs e E) : r'.EdgeIs e E :=
  ⟨h.kind, h.site.mono hle, h.callee.mono hle⟩

theorem EdgeIs.unique {F : CallEdge (At CallSite) (At MethodId)} (h : r.EdgeIs e E)
    (h' : r.EdgeIs e F) : E = F := by
  cases E
  cases F
  cases h.kind.symm.trans h'.kind
  cases h.site.unique h'.site
  cases h.callee.unique h'.callee
  rfl

theorem EdgeIs.inj {e' : CCallEdge} (h : r.EdgeIs e E) (h' : r.EdgeIs e' E) : e = e' := by
  cases e
  cases e'
  cases h.kind.trans h'.kind.symm
  cases h.site.inj h'.site
  cases h.callee.inj h'.callee
  rfl

theorem SetIs.mono (hle : r ≤ r') {T : Set (At Obj)} (h : r.SetIs t T) : r'.SetIs t T where
  means o ho := by
    obtain ⟨O, hO, hoO⟩ := h.means o ho
    exact ⟨O, hO, hoO.mono hle⟩
  covers O hO := by
    obtain ⟨o, ho, hoO⟩ := h.covers O hO
    exact ⟨o, ho, hoO.mono hle⟩

theorem SetIs.of_means (h : ∀ o ∈ t, ∃ O, r.ObjIs o O) : r.SetIs t {O | ∃ o ∈ t, r.ObjIs o O} where
  means o ho := by
    obtain ⟨O, hO⟩ := h o ho
    exact ⟨O, ⟨o, ho, hO⟩, hO⟩
  covers _ hO := hO

theorem ObjIs.singleton {o : CObjId} {O : At Obj} (h : r.ObjIs o O) :
    r.SetIs (OrderedSet.singleton o) {O} where
  means _ ho := ⟨O, rfl, OrderedSet.mem_singleton.mp ho ▸ h⟩
  covers _ hO := ⟨o, OrderedSet.mem_singleton.mpr rfl, Set.mem_singleton_iff.mp hO ▸ h⟩

/-- Notes keep their meaning. -/
theorem NoteIs.mono (hle : r ≤ r') (h : r.NoteIs x f) : r'.NoteIs x f := by
  cases h with
  | holds hp ho => exact .holds (hp.mono hle) (ho.mono hle)
  | flow ha hb hk ht => exact .flow (ha.mono hle) (hb.mono hle) hk ht
  | call h => exact .call (h.mono hle)
  | reached h => exact .reached (h.mono hle)
  | announced m => exact .announced m
  | initialized c => exact .initialized c
  | started h => exact .started (h.mono hle)
  | asks h => exact .asks (h.mono hle)

/-- A note means one fact. -/
theorem NoteIs.unique (h : r.NoteIs x f) (h' : r.NoteIs x f') : f = f' := by
  cases h with
  | holds hp ho => cases h' with | holds hp' ho' => rw [hp.unique hp', ho.unique ho']
  | flow ha hb hk ht =>
    cases h' with
    | flow ha' hb' hk' ht' =>
      rename_i F G
      cases F
      cases G
      cases ha.unique ha'
      cases hb.unique hb'
      cases hk.symm.trans hk'
      cases Flow.transfer_inj (ht.symm.trans ht')
      rfl
  | call h => cases h' with | call h' => rw [h.unique h']
  | reached h => cases h' with | reached h' => rw [h.unique h']
  | announced | initialized => cases h'; rfl
  | started h => cases h' with | started h' => rw [h.unique h']
  | asks h => cases h' with | asks h' => rw [h.unique h']

/-- A fact has one note. -/
theorem NoteIs.inj (h : r.NoteIs x f) (h' : r.NoteIs y f) : x = y := by
  cases h with
  | holds hp ho => cases h' with | holds hp' ho' => rw [hp.inj hp', ho.inj ho']
  | flow ha hb hk ht =>
    cases h' with
    | flow ha' hb' hk' ht' => rw [ha.inj ha', hb.inj hb', hk, hk', ht, ht']
  | call h => cases h' with | call h' => rw [h.inj h']
  | reached h => cases h' with | reached h' => rw [h.inj h']
  | announced | initialized => cases h'; rfl
  | started h => cases h' with | started h' => rw [h.inj h']
  | asks h => cases h' with | asks h' => rw [h.inj h']

end

end Registry

/-! ### The notes of a state -/

/-- A call that copies array elements is one of the program. -/
def Program.Copies (p : Program) (k : CopyCall) : Prop :=
  p.hasArrayCopy = true ∧ ∃ d c, p.method? k.method = some d ∧ .invoke c ∈ d.body ∧
    p.isArrayCopy c = true ∧ c.args[0]? = some k.src ∧ c.args[2]? = some k.dst

namespace State

/-- The notes that are written down for good. -/
def Notes (s : State) : Note → Prop
  | .holds p o => o ∈ s.pointsTo p
  | .flow a b k t => s.flow.Joins a b k t
  | .call e => e ∈ s.calls.edges
  | .reached m => m ∈ s.calls.reachable
  | .announced m => m ∈ s.methods
  | .initialized c => c ∈ s.initialized
  | .started o => o ∈ s.threads.running
  | .asks c => c ∈ s.threads.asking

/-- The notes that wait. -/
def Awaits (s : State) : Note → Prop
  | .holds p o => s.work.Waits p o
  | .call e => e ∈ s.work.calls.toList
  | _ => False

/-- A fact is written down for good. -/
def Settled (s : State) (f : Fact) : Prop :=
  ∃ x, s.Notes x ∧ s.registry.NoteIs x f

/-- A fact is written down for good, or waits. -/
def Has (s : State) (f : Fact) : Prop :=
  ∃ x, (s.Notes x ∨ s.Awaits x) ∧ s.registry.NoteIs x f

theorem Settled.has {s : State} {f : Fact} (h : s.Settled f) : s.Has f := by
  obtain ⟨x, hx, hf⟩ := h
  exact ⟨x, .inl hx, hf⟩

theorem settled_holds {s : State} {p : PtrId} {o : CObjId} {P : Place} {O : At Obj}
    (hp : s.registry.PtrIs p P) (ho : s.registry.ObjIs o O) (h : o ∈ s.pointsTo p) :
    s.Settled (.holds P O) :=
  ⟨.holds p o, h, .holds hp ho⟩

theorem settled_flow {s : State} {a b : PtrId} {F : Flow} (ha : s.registry.PtrIs a F.src)
    (hb : s.registry.PtrIs b F.dst) (h : s.flow.Joins a b F.kind F.transfer) :
    s.Settled (.flow F) :=
  ⟨.flow a b F.kind F.transfer, h, .flow ha hb rfl rfl⟩

/-- What holds of the state of a run between two tasks. -/
structure Wf (g : Setup) (s : State) : Prop where
  registry : s.registry.Wf g
  work : s.work.Wf
  means : ∀ {x}, s.Notes x ∨ s.Awaits x → ∃ f, s.registry.NoteIs x f
  temps : ∀ {p c m n}, s.registry.pointers.get? p = some (.var c (.copyTemp m n)) →
    n < s.copies.length
  copied : ∀ k ∈ s.copies, g.program.Copies k
  flowed : ∀ {F : Flow} {O}, s.Settled (.flow F) → s.Settled (.holds F.src O) →
    F.Passes g.program O → s.Has (.holds F.dst O)

/-- Started threads have been returned wherever the running thread is asked for. -/
def Returned (g : Setup) (s : State) : Prop :=
  ∀ {O C d v}, s.Settled (.started O) → s.Settled (.asks C) →
    g.program.method? threadCurrent = some d → v ∈ d.returned →
    s.Has (.holds (.var C (.declared threadCurrent v)) O)

section Read

variable {g : Setup} {s : State}

/-- A settled fact is written down under its note. -/
theorem notes_of_settled {x : Note} {f : Fact} (hx : s.registry.NoteIs x f)
    (hf : s.Settled f) : s.Notes x := by
  obtain ⟨y, hy, hyf⟩ := hf
  rwa [hx.inj hyf]

variable {o : CObjId}

/-- In terms of points-to sets. -/
theorem settled_holds_iff {q : PtrId} {P : Place} {O : At Obj}
    (hq : s.registry.PtrIs q P) (ho : s.registry.ObjIs o O) :
    s.Settled (.holds P O) ↔ o ∈ s.pointsTo q :=
  ⟨fun h => notes_of_settled (.holds hq ho) h, settled_holds hq ho⟩

theorem Wf.ptrIs (hs : s.Wf g) {p : PtrId} (h : o ∈ s.pointsTo p) :
    (∃ P, s.registry.PtrIs p P) ∧ ∃ O, s.registry.ObjIs o O := by
  obtain ⟨f, hf⟩ := hs.means (x := .holds p o) (.inl h)
  cases hf with
  | holds hp ho => exact ⟨⟨_, hp⟩, _, ho⟩

theorem Wf.methodIs (hs : s.Wf g) {m : CMethodId} (h : m ∈ s.calls.reachable) :
    ∃ M, s.registry.MethodIs m M := by
  obtain ⟨f, hf⟩ := hs.means (x := .reached m) (.inl h)
  cases hf with
  | reached hM => exact ⟨_, hM⟩

theorem Wf.edgeIs (hs : s.Wf g) {e : CCallEdge}
    (h : e ∈ s.calls.edges ∨ e ∈ s.work.calls.toList) : ∃ E, s.registry.EdgeIs e E := by
  obtain ⟨f, hf⟩ := hs.means (x := .call e) h
  cases hf with
  | call hE => exact ⟨_, hE⟩

end Read

section Transport

variable {g : Setup} {s s' : State} {f : Fact}

/-- What is settled stays so if notes are kept. -/
theorem Settled.mono (hle : s.registry ≤ s'.registry) (hn : ∀ x, s.Notes x → s'.Notes x)
    (h : s.Settled f) : s'.Settled f := by
  obtain ⟨x, hx, hf⟩ := h
  exact ⟨x, hn x hx, hf.mono hle⟩

/-- What was noted before was settled before. -/
theorem Settled.back (hs : s.Wf g) (hle : s.registry ≤ s'.registry) {x : Note} (hx : s.Notes x)
    (hf : s'.registry.NoteIs x f) : s.Settled f := by
  obtain ⟨f', hf'⟩ := hs.means (.inl hx)
  rw [hf.unique (hf'.mono hle)]
  exact ⟨x, hx, hf'⟩

theorem Has.back (hs : s.Wf g) (hle : s.registry ≤ s'.registry) {x : Note}
    (hx : s.Notes x ∨ s.Awaits x) (hf : s'.registry.NoteIs x f) : s.Has f := by
  obtain ⟨f', hf'⟩ := hs.means hx
  rw [hf.unique (hf'.mono hle)]
  exact ⟨x, hx, hf'⟩

end Transport

theorem not_notes_initial (script : Script) (x : Note) :
    ¬ (Notes { script := script } x ∨ Awaits { script := script } x) := by
  rintro (hx | hx)
  · cases x with
    | holds p o =>
      have hx : o ∈ (∅ : Objects) := by simpa [Notes, pointsTo] using hx
      exact OrderedSet.mem_empty hx
    | flow a b k t =>
      obtain ⟨e, he, -⟩ := hx
      exact absurd he List.not_mem_nil
    | started o => exact OrderedSet.mem_empty hx
    | _ => exact absurd hx List.not_mem_nil
  · cases x with
    | holds p o =>
      obtain ⟨t, ht, -⟩ := hx
      exact absurd ht List.not_mem_nil
    | call e => exact absurd hx List.not_mem_nil
    | _ => exact hx

theorem not_has_initial (script : Script) (f : Fact) : ¬ Has { script := script } f :=
  fun ⟨x, hx, _⟩ => not_notes_initial script x hx

/-- So is the state at the start. -/
theorem wf_initial (g : Setup) (script : Script) : Wf g { script := script } where
  registry := Registry.wf_empty g
  work := WorkList.wf_empty
  means {x} hx := absurd hx (not_notes_initial script x)
  temps := by
    intro p c m n h
    simp at h
  copied := by simp
  flowed hF := absurd hF.has (not_has_initial script _)

end State

end HeapFlow
