import HeapFlow.Proofs.News
import HeapFlow.Proofs.Timing

/-!
# Copies of array elements are complete

The observer of copies takes the copies of a method down when it is told of the method, and connects
an array with a copy when it is told that a variable of the copy has got the array. It does not look
back. Nothing is lost by that, early variables apart (`Program.Early`): any other variable has no
objects while its method is to be told (`Machine.Copying`).
-/

namespace HeapFlow

open List

/-- **What the observer of copies has done after a task.** -/
structure Setup.Connects (g : Setup) (s : State) (t : Task) (s' : State) : Prop where
  /-- Copies are taken down behind the others, those of a method of which it is told. -/
  copies : ∃ l, s'.copies = s.copies ++ l ∧
    ∀ k ∈ l, ∃ os, t = .notify (.method k.method) (.arrayCopy :: os)
  method : ∀ {k os}, t = .notify (.method k.method) (.arrayCopy :: os) → g.program.Copies k →
    k ∈ s'.copies
  grown : ∀ {p delta os C v o O}, t = .notify (.grown p delta) (.arrayCopy :: os) →
    s.registry.PtrIs p (.var C v) → o ∈ delta → s.registry.ObjIs o O →
    ∀ {n : Nat} {k : CopyCall} {f}, s.copies[n]? = some k → k.Link n C O v f → s'.Settled f

namespace Machine

variable {g : Setup} {m : Machine}

section Step

variable {t : Task} {rest ts : List Task} {s' : State} (hg : g.Tame) (hm : m.Steady g)
  (hp : m.Performs g t rest ts s')

include hg hm hp

/-- What a step does for copies. -/
theorem Performs.connects : g.Connects m.state t s' := by
  by_cases htells : ∃ e os, t = .notify e (.arrayCopy :: os)
  · obtain ⟨e, os, rfl⟩ := htells
    have hmem : .notify e (.arrayCopy :: os) ∈ m.agenda := hp.agenda ▸ .head _
    have hrun : (Act.react g e .arrayCopy >>= fun us => pure (us ++ [.notify e os])) m.state =
      .ok ts s' := hp.run
    cases e with
    | method id =>
      obtain ⟨l, hcopies, hl⟩ := Act.takesDown_copiesReached (s := m.state) hg.wellFormed id
      have hs' : s' = { m.state with copies := m.state.copies ++ l } := by
        have hreact : Act.react g (.method id) .arrayCopy m.state = .ok [] _ :=
          Act.bind_of_ok hcopies
        rw [Act.bind_of_ok hreact] at hrun
        cases hrun
        rfl
      subst hs'
      refine ⟨⟨l, rfl, fun k hk => ⟨os, ?_⟩⟩, ?_, by nofun⟩
      · rw [((hl k).mp hk).1]
      · rintro k os' ⟨⟩ hk
        exact mem_append_right _ ((hl k).mpr ⟨rfl, hk⟩)
    | grown p delta =>
      obtain ⟨-, ⟨C, v, x, hx, hP⟩, hO⟩ := (hm.sound.supported _ hmem).means
      cases hP with
      | var v hC =>
        obtain ⟨_, s₁, hgrown, hgrows, -⟩ :=
          Act.adds_copiesGrown hm.sound.wf hC hx (.of_means hO)
        have hs' : s' = s₁ := by
          have hreact : Act.react g (.grown p delta) .arrayCopy m.state = .ok [] s₁ :=
            Act.bind_of_ok hgrown
          rw [Act.bind_of_ok hreact] at hrun
          cases hrun
          rfl
        subst hs'
        refine ⟨⟨[], by rw [hgrows.same.copies, append_nil], by simp⟩, by nofun, ?_⟩
        rintro p' delta' os' C' v' o O ⟨⟩ hP' ho hoO n k f hk hlink
        have hP'' : m.state.registry.PtrIs p (.var C v) := ⟨_, hx, .var v hC⟩
        cases hP''.unique hP'
        have hhas : s'.Has f := hgrows.adds ⟨n, k, hk, O, ⟨o, ho, hoO⟩, hlink⟩
        cases hlink with
        | load | store => exact hhas.settled id
    | _ =>
      cases hrun
      exact ⟨⟨[], (append_nil _).symm, by simp⟩, by nofun, by nofun⟩
  · -- whatever else happens, no copy is taken down
    have hsame : s'.copies = m.state.copies := by
      refine hp.outcome.memory.2 fun htold => ?_
      cases hp.leaves with
      | enter | init => cases htold
      | tell e o os =>
        cases htold
        exact htells ⟨e, os, rfl⟩
      | _ => exact htold
    refine ⟨⟨[], by rw [hsame, append_nil], by simp⟩, fun h => absurd ⟨_, _, h⟩ htells,
      fun h => absurd ⟨_, _, h⟩ htells⟩

omit hg in
/-- A place that holds an object held it before, or waiting work is done and the object is new. -/
theorem Performs.holds_back {P : Place} {O : At Obj} (h : s'.Settled (.holds P O)) :
    m.state.Settled (.holds P O) ∨ t = .drain ∧ ∃ q o, o ∈ s'.pointsTo q ∧
      o ∉ m.state.pointsTo q ∧ m.state.registry.PtrIs q P ∧ m.state.registry.ObjIs o O := by
  obtain ⟨x, hx, hxf⟩ := h
  cases hxf with
  | @holds q o _ _ hq ho =>
    by_cases hold : o ∈ m.state.pointsTo q
    · exact .inl (State.Settled.back hm.sound.wf hp.effect.le (x := .holds q o) hold (.holds hq ho))
    · obtain ⟨ht, hwaits⟩ := (hp.outcome.pointsTo_back hm.known.state hx).resolve_left hold
      obtain ⟨f, hf⟩ := hm.sound.wf.means (x := .holds q o) (.inr hwaits)
      cases hf with
      | holds hq' ho' =>
        cases (hq'.mono hp.effect.le).unique hq
        cases (ho'.mono hp.effect.le).unique ho
        exact .inr ⟨ht, q, o, hx, hold, hq', ho'⟩

end Step

/-- When a variable that is not early holds something, its method has been told. -/
theorem Timely.mem_methods (hm : m.Steady g) (ht : m.Timely g) {C : Ctx} {v : Var} {O : At Obj}
    (hearly : ¬ g.program.Early v) (htr : g.Translates v.method)
    (h : m.state.Settled (.holds (.var C v) O)) : v.method ∈ m.state.methods := by
  obtain ⟨x, hx, hxf⟩ := (ht.held h).resolve_right fun h => hearly h.1
  cases hxf with
  | reached hM => exact (hm.announced _).mpr ⟨_, hx, hM.methodId, htr⟩

/-- **Nothing is lost by not looking back.** -/
structure Copying (g : Setup) (m : Machine) : Prop where
  noted : ∀ {k}, k.method ∈ m.state.methods → g.program.Copies k →
    k ∈ m.state.copies ∨ m.Pending (.method k.method) .arrayCopy
  counted : ∀ k ∈ m.state.copies, k.method ∈ m.state.methods
  /-- As long as a method is to be told, its variables have no objects, unless they are early. -/
  fresh : ∀ {id os C v O}, .notify (.method id) os ∈ m.agenda → v.method = id →
    ¬ g.program.Early v → ¬ m.state.Settled (.holds (.var C v) O)
  /-- The arrays of a variable that is not early are connected with its copies or will be. -/
  linked : ∀ {n k C v O f}, m.state.copies[n]? = some k → CopyCall.Link k n C O v f →
    ¬ g.program.Early v → m.state.Settled (.holds (.var C v) O) → m.state.Settled f ∨
      ∃ p delta o, m.Pending (.grown p delta) .arrayCopy ∧ o ∈ delta ∧
        m.state.registry.PtrIs p (.var C v) ∧ m.state.registry.ObjIs o O

section Step

variable {t : Task} {rest ts : List Task} {s' : State} (hg : g.Tame) (hm : m.Steady g)
  (hp : m.Performs g t rest ts s')

include hm hp

/-- A variable stays empty as long as its method is to be told. -/
theorem Copying.fresh_step (ht : m.Timely g) (h : m.Copying g) {id : MethodId} {os : List Observer}
    {C : Ctx} {v : Var} {O : At Obj} (hmem : .notify (.method id) os ∈ ts ++ rest)
    (hv : v.method = id) (hearly : ¬ g.program.Early v) :
    ¬ s'.Settled (.holds (.var C v) O) := by
  -- objects are delivered when no method is to be told
  have hold : t ≠ .drain → s'.Settled (.holds (.var C v) O) →
      m.state.Settled (.holds (.var C v) O) :=
    fun hdrain hset => (hp.holds_back hm hset).resolve_right fun h => hdrain h.1
  have hbefore : ∀ {os'}, .notify (.method id) os' ∈ m.agenda →
      ¬ s'.Settled (.holds (.var C v) O) := by
    intro os' hos' hset
    refine h.fresh hos' hv hearly (hold ?_ hset)
    rintro rfl
    rw [hp.agenda, hm.drain_last hp.agenda] at hos'
    simp at hos'
  rcases mem_append.mp hmem with hmem | hmem
  · cases hp.leaves.arises hmem with
    | again => exact hbefore (hp.agenda ▸ mem_cons_self ..)
    | quiet _ hquiet => exact hquiet.elim
    | method _ htr hnew =>
      intro hset
      rw [← hv] at htr hnew
      exact hnew (ht.mem_methods hm hearly htr (hold (by nofun) hset))
  · exact hbefore (hp.agenda ▸ mem_cons_of_mem _ hmem)

include hg

/-- Arrays are connected with the copies that have been taken down. -/
theorem Copying.linked_step (ho : .arrayCopy ∈ g.observers) (h : m.Copying g) {n : Nat}
    {k : CopyCall} {C : Ctx} {v : Var} {O : At Obj} {f : Fact} (hk : s'.copies[n]? = some k)
    (hlink : k.Link n C O v f) (hearly : ¬ g.program.Early v)
    (hholds : s'.Settled (.holds (.var C v) O)) : s'.Settled f ∨
      ∃ p delta o, Pending { state := s', agenda := ts ++ rest } (.grown p delta) .arrayCopy ∧
        o ∈ delta ∧ s'.registry.PtrIs p (.var C v) ∧ s'.registry.ObjIs o O := by
  have hconnects := hp.connects hg hm
  have hmethod : v.method = k.method := by cases hlink <;> rfl
  obtain ⟨l, hl, hnew⟩ := hconnects.copies
  rcases Nat.lt_or_ge n m.state.copies.length with hn | hn
  · rw [hl, getElem?_append_left hn] at hk
    rcases hp.holds_back hm hholds with hold | ⟨rfl, q, o, hx, hfresh, hq, hO⟩
    · rcases h.linked hk hlink hearly hold with hset | ⟨p, delta, o, hpending, hdelta, hP, hO⟩
      · exact .inl (hp.effect.settled hset)
      · rcases hp.pending hpending with ⟨os, htold⟩ | hpending
        · exact .inl (hconnects.grown htold hP hdelta hO hk hlink)
        · exact .inr ⟨p, delta, o, hpending, hdelta, hP.mono hp.effect.le, hO.mono hp.effect.le⟩
    · -- a new array will be told
      have hcounted := h.counted k (mem_of_getElem? hk)
      obtain ⟨-, -, -, htr⟩ := (hm.announced _).mp hcounted
      obtain ⟨x, hget, hPlace⟩ := hq
      cases hPlace with
      | var _ hC =>
        have hq : m.state.registry.PtrIs q (.var C v) := ⟨_, hget, .var v hC⟩
        obtain ⟨-, delta, hdelta, hnews⟩ := (hp.grown hx hget (hmethod ▸ htr)).resolve_left hfresh
        exact .inr ⟨q, delta, o, pending_of_mem ho hnews, hdelta, hq.mono hp.effect.le,
          hO.mono hp.effect.le⟩
  · -- the copy has just been taken down, so the variable has no objects
    rw [hl, getElem?_append_right hn] at hk
    obtain ⟨os, rfl⟩ := hnew k (mem_of_getElem? hk)
    have hold := (hp.holds_back hm hholds).resolve_right fun h => by cases h.1
    exact absurd hold (h.fresh (hp.agenda ▸ mem_cons_self ..) hmethod hearly)

theorem Copying.step (ho : .arrayCopy ∈ g.observers) (hnews : m.Truthful g) (ht : m.Timely g)
    (h : m.Copying g) : Copying g { state := s', agenda := ts ++ rest } where
  noted {k} hk hcopies := by
    have hconnects := hp.connects hg hm
    obtain ⟨l, hl, -⟩ := hconnects.copies
    rcases hp.methods hk with hold | hnew
    · rcases h.noted hold hcopies with hnoted | hpending
      · exact .inl (hl ▸ mem_append_left _ hnoted)
      · exact (hp.pending hpending).imp_left fun ⟨_, htold⟩ => hconnects.method htold hcopies
    · exact .inr (pending_of_mem ho hnew)
  counted k hk := by
    obtain ⟨l, hl, hnew⟩ := (hp.connects hg hm).copies
    have hmem : k ∈ m.state.copies ++ l := hl ▸ hk
    refine hp.notes hm (x := .announced k.method) ?_
    rcases mem_append.mp hmem with hold | hk
    · exact h.counted k hold
    · obtain ⟨os, rfl⟩ := hnew k hk
      exact hnews (hp.agenda ▸ mem_cons_self ..)
  fresh := h.fresh_step hm hp ht
  linked := h.linked_step hg hm hp ho

end Step

theorem copying_initial (g : Setup) (script : Script) : (g.initial script).Copying g where
  noted h := by simp [Setup.initial] at h
  counted k h := by simp [Setup.initial] at h
  fresh h := by simp [Setup.initial] at h
  linked h := by simp [Setup.initial] at h

/-- **This holds throughout a run.** -/
theorem copying_run (hg : g.Tame) (ho : .arrayCopy ∈ g.observers) (script : Script) (n : Nat) :
    ((g.initial script).run g n).Steady g ∧ ((g.initial script).run g n).Copying g := by
  have hstart : (g.initial script).Timely g ∧ (g.initial script).Truthful g ∧
      (g.initial script).Copying g :=
    ⟨timely_initial g script, truthful_initial g script, copying_initial g script⟩
  obtain ⟨hsteady, -, -, hcopying⟩ := Steady.induction
    (I := fun m => m.Timely g ∧ m.Truthful g ∧ m.Copying g) hg hstart
    (fun hm hp hm' ⟨ht, hnews, h⟩ => ⟨ht.step hg hm hp hm', hnews.step hp hm,
      h.step hg hm hp ho hnews ht⟩) n
  exact ⟨hsteady, hcopying⟩

/-- **When nothing is left to do, elements are copied.** -/
theorem Copying.copied (hm : m.Steady g) (h : m.Copying g) (hend : m.agenda = [])
    (hidle : m.state.Idle) {k : CopyCall} (hk : g.program.Copies k) {C : Ctx}
    (htr : g.Translates k.method) (hM : m.state.Settled (.reached ⟨C, k.method⟩))
    (hsrc : ¬ g.program.Early (.declared k.method k.src))
    (hdst : ¬ g.program.Early (.declared k.method k.dst)) {A B E : At Obj} {t u : Ty}
    (hA : m.state.Settled (.holds (.var C (.declared k.method k.src)) A))
    (hAt : A.item.type = .array t)
    (hB : m.state.Settled (.holds (.var C (.declared k.method k.dst)) B))
    (hBu : B.item.type = .array u) (hE : m.state.Settled (.holds (.elems A) E))
    (hEu : g.program.isSubtype E.item.type u = true) :
    m.state.Settled (.holds (.elems B) E) := by
  have hnone : ∀ {e o}, ¬ m.Pending e o := by
    rintro e o ⟨os, hos, -⟩
    rw [hend] at hos
    cases hos
  -- the copy has been taken down under a number
  have hmethod : k.method ∈ m.state.methods := by
    obtain ⟨x, hx, hxf⟩ := hM
    cases hxf with
    | reached hcm => exact (hm.announced _).mpr ⟨_, hx, hcm.methodId, htr⟩
  obtain ⟨n, hn⟩ := mem_iff_getElem?.mp ((h.noted hmethod hk).resolve_right hnone)
  have hlinked : ∀ {v O f}, k.Link n C O v f → ¬ g.program.Early v →
      m.state.Settled (.holds (.var C v) O) → m.state.Settled f := fun hlink hearly hO =>
    (h.linked hn hlink hearly hO).resolve_right fun ⟨_, _, _, hpending, _⟩ => hnone hpending
  -- the element flows from the first array to the temporary, and on to the second array
  have htemp : m.state.Settled (.holds (.var C (.copyTemp k.method n)) E) :=
    hidle.settled_of_has (hm.sound.wf.flowed (hlinked (.load hAt) hsrc hA) hE nofun)
  refine hidle.settled_of_has (hm.sound.wf.flowed (hlinked (.store hBu) hdst hB) htemp ?_)
  rintro _ ⟨⟩
  exact hEu

end Machine

/-- **Copies of array elements are complete**, early variables apart. At the end of an analysis that
models these copies, for every call of a reached method that copies elements, every array in its
source variable and every array in its target variable, the elements of the first array that are of
the element type of the second one are elements of it. -/
theorem arrays_copied {p : Program} (h : p.Accepted) {o : Options} (ho : o.arrayCopy = true)
    (policy : Policy) {more : List Observer} (hmore : ∀ w ∈ more, w.Watches) :
    let g := o.setup p policy more
    let F := (g.solve []).state.Settled
    ∀ {M : At MethodId} {d : Method} {c : Call} {x y : Slot} {A B E : At Obj} {t u : Ty},
      p.hasArrayCopy = true → F (.reached M) → g.Translates M.item → p.method? M.item = some d →
      .invoke c ∈ d.body → p.isArrayCopy c = true → c.args[0]? = some x → c.args[2]? = some y →
      ¬ p.Early (.declared M.item x) → ¬ p.Early (.declared M.item y) →
      F (.holds (M.var x) A) → A.item.type = .array t →
      F (.holds (M.var y) B) → B.item.type = .array u →
      F (.holds (.elems A) E) → p.isSubtype E.item.type u = true → F (.holds (.elems B) E) := by
  intro g F M d c x y A B E t u hcopy hM htr hd hc hk hx hy hxe hye hA hAt hB hBu hE hEu
  have hg : g.Tame := Options.tame_setup h o policy hmore
  have hobs : .arrayCopy ∈ g.observers := by
    refine mem_append_left _ (mem_append_right _ ?_)
    rw [ho]
    exact mem_singleton.mpr rfl
  obtain ⟨n, hn, hend⟩ := Setup.exists_solve_eq_run hg.wellFormed hg.unscripted []
  obtain ⟨hsteady, hcopying⟩ := Machine.copying_run hg hobs [] n
  rw [← hn] at hsteady hcopying hend
  have hidle := (Setup.listed_solve hg.wellFormed hg.unscripted []).1
  have hcopies : p.Copies ⟨M.item, x, y⟩ := ⟨hcopy, d, c, hd, hc, hk, hx, hy⟩
  exact hcopying.copied hsteady hend hidle hcopies htr hM hxe hye hA hAt hB hBu hE hEu

theorem Program.Early.isStatic_eq_false {p : Program} {v : Var} (h : p.Early v) {d : Method}
    (hd : p.method? v.method = some d) : d.isStatic = false := by
  induction h with
  | receiver hd' hs =>
    cases hd'.symm.trans hd
    exact hs
  | load _ _ _ _ ih | loadElem _ _ _ _ ih | copy _ _ _ _ _ _ ih => exact ih hd

/-- The class with the method that copies array elements. -/
def systemSource : ClassSource where
  name := "System"
  methods := [{ sig := "static native void arraycopy(Object s, int i, Object d, int j, int k)" }]

/-- A program that copies the elements of an array to another one, both being passed to the method
that copies. -/
def moveSource : ProgramSource where
  classes := [systemSource, {
    name := "A"
    methods := [
      { sig := "static void move(A[] s, A[] d)", locals := ["int i"]
        body := ["System.arraycopy(s, i, d, i, i)"] },
      { sig := "static void main()", locals := ["A a", "A[] s", "A[] d"]
        body := ["a = new A", "s = new A[]", "d = new A[]", "s[0] = a", "A.move(s, d)"] }] }]
  entries := ["A.main"]

/-- A program that copies the elements of an array to another one, both being loaded through the
receiver of the method that copies. -/
def selfCopySource : ProgramSource where
  classes := [systemSource, {
    name := "A"
    fields := ["A[] p", "A[] q"]
    methods := [
      { sig := "void move()", locals := ["A[] s", "A[] d", "int i"]
        body := ["s = this.p", "d = this.q", "System.arraycopy(s, i, d, i, i)"] },
      { sig := "static void main()", locals := ["A a", "A[] s", "A[] d"]
        body := ["a = new A", "s = new A[]", "d = new A[]", "a.p = s", "a.q = d", "s[0] = a",
          "a.move()"] }] }]
  entries := ["A.main"]

/-- In a run of one of the examples the method `M` copies from its variable `x`, pointer `i`, to its
variable `y`, pointer `j`. The one has object 1, the other object 2, and object 1 holds object 0 at
pointer `l`. -/
def ShowsCopy (p : Program) (m : Machine) (M : MethodId) (x y : Slot) (i j l : PtrId) : Prop :=
  p.hasArrayCopy = true ∧ m.agenda.isEmpty = true ∧ 1 ∈ m.state.calls.reachable ∧
  m.state.registry.methods.get? 1 = some ⟨Contexts.emptyCtx, M⟩ ∧
  ((p.method? M).any fun d => d.body.any fun
    | .invoke c => p.isArrayCopy c && c.args[0]? == some x && c.args[2]? == some y
    | _ => false) = true ∧
  m.state.registry.pointers.get? i = some (.var Contexts.emptyCtx (.declared M x)) ∧
  m.state.registry.pointers.get? j = some (.var Contexts.emptyCtx (.declared M y)) ∧
  m.state.registry.pointers.get? l = some (.elems 1) ∧
  [i, j, l].map (fun q => (m.state.pointsTo q).toList) = [[1], [2], [0]] ∧
  [0, 1, 2].map m.state.registry.objType = [.cls "A", .array (.cls "A"), .array (.cls "A")] ∧
  p.isSubtype (.cls "A") (.cls "A") = true

instance (p : Program) (m : Machine) (M : MethodId) (x y : Slot) (i j l : PtrId) :
    Decidable (ShowsCopy p m M x y i j l) :=
  inferInstanceAs (Decidable (_ ∧ _))

/-- What can be looked up, as facts. -/
theorem ShowsCopy.settled {p : Program} {m : Machine} {M : MethodId} {x y : Slot} {i j l : PtrId}
    (h : ShowsCopy p m M x y i j l) {g : Setup} (hs : m.state.Wf g) :
    m.state.Settled (.reached ⟨[], M⟩) ∧
    (∃ d c, p.method? M = some d ∧ .invoke c ∈ d.body ∧ p.isArrayCopy c = true ∧
      c.args[0]? = some x ∧ c.args[2]? = some y) ∧
    ∃ A B E : At Obj, m.state.Settled (.holds (.var [] (.declared M x)) A) ∧
      A.item.type = .array (.cls "A") ∧ m.state.Settled (.holds (.var [] (.declared M y)) B) ∧
      B.item.type = .array (.cls "A") ∧ m.state.Settled (.holds (.elems A) E) ∧
      p.isSubtype E.item.type (.cls "A") = true ∧ m.state.registry.ObjIs 2 B := by
  obtain ⟨-, -, hreach, hmethod, hcall, hx, hy, hl, hpts, htypes, hsub⟩ := h
  simp only [map_cons, map_nil, List.cons.injEq, and_true] at hpts htypes
  have hctx := m.state.registry.ctxIs_empty
  have hmem : 1 ∈ m.state.pointsTo i ∧ 2 ∈ m.state.pointsTo j ∧ 0 ∈ m.state.pointsTo l := by
    simp [OrderedSet.mem_def, hpts]
  obtain ⟨-, A, hA⟩ := hs.ptrIs hmem.1
  obtain ⟨-, B, hB⟩ := hs.ptrIs hmem.2.1
  obtain ⟨-, E, hE⟩ := hs.ptrIs hmem.2.2
  rw [hA.objType, hB.objType, hE.objType] at htypes
  refine ⟨⟨.reached 1, hreach, .reached ⟨_, hmethod, hctx, rfl⟩⟩, ?_, A, B, E,
    ⟨.holds i 1, hmem.1, .holds ⟨_, hx, .var _ hctx⟩ hA⟩, htypes.2.1,
    ⟨.holds j 2, hmem.2.1, .holds ⟨_, hy, .var _ hctx⟩ hB⟩, htypes.2.2,
    ⟨.holds l 0, hmem.2.2, .holds ⟨_, hl, .elems hA⟩ hE⟩, htypes.1 ▸ hsub, hB⟩
  obtain ⟨d, hd, hbody⟩ := (Option.any_eq_true _ _).mp hcall
  obtain ⟨st, hst, hcopy⟩ := any_eq_true.mp hbody
  split at hcopy
  · rename_i c
    simp only [Bool.and_eq_true, beq_iff_eq] at hcopy
    exact ⟨d, c, hd, hst, hcopy.1.1, hcopy.1.2, hcopy.2⟩
  · cases hcopy

set_option maxRecDepth 100000 in
theorem arrays_copied_move : ∃ p, Program.load moveSource = .ok p ∧
    let F := ((Options.setup {} p .insensitive []).solve []).state.Settled
    ∃ A B E : At Obj, F (.holds (.elems A) E) ∧
      F (.holds (.var [] (.declared ⟨"A", "move(A[],A[])"⟩ 1)) B) ∧ F (.holds (.elems B) E) := by
  obtain ⟨p, hload, hstatic, hshows⟩ : ∃ p, Program.load moveSource = .ok p ∧
      (p.method? ⟨"A", "move(A[],A[])"⟩).all (·.isStatic) = true ∧
      let g := Options.setup {} p .insensitive []
      ShowsCopy p ((g.initial []).run g 200) ⟨"A", "move(A[],A[])"⟩ 0 1 4 5 3 :=
    exists_of_any_toOption (by decide +kernel)
  have hp : p.Accepted := ⟨_, hload⟩
  have hcopy := hshows.1
  have hrun : (Options.setup {} p .insensitive []).solve [] = _ :=
    Machine.settle_eq_run (List.isEmpty_iff.mp hshows.2.1)
  dsimp only at hshows
  rw [← hrun] at hshows
  obtain ⟨hsound, -⟩ := Setup.sound_solve (g := Options.setup {} p .insensitive []) hp.wellFormed
    (Options.unscripted_setup (by simp)) []
  obtain ⟨hM, ⟨d, c, hd, hc, hk, hx, hy⟩, A, B, E, hA, hAt, hB, hBt, hE, hEt, -⟩ :=
    hshows.settled hsound.wf
  have hearly : ∀ {z}, ¬ p.Early (.declared ⟨"A", "move(A[],A[])"⟩ z) := by
    intro z hz
    have hinstance := hz.isStatic_eq_false hd
    rw [hd, Option.all_some, hinstance] at hstatic
    cases hstatic
  exact ⟨p, hload, A, B, E, hE, hB, arrays_copied hp rfl .insensitive (by simp) hcopy hM nofun hd hc
    hk hx hy hearly hearly hA hAt hB hBt hE hEt⟩

set_option maxRecDepth 100000 in
/-- **Elements of arrays in early variables are not copied.** In the second example the arrays reach
the variables of `move` while the call edge to it still waits, and are told before the copy has been
taken down. -/
theorem early_arrays_not_copied : ∃ p, Program.load selfCopySource = .ok p ∧
    p.hasArrayCopy = true ∧
    let F := ((Options.setup {} p .insensitive []).solve []).state.Settled
    let M : At MethodId := ⟨[], ⟨"A", "move()"⟩⟩
    F (.reached M) ∧
    (∃ d c, p.method? M.item = some d ∧ .invoke c ∈ d.body ∧ p.isArrayCopy c = true ∧
      c.args[0]? = some 1 ∧ c.args[2]? = some 2) ∧
    ∃ A B E : At Obj, F (.holds (M.var 1) A) ∧ A.item.type = .array (.cls "A") ∧
      F (.holds (M.var 2) B) ∧ B.item.type = .array (.cls "A") ∧ F (.holds (.elems A) E) ∧
      p.isSubtype E.item.type (.cls "A") = true ∧ ¬ F (.holds (.elems B) E) := by
  obtain ⟨p, hload, hnone, hshows⟩ : ∃ p, Program.load selfCopySource = .ok p ∧
      let g := Options.setup {} p .insensitive []
      Pointer.elems 2 ∉ ((g.initial []).run g 200).state.registry.pointers.toList ∧
      ShowsCopy p ((g.initial []).run g 200) ⟨"A", "move()"⟩ 1 2 7 8 6 :=
    exists_of_any_toOption (by decide +kernel)
  have hp : p.Accepted := ⟨_, hload⟩
  have hcopy := hshows.1
  have hrun : (Options.setup {} p .insensitive []).solve [] = _ :=
    Machine.settle_eq_run (List.isEmpty_iff.mp hshows.2.1)
  rw [← hrun] at hshows hnone
  obtain ⟨hsound, -⟩ := Setup.sound_solve (g := Options.setup {} p .insensitive []) hp.wellFormed
    (Options.unscripted_setup (by simp)) []
  obtain ⟨hM, hcall, A, B, E, hA, hAt, hB, hBt, hE, hEt, hnumber⟩ := hshows.settled hsound.wf
  refine ⟨p, hload, hcopy, hM, hcall, A, B, E, hA, hAt, hB, hBt, hE, hEt, ?_⟩
  -- there is no pointer for the elements of the second array
  rintro ⟨x, -, hx⟩
  cases hx with
  | holds hq _ =>
    obtain ⟨x, hget, hplace⟩ := hq
    cases hplace with
    | elems ho =>
      cases ho.inj hnumber
      exact hnone (Array.mem_toList_iff.mpr (Array.mem_of_getElem? hget))

end HeapFlow
