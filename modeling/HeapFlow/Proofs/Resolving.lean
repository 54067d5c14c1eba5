import HeapFlow.Proofs.Agenda

/-!
# The methods that calls name

When a call is read, the first method with the written name and as many parameters as arguments is
looked for, and its subsignature is noted down. An analysis then looks for the first method with
that subsignature, and finds the same method: a class that has no method with the name and the
number of parameters has none with the subsignature, and where the first search ends, no other
method has the subsignature of the one found. So what was checked when the call was read holds of
the method that an analysis finds. If such a call is reported as unresolved, the method is abstract.
-/

namespace HeapFlow

open List Program

section Echoes

variable {α β : Type} {a : β}

/-- The second answer echoes the first one: there is none if there is none, and it is `a` if that is
`a`. -/
def Echoes (a : β) (x y : Option β) : Prop :=
  (x = none → y = none) ∧ (x = some a → y = some a)

theorem Echoes.or {x x' y y' : Option β} (h : Echoes a x y) (h' : Echoes a x' y') :
    Echoes a (x.or x') (y.or y') := by
  cases x with
  | none => rwa [h.1 rfl]
  | some b =>
    refine ⟨fun hb => (Option.some_ne_none b hb).elim, fun hb => ?_⟩
    rw [h.2 hb]
    rfl

/-- Answers are echoed along a list. -/
theorem Echoes.findSome? {f f' : α → Option β} {l : List α} (h : ∀ b ∈ l, Echoes a (f b) (f' b)) :
    Echoes a (l.findSome? f) (l.findSome? f') := by
  induction l with
  | nil => exact ⟨id, id⟩
  | cons b l ih =>
    have hcons : ∀ f : α → Option β, (b :: l).findSome? f = (f b).or (l.findSome? f) := by
      intro f
      rw [findSome?_cons]
      cases f b <;> rfl
    rw [hcons, hcons]
    exact (h b (.head _)).or (ih fun c hc => h c (.tail _ hc))

end Echoes

namespace Program

variable {p : Program}

/-- **If the answers of all classes are echoed, so is the answer of a search.** -/
theorem echoes_search {β : Type} {a : β} {ask ask' : Class → Option β}
    (h : ∀ k ∈ p.classes, Echoes a (ask k) (ask' k)) (c : String) :
    Echoes a (p.search ask c) (p.search ask' c) := by
  rw [search, search]
  generalize p.depthBound = n
  induction n generalizing c with
  | zero => exact ⟨id, id⟩
  | succ n ih =>
    rw [searchFrom_succ, searchFrom_succ]
    refine .or (.findSome? fun k hk => h k ?_) (.findSome? fun i _ => ih i)
    exact mem_of_class? (class?_of_mem_chainFrom hk)

/-- **The method that is found by its name and the number of its parameters is the one that is found
by its subsignature.** -/
theorem resolve_of_findMethod (hp : ∀ k ∈ p.classes, k.Signed) {c name : String} {n : Nat}
    {d : Method} (h : p.findMethod c name n = some d) :
    p.resolve ⟨c, d.id.subsig⟩ = some d := by
  obtain ⟨k, hk, hd⟩ := exists_of_search h
  have hsigned := hp k (mem_of_class? hk)
  have hmem := mem_of_find?_eq_some hd
  have hsays : d.name = name ∧ d.paramTypes.length = n := by simpa using find?_some hd
  refine (echoes_search (fun k hk => ⟨fun hnone => ?_, fun hsome => ?_⟩) c).2 h
  · -- a method with the subsignature would have the name and the number of parameters
    refine find?_eq_none.mpr fun d' hd' heq => ?_
    have hsubsig : d'.id.subsig = d.id.subsig := by simpa using heq
    have hname : d'.id.name = d.id.name := by rw [MethodId.name, MethodId.name, hsubsig]
    rw [(hp k hk).name d' hd', hsigned.name d hmem, hsays.1] at hname
    have harity := (hp k hk).arity d' hd'
    rw [hsubsig, ← hsigned.arity d hmem, hsays.2] at harity
    exact find?_eq_none.mp hnone d' hd' (by simp [hname, harity])
  · exact (hp k hk).method?_subsig (mem_of_find?_eq_some hsome)

theorem findMethod_of_bare_eq {q : Program} (h : p.bare = q.bare) {c name : String} {n : Nat}
    {d : Method} (hd : q.findMethod c name n = some d) :
    ∃ d', p.findMethod c name n = some d' ∧ d'.bare = d.bare := by
  have hbare := findMethod_bare (p := p) c name n
  rw [h, findMethod_bare, hd] at hbare
  exact Option.map_eq_some_iff.mp hbare.symm

end Program

namespace Source

variable {p : Program}

/-- **Reading a call selects a method**, by the name that is written and the number of arguments.
-/
def Selects (p : Program) (text : String) (c : Call) (d : Method) : Prop :=
  ∃ result kind target qualifier name args,
    Grammar.Form.read text.toList = some (.call result kind target qualifier name args) ∧
    p.findMethod c.target.cls name c.args.length = some d

/-- A call that has been read has selected a method. -/
theorem exists_of_readStmt_invoke {m : Method} {text : String} {c : Call}
    (h : readStmt p m text = .ok (.invoke c)) :
    ∃ d, Selects p text c d ∧ c.target.subsig = d.id.subsig ∧
      (d.isStatic = true ↔ c.kind = .static) := by
  obtain ⟨form, hform, h⟩ := exists_of_readStmt h
  cases resolves_of_resolveForm h with
  | call h =>
    obtain ⟨_, d, heq, hc⟩ := exists_of_resolveCall h
    cases heq
    exact ⟨d, ⟨_, _, _, _, _, _, hform, hc.found⟩, hc.subsig, hc.isStatic⟩

end Source

/-! ### Reports -/

/-- If the task reports a call, the call has no target. -/
def Task.Justified (p : Program) : Task → Prop
  | .notify (.unresolved recv _ site) _ => p.Lacks recv site
  | _ => True

theorem Task.Justified.tell {p : Program} {e : Event} {os os' : List Observer}
    (h : (Task.notify e os).Justified p) : (Task.notify e os').Justified p := by
  cases e <;> exact h

/-- No task reports a call without cause. -/
def Program.Justifies (p : Program) (ts : List Task) : Prop :=
  ∀ t ∈ ts, t.Justified p

namespace Program.Justifies

variable {p : Program} {ts us : List Task}

theorem nil : p.Justifies [] :=
  fun _ ht => absurd ht not_mem_nil

theorem cons {t : Task} (ht : t.Justified p) (hts : p.Justifies ts) : p.Justifies (t :: ts) :=
  forall_mem_cons.mpr ⟨ht, hts⟩

theorem append (hts : p.Justifies ts) (hus : p.Justifies us) : p.Justifies (ts ++ us) :=
  forall_mem_append.mpr ⟨hts, hus⟩

theorem map {α : Type} {f : α → Task} {l : List α} (hf : ∀ a, (f a).Justified p) :
    p.Justifies (l.map f) :=
  forall_mem_map.mpr fun a _ => hf a

end Program.Justifies

theorem Setup.Reports.justifies {g : Setup} {ts : List Task} (h : g.Reports ts) :
    g.program.Justifies ts := by
  rcases h with rfl | ⟨o, c, site, rfl, hlacks⟩
  · exact .nil
  · exact .cons hlacks .nil

namespace Act

open Program (Justifies)

section Justifies

variable {g : Setup}

theorem justifies_entry (m : MethodId) : Returns (entry m) g.program.Justifies :=
  .bind fun _ => .then_pure (.cons trivial .nil)

/-- Observers report nothing without cause. -/
theorem justifies_react (e : Event) (o : Observer) : Returns (react g e o) g.program.Justifies := by
  unfold react
  split
  · split
    · exact .pure (.append (.map fun _ => trivial) (.map fun _ => trivial))
    · exact .pure .nil
  · split
    · refine .pure ?_
      unfold Program.initializations
      split
      · exact .map fun _ => trivial
      · exact .nil
    · exact .pure .nil
  · split <;> first | exact .then_pure .nil | exact .pure .nil
  · split <;> first | exact .then_pure .nil | exact .pure .nil
  · exact .then_pure .nil
  · exact .then_pure .nil
  · refine .bind fun _ => .bind fun _ => ?_
    split
    · refine .bind fun _ => .pure fun t ht => ?_
      obtain ⟨h, -, ht⟩ := mem_flatMap.mp ht
      obtain ⟨op, -, rfl⟩ := mem_map.mp ht
      trivial
    · exact .pure .nil

theorem justifies_deliver (p : PtrId) (t : Objects) :
    Returns (deliver g p t) g.program.Justifies := by
  refine .bind fun delta => ?_
  split
  · exact .pure .nil
  · refine .bind fun s => ?_
    split
    · split
      · exact .pure .nil
      · unfold grow
        dsimp only
        split
        · exact .bind fun _ => .bind fun _ => .bind fun _ => .bind fun _ =>
            .pure (.append (.map fun _ => trivial) (.cons trivial .nil))
        · exact .pure (.cons trivial .nil)
    · exact .pure .nil

theorem justifies_connect (e : CCallEdge) : Returns (connect e) g.program.Justifies := by
  have htasks : g.program.Justifies [.reach e.callee, .wire e] := .cons trivial (.cons trivial .nil)
  refine .bind fun s => .bind fun _ => ?_
  dsimp only
  split
  · exact .pure .nil
  · split
    · exact .bind fun _ => .then_pure htasks
    · exact .pure htasks

/-- Nor does waiting work. -/
theorem justifies_drain : Returns (drain g) g.program.Justifies := by
  have hdrain : g.program.Justifies [.drain] := .cons trivial .nil
  refine .bind fun s => ?_
  split
  · exact .pure .nil
  · refine .bind fun _ => ?_
    dsimp only
    split
    · exact (justifies_deliver _ _).andThen fun ts hts => .pure (hts.append hdrain)
    · exact (justifies_connect _).andThen fun ts hts => .pure (hts.append hdrain)

theorem justifies_reach (m : CMethodId) : Returns (reach g m) g.program.Justifies := by
  refine .bind fun s => .bind fun _ => ?_
  dsimp only
  split
  · exact .pure .nil
  · refine .bind fun _ => .pure (.append (.append ?_ (.map fun _ => trivial)) (.cons trivial .nil))
    split
    · exact .nil
    · exact .cons trivial .nil

theorem justifies_initClass (c : String) : Returns (initClass g c) g.program.Justifies := by
  refine .bind fun s => ?_
  split
  · exact .pure .nil
  · split
    · exact .pure .nil
    · refine .bind fun _ => .pure (.cons trivial (.append ?_ (.cons trivial .nil)))
      split
      · exact .cons trivial .nil
      · exact .nil

theorem justifies_clinit (c : String) : Returns (clinit g c) g.program.Justifies := by
  unfold clinit
  split
  · exact .pure .nil
  · exact .bind fun _ => .pure (.cons trivial .nil)

theorem justifies_wire (e : CCallEdge) : Returns (wire g e) g.program.Justifies := by
  have htold : g.program.Justifies [.notify (.call e) g.observers] := .cons trivial .nil
  refine .bind fun s => ?_
  dsimp only
  -- whatever flows, the edge is told in the end
  repeat' first | exact .pure htold | exact .throw _ | split | refine .bind fun _ => ?_

theorem justifies_operate (op : Op) : Returns (operate g op) fun x => g.program.Justifies x.1 := by
  have hnone : g.program.Justifies [] := .nil
  cases op with
  | addObjects | addFlow | addCall =>
    exact .bind fun _ => .bind fun _ => .bind fun _ => .then_pure hnone
  | reach => exact .bind fun _ => .pure (Justifies.cons trivial .nil)
  | entry m => exact (justifies_entry m).andThen fun ts hts => .bind fun _ => .pure hts
  | init => exact .pure (Justifies.cons trivial .nil)
  | look => exact .bind fun _ => .bind fun _ => .pure hnone
  | result =>
    refine .bind fun s => ?_
    split
    · exact .pure hnone
    · exact .throw _
  | solve => exact .throw _
  | checkMethod | checkPointer => exact .bind fun _ => .then_pure hnone

/-- Nor do operations of scripts. -/
theorem justifies_carryOut (op : Op) : Returns (carryOut g op) g.program.Justifies := by
  intro s ts s' h
  unfold carryOut at h
  split at h
  · next hop =>
    cases h
    exact .append (justifies_operate op _ _ _ hop) (.cons trivial .nil)
  · cases h
    exact .nil

/-- **What a task leaves to do reports nothing without cause.** -/
theorem justifies_perform (hp : g.program.WellFormed) {t : Task} (ht : t.Justified g.program) :
    Returns (perform g t) g.program.Justifies := by
  cases t with
  | notify e os =>
    cases os with
    | nil => exact .pure .nil
    | cons o os =>
      exact (justifies_react e o).andThen fun ts hts => .pure (.append hts (.cons ht.tell .nil))
  | entry m => exact justifies_entry m
  | arguments | answer => exact .then_pure .nil
  | reach m => exact justifies_reach m
  | enact m i => exact fun s ts s' h => (returns_perform_enact hp m i s ts s' h).justifies
  | initClass c => exact justifies_initClass c
  | clinit c => exact justifies_clinit c
  | receive ctx site l => exact .bind fun _ => .pure (.map fun _ => trivial)
  | dispatch i o => exact fun s ts s' h => (returns_dispatch i o s ts s' h).justifies
  | wire e => exact justifies_wire e
  | op o => exact justifies_carryOut o
  | drain => exact justifies_drain
  | finish => exact .then_pure (.cons trivial .nil)

end Justifies

end Act

theorem Mutation.justifies {g : Setup} (x : Mutation) :
    Act.Returns (x.act g) g.program.Justifies := by
  cases x with
  | addObjects | addFlow | addCall => exact .then_pure .nil
  | reach | init => exact .pure (.cons trivial .nil)
  | entry m => exact Act.justifies_entry m

namespace Machine

variable {g : Setup} {m m' : Machine}

/-- Nor does any move. -/
theorem Moves.justifies (hp : g.program.WellFormed) (hm : g.program.Justifies m.agenda)
    (h : m.Moves g m') : g.program.Justifies m'.agenda := by
  cases h with
  | intervene h =>
    cases h with
    | consult => exact hm
    | @mutate x ts s _ _ hok => exact .append (x.justifies _ _ _ hok) hm
  | step =>
    unfold Machine.step
    split
    · exact hm
    · next t rest hagenda =>
      rw [hagenda] at hm
      have hrest : g.program.Justifies rest := fun u hu => hm u (.tail _ hu)
      split
      · next hok =>
        exact .append (Act.justifies_perform hp (hm t (.head _)) _ _ _ hok) hrest
      · split
        · next hgive => exact fun u hu => hrest u (mem_of_giveUp hgive u hu)
        · exact .nil

/-- **In no run is a call reported without cause.** -/
theorem Leads.justifies (hp : g.program.WellFormed) {script : Script}
    (h : (g.initial script).Leads g m) : g.program.Justifies m.agenda := by
  induction h with
  | refl => exact .cons trivial (.cons trivial (.cons trivial .nil))
  | tail _ hmove ih => exact hmove.justifies hp ih

end Machine

/-! ### Calls are resolved as they were read -/

theorem Program.exists_of_call?_body {p : Program} {n : MethodId} {i : Nat} {c : Call}
    (h : p.call? (.body n i) = some c) :
    ∃ k ∈ p.classes, ∃ (j : Nat) (d : Method), k.methods[j]? = some d ∧
      d.body[i]? = some (.invoke c) := by
  obtain ⟨s, hs, hcall⟩ := Option.bind_eq_some_iff.mp h
  obtain ⟨d, hd, hs⟩ := Option.bind_eq_some_iff.mp hs
  obtain ⟨k, hk, hkd⟩ := method?_eq_some hd
  obtain ⟨j, hj⟩ := mem_iff_getElem?.mp (mem_of_find?_eq_some hkd)
  refine ⟨k, mem_of_class? hk, j, d, hj, ?_⟩
  cases s with
  | invoke c' =>
    cases hcall
    exact hs
  | _ => cases hcall

namespace Source

variable {s : ProgramSource} {linked headed bodied p : Program}

/-- **A call is resolved as it was read**, the one at position `i` of the method at position `j` of
a class. It has been read from what is written there, when variables and headers were known. Then a
method was selected by its name and the number of arguments, and this is the method that the call
names in the program. It has as many parameters as there are arguments, and it is static just if the
call is. -/
def ResolvesAsRead (s : ProgramSource) (headed p : Program) (cls : String) (j : Nat) (d : Method)
    (i : Nat) (c : Call) : Prop :=
  ∃ text m selected callee, s.Writes cls j i text ∧ d = m.withBody d.body ∧
    readStmt headed m (Text.trimmed text) = .ok (.invoke c) ∧
    Selects headed (Text.trimmed text) c selected ∧
    p.resolve c.target = some callee ∧ callee.bare = selected.bare ∧
    callee.params.length = c.args.length ∧ (callee.isStatic = true ↔ c.kind = .static)

/-- The method selected is the one that an analysis finds. -/
theorem resolve_of_selects (h : Stages s linked headed bodied p) (hp : p.Accepted) {text : String}
    {c : Call} {selected : Method} (hselects : Selects headed text c selected)
    (hsubsig : c.target.subsig = selected.id.subsig) :
    ∃ callee, p.resolve c.target = some callee ∧ callee.bare = selected.bare ∧
      callee.params.length = c.args.length := by
  obtain ⟨result, kind, target, qualifier, name, args, -, hfound⟩ := hselects
  obtain ⟨callee, hcallee, hbare⟩ := findMethod_of_bare_eq (bare_eq h) hfound
  have hid : callee.bare.id = selected.bare.id := by rw [hbare]
  have htarget : c.target = ⟨c.target.cls, callee.bare.id.subsig⟩ := by
    rw [hid]
    exact congrArg (MethodId.mk _) hsubsig
  have hresolve : p.resolve c.target = some callee := by
    rw [htarget]
    exact resolve_of_findMethod (fun k hk => hp.signed hk) hcallee
  refine ⟨callee, hresolve, hbare, ?_⟩
  obtain ⟨k, hk, hd⟩ := exists_of_search hcallee
  have hmem := mem_of_find?_eq_some hd
  have hsays : callee.name = name ∧ callee.paramTypes.length = c.args.length := by
    simpa using find?_some hd
  rw [hp.wellFormed.params (mem_of_class? hk) hmem, ← hsays.2,
    (hp.signed (mem_of_class? hk)).arity callee hmem]

theorem resolvesAsRead (h : Stages s linked headed bodied p) (hp : p.Accepted) {k : Class}
    (hk : k ∈ p.classes) {j i : Nat} {d : Method} {c : Call} (hd : k.methods[j]? = some d)
    (hi : d.body[i]? = some (.invoke c)) : ResolvesAsRead s headed p k.name j d i c := by
  obtain ⟨text, m, htext, hm, hstmt⟩ := exists_of_stages h hk hd hi
  obtain ⟨selected, hselects, hsubsig, hstatic⟩ := exists_of_readStmt_invoke hstmt
  obtain ⟨callee, hresolve, hbare, hparams⟩ := resolve_of_selects h hp hselects hsubsig
  have hsame : callee.bare.isStatic = selected.bare.isStatic := by rw [hbare]
  refine ⟨text, m, selected, callee, htext, hm, hstmt, hselects, hresolve, hbare, hparams, ?_⟩
  rw [← hstatic]
  exact Bool.eq_iff_iff.mp hsame

end Source

/-- **Calls are resolved as they were read.** Every call in a loaded program names the method that
was selected when the call was read. So, whatever observers do in a run, a static call in a body is
reported as unresolved only if its target is abstract, and the same is true of a call that names the
class of its method: its target exists, and it is not static. -/
theorem calls_resolve_as_read {source : ProgramSource} {p : Program}
    (h : Program.load source = .ok p) :
    (∃ linked headed bodied, Source.Stages source linked headed bodied p ∧
      ∀ k ∈ p.classes, ∀ (j i : Nat) (d : Method) (c : Call), k.methods[j]? = some d →
        d.body[i]? = some (.invoke c) → Source.ResolvesAsRead source headed p k.name j d i c) ∧
    ∀ (g : Setup) (script : Script) (m : Machine), g.program = p → (g.initial script).Leads g m →
      ∀ recv ctx n i os c, .notify (.unresolved recv ctx (.body n i)) os ∈ m.agenda →
        p.call? (.body n i) = some c → c.kind = .static ∨ c.kind = .special →
        ∃ callee, p.resolve c.target = some callee ∧ callee.isAbstract = true ∧
          (callee.isStatic = true ↔ c.kind = .static) := by
  have hp : p.Accepted := ⟨source, h⟩
  obtain ⟨linked, headed, bodied, hstages⟩ := Source.load_eq_ok_iff.mp h
  refine ⟨⟨linked, headed, bodied, hstages, fun k hk j i d c hd hi =>
    Source.resolvesAsRead hstages hp hk hd hi⟩, ?_⟩
  intro g script m hg hlead recv ctx n i os c hreport hc hkind
  obtain ⟨k, hk, j, d, hd, hi⟩ := exists_of_call?_body hc
  obtain ⟨-, -, -, callee, -, -, -, -, hresolve, -, -, hstatic⟩ :=
    Source.resolvesAsRead hstages hp hk hd hi
  refine ⟨callee, hresolve, ?_, hstatic⟩
  subst hg
  have hlacks : g.program.Lacks recv (.body n i) := hlead.justifies hp.wellFormed _ hreport
  cases hlacks with
  | static hc' hkind' hnone =>
    cases Option.some.inj (hc.symm.trans hc')
    rw [Program.staticCallee?, hresolve, Option.filter_eq_none_iff] at hnone
    have hunfit := hnone callee rfl
    rw [hstatic.mpr hkind'] at hunfit
    simpa using hunfit
  | special hc' hkind' hnone =>
    cases Option.some.inj (hc.symm.trans hc')
    rw [hresolve, Option.filter_eq_none_iff] at hnone
    have hunfit := hnone callee rfl
    have hinstance : callee.isStatic = false := by
      rw [← Bool.not_eq_true, hstatic, hkind']
      decide
    simpa [hinstance] using hunfit
  | dispatched hc' hkind' =>
    cases Option.some.inj (hc.symm.trans hc')
    rcases hkind with hkind | hkind <;> rw [hkind] at hkind' <;> simp at hkind'

/-- A class has a method with one parameter and inherits two of the same name, one of them with as
many parameters; and an interface has a static method without a body. -/
def overloadsSource : ProgramSource where
  classes := [
    { name := "Shape", isInterface := true, methods := [{ sig := "static void reset()" }] },
    { name := "Base"
      methods := [
        { sig := "void draw(Object a)", body := ["return"] },
        { sig := "void draw(Object a, Object b)", body := ["return"] }] },
    { name := "Round", superclass := "Base"
      methods := [{ sig := "void draw(String s)", body := ["return"] }] },
    { name := "Main"
      methods := [
        { sig := "static void main()", locals := ["Round r"]
          body := ["r = new Round", "r.draw(r)", "r.draw(r, r)", "Shape.reset()"] }] }]
  entries := ["Main.main"]

/-- The call with two arguments is resolved as it was read, in the superclass, though its class has
a method of the same name. The static call is reported in a run, and its target is abstract. -/
theorem calls_resolve_as_read_overloads : ∃ p m, Program.load overloadsSource = .ok p ∧
    let g := Options.setup {} p (.obj 2) [.profiler]
    let main : MethodId := ⟨"Main", "main()"⟩
    let drawBoth : Call := ⟨.virtual, ⟨"Round", "draw(Object,Object)"⟩, some 0, [0, 0], none⟩
    ((g.initial []).Leads g m ∧
      .notify (.unresolved none Contexts.emptyCtx (.body main 3)) g.observers ∈ m.agenda) ∧
    (∃ headed k d, p.class? "Main" = some k ∧ k.methods[0]? = some d ∧
      d.body[2]? = some (.invoke drawBoth) ∧
      Source.ResolvesAsRead overloadsSource headed p "Main" 0 d 2 drawBoth) ∧
    ∃ callee, p.resolve ⟨"Shape", "reset()"⟩ = some callee ∧ callee.isAbstract = true ∧
      callee.isStatic = true := by
  obtain ⟨p, hp, hdraw, hreset, hreport⟩ : ∃ p, Program.load overloadsSource = .ok p ∧
      let g := Options.setup {} p (.obj 2) [.profiler]
      let main : MethodId := ⟨"Main", "main()"⟩
      ((p.class? "Main").bind fun k => (k.methods[0]?).bind fun d => d.body[2]?) =
        some (.invoke ⟨.virtual, ⟨"Round", "draw(Object,Object)"⟩, some 0, [0, 0], none⟩) ∧
      p.call? (.body main 3) = some ⟨.static, ⟨"Shape", "reset()"⟩, none, [], none⟩ ∧
      .notify (.unresolved none Contexts.emptyCtx (.body main 3)) g.observers ∈
        ((g.initial []).run g 55).agenda :=
    exists_of_any_toOption (by decide +kernel)
  obtain ⟨k, hk, hmain⟩ := Option.bind_eq_some_iff.mp hdraw
  obtain ⟨d, hd, hi⟩ := Option.bind_eq_some_iff.mp hmain
  obtain ⟨⟨linked, headed, bodied, -, hread⟩, hrun⟩ := calls_resolve_as_read hp
  have hleads := Machine.leads_run (Options.setup {} p (.obj 2) [.profiler]) 55
    ((Options.setup {} p (.obj 2) [.profiler]).initial [])
  have hresolves := hread k (mem_of_class? hk) 0 2 d _ hd hi
  rw [name_of_class? hk] at hresolves
  obtain ⟨callee, hcallee, habstract, hstatic⟩ :=
    hrun _ [] _ rfl hleads _ _ _ _ _ _ hreport hreset (.inl rfl)
  exact ⟨p, _, hp, ⟨hleads, hreport⟩, ⟨headed, k, d, hk, hd, hi, hresolves⟩, callee, hcallee,
    habstract, hstatic.mpr rfl⟩

end HeapFlow
