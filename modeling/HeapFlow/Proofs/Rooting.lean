import HeapFlow.Proofs.Drawing
import HeapFlow.Proofs.News
import HeapFlow.Proofs.Timing

/-!
# Why methods are reachable

Every method of the call graph has a reason to be reachable (`State.Rooted`): it is an entry method,
or the initializer of an initialized class, or the callee of an edge whose call site lies in a
method that stands *before* it in the list. The reason has to last from when the method is to be
reached until it is, so the invariant (`Machine.Charted`) speaks of the agenda as well. For callees
it rests on `Machine.Timely`: when a call edge is taken, its caller is reached.
-/

namespace HeapFlow

/-- **A method has a reason to be reachable** when the methods `earlier` are. -/
inductive State.Rooted (g : Setup) (s : State) (earlier : List CMethodId) (cm : CMethodId) :
    Prop where
  | entry {b : Bool} {m : MethodId} (ho : .entryPoints b ∈ g.observers)
      (hm : m ∈ g.program.entries ++ (if b then g.program.implicitEntries else []))
      (hcm : s.registry.MethodIs cm ⟨[], m⟩) (he : cm ∈ s.calls.entries)
  | clinit {c : String} {k : Class} {d : Method} (hc : c ∈ s.initialized)
      (hk : g.program.class? c = some k) (hd : k.clinit? = some d)
      (hcm : s.registry.MethodIs cm ⟨[], d.id⟩)
  | callee {e : CCallEdge} {caller : CMethodId} (he : e ∈ s.calls.edges) (hcm : e.callee = cm)
      (hsite : s.calls.container? e.site = some caller) (hcaller : caller ∈ earlier)

/-- A task that leads to a reachable method has a reason to do so. -/
def State.Backs (g : Setup) (s : State) : Task → Prop
  | .entry m => ∃ b, .entryPoints b ∈ g.observers ∧
      m ∈ g.program.entries ++ (if b then g.program.implicitEntries else [])
  | .clinit c => c ∈ s.initialized
  | .reach cm => s.Rooted g s.calls.reachable cm
  | _ => True

section Growing

variable {g : Setup} {s s' : State} (hle : s.registry ≤ s'.registry)
  (hcalls : s.calls.Extends s'.calls) (hinit : s.initialized ⊆ s'.initialized)

include hle hcalls hinit

/-- Reasons last. -/
theorem State.Rooted.mono {l l' : List CMethodId} {cm : CMethodId} (h : s.Rooted g l cm)
    (hl : l ⊆ l') : s'.Rooted g l' cm := by
  cases h with
  | entry ho hm hcm he => exact .entry ho hm (hcm.mono hle) (hcalls.entries he)
  | clinit hc hk hd hcm => exact .clinit (hinit hc) hk hd (hcm.mono hle)
  | callee he hcm hsite hcaller =>
    exact .callee (hcalls.edges he) hcm (hcalls.container? hsite) (hl hcaller)

theorem State.Backs.mono {t : Task} (h : s.Backs g t) : s'.Backs g t := by
  cases t with
  | entry m => exact h
  | clinit c => exact hinit h
  | reach cm => exact State.Rooted.mono hle hcalls hinit h hcalls.reachable
  | _ => trivial

end Growing

theorem State.backs_of_not_leads {g : Setup} {s : State} {t : Task} (h : ¬ t.Leads) :
    s.Backs g t := by
  cases t with
  | entry | clinit | reach => exact absurd trivial h
  | _ => trivial

section Houses

variable {r : Registry} {i : CSiteId} {m n : CMethodId}

/-- A call site lies in one method. -/
theorem Registry.Houses.unique (hm : r.Houses i m) (hn : r.Houses i n) : m = n := by
  obtain ⟨S, hS, hm⟩ := hm
  obtain ⟨T, hT, hn⟩ := hn
  rw [hS.unique hT] at hm
  exact hm.inj hn

theorem Registry.Houses.method? (h : r.Houses i m) :
    r.method? (r.siteContext i) (r.callSite i).method = some m := by
  obtain ⟨S, hS, hm⟩ := h
  rw [hS.callSite]
  exact hm.method? hS.ctx

end Houses

namespace Machine

variable {g : Setup} {m : Machine}

/-- **The call graph is in order**: the containers of call sites are right, edges have one, and
methods have their reasons. -/
structure Charted (g : Setup) (m : Machine) : Prop where
  housed : ∀ {i cm}, m.state.calls.container? i = some cm → m.state.registry.Houses i cm
  sited : ∀ {e}, e ∈ m.state.calls.edges → (m.state.calls.container? e.site).isSome = true
  rooted : ∀ {earlier cm later}, m.state.calls.reachable = earlier ++ cm :: later →
    m.state.Rooted g earlier cm
  backed : ∀ t ∈ m.agenda, m.state.Backs g t

theorem charted_initial (g : Setup) (script : Script) : (g.initial script).Charted g where
  housed h := by cases h
  sited h := by cases h
  rooted {earlier cm later} h := by
    change [] = earlier ++ cm :: later at h
    simp at h
  backed t ht := by
    rcases mem_triple.mp ht with rfl | rfl | rfl <;> trivial

theorem Charted.container (h : m.Charted g) {e : CCallEdge} (he : e ∈ m.state.calls.edges) :
    ∃ cm, m.state.calls.container? e.site = some cm ∧ m.state.registry.Houses e.site cm := by
  obtain ⟨cm, hcm⟩ := Option.isSome_iff_exists.mp (h.sited he)
  exact ⟨cm, hcm, h.housed hcm⟩

/-- **A call edge that is added has a reachable caller**, and it is the one that the call site
says. -/
theorem Timely.exists_caller (ht : m.Timely g) (hm : m.Steady g) {rest : List Task}
    (hA : m.agenda = .drain :: rest) {e : CCallEdge} {l : List CCallEdge}
    (hl : m.state.work.calls.toList = e :: l) :
    ∃ cm ∈ m.state.calls.reachable, m.state.registry.Houses e.site cm := by
  have hwaits : e ∈ m.state.work.calls.toList := hl ▸ .head _
  obtain ⟨E, hE⟩ := hm.sound.wf.edgeIs (.inr hwaits)
  obtain ⟨x, hx, hxM⟩ := ht.home_reached hm hA hl hE
  cases hxM with
  | @reached cm _ hcm => exact ⟨cm, hx, E.site, hE.site, hcm⟩

section Step

variable {t : Task} {rest ts : List Task} {s' : State} (hg : g.Tame) (hm : m.Steady g)
  (hp : m.Performs g t rest ts s')

include hg hm hp

theorem Performs.draws : t.Draws m.state s' := by
  have hmem : t ∈ m.agenda := hp.agenda ▸ .head _
  exact Act.draws_perform hg.wellFormed hg.honest hm.known.state hm.sound.wf
    (hm.known.agenda t hmem) (hm.sound.supported t hmem).means hp.effect.le hp.run

omit hg in
theorem Performs.initialized : m.state.initialized ⊆ s'.initialized :=
  fun c hc => hp.notes hm (x := .initialized c) hc

theorem Charted.backed_step (ht : m.Timely g) (h : m.Charted g)
    (hsited : ∀ {e}, e ∈ s'.calls.edges →
      ∃ cm, s'.calls.container? e.site = some cm ∧ s'.registry.Houses e.site cm)
    {u : Task} (hu : u ∈ ts) : s'.Backs g u := by
  have hmem : t ∈ m.agenda := hp.agenda ▸ .head _
  cases hp.leaves.stems hu with
  | other _ h => exact State.backs_of_not_leads h.not_leads
  | tell | init | above | more => exact State.backs_of_not_leads id
  | entry os hentry =>
    have hos := (hm.sound.supported _ hmem).means.1
    exact ⟨_, hos (.head _), hentry⟩
  | clinit c => exact Act.mem_initialized_of_initClass hp.run hu
  | reachEntry hcm =>
    obtain ⟨b, ho, hentry⟩ := h.backed _ hmem
    exact .entry ho hentry hcm (Act.mem_entries_of_entry hp.run hu)
  | reachClinit hk hd hcm => exact .clinit (hp.initialized hm (h.backed _ hmem)) hk hd hcm
  | @reachCallee e w hpoll =>
    have he := hp.outcome.mem_edges_of_poll hpoll
    obtain ⟨-, -, -, hl⟩ := hm.known.state.work.of_poll_call hpoll
    obtain ⟨caller, hreach, hcaller⟩ := ht.exists_caller hm hp.agenda hl
    obtain ⟨cm, hcm, hhouses⟩ := hsited he
    -- the reached caller is the recorded container
    have hsame : cm = caller := hhouses.unique (hcaller.mono hp.effect.le)
    exact .callee he rfl (hsame ▸ hcm) ((hp.draws hg hm).extends.reachable hreach)

/-- **A step keeps the call graph in order.** -/
theorem Charted.step (ht : m.Timely g) (h : m.Charted g) :
    Charted g { state := s', agenda := ts ++ rest } := by
  have hdraws := hp.draws hg hm
  have hext := hdraws.extends
  have hinit := hp.initialized hm
  have hhoused : ∀ {i cm}, s'.calls.container? i = some cm → s'.registry.Houses i cm := by
    intro i cm hi
    rcases hdraws.houses hi with hold | hnew
    · exact (h.housed hold).mono hp.effect.le
    · exact hnew
  have hsited : ∀ {e}, e ∈ s'.calls.edges → (s'.calls.container? e.site).isSome = true := by
    intro e he
    rcases hdraws.container he with hold | hnew
    · obtain ⟨cm, hcm, -⟩ := h.container hold
      rw [hext.container? hcm, Option.isSome_some]
    · exact hnew
  refine ⟨hhoused, hsited, fun {earlier cm later} hsplit => ?_, fun u hu => ?_⟩
  · rcases hdraws.reachable with hsame | ⟨n, rfl, hnew⟩
    · exact (h.rooted (hsame ▸ hsplit)).mono hp.effect.le hext hinit (List.Subset.refl _)
    · rcases exists_of_append_eq (hnew.symm.trans hsplit) with ⟨k, hk⟩ | ⟨k, rfl⟩
      · exact (h.rooted hk).mono hp.effect.le hext hinit (List.Subset.refl _)
      · -- the method is the last one, and its reason was there when it was to be reached
        have hlast : [n] = k ++ cm :: later := by
          have hlist := hnew.symm.trans hsplit
          rw [List.append_assoc] at hlist
          exact List.append_cancel_left hlist
        have hback : m.state.Rooted g m.state.calls.reachable n :=
          h.backed (.reach n) (hp.agenda ▸ .head _)
        rcases List.singleton_eq_append_iff.mp hlast with ⟨rfl, hcm⟩ | ⟨-, hcm⟩
        · cases hcm
          exact hback.mono hp.effect.le hext hinit (List.subset_append_left _ _)
        · cases hcm
  · rcases List.mem_append.mp hu with hu | hu
    · refine h.backed_step hg hm hp ht (fun {e} he => ?_) hu
      obtain ⟨cm, hcm⟩ := Option.isSome_iff_exists.mp (hsited he)
      exact ⟨cm, hcm, hhoused hcm⟩
    · exact (h.backed u (hp.agenda ▸ .tail _ hu)).mono hp.effect.le hext hinit

end Step

/-- So it is throughout a run. -/
theorem charted_run (hg : g.Tame) (script : Script) (n : Nat) :
    ((g.initial script).run g n).Steady g ∧ ((g.initial script).run g n).Timely g ∧
      ((g.initial script).run g n).Charted g :=
  Steady.induction hg (I := fun m => m.Timely g ∧ m.Charted g)
    ⟨timely_initial g script, charted_initial g script⟩
    (fun hm hp hm' ⟨ht, h⟩ => ⟨ht.step hg hm hp hm', h.step hg hm hp ht⟩) n

theorem Charted.new_edge (hg : g.Tame) (hm : m.Steady g) (ht : m.Timely g) (h : m.Charted g)
    {e : CCallEdge} (hold : e ∉ m.state.calls.edges) (hnew : e ∈ (m.step g).state.calls.edges) :
    ∃ cm ∈ m.state.calls.reachable, m.state.registry.Houses e.site cm ∧
      (m.step g).state.calls.container? e.site = some cm := by
  cases hA : m.agenda with
  | nil =>
    rw [step_of_nil hA] at hnew
    exact absurd hnew hold
  | cons t rest =>
    obtain ⟨ts, s', hp, hm'⟩ := hm.performs hg hA
    rw [hp.next] at hm' hnew ⊢
    obtain ⟨rfl, l, hl⟩ := (hp.outcome.edges_back hm.known.state hnew).resolve_left hold
    obtain ⟨cm, hreach, hhouses⟩ := ht.exists_caller hm hA hl
    obtain ⟨cm', hcm', hhouses'⟩ := (h.step hg hm hp ht).container hnew
    have hsame : cm' = cm := hhouses'.unique (hhouses.mono hp.effect.le)
    exact ⟨cm, hreach, hhouses, hsame ▸ hcm'⟩

section Ending

variable (hA : m.agenda = [])

include hA

theorem Ready.settled_of_nil {M : At MethodId} (h : m.Ready g M) :
    m.state.Settled (.reached M) := by
  rcases h with h | ⟨u, hu, -⟩
  · exact h.settled id
  · rw [hA] at hu
    cases hu

/-- The container of a call site with an edge is reachable. -/
theorem Charted.container_reachable (h : m.Charted g) (ht : m.Timely g) (hm : m.Steady g)
    {e : CCallEdge} (he : e ∈ m.state.calls.edges) :
    ∃ cm ∈ m.state.calls.reachable, m.state.calls.container? e.site = some cm ∧
      m.state.registry.Houses e.site cm := by
  obtain ⟨cm, hcm, hhouses⟩ := h.container he
  obtain ⟨E, hE⟩ := hm.sound.wf.edgeIs (.inl he)
  have hsettled : m.state.Settled (.call E) := ⟨.call e, he, .call hE⟩
  obtain ⟨x, hx, hxM⟩ := (ht.called hsettled).settled_of_nil hA
  cases hxM with
  | @reached caller _ hcaller =>
    have hsame : caller = cm := Registry.Houses.unique ⟨E.site, hE.site, hcaller⟩ hhouses
    exact ⟨cm, hsame ▸ hx, hcm, hhouses⟩

/-- When nothing is left to do and nothing waits, a variable that holds objects belongs to a reached
method: the calls that early variables owe their objects to have been made. -/
theorem Timely.reached_of_holds (ht : m.Timely g) (hm : m.Steady g) (hidle : m.state.Idle)
    {C : Ctx} {v : Var} {O : At Obj} (h : m.state.Settled (.holds (.var C v) O)) :
    m.state.Settled (.reached ⟨C, v.method⟩) := by
  rcases ht.held h with hreached | ⟨-, E, hE, hhas⟩
  · exact hreached
  · rw [← hE]
    exact (hm.ready_callee (hidle.settled_of_has hhas)).settled_of_nil hA

theorem Timely.exists_method (ht : m.Timely g) (hm : m.Steady g) (hidle : m.state.Idle)
    {q : PtrId} {c : CtxId} {v : Var} {x : CObjId}
    (hq : m.state.registry.pointers.get? q = some (.var c v)) (hx : x ∈ m.state.pointsTo q) :
    ∃ cm ∈ m.state.calls.reachable, m.state.registry.method? c v.method = some cm := by
  obtain ⟨⟨P, hP⟩, O, hO⟩ := hm.sound.wf.ptrIs hx
  obtain ⟨y, hy, hyP⟩ := hP
  cases hq.symm.trans hy
  cases hyP with
  | @var _ C _ hC =>
    have hholds : m.state.Settled (.holds (.var C v) O) :=
      ⟨.holds q x, hx, .holds ⟨_, hq, .var v hC⟩ hO⟩
    obtain ⟨z, hz, hzM⟩ := ht.reached_of_holds hA hm hidle hholds
    cases hzM with
    | @reached cm _ hcm => exact ⟨cm, hz, hcm.method? hC⟩

end Ending

end Machine

/-- **The call graph is rooted.** When a call edge is added, the method in a context that contains
its call site is reachable already. At the end the call site of every edge has a container, which is
the method of the site in the context of the site, and reachable; every reachable method is an entry
method, or the initializer of an initialized class in the empty context, or the callee of an edge
whose container became reachable earlier; and the method of a variable that holds objects is
reachable in the context of the variable. -/
theorem call_graph_rooted {p : Program} (h : p.Accepted) (o : Options) (policy : Policy)
    {more : List Observer} (hmore : ∀ w ∈ more, w.Watches) :
    let g := o.setup p policy more
    (∀ n e, let m := (g.initial []).run g n
      e ∉ m.state.calls.edges → e ∈ (m.step g).state.calls.edges →
      ∃ cm ∈ m.state.calls.reachable,
        m.state.registry.method? (m.state.registry.siteContext e.site)
          (m.state.registry.callSite e.site).method = some cm ∧
        (m.step g).state.calls.container? e.site = some cm) ∧
    let s := (g.solve []).state
    (∀ e ∈ s.calls.edges, ∃ cm ∈ s.calls.reachable, s.calls.container? e.site = some cm ∧
      s.registry.method? (s.registry.siteContext e.site) (s.registry.callSite e.site).method =
        some cm) ∧
    (∀ earlier cm later, s.calls.reachable = earlier ++ cm :: later →
      (∃ m ∈ p.entries ++ (if o.implicitEntries then p.implicitEntries else []),
        s.registry.method? Contexts.emptyCtx m = some cm ∧ cm ∈ s.calls.entries) ∨
      (∃ c ∈ s.initialized, ∃ k d, p.class? c = some k ∧ k.clinit? = some d ∧
        s.registry.method? Contexts.emptyCtx d.id = some cm) ∨
      ∃ e ∈ s.calls.edges, e.callee = cm ∧
        ∃ caller ∈ earlier, s.calls.container? e.site = some caller) ∧
    ∀ q c v x, s.registry.pointers.get? q = some (.var c v) → x ∈ s.pointsTo q →
      ∃ cm ∈ s.calls.reachable, s.registry.method? c v.method = some cm := by
  intro g
  have hg : g.Tame := Options.tame_setup h o policy hmore
  refine ⟨?_, ?_⟩
  · intro n e m hold hnew
    obtain ⟨hm, ht, hcharted⟩ := Machine.charted_run hg [] n
    obtain ⟨cm, hreach, hhouses, hcm⟩ := hcharted.new_edge hg hm ht hold hnew
    exact ⟨cm, hreach, hhouses.method?, hcm⟩
  intro s
  obtain ⟨n, hn, hA⟩ := Setup.exists_solve_eq_run hg.wellFormed hg.unscripted []
  obtain ⟨hm, ht, hcharted⟩ := Machine.charted_run hg [] n
  have hidle := (Setup.listed_solve hg.wellFormed hg.unscripted []).1
  rw [← hn] at hA hm ht hcharted
  refine ⟨fun e he => ?_, fun earlier cm later hsplit => ?_, fun q c v x hq hx => ?_⟩
  · obtain ⟨cm, hreach, hcm, hhouses⟩ := hcharted.container_reachable hA ht hm he
    exact ⟨cm, hreach, hcm, hhouses.method?⟩
  · have hempty : s.registry.CtxIs Contexts.emptyCtx [] := Registry.ctxIs_empty _
    cases hcharted.rooted hsplit with
    | entry ho hentry hcm he =>
      -- only one observer lets the analysis begin
      rcases Options.mem_observers_setup hmore id ho with hb | ⟨hb, -⟩ | ⟨hb, -⟩ | ⟨hb, -⟩
      · cases hb
        exact .inl ⟨_, hentry, hcm.method? hempty, he⟩
      all_goals cases hb
    | clinit hc hk hclinit hcm =>
      exact .inr (.inl ⟨_, hc, _, _, hk, hclinit, hcm.method? hempty⟩)
    | callee he hcm hsite hcaller => exact .inr (.inr ⟨_, he, hcm, _, hcaller, hsite⟩)
  · exact ht.exists_method hA hm hidle hq hx

/-- A thread that passes something on: the call in `run` is resolved when `run` has got its receiver
and is not reached yet. -/
def relaySource : ProgramSource where
  classes := [
    { name := "Thread", isLibrary := true
      methods := [{ sig := "native void start()" }, { sig := "void run()" }] },
    { name := "Relay", superclass := "Thread"
      methods := [
        { sig := "static void <clinit>()" },
        { sig := "void run()", body := ["this.pass()"] },
        { sig := "void pass()" }] },
    { name := "Main"
      methods := [{
        sig := "static void main()"
        locals := ["Relay r"]
        body := ["r = new Relay", "r.start()"] }] }]
  entries := ["Main.main"]

/-- The methods of the example in the order in which they become reachable. -/
def relayMethods : List MethodId :=
  [⟨"Main", "main()"⟩, ⟨"Relay", "<clinit>()"⟩, ⟨"Thread", "start()"⟩, ⟨"Relay", "run()"⟩,
    ⟨"Relay", "pass()"⟩]

/-- The call edge in `run` waits when only the first two methods are reachable; when it is added,
its caller is reachable as well. -/
theorem call_graph_rooted_relay : ∃ p, Program.load relaySource = .ok p ∧
    let g := Options.setup {} p (.obj 1) [.checker]
    let m n := (g.initial []).run g n
    let e : CCallEdge := ⟨.virtual, 2, 4⟩
    (e ∈ (m 100).state.work.calls.toList ∧ (m 100).state.calls.reachable = [0, 1]) ∧
    (e ∉ (m 145).state.calls.edges ∧ e ∈ ((m 145).step g).state.calls.edges ∧
      ∃ cm ∈ (m 145).state.calls.reachable,
        (m 145).state.registry.method? ((m 145).state.registry.siteContext e.site)
          ((m 145).state.registry.callSite e.site).method = some cm ∧
        ((m 145).step g).state.calls.container? e.site = some cm) ∧
    let s := (g.solve []).state
    s.calls.reachable.map s.registry.methodId = relayMethods ∧
    (∀ e ∈ s.calls.edges, ∃ cm ∈ s.calls.reachable, s.calls.container? e.site = some cm ∧
      s.registry.method? (s.registry.siteContext e.site) (s.registry.callSite e.site).method =
        some cm) ∧
    (∀ earlier cm later, s.calls.reachable = earlier ++ cm :: later →
      (∃ m ∈ p.entries, s.registry.method? Contexts.emptyCtx m = some cm ∧ cm ∈ s.calls.entries) ∨
      (∃ c ∈ s.initialized, ∃ k d, p.class? c = some k ∧ k.clinit? = some d ∧
        s.registry.method? Contexts.emptyCtx d.id = some cm) ∨
      ∃ e ∈ s.calls.edges, e.callee = cm ∧
        ∃ caller ∈ earlier, s.calls.container? e.site = some caller) ∧
    ∀ q c v x, s.registry.pointers.get? q = some (.var c v) → x ∈ s.pointsTo q →
      ∃ cm ∈ s.calls.reachable, s.registry.method? c v.method = some cm := by
  obtain ⟨p, hp, hwaits, hold, hnew, hend, hmethods⟩ : ∃ p, Program.load relaySource = .ok p ∧
      let g := Options.setup {} p (.obj 1) [.checker]
      let m n := (g.initial []).run g n
      let e : CCallEdge := ⟨.virtual, 2, 4⟩
      (e ∈ (m 100).state.work.calls.toList ∧ (m 100).state.calls.reachable = [0, 1]) ∧
      e ∉ (m 145).state.calls.edges ∧ e ∈ ((m 145).step g).state.calls.edges ∧
      (m 300).agenda.isEmpty = true ∧
      (m 300).state.calls.reachable.map (m 300).state.registry.methodId = relayMethods :=
    exists_of_any_toOption (by decide +kernel)
  have hsolve := Machine.settle_eq_run (List.isEmpty_iff.mp hend)
  have hwatch : ∀ w ∈ [Observer.checker], w.Watches := by simp [Observer.Watches]
  obtain ⟨hmoment, hedges, hrooted, hvars⟩ := call_graph_rooted ⟨_, hp⟩ {} (.obj 1) hwatch
  refine ⟨p, hp, hwaits, ⟨hold, hnew, hmoment 145 _ hold hnew⟩, ?_, hedges, ?_, hvars⟩
  · rw [Setup.solve, hsolve]
    exact hmethods
  · simpa using hrooted

end HeapFlow
