import HeapFlow.Proofs.Agenda

/-!
# Started threads

A thread is started by calling a method on it, and the running thread is asked for by calling
another method. The observer that models threads is told of the receivers of the one method and of
the contexts in which the other one is reached, in whatever order. It keeps a list of each, and
brings every new entry together with the other list.
-/

namespace HeapFlow

variable {g : Setup}

section End

variable (hg : g.Tame) (ho : .threads ∈ g.observers) (hthreads : g.program.hasThreads = true)

include hg ho hthreads

/-- **A started thread runs**: its body is called, with the thread for its receiver. -/
theorem Setup.Tame.thread_runs (ht : g.Translates threadStart) {C : Ctx} {O : At Obj} {r : Method}
    {f : Fact} (hO : (g.solve []).state.Settled (.holds (.var C (.declared threadStart 0)) O))
    (hr : g.program.runMethod? O.item.type = some r)
    (hf : BindFact g .other ⟨C, .threadRun⟩ O r.id f) : (g.solve []).state.Settled f := by
  refine hg.settled_of_follows (Fact.kept_of_ne_flow fun F h => ?_) hO
    (.use ht (.run ho hthreads hr hf))
  subst h
  cases hf

/-- **A started thread is returned** wherever the running thread is asked for. -/
theorem Setup.Tame.thread_returned (ht : ∀ m, g.Translates m) {d : Method}
    (hd : g.program.method? threadCurrent = some d) (hstatic : d.isStatic = true) {C D : Ctx}
    {O : At Obj} {v : Slot}
    (hO : (g.solve []).state.Settled (.holds (.var C (.declared threadStart 0)) O))
    (hD : (g.solve []).state.Settled (.reached ⟨D, threadCurrent⟩)) (hv : v ∈ d.returned) :
    (g.solve []).state.Settled (.holds (.var D (.declared threadCurrent v)) O) := by
  have hreturns : g.program.returnsThread threadCurrent = true := by
    simp [Program.returnsThread, hthreads, hd, hstatic]
  -- the two come together whichever was first
  have hstarted : (g.solve []).state.Settled (.started O) :=
    hg.settled_of_follows (Fact.kept_of_ne_flow (by simp)) hO (.use (ht _) (.start ho hthreads))
  have hasks : (g.solve []).state.Settled (.asks D) :=
    hg.settled_of_follows (Fact.kept_of_ne_flow (by simp)) hD (.ask ho (ht _) hreturns)
  obtain ⟨hidle, -⟩ := Setup.listed_solve hg.wellFormed hg.unscripted []
  exact hidle.settled_of_has ((hg.steady_solve []).mindful.returned hstarted hasks hd hv)

end End

/-- **Starting threads is modelled completely.** At the end of an analysis that models threads, for
every receiver of the method that starts threads, in whatever context, the body that the object has
is called in the context that the policy selects, and has the object for its receiver. Wherever the
method that returns the running thread is reached, all these objects are in the variables that it
returns. -/
theorem started_threads_run {p : Program} (h : p.Accepted) {start : Method}
    (hstart : p.method? threadStart = some start) (hinstance : start.isStatic = false)
    (hrun : (p.method? threadRun).isSome = true) {o : Options} (ho : o.threadStart = true)
    (happ : o.onlyApp = false) (policy : Policy) {more : List Observer}
    (hmore : ∀ w ∈ more, w.Watches) :
    let g := o.setup p policy more
    let F := (g.solve []).state.Settled
    (∀ (C : Ctx) (O : At Obj) (r : Method), F (.holds (.var C (.declared threadStart 0)) O) →
      p.dispatch O.item.type threadRun.subsig = some r → r.isAbstract = false →
      r.isStatic = false →
      let callee : At MethodId := ⟨policy.recvCtx ⟨C, .threadRun⟩ O, r.id⟩
      F (.call ⟨.other, ⟨C, .threadRun⟩, callee⟩) ∧ F (.holds (callee.var 0) O)) ∧
    ∀ d, p.method? threadCurrent = some d → d.isStatic = true →
      ∀ (C D : Ctx) (O : At Obj), F (.reached ⟨D, threadCurrent⟩) →
        F (.holds (.var C (.declared threadStart 0)) O) →
        ∀ v ∈ d.returned, F (.holds (.var D (.declared threadCurrent v)) O) := by
  intro g F
  have hg : g.Tame := Options.tame_setup h o policy hmore
  have hobs : .threads ∈ g.observers := by simp [g, Options.setup, Options.observers, ho]
  have hall : ∀ m, g.Translates m := fun _ honly =>
    absurd (happ.symm.trans honly) Bool.false_ne_true
  have hthreads : g.program.hasThreads = true := by
    show p.hasThreads = true
    simp [Program.hasThreads, hstart, hinstance, hrun]
  refine ⟨fun C O r hO hr habstract hstatic => ?_, fun d hd hstatic C D O hD hO v hv => ?_⟩
  · have hbody : g.program.runMethod? O.item.type = some r := by
      show (p.dispatch O.item.type threadRun.subsig).filter _ = some r
      simp [hr, habstract, hstatic]
    exact ⟨hg.thread_runs hobs hthreads (hall _) hO hbody .call,
      hg.thread_runs hobs hthreads (hall _) hO hbody .this⟩
  · exact hg.thread_returned hobs hthreads hall hd hstatic hO hD hv

/-- A program with one thread, which asks for the running thread when it runs. -/
def workerSource : ProgramSource where
  classes := [
    { name := "Thread"
      methods := [
        { sig := "void start()" },
        { sig := "void run()" },
        { sig := "static Thread currentThread()", locals := ["Thread t"], body := ["return t"] }] },
    { name := "Worker", superclass := "Thread"
      methods := [
        { sig := "void run()", locals := ["Thread t"], body := ["t = Thread.currentThread()"] }] },
    { name := "Main"
      methods := [
        { sig := "static void main()", locals := ["Thread t"]
          body := ["t = new Worker", "t.start()"] }] }]
  entries := ["Main.main"]

set_option maxRecDepth 100000 in
/-- There is a started thread, its body is called, and it is what the running thread is. -/
theorem started_threads_run_worker : ∃ p, Program.load workerSource = .ok p ∧
    let F := ((Options.setup {} p .insensitive []).solve []).state.Settled
    ∃ O : At Obj, F (.holds (.var [] (.declared threadStart 0)) O) ∧
      F (.call ⟨.other, ⟨[], .threadRun⟩, ⟨[], ⟨"Worker", "run()"⟩⟩⟩) ∧
      F (.holds (.var [] (.declared threadCurrent 0)) O) := by
  obtain ⟨p, hload, hmethods, hend, hreach, hcurrent, hptr, hpts, htype⟩ :
      ∃ p, Program.load workerSource = .ok p ∧
        ((p.method? threadStart).any (!·.isStatic) = true ∧ (p.method? threadRun).isSome = true ∧
          (p.method? threadCurrent).any (fun d => d.isStatic && d.returned.contains 0) = true ∧
          (p.dispatch (.cls "Worker") threadRun.subsig).any (fun r =>
            !r.isAbstract && !r.isStatic && r.id == ⟨"Worker", "run()"⟩) = true) ∧
        let g := Options.setup {} p .insensitive []
        let m := (g.initial []).run g 200
        m.agenda.isEmpty = true ∧ 3 ∈ m.state.calls.reachable ∧
        m.state.registry.methods.get? 3 = some ⟨Contexts.emptyCtx, threadCurrent⟩ ∧
        m.state.registry.pointers.get? 1 = some (.var Contexts.emptyCtx (.declared threadStart 0)) ∧
        (m.state.pointsTo 1).toList = [0] ∧ m.state.registry.objType 0 = .cls "Worker" :=
    exists_of_any_toOption (by decide +kernel)
  obtain ⟨hstart, hrun, hasks, hbody⟩ := hmethods
  simp only [Option.any_eq_true, Bool.and_eq_true, Bool.not_eq_true', beq_iff_eq,
    List.contains_iff_mem] at hstart hasks hbody
  obtain ⟨start, hstart, hinstance⟩ := hstart
  obtain ⟨d, hd, hstatic, hv⟩ := hasks
  obtain ⟨r, hr, ⟨habstract, hr'⟩, hid⟩ := hbody
  have hp : p.Accepted := ⟨_, hload⟩
  have hsolve : (Options.setup {} p .insensitive []).solve [] = _ :=
    Machine.settle_eq_run (List.isEmpty_iff.mp hend)
  rw [← hsolve] at hreach hcurrent hptr hpts htype
  obtain ⟨hsound, -⟩ := Setup.sound_solve (g := Options.setup {} p .insensitive []) hp.wellFormed
    (Options.unscripted_setup (by simp)) []
  have hctx := (Machine.state ((Options.setup {} p .insensitive []).solve [])).registry.ctxIs_empty
  have hmem : 0 ∈ ((Options.setup {} p .insensitive []).solve []).state.pointsTo 1 := by
    simp [OrderedSet.mem_def, hpts]
  obtain ⟨-, O, hO⟩ := hsound.wf.ptrIs hmem
  rw [hO.objType] at htype
  obtain ⟨hruns, hreturned⟩ := started_threads_run hp hstart hinstance hrun (o := {}) rfl rfl
    .insensitive fun _ hw => absurd hw List.not_mem_nil
  have hstarted : ((Options.setup {} p .insensitive []).solve []).state.Settled
      (.holds (.var [] (.declared threadStart 0)) O) :=
    ⟨.holds 1 0, hmem, .holds ⟨_, hptr, .var _ hctx⟩ hO⟩
  refine ⟨p, hload, O, hstarted, ?_, ?_⟩
  · exact hid ▸ (hruns [] O r hstarted (htype ▸ hr) habstract hr').1
  · exact hreturned d hd hstatic [] [] O
      ⟨.reached 3, hreach, .reached ⟨_, hcurrent, hctx, rfl⟩⟩ hstarted 0 hv

end HeapFlow
