import HeapFlow.Proofs.Handing

/-!
# News comes exactly once

Observers are told of every call edge, every reachable method and all objects that a variable gets,
and the statements of every reachable method are turned into facts, each once, whatever the
observers do in between.

The argument is that of a ledger. An `Account` says which events and statements are counted, and how
many of them a state calls for. At every moment what has been paid – the tasks performed – and what
is owed – the tasks on the agenda – add up to that (`Account.Fair.run`).
-/

namespace HeapFlow

open List CallGraph

/-- Two states have the same results, and the second one knows at least the numbers of the first. -/
structure State.Frame (s s' : State) : Prop where
  registry : s.registry ≤ s'.registry
  sets : s'.sets = s.sets
  edges : s'.calls.edges = s.calls.edges
  reachable : s'.calls.reachable = s.calls.reachable
  methods : s'.methods = s.methods

section Frame

variable {g : Setup} {mem : Observer → Prop} {s s' s'' : State}

theorem State.Frame.refl (s : State) : s.Frame s :=
  ⟨Registry.le_refl _, rfl, rfl, rfl, rfl⟩

theorem State.Frame.trans (h : s.Frame s') (h' : s'.Frame s'') : s.Frame s'' :=
  ⟨Registry.le_trans h.registry h'.registry, h'.sets.trans h.sets, h'.edges.trans h.edges,
    h'.reachable.trans h.reachable, h'.methods.trans h.methods⟩

theorem State.Frame.pointsTo (h : s.Frame s') (p : PtrId) : s'.pointsTo p = s.pointsTo p := by
  rw [State.pointsTo, State.pointsTo, h.sets]

theorem State.frame_work (s : State) (w : WorkList) : s.Frame { s with work := w } :=
  { State.Frame.refl s with }

/-- Changes leave the results as they are. -/
theorem Change.frame (h : Change g mem s s') : s.Frame s' := by
  cases h with
  | registry hr => exact { State.Frame.refl s with registry := hr }
  | objects | call | threads => exact { State.Frame.refl s with }
  | flow =>
    unfold State.joined
    split
    · exact { State.Frame.refl s with }
    · exact { State.Frame.refl s with }
  | other h => exact ⟨h.keeps.registry, h.sets, h.edges, h.reachable, h.methods⟩

theorem Changes.frame (h : Changes g mem s s') : s.Frame s' := by
  induction h with
  | refl => exact .refl s
  | tail _ h ih => exact ih.trans h.frame

end Frame

/-! ### Accounts -/

/-- The pointer is a variable whose method counts, so observers are told when it grows. -/
def State.Heeds (g : Setup) (s : State) (p : PtrId) : Prop :=
  ∃ c v, s.registry.pointers.get? p = some (.var c v) ∧ g.Translates v.method

/-- What is counted. -/
structure Account where
  event : Event → Bool
  stmt : CMethodId → Nat → Bool
  due : State → Nat

namespace Account

/-- A task that is left to do will bring something that is counted; events count for the observer at
position `i`. -/
def owes (A : Account) (g : Setup) (i : Nat) : Task → Bool
  | .notify e os => A.event e && decide (g.observers.length ≤ os.length + i)
  | .wire e => A.event (.call e)
  | .enact m k => A.stmt m k
  | _ => false

/-- Performing a task brings something that is counted. -/
def pays (A : Account) (g : Setup) (i : Nat) : Task → Bool
  | .notify e os => A.event e && decide (os = g.observers.drop i)
  | .enact m k => A.stmt m k
  | _ => false

/-- What a method that becomes reachable calls for. -/
def body (A : Account) (g : Setup) (s : State) (m : CMethodId) : Nat :=
  let id := s.registry.methodId m
  (if id ∈ s.methods then 0 else (A.event (.method id)).toNat) +
    (List.range (g.program.bodySize id)).countP (A.stmt m) + (A.event (.methodIn m)).toNat

open Classical in
/-- **An account is fair** if what a state calls for changes when, and only when, something is
settled that is counted. -/
structure Fair (A : Account) (g : Setup) : Prop where
  quiet : ∀ {e : Event}, e.Quiet → A.event e = false
  initial : ∀ script, A.due { script := script } = 0
  frame : ∀ {s s' : State}, s.Known → s.Frame s' → A.due s' = A.due s
  connect : ∀ {s : State} {e}, e ∉ s.calls.edges →
    A.due { s with calls := (s.calls.addEdge e).2 } = A.due s + (A.event (.call e)).toNat
  skip : ∀ {s : State} {m}, ¬ g.Translates (s.registry.methodId m) →
    A.due { s with calls := (s.calls.addReachable m).2 } = A.due s
  reach : ∀ {s : State} {m}, m ∉ s.calls.reachable → g.Translates (s.registry.methodId m) →
    A.due (s.reached m) = A.due s + A.body g s m
  deliver : ∀ {s : State} {p delta}, (∀ o ∈ delta, o ∉ s.pointsTo p) →
    A.due (s.propagated g p delta) =
      A.due s + if s.Heeds g p then (A.event (.grown p delta)).toNat else 0

section Balance

variable {A : Account} {g : Setup} {i : Nat} {s s' : State}

theorem ite_eq_toNat (b : Bool) : (if b = true then 1 else 0) = b.toNat := by
  cases b <;> rfl

theorem owes_news (e : Event) : A.owes g i (.notify e g.observers) = A.event e := by
  simp [owes]

variable {t : Task} {ts done : List Task} {script : Script} {m : Machine}

theorem Fair.owes_quiet (hA : A.Fair g) {r : Registry} (ht : t.Quiet g r) :
    A.owes g i t = false := by
  cases t with
  | notify e os => simp [owes, hA.quiet ht.2]
  | enact | wire => exact ht.elim
  | _ => rfl

/-- Calm tasks owe nothing. -/
theorem Fair.countP_calm (hA : A.Fair g) (h : g.Calm ts s) : ts.countP (A.owes g i) = 0 :=
  countP_eq_zero.mpr fun t ht => by simp [hA.owes_quiet (h t ht)]

/-- A routine task pays what it owes. -/
theorem pays_eq_owes (ht : t.Routine) : A.pays g i t = A.owes g i t := by
  cases t with
  | notify | reach | wire | drain => exact ht.elim
  | _ => rfl

/-- **Telling an observer** pays for it, and the observers after it are still to be told. -/
theorem pays_add_owes {e : Event} {o : Observer} {os : List Observer}
    (hos : o :: os <:+ g.observers) :
    (A.pays g i (.notify e (o :: os))).toNat + (A.owes g i (.notify e os)).toNat =
      (A.owes g i (.notify e (o :: os))).toNat := by
  have hlen : (o :: os).length ≤ g.observers.length := hos.length_le
  have hdrop : o :: os = g.observers.drop i ↔ g.observers.length = (o :: os).length + i := by
    constructor
    · intro h
      have hlen' := congrArg List.length h
      rw [length_drop] at hlen'
      simp only [length_cons] at hlen hlen' ⊢
      omega
    · intro h
      have heq := suffix_iff_eq_drop.mp hos
      rwa [h, Nat.add_sub_cancel_left] at heq
  cases he : A.event e with
  | false => simp [pays, owes, he]
  | true =>
    simp only [pays, owes, he, Bool.true_and, hdrop, length_cons]
    rcases Nat.lt_trichotomy g.observers.length (os.length + 1 + i) with h | h | h
    · -- the observer has been told before
      rw [decide_eq_false (by omega), decide_eq_true (by omega), decide_eq_true (by omega)]
      rfl
    · rw [decide_eq_true h, decide_eq_false (by omega), decide_eq_true (by omega)]
      rfl
    · rw [decide_eq_false (by omega), decide_eq_false (by omega), decide_eq_false (by omega)]
      rfl

theorem owes_told {e : Event} (hi : A.event e = true → i < g.observers.length) :
    A.owes g i (.notify e []) = false ∧ A.pays g i (.notify e []) = false := by
  cases he : A.event e with
  | false => simp [pays, owes, he]
  | true =>
    have hlt := hi he
    simp only [pays, owes, he, Bool.true_and, length_nil, decide_eq_false_iff_not]
    refine ⟨by omega, fun h => ?_⟩
    have hlen := congrArg List.length h
    rw [length_drop, length_nil] at hlen
    omega

/-- The statements of a method are owed when it is reached. -/
theorem countP_bodyTasks (m : CMethodId) :
    (g.bodyTasks s m).countP (A.owes g i) = A.body g s m := by
  have hone : ∀ e, [Task.notify e g.observers].countP (A.owes g i) = (A.event e).toNat := by
    intro e
    rw [countP_singleton, owes_news, ite_eq_toNat]
  have hstmts : ∀ l : List Nat,
      (l.map (Task.enact m)).countP (A.owes g i) = l.countP (A.stmt m) := by
    intro l
    rw [countP_map]
    rfl
  simp only [Setup.bodyTasks, body, countP_append, hone, hstmts, contains_iff_mem]
  split
  · rfl
  · rw [hone]

/-- **A task keeps the balance**: it pays what it owed, or owes more because the state calls for
more. -/
theorem Fair.outcome (hA : A.Fair g) (hi : ∀ e, A.event e = true → i < g.observers.length)
    (hg : g.Honest) (hs : s.Known) (ht : t.Known g s.registry) (h : Outcome g s t (some ts) s') :
    (A.pays g i t).toNat + ts.countP (A.owes g i) + A.due s = (A.owes g i t).toNat + A.due s' := by
  cases h with
  | routine hr hc hts =>
    rw [pays_eq_owes hr, hA.countP_calm (hts _ rfl), hA.frame hs hc.frame, Nat.add_zero]
  | told e =>
    obtain ⟨howes, hpays⟩ := owes_told (hi e)
    rw [howes, hpays, countP_nil, Nat.add_zero]
  | @tell e o os _ _ hc hts =>
    obtain ⟨us, rfl, hus⟩ := hts _ rfl
    rw [countP_append, hA.countP_calm hus, hA.frame hs hc.frame, countP_singleton,
      ← pays_add_owes ht.1, Nat.zero_add, ite_eq_toNat]
  | @wire e _ _ hc hts =>
    rw [hts _ rfl, hA.frame hs hc.frame, countP_singleton, owes_news, ite_eq_toNat]
    simp [pays, owes]
  | again | idle => simp [pays, owes]
  | skip _ hskip =>
    rw [hA.skip hskip]
    simp [pays, owes]
  | reach hm hbody =>
    rw [hA.reach hm hbody, countP_bodyTasks]
    simp only [pays, owes, Bool.toNat_false]
    omega
  | @deliver p t w hpoll hp =>
    -- either nothing is new, or the pointer is not one that observers are told of
    have hdue : A.due (State.delivered g { s with work := w } p t) = A.due s := by
      rw [← hA.frame hs (s.frame_work w)]
      by_cases hold : (t.diff (s.pointsTo p)).isEmpty = true
      · exact congrArg A.due (if_pos hold)
      · have hquiet : ¬ State.Heeds g { s with work := w } p := by
          rintro ⟨c, v, hv, hcounts⟩
          rcases hp with hempty | hp
          · exact hold hempty
          · exact hp c v hv hcounts
        refine (congrArg A.due (if_neg hold)).trans ((hA.deliver ?_).trans ?_)
        · exact fun o ho => (OrderedSet.mem_diff.mp ho).2
        · rw [if_neg hquiet, Nat.add_zero]
    rw [hdue]
    simp [pays, owes]
  | @grow p t w c v _ _ hpoll hnew hp hbody hc hts =>
    -- the news that the variable grows is now owed, and the state calls for it
    obtain ⟨us, rfl, hus, -⟩ := hts _ rfl
    have hheeds : State.Heeds g { s with work := w } p := ⟨c, v, hp, hbody⟩
    have hdue : A.due s' = A.due s + (A.event (.grown p (t.diff (s.pointsTo p)))).toNat := by
      rw [hA.frame (hs.settles hg (.objects hpoll)) hc.frame, ← hA.frame hs (s.frame_work w)]
      have hsome : ¬ (t.diff (s.pointsTo p)).isEmpty = true := by simp [hnew]
      refine (congrArg A.due (if_neg hsome)).trans ((hA.deliver ?_).trans ?_)
      · exact fun o ho => (OrderedSet.mem_diff.mp ho).2
      · exact congrArg _ (if_pos hheeds)
    rw [hdue, countP_append, hA.countP_calm hus, countP_cons, owes_news, ite_eq_toNat]
    simp [pays, owes, Nat.add_comm]
  | @known e w hpoll he =>
    rw [hA.frame hs (s.frame_work w)]
    simp [pays, owes]
  | @connect e w _ _ hpoll he hc hts =>
    -- the observers are told by the task that wires the edge, which stands for the news until then
    have hdue : A.due s' = A.due s + (A.event (.call e)).toNat := by
      rw [hA.frame (hs.settles hg (.call hpoll)) hc.frame, ← hA.frame hs (s.frame_work w)]
      exact hA.connect (s := { s with work := w }) he
    rw [hts _ rfl, hdue]
    simp only [countP_cons, countP_nil, ite_eq_toNat]
    simp [pays, owes, Nat.add_comm]

/-- **The ledger of a run**: what has been paid and what is owed add up to what is due. -/
theorem Fair.run (hA : A.Fair g) (hi : ∀ e, A.event e = true → i < g.observers.length)
    (hg : g.Honest) (h : g.Run script done m) :
    done.countP (A.pays g i) + m.agenda.countP (A.owes g i) = A.due m.state := by
  induction h with
  | start =>
    rw [show (g.initial script).state = { script := script } from rfl, hA.initial]
    simp [Setup.initial, owes, hA.quiet (e := .start) trivial]
  | @perform done m t rest ts s hrun hm hok ih =>
    have hknown : m.Known g := hrun.leads.known hg (.initial g script)
    have ht : t.Known g m.state.registry := hknown.agenda t (hm ▸ .head _)
    have houtcome := (Act.outcome_perform hg hknown.state ht).of_ok hok
    have hbalance := hA.outcome hi hg hknown.state ht houtcome
    rw [hm, countP_cons, ite_eq_toNat] at ih
    rw [countP_cons, ite_eq_toNat, countP_append]
    -- the balance of the task, added to the ledger so far
    show _ = A.due s
    omega
  | @intervene done m m' hrun hm ih =>
    have hknown : m.Known g := hrun.leads.known hg (.initial g script)
    obtain ⟨hc, us, hagenda, hus⟩ := hm.cases
    rw [hagenda, countP_append, hA.countP_calm hus, Nat.zero_add, ih,
      hA.frame hknown.state hc.frame]

theorem Fair.end (hA : A.Fair g) (hi : ∀ e, A.event e = true → i < g.observers.length)
    (hg : g.Honest) (h : g.Run script done m) (hend : m.agenda = []) :
    done.countP (A.pays g i) = A.due m.state := by
  have hledger := hA.run hi hg h
  rwa [hend, countP_nil, Nat.add_zero] at hledger

end Balance

/-! ### The accounts of a run -/

section Accounts

open Classical

variable {g : Setup}

noncomputable def ofCall (e : CCallEdge) : Account where
  event x := decide (x = .call e)
  stmt _ _ := false
  due s := if e ∈ s.calls.edges then 1 else 0

/-- Call edges, counted when they enter the call graph. -/
theorem fair_ofCall (e : CCallEdge) : (ofCall e).Fair g where
  quiet {x} hx := by
    cases x with
    | call => exact hx.elim
    | _ => simp [ofCall]
  initial _ := by simp [ofCall]
  frame _ h := by simp only [ofCall, h.edges]
  connect {s x} hx := by
    simp only [ofCall, mem_edges_addEdge]
    by_cases h : x = e
    · subst h
      simp [hx]
    · have hne : e ≠ x := fun h' => h h'.symm
      simp [h, hne]
  skip _ := by simp only [ofCall, edges_addReachable]
  reach _ _ := by simp [ofCall, body, State.reached, edges_addReachable]
  deliver _ := by simp [ofCall, State.propagated, State.arrived, State.setObjects]

noncomputable def ofMethodIn (g : Setup) (m : CMethodId) : Account where
  event x := decide (x = .methodIn m)
  stmt _ _ := false
  due s := if m ∈ s.calls.reachable ∧ g.Translates (s.registry.methodId m) then 1 else 0

/-- Methods in a context, counted when they become reachable. -/
theorem fair_ofMethodIn (m : CMethodId) : (ofMethodIn g m).Fair g where
  quiet {x} hx := by
    cases x with
    | methodIn => exact hx.elim
    | _ => simp [ofMethodIn]
  initial _ := by simp [ofMethodIn]
  frame {s s'} hs h := by
    refine if_congr ?_ rfl rfl
    rw [h.reachable]
    refine and_congr_right fun hm => ?_
    rw [(hs.reachable m hm).methodId_eq h.registry]
  connect _ := by simp [ofMethodIn, reachable_addEdge]
  skip {s x} hskip := by
    refine if_congr ?_ rfl rfl
    rw [mem_reachable_addReachable, or_and_right]
    refine or_iff_left ?_
    rintro ⟨rfl, ht⟩
    exact hskip ht
  reach {s x} hx ht := by
    simp only [ofMethodIn, body, State.reached, mem_reachable_addReachable]
    by_cases h : x = m
    · subst h
      simp [hx, ht]
    · have hne : m ≠ x := fun h' => h h'.symm
      simp [h, hne]
  deliver _ := by simp [ofMethodIn, State.propagated, State.arrived, State.setObjects]

noncomputable def ofMethod (id : MethodId) : Account where
  event x := decide (x = .method id)
  stmt _ _ := false
  due s := if id ∈ s.methods then 1 else 0

theorem fair_ofMethod (id : MethodId) : (ofMethod id).Fair g where
  quiet {x} hx := by
    cases x with
    | method => exact hx.elim
    | _ => simp [ofMethod]
  initial _ := by simp [ofMethod]
  frame _ h := by simp only [ofMethod, h.methods]
  connect _ := by simp [ofMethod]
  skip _ := rfl
  reach {s x} _ _ := by
    simp only [ofMethod, body, State.reached, contains_iff_mem]
    by_cases hold : s.registry.methodId x ∈ s.methods
    · simp [hold]
    · by_cases h : s.registry.methodId x = id
      · subst h
        simp [hold]
      · have hne : id ≠ s.registry.methodId x := fun h' => h h'.symm
        simp [hold, h, hne]
  deliver _ := by simp [ofMethod, State.propagated, State.arrived, State.setObjects]

noncomputable def ofStmt (g : Setup) (m : CMethodId) (k : Nat) : Account where
  event _ := false
  stmt x j := decide (x = m) && decide (j = k)
  due s := if m ∈ s.calls.reachable ∧ g.Translates (s.registry.methodId m) ∧
    k < g.program.bodySize (s.registry.methodId m) then 1 else 0

theorem countP_range (n k : Nat) :
    (List.range n).countP (fun j => decide (j = k)) = if k < n then 1 else 0 :=
  count_range

/-- A statement of a method in a context. -/
theorem fair_ofStmt (m : CMethodId) (k : Nat) : (ofStmt g m k).Fair g where
  quiet _ := rfl
  initial _ := by simp [ofStmt]
  frame {s s'} hs h := by
    refine if_congr ?_ rfl rfl
    rw [h.reachable]
    refine and_congr_right fun hm => ?_
    rw [(hs.reachable m hm).methodId_eq h.registry]
  connect _ := by simp [ofStmt, reachable_addEdge]
  skip {s x} hskip := by
    refine if_congr ?_ rfl rfl
    rw [mem_reachable_addReachable, or_and_right]
    refine or_iff_left ?_
    rintro ⟨rfl, ht, -⟩
    exact hskip ht
  reach {s x} hx ht := by
    simp only [ofStmt, body, State.reached, mem_reachable_addReachable]
    by_cases h : x = m
    · subst h
      simp [hx, ht, countP_range]
    · have hne : m ≠ x := fun h' => h h'.symm
      simp [h, hne]
  deliver _ := by simp [ofStmt, State.propagated, State.arrived, State.setObjects]

noncomputable def ofObject (g : Setup) (p : PtrId) (o : CObjId) : Account where
  event
    | .grown q delta => decide (q = p) && delta.contains o
    | _ => false
  stmt _ _ := false
  due s := if o ∈ s.pointsTo p ∧ s.Heeds g p then 1 else 0

/-- An object of a variable. -/
theorem fair_ofObject (p : PtrId) (o : CObjId) : (ofObject g p o).Fair g where
  quiet {x} hx := by
    cases x with
    | grown => exact hx.elim
    | _ => rfl
  initial script := by
    simp [ofObject, State.Known.not_mem_pointsTo_initial script p o]
  frame {s s'} hs h := by
    refine if_congr ?_ rfl rfl
    rw [h.pointsTo]
    refine and_congr_right fun ho => ?_
    unfold State.Heeds
    rw [(hs.holder p o ho).get?_eq h.registry]
  connect _ := rfl
  skip _ := rfl
  reach {s x} _ _ := by
    have hbody : (ofObject g p o).body g s x = 0 := by simp [ofObject, body]
    rw [hbody]
    rfl
  deliver {s q delta} hnew := by
    have hheeds : (s.propagated g q delta).Heeds g p ↔ s.Heeds g p := Iff.rfl
    simp only [ofObject, State.mem_pointsTo_propagated, hheeds]
    by_cases hq : p = q
    · subst hq
      by_cases ho : o ∈ delta
      · have hfresh := hnew o ho
        have hhas : delta.contains o = true := OrderedSet.contains_iff.mpr ho
        simp [hfresh, ho, hhas]
      · have hnot : delta.contains o = false :=
          Bool.eq_false_iff.mpr fun h => ho (OrderedSet.contains_iff.mp h)
        simp [ho, hnot]
    · have hne : q ≠ p := fun h => hq h.symm
      simp [hq, hne]

end Accounts

end Account

/-- The methods that have been reached are those that are reachable in some context and whose body
counts. -/
def State.Announced (g : Setup) (s : State) : Prop :=
  ∀ id, id ∈ s.methods ↔ ∃ m ∈ s.calls.reachable, s.registry.methodId m = id ∧ g.Translates id

section Announced

variable {g : Setup} {mem : Observer → Prop} {s s' : State}

theorem State.Announced.frame (h : s.Announced g) (hs : s.Known) (hf : s.Frame s') :
    s'.Announced g := by
  intro id
  rw [hf.methods, hf.reachable, h id]
  constructor
  · rintro ⟨m, hm, rfl, ht⟩
    exact ⟨m, hm, (hs.reachable m hm).methodId_eq hf.registry, ht⟩
  · rintro ⟨m, hm, hid, ht⟩
    exact ⟨m, hm, (hs.reachable m hm).methodId_eq hf.registry ▸ hid, ht⟩

/-- A task keeps the methods announced. -/
theorem State.Announced.outcome (h : s.Announced g) (hg : g.Honest) (hs : s.Known) {t : Task}
    {r : Option (List Task)} (ho : Outcome g s t r s') : s'.Announced g := by
  have hdelivered : ∀ {p t w}, (State.delivered g { s with work := w } p t).Announced g := by
    intro p t w
    unfold State.delivered
    split <;> exact h
  cases ho with
  | routine _ hc | tell hc | wire hc => exact h.frame hs hc.frame
  | told | again | idle | known => exact h
  | @skip m hm ht =>
    -- what is passed by is not translated, so that it does not count
    intro id
    rw [h id]
    refine exists_congr fun x => ?_
    rw [mem_reachable_addReachable, or_and_right]
    refine (or_iff_left ?_).symm
    rintro ⟨rfl, rfl, hid⟩
    exact ht hid
  | @reach m hm ht =>
    intro id
    have hmem : id ∈ (s.reached m).methods ↔ id ∈ s.methods ∨ id = s.registry.methodId m := by
      simp only [State.reached, contains_iff_mem]
      split
      · rename_i hold
        refine ⟨.inl, ?_⟩
        rintro (h | rfl)
        · exact h
        · exact hold
      · simp
    rw [hmem, h id]
    simp only [State.reached, mem_reachable_addReachable]
    constructor
    · rintro (⟨x, hx, hid⟩ | rfl)
      · exact ⟨x, .inl hx, hid⟩
      · exact ⟨m, .inr rfl, rfl, ht⟩
    · rintro ⟨x, hx | rfl, hid, ht'⟩
      · exact .inl ⟨x, hx, hid, ht'⟩
      · exact .inr hid.symm
  | deliver => exact hdelivered
  | grow hpoll _ _ _ hc => exact hdelivered.frame (hs.settles hg (.objects hpoll)) hc.frame
  | @connect e w _ _ hpoll _ hc =>
    refine State.Announced.frame (s := { s with work := w, calls := (s.calls.addEdge e).2 }) ?_
      (hs.settles hg (.call hpoll)) hc.frame
    intro id
    rw [reachable_addEdge]
    exact h id

/-- **What a run keeps about single tasks**: methods are announced, and variables are said to grow
only if they do. -/
theorem Setup.Run.announced (hg : g.Honest) {script : Script} {done : List Task} {m : Machine}
    (h : g.Run script done m) : m.state.Announced g ∧ ∀ t ∈ done, ∃ r, t.Known g r := by
  induction h with
  | start => exact ⟨fun id => by simp [Setup.initial], fun _ h => by cases h⟩
  | @perform done m t rest ts s hrun hm hok ih =>
    have hknown : m.Known g := hrun.leads.known hg (.initial g script)
    have ht : t.Known g m.state.registry := hknown.agenda t (hm ▸ .head _)
    have houtcome := (Act.outcome_perform hg hknown.state ht).of_ok hok
    refine ⟨ih.1.outcome hg hknown.state houtcome, fun u hu => ?_⟩
    rcases mem_cons.mp hu with rfl | hu
    · exact ⟨_, ht⟩
    · exact ih.2 u hu
  | @intervene done m m' hrun hm ih =>
    have hknown : m.Known g := hrun.leads.known hg (.initial g script)
    exact ⟨ih.1.frame hknown.state hm.cases.1.frame, ih.2⟩

end Announced

/-! ### Exactly once -/

/-- Something happened once if `P`, and never otherwise. -/
def OnceIff (P : Prop) (n : Nat) : Prop :=
  (P → n = 1) ∧ (¬ P → n = 0)

/-- How often the observer at a position has been told of an event. -/
def Setup.timesTold (g : Setup) (i : Nat) (e : Event) (done : List Task) : Nat :=
  done.count (.notify e (g.observers.drop i))

/-- The sets of objects by which a variable has grown, as the observer at a position was told. -/
def Setup.deltasTold (g : Setup) (i : Nat) (p : PtrId) (done : List Task) : List Objects :=
  done.filterMap fun
    | .notify (.grown q delta) os => if q = p ∧ os = g.observers.drop i then some delta else none
    | _ => none

theorem onceIff_of_eq_ite {P : Prop} [Decidable P] {n : Nat} (h : n = if P then 1 else 0) :
    OnceIff P n :=
  ⟨fun hP => h.trans (if_pos hP), fun hP => h.trans (if_neg hP)⟩

namespace Account

variable {A : Account} {g : Setup} {i : Nat} {done : List Task}

theorem countP_pays_of_event {e : Event} (he : ∀ x, A.event x = true ↔ x = e)
    (hstmt : ∀ m k, A.stmt m k = false) : done.countP (A.pays g i) = g.timesTold i e done := by
  refine countP_congr fun t _ => ?_
  cases t with
  | notify x os => simp [pays, he]
  | enact m k => simp [pays, hstmt]
  | _ => simp [pays]

theorem countP_pays_ofStmt (m : CMethodId) (k : Nat) :
    done.countP ((ofStmt g m k).pays g i) = done.count (.enact m k) := by
  refine countP_congr fun t _ => ?_
  cases t with
  | enact x j => simp [pays, ofStmt]
  | _ => simp [pays, ofStmt]

/-- An object has been told as often as it is in a set told. -/
theorem countP_pays_ofObject (p : PtrId) (o : CObjId) :
    done.countP ((ofObject g p o).pays g i) =
      (g.deltasTold i p done).countP fun delta => delta.contains o := by
  rw [Setup.deltasTold, countP_filterMap]
  refine countP_congr fun t _ => ?_
  cases t with
  | notify e os =>
    cases e with
    | grown q delta =>
      simp only [pays, ofObject]
      by_cases h : q = p ∧ os = g.observers.drop i
      · simp [h]
      · by_cases hq : q = p
        · have hos : os ≠ g.observers.drop i := fun hos => h ⟨hq, hos⟩
          simp [hq, hos]
        · simp [hq]
    | _ => simp [pays, ofObject]
  | _ => simp [pays, ofObject]

end Account

theorem pairwise_of_countP_le_one {l : List Objects}
    (h : ∀ o, l.countP (fun delta => delta.contains o) ≤ 1) :
    l.Pairwise fun a b => ∀ o ∈ a, o ∉ b := by
  induction l with
  | nil => exact .nil
  | cons a l ih =>
    refine pairwise_cons.mpr ⟨fun b hb o ha hob => ?_, ih fun o => ?_⟩
    · have hcount := h o
      have hpos : 0 < l.countP fun delta => delta.contains o :=
        countP_pos_iff.mpr ⟨b, hb, OrderedSet.contains_iff.mpr hob⟩
      simp only [countP_cons, OrderedSet.contains_iff.mpr ha, if_true] at hcount
      omega
    · exact Nat.le_trans ((sublist_cons_self a l).countP_le) (h o)

section Once

variable {g : Setup} (hg : g.Honest) {script : Script} {done : List Task} {m : Machine}
  (h : g.Run script done m) (hend : m.agenda = [])

include hg h hend

/-- The sets by which a variable is said to grow are not empty, disjoint, and make up what it
has. -/
theorem Setup.Run.deltas {i : Nat} (hi : i < g.observers.length) {p : PtrId}
    (hp : m.state.Heeds g p) :
    (∀ delta ∈ g.deltasTold i p done, delta.isEmpty = false) ∧
    (g.deltasTold i p done).Pairwise (fun a b => ∀ o ∈ a, o ∉ b) ∧
    ∀ o, o ∈ m.state.pointsTo p ↔ ∃ delta ∈ g.deltasTold i p done, o ∈ delta := by
  classical
  have hcount : ∀ o, ((g.deltasTold i p done).countP fun delta => delta.contains o) =
      if o ∈ m.state.pointsTo p ∧ m.state.Heeds g p then 1 else 0 := by
    intro o
    rw [← Account.countP_pays_ofObject, (Account.fair_ofObject p o).end (fun _ _ => hi) hg h hend]
    exact if_congr Iff.rfl rfl rfl
  refine ⟨fun delta hdelta => ?_, pairwise_of_countP_le_one fun o => ?_, fun o => ?_⟩
  · obtain ⟨t, ht, htold⟩ := mem_filterMap.mp hdelta
    obtain ⟨r, hr⟩ := (h.announced hg).2 t ht
    split at htold
    · split at htold
      · cases htold
        exact hr.2.1
      · cases htold
    · cases htold
  · rw [hcount]
    split <;> omega
  · constructor
    · intro ho
      have hone : 0 < (g.deltasTold i p done).countP fun delta => delta.contains o := by
        rw [hcount, if_pos ⟨ho, hp⟩]
        exact Nat.one_pos
      obtain ⟨delta, hdelta, hmem⟩ := countP_pos_iff.mp hone
      exact ⟨delta, hdelta, OrderedSet.contains_iff.mp hmem⟩
    · rintro ⟨delta, hdelta, hmem⟩
      have hpos : 0 < (g.deltasTold i p done).countP fun delta => delta.contains o :=
        countP_pos_iff.mpr ⟨delta, hdelta, OrderedSet.contains_iff.mpr hmem⟩
      rw [hcount] at hpos
      by_contra hnot
      rw [if_neg fun hand => hnot hand.1] at hpos
      omega

/-- Observers are told of every call edge, every method in a context whose body counts, and every
such method, once. -/
theorem Setup.Run.told {i : Nat} (hi : i < g.observers.length) :
    (∀ e, OnceIff (e ∈ m.state.calls.edges) (g.timesTold i (.call e) done)) ∧
    (∀ x, OnceIff (x ∈ m.state.calls.reachable ∧ g.Translates (m.state.registry.methodId x))
      (g.timesTold i (.methodIn x) done)) ∧
    ∀ id, OnceIff (∃ x ∈ m.state.calls.reachable, m.state.registry.methodId x = id ∧
      g.Translates id) (g.timesTold i (.method id) done) := by
  classical
  refine ⟨fun e => ?_, fun x => ?_, fun id => ?_⟩
  · have hpaid := (Account.fair_ofCall (g := g) e).end (fun _ _ => hi) hg h hend
    rw [Account.countP_pays_of_event (e := .call e) (by simp [Account.ofCall]) fun _ _ => rfl]
      at hpaid
    exact onceIff_of_eq_ite hpaid
  · have hpaid := (Account.fair_ofMethodIn (g := g) x).end (fun _ _ => hi) hg h hend
    rw [Account.countP_pays_of_event (e := .methodIn x) (by simp [Account.ofMethodIn])
      fun _ _ => rfl] at hpaid
    exact onceIff_of_eq_ite hpaid
  · have hpaid := (Account.fair_ofMethod (g := g) id).end (fun _ _ => hi) hg h hend
    rw [Account.countP_pays_of_event (e := .method id) (by simp [Account.ofMethod])
      fun _ _ => rfl] at hpaid
    have honce := onceIff_of_eq_ite hpaid
    unfold OnceIff at honce ⊢
    rwa [(h.announced hg).1 id] at honce

/-- Each statement of a method whose body counts has been turned into facts once. -/
theorem Setup.Run.enacted (x : CMethodId) (k : Nat) :
    OnceIff (x ∈ m.state.calls.reachable ∧ g.Translates (m.state.registry.methodId x) ∧
      k < g.program.bodySize (m.state.registry.methodId x)) (done.count (.enact x k)) := by
  classical
  have hpaid := (Account.fair_ofStmt (g := g) x k).end (i := 0) (fun _ h => by cases h) hg h hend
  rw [Account.countP_pays_ofStmt] at hpaid
  exact onceIff_of_eq_ite hpaid

end Once

/-- **Everything is delivered exactly once**, whatever observers do at the events they are told of,
as long as the run comes to its end. Each object of a pointer has been handed to each transfer of
each edge that leaves the pointer once: when the transfer was attached or later, never both. Each
time the transfer was applied to what it was handed, in the state of the run by then, and what it
gave is in the target or waits for it. Each observer has been told once of every call edge, of every
reachable method in a context whose body counts, and of every such method; and for each variable
whose method counts, the sets by which it is said to grow are not empty, disjoint, and together what
it holds. Each statement of a reachable method in a context whose body counts has been turned into
facts once. Nothing else has been told or turned into facts. -/
theorem delivered_exactly_once (g : Setup) (hg : g.Honest) (script : Script) {done : List Task}
    {m : Machine} (h : g.Run script done m) (hend : m.agenda = []) :
    (∀ e ∈ m.state.flow.edges, ∀ t ∈ e.transfers, ∀ o,
      OnceIff (o ∈ m.state.pointsTo e.src) (m.state.timesHanded e.src e.dst e.kind t o)) ∧
    (∀ later x earlier, m.state.passed = later ++ x :: earlier →
      (∃ s : State, s.passed = earlier ∧ s.Keeps m.state ∧ g.Makes s x) ∧
      ∀ o ∈ x.given, o ∈ m.state.pointsTo x.dst ∨ m.state.work.Waits x.dst o) ∧
    (∀ i < g.observers.length,
      (∀ p, m.state.Heeds g p →
        (∀ delta ∈ g.deltasTold i p done, delta.isEmpty = false) ∧
        (g.deltasTold i p done).Pairwise (fun a b => ∀ o ∈ a, o ∉ b) ∧
        ∀ o, o ∈ m.state.pointsTo p ↔ ∃ delta ∈ g.deltasTold i p done, o ∈ delta) ∧
      (∀ e, OnceIff (e ∈ m.state.calls.edges) (g.timesTold i (.call e) done)) ∧
      (∀ x, OnceIff (x ∈ m.state.calls.reachable ∧ g.Translates (m.state.registry.methodId x))
        (g.timesTold i (.methodIn x) done)) ∧
      ∀ id, OnceIff (∃ x ∈ m.state.calls.reachable, m.state.registry.methodId x = id ∧
        g.Translates id) (g.timesTold i (.method id) done)) ∧
    ∀ x k, OnceIff (x ∈ m.state.calls.reachable ∧ g.Translates (m.state.registry.methodId x) ∧
      k < g.program.bodySize (m.state.registry.methodId x)) (done.count (.enact x k)) := by
  obtain ⟨hhanded, hmade⟩ :=
    h.leads.handedOnce hg (.initial g script) ⟨.initial script, .initial g script⟩
  refine ⟨fun e he t ht o => ⟨?_, ?_⟩, fun later x earlier heq => ⟨hmade.made heq, ?_⟩,
    fun i hi => ⟨?_, h.told hg hend hi⟩, h.enacted hg hend⟩
  · exact hhanded.once ⟨e, he, rfl, rfl, rfl, ht⟩
  · exact fun ho => hhanded.never fun _ => ho
  · exact hmade.given (heq ▸ mem_append_right _ mem_cons_self)
  · exact fun p hp => h.deltas hg hend hi hp

/-- Performs tasks until there are none, at most `n`, and keeps those performed, the last one first;
nothing if one fails. -/
def Machine.replay (g : Setup) : Nat → List Task → Machine → Option (List Task × Machine)
  | 0, done, m => some (done, m)
  | n + 1, done, m => match m.agenda with
    | [] => some (done, m)
    | t :: rest => match Act.perform g t m.state with
      | .ok ts s => replay g n (t :: done) { m with state := s, agenda := ts ++ rest }
      | .error _ _ => none

variable {m' : Machine}

/-- Tasks performed one after the other make a run. -/
theorem Setup.Run.replay {g : Setup} {script : Script} {n : Nat} {done done' : List Task}
    {m : Machine} (h : g.Run script done m) (hm : m.replay g n done = some (done', m')) :
    g.Run script done' m' := by
  induction n generalizing done m with
  | zero =>
    cases hm
    exact h
  | succ n ih =>
    unfold Machine.replay at hm
    split at hm
    · cases hm
      exact h
    · next t rest hagenda =>
      split at hm
      · next ts s hok => exact ih (h.perform hagenda hok) hm
      · cases hm

theorem Setup.Run.interventions {g : Setup} {script : Script} {done : List Task} {m : Machine}
    (h : g.Run script done m) (hm : Relation.ReflTransGen (Machine.Intervenes g) m m') :
    g.Run script done m' := by
  induction hm with
  | refl => exact h
  | tail _ hm ih => exact ih.intervene hm

/-- An observer meddles with the main method of the example: the object of the first variable has
been handed to the observer's transfer once, which has given it to the second variable, and it has
been told to be in the first. -/
theorem delivered_exactly_once_box : ∃ p done m, Program.load boxSource = .ok p ∧
    (meddledSetup p).Run [] done m ∧ m.agenda = [] ∧
    m.state.timesHanded 0 1 .other (.custom 0) 0 = 1 ∧
    (∃ x ∈ m.state.passed, x.transfer = .custom 0 ∧ 0 ∈ x.given ∧
      (∃ s : State, x.given = (meddledSetup p).custom 0 s x.toPassage) ∧
      (0 ∈ m.state.pointsTo x.dst ∨ m.state.work.Waits x.dst 0)) ∧
    (∃ e ∈ m.state.calls.edges, (meddledSetup p).timesTold 0 (.call e) done = 1) ∧
    ∃ delta ∈ (meddledSetup p).deltasTold 0 0 done, 0 ∈ delta := by
  obtain ⟨p, hp, ⟨done, m⟩, hm, hend, ho, hp₀, ⟨e, he, hsrc, hdst, hkind, ht⟩,
      ⟨x, hx, hcustom, hgives⟩, hcalls⟩ :
      ∃ p, Program.load boxSource = .ok p ∧
        ∃ x ∈ (meddledStart p).replay (meddledSetup p) 400 [], x.2.agenda = [] ∧
          0 ∈ x.2.state.pointsTo 0 ∧
          x.2.state.registry.pointers.get? 0 =
            some (.var Contexts.emptyCtx (.declared ⟨"Main", "main()"⟩ 0)) ∧
          (∃ e ∈ x.2.state.flow.edges, e.src = 0 ∧ e.dst = 1 ∧ e.kind = .other ∧
            .custom 0 ∈ e.transfers) ∧
          (∃ y ∈ x.2.state.passed, y.transfer = .custom 0 ∧ 0 ∈ y.given) ∧
          x.2.state.calls.edges ≠ [] :=
    exists_of_any_toOption (by decide +kernel)
  have hrun := (Setup.Run.start.interventions (intervenes_meddledStart p)).replay hm
  obtain ⟨hhanded, hmade, htold, -⟩ :=
    delivered_exactly_once (meddledSetup p) (honest_meddledSetup p) [] hrun hend
  obtain ⟨hdeltas, hcall, -⟩ := htold 0 (by simp [meddledSetup, Options.setup])
  obtain ⟨c, hc⟩ := exists_mem_of_ne_nil _ hcalls
  have honce : m.state.timesHanded e.src e.dst e.kind (.custom 0) 0 = 1 :=
    (hhanded e he _ ht 0).1 (hsrc ▸ ho)
  rw [hsrc, hdst, hkind] at honce
  obtain ⟨earlier, later, hlog⟩ := append_of_mem hx
  obtain ⟨⟨s, -, -, hgiven⟩, hreach⟩ := hmade _ _ _ hlog
  rw [Setup.Makes, hcustom] at hgiven
  have hheeds : m.state.Heeds (meddledSetup p) 0 := ⟨_, _, hp₀, by nofun⟩
  exact ⟨p, done, m, hp, hrun, hend, honce, ⟨x, hx, hcustom, hgives, ⟨s, hgiven⟩, hreach 0 hgives⟩,
    ⟨c, hc, (hcall c).1 hc⟩,
    ((hdeltas 0 hheeds).2.2 0).mp ho⟩

end HeapFlow
