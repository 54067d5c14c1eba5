import HeapFlow.Proofs.Reading
import HeapFlow.Proofs.Shapes

/-!
# Names of variables

A variable is named by its name within its method, and by the text `C.f(T)/x` within the program. A
local variable that is named like one before it is refused; the header of a method is not looked at
in this way. Namesakes in headers are the only ones, since the parts of a variable's text can be
told apart: there is no slash in a name, and no dot in a subsignature.
-/

namespace HeapFlow

open List Text Grammar

theorem append_cons_inj_of_not_mem {α : Type} {a : α} {u u' v v' : List α} (hv : a ∉ v)
    (hv' : a ∉ v') (h : u ++ a :: v = u' ++ a :: v') : u = u' ∧ v = v' := by
  obtain ⟨w, hu, hw⟩ | ⟨w, hu, hw⟩ := append_eq_append_iff.mp h
  · cases w with
    | nil =>
      rw [append_nil] at hu
      exact ⟨hu.symm, (List.cons.inj hw).2⟩
    | cons b w =>
      have hmem : a ∈ v := (List.cons.inj hw).2 ▸ mem_append_right _ (.head _)
      exact absurd hmem hv
  · cases w with
    | nil =>
      rw [append_nil] at hu
      exact ⟨hu, (List.cons.inj hw).2.symm⟩
    | cons b w =>
      have hmem : a ∈ v' := (List.cons.inj hw).2 ▸ mem_append_right _ (.head _)
      exact absurd hmem hv'

/-- The text of a method tells its class from its subsignature, which has no dot. -/
theorem MethodId.text_inj {m m' : MethodId} (hm : '.' ∉ m.subsig.toList)
    (hm' : '.' ∉ m'.subsig.toList) (h : m.text = m'.text) : m = m' := by
  have hlist : m.cls.toList ++ '.' :: m.subsig.toList =
      m'.cls.toList ++ '.' :: m'.subsig.toList := by
    have := congrArg String.toList h
    simpa [MethodId.text] using this
  obtain ⟨hcls, hsubsig⟩ := append_cons_inj_of_not_mem hm hm' hlist
  rw [String.toList_inj] at hcls hsubsig
  cases m
  cases m'
  simp_all

theorem varLabel_inj {m m' : MethodId} {x x' : String} (hm : '.' ∉ m.subsig.toList)
    (hm' : '.' ∉ m'.subsig.toList) (hx : '/' ∉ x.toList) (hx' : '/' ∉ x'.toList)
    (h : varLabel m x = varLabel m' x') : m = m' ∧ x = x' := by
  have hlist : m.text.toList ++ '/' :: x.toList = m'.text.toList ++ '/' :: x'.toList := by
    have := congrArg String.toList h
    simpa [varLabel] using this
  obtain ⟨htext, hname⟩ := append_cons_inj_of_not_mem hx hx' hlist
  rw [String.toList_inj] at htext hname
  exact ⟨MethodId.text_inj hm hm' htext, hname⟩

namespace Method

/-- The variables in the header of a method: the receiver, if there is one, and the parameters. -/
def header (m : Method) : List Slot :=
  m.receiver?.toList ++ m.params

/-- The names in the header of a method. -/
def headNames (m : Method) : List String :=
  m.header.map m.varName

def names (m : Method) : List String :=
  m.vars.map (·.name)

variable {m : Method}

theorem varName_eq_getElem {i : Nat} (h : i < m.vars.length) : m.varName i = (m.vars[i]).name := by
  rw [varName, getElem?_eq_getElem h]

/-- The first variable of a name is the one that is found. -/
theorem var?_varName_iff {j : Nat} (hj : j < m.vars.length) :
    m.var? (m.varName j) = some j ↔ ∀ i < j, m.varName i ≠ m.varName j := by
  rw [var?, findIdx?_eq_some_iff_getElem]
  constructor
  · rintro ⟨_, _, hbefore⟩ i hi
    rw [varName_eq_getElem (hi.trans hj)]
    simpa using hbefore i hi
  · intro h
    refine ⟨hj, by simp [varName_eq_getElem hj], fun i hi => ?_⟩
    have hne := h i hi
    rw [varName_eq_getElem (hi.trans hj)] at hne
    simpa using hne

/-- **Names identify variables if every variable is found by its name**, and only then. -/
theorem nodup_names_iff : m.names.Nodup ↔ ∀ j < m.vars.length, m.var? (m.varName j) = some j := by
  have hlength : m.names.length = m.vars.length := length_map _
  have hname : ∀ i (hi : i < m.names.length), m.names[i] = m.varName i := by
    intro i hi
    rw [varName_eq_getElem (hlength ▸ hi)]
    exact getElem_map _
  rw [List.Nodup, pairwise_iff_getElem]
  constructor
  · intro h j hj
    rw [var?_varName_iff hj]
    intro i hi
    have hne := h i j (hlength ▸ hi.trans hj) (hlength ▸ hj) hi
    rwa [hname, hname] at hne
  · intro h i j hi hj hij
    rw [hname, hname]
    exact (var?_varName_iff (hlength ▸ hj)).mp (h j (hlength ▸ hj)) i hij

/-- How the variables of a method are named. -/
structure Named (m : Method) : Prop where
  subsig : '.' ∉ m.id.subsig.toList
  spelled : ∀ v ∈ m.vars, Spelled isNameChar v.name
  head : ∃ n ≤ m.vars.length, m.header = List.range n
  locals : ∀ j < m.vars.length, j ∉ m.header → m.var? (m.varName j) = some j

/-- **The header decides whether names identify variables.** -/
theorem Named.nodup_names_iff (h : m.Named) : m.names.Nodup ↔ m.headNames.Nodup := by
  obtain ⟨n, hn, hheader⟩ := h.head
  rw [Method.nodup_names_iff, headNames, hheader, nodup_map_iff_inj_on nodup_range]
  constructor
  · intro hreach i hi j hj heq
    rw [mem_range] at hi hj
    have hij := hreach i (by omega)
    rw [heq, hreach j (by omega)] at hij
    exact (Option.some.inj hij).symm
  · intro hinj j hj
    by_cases hlocal : j ∈ m.header
    · rw [hheader, mem_range] at hlocal
      rw [var?_varName_iff hj]
      intro i hi heq
      have hij := hinj i (mem_range.mpr (by omega)) j (mem_range.mpr hlocal) heq
      omega
    · exact h.locals j hj hlocal

theorem named_of_header (hsubsig : '.' ∉ m.id.subsig.toList)
    (hspelled : ∀ v ∈ m.vars, Spelled isNameChar v.name)
    (hheader : m.header = List.range m.vars.length) : m.Named :=
  ⟨hsubsig, hspelled, ⟨_, le_rfl, hheader⟩, fun _ hj hlocal =>
    absurd (hheader ▸ mem_range.mpr hj) hlocal⟩

section Declare

variable {cls name : String} {ts : List Ty} {ret : Ty} {b : Bool}

theorem header_declare (params : List VarDecl) (b : Bool) :
    (if b then none else some (0 : Slot)).toList ++
        (List.range params.length).map ((declare cls name ts ret b).vars.length + ·) =
      List.range ((declare cls name ts ret b).vars ++ params).length := by
  cases b with
  | true => simp [declare]
  | false =>
    have hlength : ((declare cls name ts ret false).vars ++ params).length = params.length + 1 :=
      rfl
    have hsucc : (1 + ·) = Nat.succ := funext fun n => Nat.add_comm 1 n
    rw [hlength, range_succ_eq_map, ← hsucc]
    rfl

theorem eq_of_mem_declare {v : VarDecl} (h : v ∈ (declare cls name ts ret b).vars) :
    v = ⟨"this", .cls cls⟩ := by
  cases b with
  | true => cases h
  | false => exact mem_singleton.mp h

end Declare

end Method

/-! ### Loading -/

theorem not_mem_intercalate {c : Char} (hc : c ≠ ',') {ws : List String}
    (h : ∀ w ∈ ws, c ∉ w.toList) : c ∉ (",".intercalate ws).toList := by
  induction ws with
  | nil => simp
  | cons w ws ih =>
    have hw := h w (.head _)
    have ih := ih fun v hv => h v (.tail _ hv)
    cases ws with
    | nil => simpa using hw
    | cons v ws =>
      rw [String.intercalate_cons_cons]
      simpa [hw, hc] using ih

/-- A subsignature has no character that is in none of its names and separates none. -/
theorem not_mem_subsignature {name : String} {ts : List Ty} {c : Char} (hc : c ∉ "(,)".toList)
    (hname : c ∉ name.toList) (hts : ∀ t ∈ ts, c ∉ t.name.toList) :
    c ∉ (subsignature name ts).toList := by
  have hlist : c ∉ (",".intercalate (ts.map Ty.name)).toList := by
    refine not_mem_intercalate (by rintro rfl; exact hc (by decide)) fun w hw => ?_
    obtain ⟨t, ht, rfl⟩ := mem_map.mp hw
    exact hts t ht
  simp only [subsignature, String.toList_append, mem_append, not_or]
  exact ⟨⟨⟨hname, fun h => hc (by simp_all)⟩, hlist⟩, fun h => hc (by simp_all)⟩

namespace Source

variable {p : Program}

theorem spelled_of_declared {v : VarDecl} (h : Declared p v) :
    Spelled isTypeChar v.type.name ∧ Spelled isNameChar v.name := by
  obtain ⟨text, t, ht, htype, hname⟩ := h
  rw [Program.name_of_type? htype, hname]
  exact Grammar.spelled_of_declaration? ht

/-- Signatures name variables so. -/
theorem named_of_readSignature {k : Class} {source : MethodSource} {d : Method}
    (h : readSignature p k source = .ok d) : d.Named := by
  obtain ⟨sig, ret, params, hsig, -, hparams, _, rfl, rfl⟩ := exists_of_readSignature h
  refine Method.named_of_header ?_ ?_ (Method.header_declare params _)
  · refine not_mem_subsignature (by decide) ((Grammar.spelled_of_signature? hsig).not_mem rfl) ?_
    intro t ht
    obtain ⟨v, hv, rfl⟩ := mem_map.mp ht
    exact (spelled_of_declared (hparams v hv)).1.not_mem rfl
  · intro v hv
    obtain hv | hv := mem_append.mp hv
    · cases Method.eq_of_mem_declare hv
      show Spelled isNameChar "this"
      exact ⟨by decide, all_eq_true.mp (by decide)⟩
    · exact (spelled_of_declared (hparams v hv)).2

/-- Local variables are named unlike those before them. -/
theorem named_of_declareLocal {m m' : Method} {text : String} (hm : m.Named)
    (h : declareLocal p m text = .ok m') : m'.Named := by
  obtain ⟨v, hv, hnone, rfl⟩ := exists_of_declareLocal h
  have hname : ∀ i < m.vars.length, (m.addVar v.name v.type).varName i = m.varName i := by
    intro i hi
    rw [Method.varName, Method.varName, Method.addVar, getElem?_append_left hi]
  refine ⟨hm.subsig, ?_, ?_, ?_⟩
  · intro w hw
    obtain hw | hw := mem_append.mp hw
    · exact hm.spelled w hw
    · cases mem_singleton.mp hw
      exact (spelled_of_declared hv).2
  · obtain ⟨n, hn, hheader⟩ := hm.head
    refine ⟨n, hn.trans ?_, hheader⟩
    rw [Method.addVar, length_append]
    exact Nat.le_add_right ..
  · intro j hj hlocal
    have hlength : j ≤ m.vars.length := by
      simp [Method.addVar] at hj
      omega
    rw [Method.var?_varName_iff hj]
    intro i hi
    rw [hname i (by omega)]
    obtain hlt | rfl := hlength.lt_or_eq
    · rw [hname j hlt]
      exact (Method.var?_varName_iff hlt).mp (hm.locals j hlt hlocal) i hi
    · have hlast : (m.addVar v.name v.type).varName m.vars.length = v.name := by
        simp [Method.varName, Method.addVar]
      rw [hlast, Method.varName_eq_getElem hi]
      have := findIdx?_eq_none_iff.mp hnone (m.vars[i]) (getElem_mem hi)
      simpa using this

end Source

/-- **How variables are named in an accepted program.** -/
theorem Program.Accepted.named {p : Program} (h : p.Accepted) {k : Class} (hk : k ∈ p.classes)
    {d : Method} (hd : d ∈ k.methods) : d.Named := by
  obtain ⟨source, linked, headed, bodied, h⟩ := h.exists_stages
  exact Source.forall_methods h Source.named_of_readSignature Source.named_of_declareLocal
    (fun hm => ⟨hm.subsig, hm.spelled, hm.head, hm.locals⟩) k hk d hd

/-- A variable of a method of the program. -/
def Program.HasVar (p : Program) (v : Var) : Prop :=
  ∃ m d i, v = .declared m i ∧ p.method? m = some d ∧ i < d.vars.length

namespace Program

variable {p : Program}

theorem Accepted.named_of_method? (hp : p.Accepted) {m : MethodId} {d : Method}
    (hd : p.method? m = some d) : d.Named := by
  obtain ⟨k, hk, hkd⟩ := method?_eq_some hd
  exact hp.named (mem_of_class? hk) (mem_of_find?_eq_some hkd)

/-- **The text of a variable is its method and its name.** -/
theorem Accepted.varText_inj (hp : p.Accepted) {m m' : MethodId} {d d' : Method} {i j : Slot}
    (hd : p.method? m = some d) (hd' : p.method? m' = some d') (hi : i < d.vars.length)
    (hj : j < d'.vars.length) (h : p.varText (.declared m i) = p.varText (.declared m' j)) :
    m = m' ∧ d.varName i = d'.varName j := by
  have hname : ∀ {m : MethodId} {d : Method} {i : Slot}, p.method? m = some d → i < d.vars.length →
      p.varText (.declared m i) = varLabel m (d.varName i) ∧ '.' ∉ m.subsig.toList ∧
        '/' ∉ (d.varName i).toList := by
    intro m d i hd hi
    have hnamed := hp.named_of_method? hd
    refine ⟨?_, ?_, ?_⟩
    · simp only [varText, varName, hd, Var.method]
    · rw [← hp.wellFormed.id_eq hd]
      exact hnamed.subsig
    · rw [Method.varName_eq_getElem hi]
      exact (hnamed.spelled _ (getElem_mem hi)).not_mem rfl
  obtain ⟨htext, hsubsig, hslash⟩ := hname hd hi
  obtain ⟨htext', hsubsig', hslash'⟩ := hname hd' hj
  rw [htext, htext'] at h
  exact varLabel_inj hsubsig hsubsig' hslash hslash' h

end Program

/-- **Names identify variables but for those that a header names alike.** In an accepted program, a
local variable is always found by its name. All variables of a method have different names, and all
are found by their names, exactly if the receiver and the parameters have different names. The text
of a variable gives its method and its name; so texts identify all variables of the program exactly
if no header gives a name twice. -/
theorem variables_named {p : Program} (hp : p.Accepted) :
    (∀ k ∈ p.classes, ∀ d ∈ k.methods,
      (∀ j < d.vars.length, j ∉ d.header → d.var? (d.varName j) = some j) ∧
      (d.names.Nodup ↔ d.headNames.Nodup) ∧
      ((∀ j < d.vars.length, d.var? (d.varName j) = some j) ↔ d.headNames.Nodup)) ∧
    (∀ v w, p.HasVar v → p.HasVar w → p.varText v = p.varText w →
      v.method = w.method ∧ p.varName v = p.varName w) ∧
    (Set.InjOn p.varText {v | p.HasVar v} ↔
      ∀ k ∈ p.classes, ∀ d ∈ k.methods, d.headNames.Nodup) := by
  have htext : ∀ v w, p.HasVar v → p.HasVar w → p.varText v = p.varText w →
      v.method = w.method ∧ p.varName v = p.varName w := by
    rintro _ _ ⟨m, d, i, rfl, hd, hi⟩ ⟨m', d', j, rfl, hd', hj⟩ h
    have hname := hp.varText_inj hd hd' hi hj h
    simpa only [Var.method, Program.varName, hd, hd'] using hname
  refine ⟨fun k hk d hd => ?_, htext, ?_⟩
  · have hnamed := hp.named hk hd
    exact ⟨hnamed.locals, hnamed.nodup_names_iff,
      Method.nodup_names_iff.symm.trans hnamed.nodup_names_iff⟩
  · constructor
    · -- two variables of one name have one text
      intro hinj k hk d hd
      have hnamed := hp.named hk hd
      have hfound := hp.method?_id hk hd
      rw [← hnamed.nodup_names_iff, Method.nodup_names_iff]
      intro j hj
      rw [Method.var?_varName_iff hj]
      intro i hi heq
      have hvars : ∀ i < d.vars.length, p.HasVar (.declared d.id i) := fun i hi =>
        ⟨d.id, d, i, rfl, hfound, hi⟩
      have hsame : p.varText (.declared d.id i) = p.varText (.declared d.id j) := by
        simp only [Program.varText, Program.varName, hfound, Var.method, heq]
      cases hinj (hvars i (hi.trans hj)) (hvars j hj) hsame
      exact Nat.lt_irrefl _ hi
    · rintro hhead _ ⟨m, d, i, rfl, hd, hi⟩ _ ⟨m', d', j, rfl, hd', hj⟩ h
      obtain ⟨rfl, hname⟩ := hp.varText_inj hd hd' hi hj h
      cases hd.symm.trans hd'
      obtain ⟨k, hk, hkd⟩ := Program.method?_eq_some hd
      have hmem := mem_of_find?_eq_some hkd
      have hnamed := hp.named_of_method? hd
      have hreach := Method.nodup_names_iff.mp
        (hnamed.nodup_names_iff.mpr (hhead k (Program.mem_of_class? hk) d hmem))
      have hij := hreach i hi
      rw [hname, hreach j hj] at hij
      rw [Option.some.inj hij]

/-- A program whose headers are in order. -/
theorem variables_named_ledgerSource :
    ∃ p, Program.load ledgerSource = .ok p ∧
      (∀ k ∈ p.classes, ∀ d ∈ k.methods, d.headNames.Nodup) ∧
      Set.InjOn p.varText {v | p.HasVar v} := by
  obtain ⟨p, hload, hhead⟩ : ∃ p, Program.load ledgerSource = .ok p ∧
      ∀ k ∈ p.classes, ∀ d ∈ k.methods, d.headNames.Nodup :=
    exists_of_any_toOption (by decide +kernel)
  exact ⟨p, hload, hhead, (variables_named ⟨_, hload⟩).2.2.mpr hhead⟩

/-- Two headers that give a name twice: one to two parameters, one to the receiver and a
parameter. -/
def namesakeSource : ProgramSource where
  classes := [
    { name := "A"
      methods := [{ sig := "static void f(A x, A x)" }, { sig := "void g(A this)" }] }]

/-- **A header can give a name twice.** The program is accepted all the same; the second variable is
not found by its name, and its text is that of the first. -/
theorem header_gives_name_twice :
    ∃ p, Program.load namesakeSource = .ok p ∧
      ∀ m ∈ [(⟨"A", "f(A,A)"⟩ : MethodId), ⟨"A", "g(A)"⟩], ∃ d, p.method? m = some d ∧
        ¬ d.names.Nodup ∧ d.var? (d.varName 1) = some 0 ∧
        p.HasVar (.declared m 0) ∧ p.HasVar (.declared m 1) ∧
        p.varText (.declared m 0) = p.varText (.declared m 1) := by
  obtain ⟨p, hload, h⟩ : ∃ p, Program.load namesakeSource = .ok p ∧
      ∀ m ∈ [(⟨"A", "f(A,A)"⟩ : MethodId), ⟨"A", "g(A)"⟩], (p.method? m).any (fun d =>
        decide (¬ d.names.Nodup ∧ d.var? (d.varName 1) = some 0 ∧ d.vars.length = 2 ∧
          p.varText (.declared m 0) = p.varText (.declared m 1))) = true :=
    exists_of_any_toOption (by decide +kernel)
  refine ⟨p, hload, fun m hm => ?_⟩
  obtain ⟨d, hd, hrest⟩ := (Option.any_eq_true ..).mp (h m hm)
  obtain ⟨hnames, hvar, hlength, htext⟩ := of_decide_eq_true hrest
  have hvars : ∀ i < 2, p.HasVar (.declared m i) := fun i hi => ⟨m, d, i, rfl, hd, hlength ▸ hi⟩
  exact ⟨d, hd, hnames, hvar, hvars 0 (by decide), hvars 1 (by decide), htext⟩

end HeapFlow
