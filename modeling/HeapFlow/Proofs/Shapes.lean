import HeapFlow.Proofs.Guards
import HeapFlow.Proofs.Resolving

/-!
# The shape of loaded programs

An analysis finds its way through a program by the lists of what is done with each variable, and
takes for granted what the statements in these lists look like: what `Program.WellShaped` says of a
method. The lists are exact: each has the statements of its kind that go through its variable, once
each and in the order of the body (`Method.Records`). The statements use variables of the method
only, and the fields, classes and receivers that they refer to are there and of the right kind
(`Program.StmtShape`).

A statement is checked against a program whose bodies are not read yet. What is checked depends on
classes, fields and flags, and these are the same in the end (`Program.StmtShape.congr`).
-/

namespace HeapFlow

open List Method

/-! ### Lists of statements -/

namespace Method

variable {d : Method} {v : Slot}

/-- **What is recorded of a variable is what the body does with it**: the position of each statement
that fits, once and in the order of the body; and this is what an analysis goes through. -/
structure Records (d : Method) (u : Use) (v : Slot) (fits : Stmt → Prop) (view : List Nat) :
    Prop where
  order : (d.usesAs u v).Pairwise (· < ·)
  mem_iff : ∀ i, i ∈ d.usesAs u v ↔ ∃ s, d.body[i]? = some s ∧ fits s
  view : view = d.usesAs u v

/-- The positions of the statements of a list that go through a variable. -/
def usesIn (l : List Stmt) (u : Use) (v : Slot) : List Nat :=
  l.zipIdx.filterMap fun x => if x.1.use? = some (u, v) then some x.2 else none

theorem withBody_concat (m : Method) (l : List Stmt) (s : Stmt) :
    m.withBody (l ++ [s]) = (m.withBody l).addStmt s :=
  foldl_append ..

variable (m : Method) (l : List Stmt)

theorem length_withBody : (m.withBody l).body.length = l.length := by
  rw [withBody_eq]

/-- **The index is kept with the body**: each statement that is added is entered at its position,
and only for the variable that it goes through. -/
theorem usesAs_withBody (u : Use) (v : Slot) : (m.withBody l).usesAs u v = usesIn l u v := by
  induction l using List.reverseRecOn with
  | nil => rfl
  | append_singleton l s ih =>
    have hadd : ((m.withBody l).addStmt s).usesAs u v =
        (m.withBody l).usesAs u v ++ if s.use? = some (u, v) then [l.length] else [] := by
      simp only [usesAs, addStmt, length_withBody]
      cases s.use? with
      | none => simp
      | some w => simp [membersIn_enlist]
    rw [withBody_concat, hadd, ih, usesIn, usesIn, zipIdx_append, filterMap_append]
    by_cases hs : s.use? = some (u, v) <;> simp [hs]

theorem places_withBody : (m.withBody l).index.places = (List.range l.length).map (m.id, ·) := by
  induction l using List.reverseRecOn with
  | nil => rfl
  | append_singleton l s ih =>
    have hid : (m.withBody l).id = m.id := by rw [withBody_eq]
    rw [withBody_concat, addStmt, ih, hid, length_withBody, length_append,
      length_singleton, range_succ, map_append, map_singleton]

theorem returned_withBody : (m.withBody l).index.returned = l.filterMap Stmt.returned? := by
  induction l using List.reverseRecOn with
  | nil => rfl
  | append_singleton l s ih =>
    rw [withBody_concat, addStmt, ih, filterMap_append]
    cases h : s.returned? <;> simp [h]

variable {m l}

theorem map_pick {α : Type} {u : Use} {pick : Nat × Stmt → Option (Nat × α)}
    (h : ∀ i s, (pick (i, s)).map (·.1) = if s.use? = some (u, v) then some i else none) :
    (d.indexedBody.filterMap pick).map (·.1) = usesIn d.body u v := by
  rw [indexedBody, filterMap_map, map_filterMap]
  exact filterMap_congr fun x _ => h x.2 x.1

/-- What is recorded, from what is picked out of the body. -/
theorem records_of {u : Use} {fits : Stmt → Prop} {view : List Nat} (hd : d = m.withBody d.body)
    (hfits : ∀ s, s.use? = some (u, v) ↔ fits s) (hview : view = usesIn d.body u v) :
    d.Records u v fits view := by
  have huses : d.usesAs u v = usesIn d.body u v := by
    rw [hd, usesAs_withBody, ← hd]
  refine ⟨?_, fun i => ?_, hview.trans huses.symm⟩
  · have hpositions : (d.body.zipIdx.map (·.2)).Pairwise (· < ·) := by
      rw [zipIdx_map_snd]
      exact pairwise_lt_range'
    rw [huses]
    refine (pairwise_map.mp hpositions).filterMap _ fun x y hxy i hi j hj => ?_
    simp only [Option.ite_none_right_eq_some, Option.some.injEq] at hi hj
    rw [← hi.2, ← hj.2]
    exact hxy
  · simp [huses, usesIn, mem_filterMap, mem_zipIdx_iff_getElem?, hfits]

end Method

/-- The variables that a statement mentions. -/
def Stmt.mentions : Stmt → List Slot
  | new dst _ _ => [dst]
  | const dst _ => [dst]
  | copy dst src => [dst, src]
  | cast dst _ src => [dst, src]
  | load dst base _ => [dst, base]
  | store base _ src => [base, src]
  | loadStatic dst _ => [dst]
  | storeStatic _ src => [src]
  | loadElem dst base => [dst, base]
  | storeElem base src => [base, src]
  | invoke c => c.result.toList ++ c.receiver.toList ++ c.args
  | ret v => v.toList

namespace Program

variable {p q : Program} {m : Method} {s : Stmt}

/-- The class that a type is made from is declared. -/
def DeclaresType (p : Program) (t : Ty) : Prop :=
  ∀ c, t.base = .cls c → (p.class? c).isSome = true

/-- The type is not that of an interface or of an abstract class. -/
def HasObjects (p : Program) (t : Ty) : Prop :=
  ∀ c, t = .cls c → ∃ k, p.class? c = some k ∧ k.isAbstract = false ∧ k.isInterface = false

/-- The field is an instance field, and it is what one finds through the variable. -/
def FindsThrough (p : Program) (m : Method) (base : Slot) (f : FieldId) : Prop :=
  ∃ g c, p.field? f = some g ∧ g.isStatic = false ∧ m.varType base = .cls c ∧
    p.lookupField c f.name = some g

/-- The field is a static field. -/
def DeclaresStatic (p : Program) (f : FieldId) : Prop :=
  ∃ g, p.field? f = some g ∧ g.isStatic = true

/-- **What a statement of a method looks like.** -/
def StmtShape (p : Program) (m : Method) : Stmt → Prop
  | .new _ t n => p.DeclaresType t ∧ p.HasObjects t ∧ (1 < n → t.isArray = true ∧ n ≤ t.dims)
  | .const _ (.cls t) => p.DeclaresType t
  | .const _ _ => True
  | .copy _ _ => True
  | .cast _ t _ => p.DeclaresType t
  | .load _ b f => p.FindsThrough m b f
  | .store b f _ => p.FindsThrough m b f
  | .loadStatic _ f => p.DeclaresStatic f
  | .storeStatic f _ => p.DeclaresStatic f
  | .loadElem _ b => (m.varType b).isArray = true
  | .storeElem b _ => (m.varType b).isArray = true
  | .invoke c => c.receiver.isSome = true ↔ c.kind ≠ .static
  | .ret _ => True

theorem lookupField_bare (c name : String) : p.bare.lookupField c name = p.lookupField c name := by
  rw [lookupField, chain_bare, findSome?_map]
  rfl

/-- **Nothing that is checked depends on bodies.** -/
theorem StmtShape.congr (h : q.bare = p.bare) (hs : p.StmtShape m s) : q.StmtShape m s := by
  have hclass : ∀ c, (q.class? c).map Class.bare = (p.class? c).map Class.bare := by
    intro c
    rw [← class?_bare, h, class?_bare]
  have hfield : ∀ f, q.field? f = p.field? f := by
    intro f
    rw [← field?_bare, h, field?_bare]
  have hlookup : ∀ c name, q.lookupField c name = p.lookupField c name := by
    intro c name
    rw [← lookupField_bare, h, lookupField_bare]
  have htype : ∀ {t}, p.DeclaresType t → q.DeclaresType t := by
    intro t ht c hc
    have hsome := congrArg Option.isSome (hclass c)
    rw [Option.isSome_map, Option.isSome_map] at hsome
    exact hsome.trans (ht c hc)
  cases s with
  | new x t n =>
    obtain ⟨ht, halloc, hdims⟩ := hs
    refine ⟨htype ht, fun c hc => ?_, hdims⟩
    obtain ⟨k, hk, habstract, hinterface⟩ := halloc c hc
    have hmap := hclass c
    rw [hk] at hmap
    obtain ⟨k', hk', hbare⟩ := Option.map_eq_some_iff.mp hmap
    exact ⟨k', hk', (congrArg Class.isAbstract hbare).trans habstract,
      (congrArg Class.isInterface hbare).trans hinterface⟩
  | const x l =>
    cases l with
    | cls t => exact htype hs
    | _ => trivial
  | cast x t y => exact htype hs
  | load | store => simpa only [StmtShape, FindsThrough, hfield, hlookup] using hs
  | loadStatic | storeStatic => simpa only [StmtShape, DeclaresStatic, hfield] using hs
  | _ => exact hs

end Program

namespace Source

variable {p : Program} {m : Method} {name target : String} {v : Slot}

theorem lt_of_var? (h : m.var? name = some v) : v < m.vars.length :=
  (findIdx?_eq_some_iff_getElem.mp h).1

theorem declaresType_of_type? {w : String} {t : Ty} (h : p.type? w = some t) :
    p.DeclaresType t := by
  intro c hc
  simp only [Program.type?] at h
  split at h
  · cases h
    rw [Ty.base_arrays] at hc
    cases hc
  · obtain ⟨k, hk, rfl⟩ := Option.map_eq_some_iff.mp h
    rw [Ty.base_arrays] at hc
    cases hc
    rw [Program.name_of_class? hk, hk]
    rfl

/-- A field is found through the class of the variable. -/
theorem of_fieldAccess {f : Field} (h : fieldAccess p m target name = .ok (some v, f)) :
    m.var? target = some v ∧ f.id.name = name ∧
      ∃ c, m.varType v = .cls c ∧ p.lookupField c name = some f := by
  unfold fieldAccess at h
  split at h
  · next v' hv =>
    split at h
    · next c hc =>
      split at h
      · next f' hf =>
        have hname : f'.id.name = name := by
          obtain ⟨k, -, hk⟩ := exists_of_findSome?_eq_some hf
          simpa using find?_some hk
        cases hstatic : f'.isStatic with
        | true => simp [hstatic] at h
        | false =>
          simp only [hstatic, Bool.false_eq_true, if_false] at h
          cases h
          exact ⟨hv, hname, c, hc, hf⟩
      · cases h
    · cases h
  · split at h
    · split at h
      · split at h <;> cases h
      · cases h
    · cases h

theorem finds_of_fieldAccess {f : Field} (h : fieldAccess p m target name = .ok (some v, f)) :
    v < m.vars.length ∧ ∃ c, m.varType v = .cls c ∧ p.lookupField c f.id.name = some f := by
  obtain ⟨hv, hname, c, hc, hf⟩ := of_fieldAccess h
  exact ⟨lt_of_var? hv, c, hc, hname ▸ hf⟩

theorem lt_of_callTarget {cls : String} (h : callTarget p m target = .ok (some v, cls)) :
    v < m.vars.length := by
  unfold callTarget at h
  split at h
  · next v' hv =>
    split at h <;> cases h <;> exact lt_of_var? hv
  · split at h <;> cases h

theorem shape_of_resolveCall {result : Option String} {kind : Option CallKind}
    {qualifier : Option String} {args : String} {s : Stmt}
    (h : resolveCall p m result kind target qualifier name args = .ok s) :
    (∀ v ∈ s.mentions, v < m.vars.length) ∧ p.StmtShape m s := by
  obtain ⟨c, d, rfl, hc⟩ := exists_of_resolveCall h
  refine ⟨fun v hv => ?_, hc.isSome⟩
  simp only [Stmt.mentions, mem_append, Option.mem_toList] at hv
  obtain (hv | hv) | hv := hv
  · have hresult := hv ▸ hc.result
    cases result with
    | none => cases hresult
    | some r =>
      obtain ⟨x, hx, hresult⟩ := exists_of_bind_ok hresult
      cases hresult
      exact lt_of_var? (var?_of_slotOf hx)
  · obtain ⟨cls, hreceiver⟩ := hc.receiver
    exact lt_of_callTarget (hv ▸ hreceiver)
  · obtain ⟨a, -, ha⟩ := exists_of_mem_mapM hc.args hv
    exact lt_of_var? (var?_of_slotOf ha)

/-- **A statement that is read has its shape**, and mentions variables of the method. -/
theorem shape_of_readStmt (hp : p.Headed) {text : String} {s : Stmt}
    (h : readStmt p m text = .ok s) :
    (∀ v ∈ s.mentions, v < m.vars.length) ∧ p.StmtShape m s := by
  have hone : ∀ {x : Slot}, x < m.vars.length → ∀ v ∈ [x], v < m.vars.length := by
    intro x hx
    simpa using hx
  have htwo : ∀ {x y : Slot}, x < m.vars.length → y < m.vars.length →
      ∀ v ∈ [x, y], v < m.vars.length := by
    intro x y hx hy
    simpa using And.intro hx hy
  have hok := stmtOk_of_readStmt hp h
  obtain ⟨form, -, h⟩ := exists_of_readStmt h
  cases resolves_of_resolveForm h with
  | call h => exact shape_of_resolveCall h
  | @new dst cls bounds x t hx ht hconcrete =>
    refine ⟨hone (lt_of_var? hx), declaresType_of_type? ht, fun c hc => ?_, fun hn => ⟨?_, hok hn⟩⟩
    · cases hc
      obtain ⟨k, hk⟩ := Option.isSome_iff_exists.mp (declaresType_of_type? ht c rfl)
      refine ⟨k, hk, ?_⟩
      simpa [hk, and_comm] using hconcrete rfl
    · have hdims := hok hn
      cases t with
      | array u => rfl
      | _ => exact absurd hdims (by simp [Ty.dims])
  | ret => exact ⟨by simp [Stmt.mentions], trivial⟩
  | retVar hx | str hx | int hx | null hx => exact ⟨hone (lt_of_var? hx), trivial⟩
  | cls hx ht => exact ⟨hone (lt_of_var? hx), declaresType_of_type? ht⟩
  | copy hx hy => exact ⟨htwo (lt_of_var? hx) (lt_of_var? hy), trivial⟩
  | cast hx hy ht => exact ⟨htwo (lt_of_var? hx) (lt_of_var? hy), declaresType_of_type? ht⟩
  | loadElem hx hy harray | storeElem hx hy harray =>
    exact ⟨htwo (lt_of_var? hx) (lt_of_var? hy), harray⟩
  | loadStatic hx hf | storeStatic hf hx =>
    obtain ⟨hfield, hstatic⟩ := isStatic_of_fieldAccess hp hf
    exact ⟨hone (lt_of_var? hx), _, hfield, hstatic⟩
  | load hx hf =>
    obtain ⟨hfield, hstatic⟩ := isStatic_of_fieldAccess hp hf
    obtain ⟨hb, c, hc, hlookup⟩ := finds_of_fieldAccess hf
    exact ⟨htwo (lt_of_var? hx) hb, _, c, hfield, hstatic, hc, hlookup⟩
  | store hf hy =>
    obtain ⟨hfield, hstatic⟩ := isStatic_of_fieldAccess hp hf
    obtain ⟨hb, c, hc, hlookup⟩ := finds_of_fieldAccess hf
    exact ⟨htwo hb (lt_of_var? hy), _, c, hfield, hstatic, hc, hlookup⟩

/-! ### Loading -/

section Stages

variable {s : ProgramSource} {linked headed bodied : Program} (h : Stages s linked headed bodied p)

include h

variable {d : Method}

theorem shape_of_stages {k : Class} (hk : k ∈ p.classes) (hd : d ∈ k.methods) {st : Stmt}
    (hst : st ∈ d.body) : (∀ v ∈ st.mentions, v < d.vars.length) ∧ p.StmtShape d st := by
  obtain ⟨j, hj⟩ := mem_iff_getElem?.mp hd
  obtain ⟨i, hi⟩ := mem_iff_getElem?.mp hst
  obtain ⟨text, m, -, hm, hread⟩ := exists_of_stages h hk hj hi
  obtain ⟨hscope, hshape⟩ := shape_of_readStmt (headed_of_stages h) hread
  -- the method has the variables that it had when its statements were read
  rw [hm, withBody_eq]
  exact ⟨hscope, hshape.congr (bare_eq h)⟩

/-- A method has got its body as a whole; abstract and native methods have none. -/
theorem body_of_stages {k : Class} (hk : k ∈ p.classes) (hd : d ∈ k.methods) :
    (∃ m : Method, d = m.withBody d.body) ∧
      (d.isAbstract = true ∨ d.isNative = true → d.body = []) := by
  obtain ⟨j, hj⟩ := mem_iff_getElem?.mp hd
  obtain ⟨c, -, -, m, source, -, hread⟩ := exists_readBody_of_stages h hk hj
  obtain ⟨m', -, hread⟩ := exists_of_bind_ok hread
  obtain ⟨hguard, hread⟩ := of_guard_ok hread
  obtain ⟨body, hbody, hread⟩ := exists_of_bind_ok hread
  cases hread
  refine ⟨⟨m', congrArg m'.withBody (congrArg Method.body (m'.withBody_eq body)).symm⟩, ?_⟩
  intro hnone
  rw [withBody_eq] at hnone ⊢
  have hsource : source.body = [] := by
    rw [← Bool.or_eq_true] at hnone
    simpa [hnone] using hguard
  rw [hsource] at hbody
  cases hbody
  rfl

end Stages

end Source

/-- **What an analysis may take for granted of a method.** -/
structure Program.WellShaped (p : Program) (d : Method) : Prop where
  found : p.method? d.id = some d
  /-- Every statement has been given its method and its position. -/
  placed : ∀ i : Nat, d.index.places[i]? = (d.body[i]?).map fun _ => (d.id, i)
  mentions : ∀ s ∈ d.body, ∀ v ∈ s.mentions, v < d.vars.length
  stores : ∀ v, d.Records .store v (fun s => ∃ f x, s = .store v f x)
    ((d.storesThrough v).map (·.1))
  loads : ∀ v, d.Records .load v (fun s => ∃ x f, s = .load x v f) ((d.loadsThrough v).map (·.1))
  elemStores : ∀ v, d.Records .elemStore v (fun s => ∃ x, s = .storeElem v x)
    ((d.elemStoresThrough v).map (·.1))
  elemLoads : ∀ v, d.Records .elemLoad v (fun s => ∃ x, s = .loadElem x v)
    ((d.elemLoadsThrough v).map (·.1))
  calls : ∀ v, d.Records .call v (fun s => ∃ c, s = .invoke c ∧ c.receiver = some v)
    ((d.callsOn v).map (·.1))
  returned : d.index.returned = d.returned
  shape : ∀ s ∈ d.body, p.StmtShape d s
  unwritten : d.isAbstract = true ∨ d.isNative = true → d.body = []

theorem Program.Accepted.method?_id {p : Program} (hp : p.Accepted) {k : Class} (hk : k ∈ p.classes)
    {d : Method} (hd : d ∈ k.methods) : p.method? d.id = some d := by
  have hclass : p.class? k.name = some k := (class?_eq_some_iff hp.linked.names).mpr ⟨hk, rfl⟩
  rw [method?, hp.wellFormed.cls hk hd, hclass]
  exact (hp.signed hk).method?_subsig hd

theorem Program.Accepted.shape {p : Program} (hp : p.Accepted) {m : MethodId} {d : Method}
    (hd : p.method? m = some d) {s : Stmt} (hs : s ∈ d.body) :
    (∀ v ∈ s.mentions, v < d.vars.length) ∧ p.StmtShape d s := by
  obtain ⟨k, hk, hkd⟩ := Program.method?_eq_some hd
  obtain ⟨source, linked, headed, bodied, hstages⟩ := hp.exists_stages
  exact Source.shape_of_stages hstages (Program.mem_of_class? hk) (mem_of_find?_eq_some hkd) hs

/-- **The methods of an accepted program are well-shaped.** -/
theorem methods_wellShaped {p : Program} (hp : p.Accepted) {k : Class} (hk : k ∈ p.classes)
    {d : Method} (hd : d ∈ k.methods) : p.WellShaped d := by
  obtain ⟨source, linked, headed, bodied, h⟩ := hp.exists_stages
  obtain ⟨⟨m, hm⟩, hnone⟩ := Source.body_of_stages h hk hd
  have hplaces : d.index.places = (List.range d.body.length).map (d.id, ·) := by
    have hid : d.id = m.id := by rw [hm, withBody_eq]
    rw [hid, ← places_withBody, ← hm]
  exact {
    found := hp.method?_id hk hd
    placed := fun i => by
      rw [hplaces, getElem?_map]
      grind
    mentions := fun s hs => (Source.shape_of_stages h hk hd hs).1
    stores := fun v => records_of hm (fun s => by cases s <;> simp [Stmt.use?])
      (map_pick fun i s => by cases s <;> simp [Stmt.use?, apply_ite])
    loads := fun v => records_of hm (fun s => by cases s <;> simp [Stmt.use?])
      (map_pick fun i s => by cases s <;> simp [Stmt.use?, apply_ite])
    elemStores := fun v => records_of hm (fun s => by cases s <;> simp [Stmt.use?])
      (map_pick fun i s => by cases s <;> simp [Stmt.use?, apply_ite])
    elemLoads := fun v => records_of hm (fun s => by cases s <;> simp [Stmt.use?])
      (map_pick fun i s => by cases s <;> simp [Stmt.use?, apply_ite])
    calls := fun v => records_of hm (fun s => by cases s <;> simp [Stmt.use?])
      (map_pick fun i s => by cases s <;> simp [Stmt.use?, apply_ite])
    returned := by rw [hm, returned_withBody, Method.returned, ← hm]
    shape := fun s hs => (Source.shape_of_stages h hk hd hs).2
    unwritten := hnone }

/-- A method that does something of everything, beside methods that are not written out. -/
def ledgerSource : ProgramSource where
  classes := [
    { name := "Book"
      isAbstract := true
      fields := ["Object page", "static Book last"]
      methods := [{ sig := "abstract Object read()" }, { sig := "static native Book open()" }] },
    { name := "Diary", superclass := "Book"
      methods := [
        { sig := "Object read()"
          locals := ["Object x", "Object[] row", "Object[][] all", "Book b"]
          body := ["x = this.page", "b = Book.open()", "Book.last = this", "all = new Object[n][n]",
            "row = all[*]", "row[*] = x", "x = row[*]", "b.page = row", "x = b.read()",
            "return x", "return row"] }] }]

theorem methods_wellShaped_ledgerSource :
    ∃ p k d, Program.load ledgerSource = .ok p ∧ k ∈ p.classes ∧ d ∈ k.methods ∧
      d.body.length = 11 ∧ d.usesOf 0 = [0] ∧ p.WellShaped d := by
  obtain ⟨p, hload, hd⟩ : ∃ p, Program.load ledgerSource = .ok p ∧
      ∃ k ∈ p.classes, ∃ d ∈ k.methods, d.body.length = 11 ∧ d.usesOf 0 = [0] :=
    exists_of_any_toOption (by decide +kernel)
  obtain ⟨k, hk, d, hd, hlength, huses⟩ := hd
  exact ⟨p, k, d, hload, hk, hd, hlength, huses, methods_wellShaped ⟨_, hload⟩ hk hd⟩

end HeapFlow
