import HeapFlow.Proofs.Ancestry

/-!
# Headers of loaded programs

A method is found by its subsignature, or by its name and the number of its parameters. A class has
each subsignature once, and a subsignature tells the name and lists the parameters (`Class.Signed`),
so a method that is found in one way is found in the other.

When a call is read some bodies are not known yet. Without variables and bodies (`Program.bare`) the
program that it is read against and the one that is loaded in the end are the same
(`Source.bare_eq`), and looking for a method does not depend on them. So accepted programs are
well-formed (`Program.Accepted.wellFormed`).
-/

namespace HeapFlow

open List Source

/-- A subsignature begins with the name. -/
theorem name_subsignature {cls name : String} {ts : List Ty} (h : '(' ∉ name.toList) :
    (MethodId.mk cls (subsignature name ts)).name = name := by
  have hname : ∀ c ∈ name.toList, (decide (c ≠ '(')) = true := by
    intro c hc
    exact decide_eq_true fun heq => h (heq ▸ hc)
  rw [MethodId.name, toList_subsignature, takeWhile_append_of_pos hname]
  simp

/-- **Methods can be told apart and recognized by their subsignatures.** -/
structure Class.Signed (k : Class) : Prop where
  distinct : (k.methods.map (·.id.subsig)).Nodup
  name : ∀ d ∈ k.methods, d.id.name = d.name
  arity : ∀ d ∈ k.methods, d.paramTypes.length = arity d.id.subsig

theorem Class.Signed.of_methods {k k' : Class} (hk : k.Signed) (h : k'.methods = k.methods) :
    k'.Signed :=
  ⟨h ▸ hk.distinct, h ▸ hk.name, h ▸ hk.arity⟩

theorem Class.Signed.method?_subsig {k : Class} (hk : k.Signed) {d : Method} (hd : d ∈ k.methods) :
    k.method? d.id.subsig = some d :=
  find?_key_eq_some hk.distinct hd

def Method.bare (m : Method) : Method :=
  { m with vars := [], body := [], index := {} }

def Class.bare (k : Class) : Class :=
  { k with methods := k.methods.map Method.bare }

theorem Class.signed_bare {k : Class} : k.bare.Signed ↔ k.Signed := by
  have hids : k.bare.methods.map (·.id.subsig) = k.methods.map (·.id.subsig) := by
    rw [Class.bare, map_map]
    rfl
  have hall : ∀ {P : Method → Prop}, (∀ d ∈ k.bare.methods, P d) ↔ ∀ d ∈ k.methods, P d.bare :=
    forall_mem_map
  exact ⟨fun h => ⟨hids ▸ h.distinct, hall.mp h.name, hall.mp h.arity⟩,
    fun h => ⟨hids ▸ h.distinct, hall.mpr h.name, hall.mpr h.arity⟩⟩

theorem Class.headed_bare {k : Class} : k.bare.Headed ↔ k.Headed := by
  constructor
  · intro h
    have hmem : ∀ {d}, d ∈ k.methods → d.bare ∈ k.bare.methods := mem_map_of_mem
    exact ⟨h.fields, fun hd => (h.cls (hmem hd) :), fun hd => (h.types (hmem hd) :),
      fun hd => (h.params (hmem hd) :), fun hd => (h.receiver (hmem hd) :)⟩
  · intro h
    refine ⟨h.fields, fun hbare => ?_, fun hbare => ?_, fun hbare => ?_, fun hbare => ?_⟩ <;>
      obtain ⟨d, hd, rfl⟩ := mem_map.mp hbare
    · exact (h.cls hd :)
    · exact (h.types hd :)
    · exact (h.params hd :)
    · exact (h.receiver hd :)

namespace Program

variable {p : Program}

/-- **The program without variables and bodies**, and without entry methods. -/
def bare (p : Program) : Program :=
  { classes := p.classes.map Class.bare, entries := [], implicitEntries := [] }

theorem class?_bare (n : String) : p.bare.class? n = (p.class? n).map Class.bare := by
  rw [class?, bare, find?_map]
  rfl

theorem field?_bare (f : FieldId) : p.bare.field? f = p.field? f := by
  rw [field?, class?_bare, Option.bind_map]
  rfl

theorem chainFrom_bare (n : Nat) (c : String) :
    p.bare.chainFrom n c = (p.chainFrom n c).map Class.bare := by
  induction n generalizing c with
  | zero => rfl
  | succ n ih =>
    simp only [chainFrom, class?_bare]
    cases p.class? c with
    | none => rfl
    | some k => cases hs : k.super with
      | none => simp [Class.bare, hs]
      | some s => simp [Class.bare, hs, ih s]

theorem chain_bare (c : String) : p.bare.chain c = (p.chain c).map Class.bare := by
  rw [chain, chain, chainFrom_bare]
  simp [bare]

theorem search_bare {α : Type} (ask : Class → Option α) (c : String) :
    p.bare.search ask c = p.search (fun k => ask k.bare) c := by
  have hfrom : ∀ n c, p.bare.searchFrom ask n c = p.searchFrom (fun k => ask k.bare) n c := by
    intro n
    induction n with
    | zero => intro c; rfl
    | succ n ih =>
      intro c
      rw [searchFrom_succ, searchFrom_succ, chain_bare, findSome?_map, funext ih, flatMap_map]
      rfl
  rw [search, search, hfrom]
  simp [depthBound, bare]

theorem map_search {α β : Type} (f : α → β) (ask : Class → Option α) (c : String) :
    (p.search ask c).map f = p.search (fun k => (ask k).map f) c := by
  rw [search, search]
  generalize p.depthBound = n
  induction n generalizing c with
  | zero => rfl
  | succ n ih =>
    have hrest : (fun i => (p.searchFrom ask n i).map f) =
        p.searchFrom (fun k => (ask k).map f) n := funext ih
    rw [searchFrom_succ, searchFrom_succ, ← hrest, Option.map_or, map_findSome?, map_findSome?]
    rfl

/-- Looking for a method does not depend on variables and bodies. -/
theorem findMethod_bare (c name : String) (arity : Nat) :
    p.bare.findMethod c name arity = (p.findMethod c name arity).map Method.bare := by
  rw [findMethod, findMethod, search_bare, map_search]
  refine congrFun (congrArg (p.search ·) (funext fun k => ?_)) c
  rw [Class.bare, find?_map]
  rfl

end Program

/-! ### Loading -/

/-- A statement is written as the one at position `i` of the method at position `j` of a class. -/
def ProgramSource.Writes (s : ProgramSource) (cls : String) (j i : Nat) (text : String) : Prop :=
  ∃ c ∈ s.classes, c.name = cls ∧ ∃ m, c.methods[j]? = some m ∧ m.body[i]? = some text

namespace Source

variable {p : Program} {c : ClassSource} {cs : List ClassSource} {k k' : Class}
  {source : MethodSource} {m : Method} {text : String}

theorem name_of_readSignature {d : Method} (h : readSignature p k source = .ok d) :
    d.id.name = d.name := by
  obtain ⟨sig, ret, params, hsig, -, -, _, rfl, rfl⟩ := exists_of_readSignature h
  exact name_subsignature (Grammar.name_of_signature? hsig)

/-- Members are told apart by their subsignatures. -/
theorem signed_of_memberStep (hk : k.Signed) (h : memberStep p c k = .ok k') : k'.Signed := by
  refine memberStep_keeps (fun hb => hb.of_methods rfl) (fun {b source d} hd hnew hb => ?_) hk h
  have hall : ∀ {P : Method → Prop}, (∀ d' ∈ b.methods, P d') → P d →
      ∀ d' ∈ b.methods ++ [d], P d' := by
    intro P hb hd d' hd'
    rcases mem_append.mp hd' with hd' | hd'
    · exact hb d' hd'
    · exact mem_singleton.mp hd' ▸ hd
  refine ⟨?_, hall hb.name (name_of_readSignature hd),
    hall hb.arity (header_of_readSignature hd).2.1⟩
  rw [map_append, nodup_append]
  refine ⟨hb.distinct, nodup_singleton _, ?_⟩
  rintro _ hs _ hd rfl
  obtain ⟨d', hd', hs⟩ := mem_map.mp hs
  have hne := find?_eq_none.mp hnew d' hd'
  rw [hs, mem_singleton.mp hd] at hne
  exact hne (beq_self_eq_true _)

theorem length_of_memberStep (h : memberStep p c k = .ok k') :
    k'.methods.length = k.methods.length + c.methods.length := by
  obtain ⟨k₁, h₁, h⟩ := exists_of_bind_ok h
  have hfields : k₁.methods = k.methods := by
    refine foldlM_keeps (P := fun b => b.methods = k.methods) (fun {b a b'} hb hf => ?_) rfl h₁
    obtain ⟨name, t, isStatic, rfl⟩ := exists_of_declareField hf
    exact hb
  rw [← hfields]
  clear h₁ hfields
  generalize c.methods = sources at h
  induction sources generalizing k₁ with
  | nil =>
    cases h
    rfl
  | cons source sources ih =>
    rw [foldlM_cons] at h
    obtain ⟨k₂, h₂, h⟩ := exists_of_bind_ok h
    obtain ⟨d, -, -, rfl⟩ := exists_of_declareMethod h₂
    rw [ih _ h, length_append, length_cons, length_nil, length_cons]
    omega

/-- The methods that are written for a class. -/
def written (cs : List ClassSource) (k : Class) : List MethodSource :=
  match cs.find? fun c => c.name == k.name with
  | some c => c.methods
  | none => []

theorem exists_of_readBodies (h : readBodies p cs k = .ok k') :
    ∃ methods, (k.methods.zip (written cs k)).mapM (fun x => readBody p x.1 x.2) = .ok methods ∧
      k' = { k with methods := methods } := by
  obtain ⟨methods, hmethods, h⟩ := exists_of_bind_ok h
  cases h
  exact ⟨methods, hmethods, rfl⟩

theorem bare_of_declareLocal {m' : Method} (h : declareLocal p m text = .ok m') :
    m'.bare = m.bare := by
  obtain ⟨v, -, -, rfl⟩ := exists_of_declareLocal h
  rfl

/-- Reading a body leaves the header alone. -/
theorem bare_of_readBody {d : Method} (h : readBody p m source = .ok d) : d.bare = m.bare := by
  obtain ⟨m', hm', h⟩ := exists_of_bind_ok h
  obtain ⟨-, h⟩ := of_guard_ok h
  obtain ⟨body, -, h⟩ := exists_of_bind_ok h
  cases h
  rw [Method.withBody_eq]
  exact foldlM_keeps (P := fun b => b.bare = m.bare)
    (fun hb hlocal => (bare_of_declareLocal hlocal).trans hb) rfl hm'

/-- **Bodies are all that reading them changes**, if every method has its source. -/
theorem bare_of_readBodies (hlength : k.methods.length = (written cs k).length)
    (h : readBodies p cs k = .ok k') : k'.bare = k.bare := by
  obtain ⟨methods, hmethods, rfl⟩ := exists_of_readBodies h
  have hmap := map_eq_of_mapM (g := fun x => x.1.bare) (fun x _ d => bare_of_readBody) hmethods
  rw [Class.bare, Class.bare, hmap, ← Function.comp_def Method.bare, ← map_map,
    map_fst_zip hlength.le]

theorem declared_of_lookupEntry (hp : ∀ {k d}, k ∈ p.classes → d ∈ k.methods → d.id.cls = k.name)
    {m : MethodId} (h : lookupEntry p text = .ok m) : (p.method? m).isSome = true := by
  have hfound : ∀ {c k d}, p.class? c = some k → d ∈ k.methods →
      (p.method? d.id).isSome = true := by
    intro c k d hk hd
    rw [Program.method?, hp (Program.mem_of_class? hk) hd, Program.name_of_class? hk, hk]
    exact find?_isSome.mpr ⟨d, hd, by simp⟩
  unfold lookupEntry at h
  split at h
  · dsimp only at h
    split at h
    · rename_i k hk
      split at h
      · split at h
        · rename_i d hd
          cases h
          exact hfound hk (mem_of_find?_eq_some hd)
        · cases h
      · split at h
        · cases h
        · rename_i d hd
          cases h
          exact hfound hk (mem_filter.mp (hd ▸ mem_singleton_self d)).1
        · cases h
    · cases h
  · cases h

section Stages

variable {s : ProgramSource} {linked headed bodied : Program} (h : Stages s linked headed bodied p)

include h

theorem signed_headed : ∀ k ∈ headed.classes, k.Signed :=
  forall_of_pass_treat (fun _ => signed_of_memberStep) h.head fun k hk => by
    constructor <;> simp [(members_linked h k hk).2]

/-- The methods of a class know their class. -/
theorem headed_of_stages : headed.Headed := by
  refine forall_of_pass_treat (fun {c k k'} _ hk hstep => ?_) h.head fun k hk => ?_
  · obtain ⟨k₁, h₁, hstep⟩ := exists_of_bind_ok hstep
    exact foldlM_keeps headed_declareMethod (foldlM_keeps headed_declareField hk h₁) hstep
  · obtain ⟨hfields, hmethods⟩ := members_linked h k hk
    constructor <;> simp [hfields, hmethods]

theorem length_headed : ∀ k ∈ headed.classes, k.methods.length = (written s.classes k).length := by
  refine forall_of_pass (fun {k k'} hk htreat => ?_) h.head fun k hk => (members_linked h k hk).2
  have hname := name_of_treat (keepsNames_memberStep _) htreat
  rw [written, hname]
  unfold treat at htreat
  cases hc : s.classes.find? fun c => c.name == k.name with
  | some c =>
    rw [hc] at htreat
    have hlength := length_of_memberStep htreat
    rw [hk] at hlength
    exact hlength.trans (Nat.zero_add _)
  | none =>
    rw [hc] at htreat
    cases htreat
    exact congrArg List.length hk

/-- **A loaded program differs from the one that its bodies were read against in variables and
bodies only.** -/
theorem bare_eq : p.bare = headed.bare := by
  rw [Program.bare, Program.bare, h.classes, Program.mk.injEq]
  exact ⟨map_eq_of_mapM (fun k hk k' => bare_of_readBodies (length_headed h k hk))
    (pass_eq_ok_iff.mp h.read).1, rfl, rfl⟩

theorem forall_of_bare {P : Class → Prop} (hP : ∀ {k : Class}, P k.bare ↔ P k)
    (hheaded : ∀ k ∈ headed.classes, P k) : ∀ k ∈ p.classes, P k := by
  intro k hk
  have hbare : k.bare ∈ headed.bare.classes := bare_eq h ▸ mem_map_of_mem hk
  obtain ⟨k', hk', heq⟩ := mem_map.mp hbare
  exact hP.mp (heq ▸ hP.mpr (hheaded k' hk'))

end Stages

theorem exists_of_readBody {d : Method} {i : Nat} {s : Stmt} (h : readBody p m source = .ok d)
    (hs : d.body[i]? = some s) :
    ∃ text m', source.body[i]? = some text ∧ d = m'.withBody d.body ∧
      readStmt p m' (Text.trimmed text) = .ok s := by
  obtain ⟨m', -, h⟩ := exists_of_bind_ok h
  obtain ⟨-, h⟩ := of_guard_ok h
  obtain ⟨body, hbody, h⟩ := exists_of_bind_ok h
  cases h
  have hd : (m'.withBody body).body = body := by rw [Method.withBody_eq]
  obtain ⟨⟨text, i'⟩, hentry, hread⟩ := getElem?_of_mapM hbody (hd ▸ hs)
  rw [getElem?_zipIdx, Option.map_eq_some_iff] at hentry
  obtain ⟨text', htext, heq⟩ := hentry
  cases heq
  refine ⟨text, m', htext, by rw [hd], ?_⟩
  unfold readBodyStmt at hread
  dsimp only at hread
  split at hread
  · next hs' =>
    cases hread
    exact hs'
  · cases hread

section Stages

variable {s : ProgramSource} {linked headed bodied : Program} (h : Stages s linked headed bodied p)
  (hk : k ∈ p.classes) {j : Nat} {d : Method} (hd : k.methods[j]? = some d)

include h hk hd

/-- **Every method of a loaded program has been read** from the method that is written in its place.
-/
theorem exists_readBody_of_stages :
    ∃ c ∈ s.classes, c.name = k.name ∧
      ∃ m source, c.methods[j]? = some source ∧ readBody headed m source = .ok d := by
  rw [h.classes] at hk
  obtain ⟨k₀, -, hread⟩ := exists_of_mem_mapM (pass_eq_ok_iff.mp h.read).1 hk
  obtain ⟨methods, hmethods, rfl⟩ := exists_of_readBodies hread
  obtain ⟨⟨m, source⟩, hpair, hbody⟩ := getElem?_of_mapM hmethods hd
  have hsource : (written s.classes k₀)[j]? = some source := (getElem?_zip_eq_some.mp hpair).2
  unfold written at hsource
  split at hsource
  · next c hc =>
    exact ⟨c, mem_of_find?_eq_some hc, by simpa using find?_some hc, m, source, hsource, hbody⟩
  · cases hsource

theorem exists_of_stages {i : Nat} {st : Stmt} (hst : d.body[i]? = some st) :
    ∃ text m, s.Writes k.name j i text ∧ d = m.withBody d.body ∧
      readStmt headed m (Text.trimmed text) = .ok st := by
  obtain ⟨c, hc, hname, m₀, source, hsource, hbody⟩ := exists_readBody_of_stages h hk hd
  obtain ⟨text, m, htext, hm, hstmt⟩ := exists_of_readBody hbody hst
  exact ⟨text, m, ⟨c, hc, hname, source, hsource, htext⟩, hm, hstmt⟩

end Stages

end Source

namespace Program.Accepted

variable {p : Program} (h : p.Accepted)

include h

theorem signed {k : Class} (hk : k ∈ p.classes) : k.Signed := by
  obtain ⟨source, linked, headed, bodied, h⟩ := h.exists_stages
  exact forall_of_bare h Class.signed_bare (signed_headed h) k hk

/-- **Accepted programs are well-formed.** -/
theorem wellFormed : p.WellFormed := by
  obtain ⟨source, linked, headed, bodied, h⟩ := h.exists_stages
  have hheaded := headed_of_stages h
  have hp : p.Headed := forall_of_bare h Class.headed_bare hheaded
  refine ⟨fun hk hd => (hp _ hk).cls hd, fun hk hd => (hp _ hk).params hd,
    fun hk hd => (hp _ hk).receiver hd, fun hk hd hs => ?_⟩
  obtain ⟨j, hj⟩ := mem_iff_getElem?.mp hd
  obtain ⟨i, hi⟩ := mem_iff_getElem?.mp hs
  obtain ⟨text, m, -, -, hread⟩ := exists_of_stages h hk hj hi
  refine (stmtOk_of_readStmt hheaded hread).congr fun f => ?_
  rw [← field?_bare, bare_eq h, field?_bare]

/-- Entry methods are declared. -/
theorem entries_declared : ∀ m ∈ p.entries ++ p.implicitEntries, (p.method? m).isSome = true := by
  have hp := h.wellFormed
  obtain ⟨source, linked, headed, bodied, h⟩ := h.exists_stages
  -- the entries are looked up when the classes are complete, and only classes matter for that
  have hlookup : ∀ {wrap texts l m}, Source.lookupEntries bodied wrap texts = .ok l → m ∈ l →
      (p.method? m).isSome = true := by
    intro wrap texts l m hl hm
    obtain ⟨text, -, htext⟩ := exists_of_mem_mapM hl hm
    split at htext
    · next hm' =>
      cases htext
      rw [method?, class?, h.classes]
      exact declared_of_lookupEntry (fun hk hd => hp.cls (h.classes ▸ hk) hd) hm'
    · cases htext
  intro m hm
  rcases mem_append.mp hm with hm | hm
  · exact hlookup h.entries hm
  · exact hlookup h.implicitEntries hm

end Program.Accepted

end HeapFlow
