import HeapFlow.Proofs.Labelling

/-!
# Names of types and signatures

The loader keeps a type under its name, and a method under its subsignature, the name with the list
of the parameter types. These texts can stand for what they name (`names_determine_signatures`): no
type has two names, and methods with one subsignature have one name and take the same types. A class
may be called anything, but a type in a signature is written without brackets and commas; so the
last opening bracket of a subsignature ends the name, and the commas behind it end the types.
-/

namespace HeapFlow

open List Text Grammar

theorem intercalate_inj {ws ws' : List String} (h : ∀ w ∈ ws, Spelled isTypeChar w)
    (h' : ∀ w ∈ ws', Spelled isTypeChar w)
    (heq : (",".intercalate ws).toList = (",".intercalate ws').toList) : ws = ws' := by
  have hsplit : ∀ {w ws}, (∀ v ∈ w :: ws, Spelled isTypeChar v) →
      (",".intercalate (w :: ws)).toList.splitOn ',' = (w :: ws).map String.toList := by
    intro w ws h
    rw [String.toList_intercalate]
    refine splitOn_intercalate _ (fun l hl => ?_) (by simp)
    obtain ⟨v, hv, rfl⟩ := mem_map.mp hl
    exact (h v hv).not_mem rfl
  have hnil : ∀ {w ws}, (∀ v ∈ w :: ws, Spelled isTypeChar v) →
      (",".intercalate (w :: ws)).toList ≠ (",".intercalate []).toList := by
    -- what is read back from the empty text is one empty name
    intro w ws h heq
    have hback := hsplit h
    rw [heq] at hback
    exact (h w (.head _)).1 (List.cons.inj hback).1.symm
  cases ws with
  | nil =>
    cases ws' with
    | nil => rfl
    | cons w' ws' => exact absurd heq.symm (hnil h')
  | cons w ws =>
    cases ws' with
    | nil => exact absurd heq (hnil h)
    | cons w' ws' =>
      have hback := hsplit h
      rw [heq, hsplit h'] at hback
      exact (map_injective_iff.mpr (fun _ _ => String.toList_injective) hback).symm

/-- A method goes by its name and its parameter types, which are written as types are. -/
structure Program.Signs (p : Program) (m : Method) : Prop where
  subsig : m.id.subsig = subsignature m.name m.paramTypes
  spelled : ∀ t ∈ m.paramTypes, Spelled isTypeChar t.name
  found : ∀ t ∈ m.paramTypes, p.type? t.name = some t

namespace Program.Signs

variable {p : Program} {m m' : Method}

theorem not_mem_types (h : p.Signs m) :
    '(' ∉ (",".intercalate (m.paramTypes.map Ty.name)).toList ++ [')'] := by
  have hlist : '(' ∉ (",".intercalate (m.paramTypes.map Ty.name)).toList := by
    refine not_mem_intercalate (by decide) fun w hw => ?_
    obtain ⟨t, ht, rfl⟩ := mem_map.mp hw
    exact (h.spelled t ht).not_mem rfl
  simpa using hlist

theorem map_type? (h : p.Signs m) :
    (m.paramTypes.map Ty.name).map p.type? = m.paramTypes.map some := by
  rw [map_map]
  exact map_congr_left h.found

/-- **A subsignature determines the name and the types.** -/
theorem inj (h : p.Signs m) (h' : p.Signs m') (heq : m.id.subsig = m'.id.subsig) :
    m.name = m'.name ∧ m.paramTypes = m'.paramTypes := by
  have hlist := congrArg String.toList heq
  rw [h.subsig, h'.subsig, toList_subsignature, toList_subsignature] at hlist
  obtain ⟨hname, htypes⟩ := append_cons_inj_of_not_mem h.not_mem_types h'.not_mem_types hlist
  have hnames : m.paramTypes.map Ty.name = m'.paramTypes.map Ty.name :=
    intercalate_inj (forall_mem_map.mpr h.spelled) (forall_mem_map.mpr h'.spelled)
      (append_cancel_right htypes)
  have hfound := h.map_type?
  rw [hnames, h'.map_type?] at hfound
  exact ⟨String.toList_injective hname,
    (map_injective_iff.mpr (Option.some_injective _) hfound).symm⟩

theorem of_names {q : Program} (h : q.Signs m) (hq : q.names = p.names) : p.Signs m :=
  ⟨h.subsig, h.spelled, fun t ht => type?_congr hq ▸ h.found t ht⟩

end Program.Signs

theorem Source.signs_of_readSignature {p : Program} {k : Class} {source : MethodSource}
    {d : Method} (h : readSignature p k source = .ok d) : p.Signs d := by
  obtain ⟨sig, ret, params, -, -, hparams, _, rfl, rfl⟩ := exists_of_readSignature h
  exact ⟨rfl, forall_mem_map.mpr fun v hv => (spelled_of_declared (hparams v hv)).1,
    forall_mem_map.mpr fun v hv => (spells_of_declared (hparams v hv)).found⟩

theorem Program.Accepted.signs {p : Program} (hp : p.Accepted) :
    ∀ k ∈ p.classes, ∀ d ∈ k.methods, p.Signs d := by
  obtain ⟨source, linked, headed, bodied, h⟩ := hp.exists_stages
  refine Source.forall_methods h (fun hread => ?_) (fun hm hlocal => ?_)
    fun hm => ⟨hm.subsig, hm.spelled, hm.found⟩
  · exact (Source.signs_of_readSignature hread).of_names (Source.names_eq_of_stages h).1
  · obtain ⟨v, -, -, rfl⟩ := Source.exists_of_declareLocal hlocal
    exact ⟨hm.subsig, hm.spelled, hm.found⟩

/-- **Names determine types and signatures.** A type that is found has the name it was asked for by,
so there is one name for a type, and a further pair of brackets asks for arrays of it. In a program
that was accepted, two methods have the same subsignature if and only if they have the same name and
the same parameter types. -/
theorem names_determine_signatures (p : Program) (hp : p.Accepted) :
    (∀ n t, p.type? n = some t → t.name = n) ∧
    (∀ n n' t, p.type? n = some t → p.type? n' = some t → n = n') ∧
    (∀ n, p.type? (n ++ "[]") = (p.type? n).map Ty.array) ∧
    ∀ k ∈ p.classes, ∀ d ∈ k.methods, ∀ k' ∈ p.classes, ∀ d' ∈ k'.methods,
      d.id.subsig = d'.id.subsig ↔ d.name = d'.name ∧ d.paramTypes = d'.paramTypes := by
  refine ⟨fun n t => Program.name_of_type?, fun n n' t h h' => ?_, p.type?_append_brackets,
    fun k hk d hd k' hk' d' hd' => ⟨(hp.signs k hk d hd).inj (hp.signs k' hk' d' hd'), ?_⟩⟩
  · exact (Program.name_of_type? h).symm.trans (Program.name_of_type? h')
  · rintro ⟨hname, htypes⟩
    rw [(hp.signs k hk d hd).subsig, (hp.signs k' hk' d' hd').subsig, hname, htypes]

/-- The two methods of the ledger that read a page have one subsignature, so they are alike; and its
rows of books have one name. -/
theorem names_determine_signatures_ledger :
    ∃ p k d k' d' t, Program.load ledgerSource = .ok p ∧ k ∈ p.classes ∧ d ∈ k.methods ∧
      k' ∈ p.classes ∧ d' ∈ k'.methods ∧ d.id.cls ≠ d'.id.cls ∧ d.name = d'.name ∧
      d.paramTypes = d'.paramTypes ∧ p.type? "Book[][]" = some t ∧
      ∀ n, p.type? n = some t → n = "Book[][]" := by
  obtain ⟨p, hload, ⟨k, hk, d, hd, k', hk', d', hd', hne, hsubsig⟩, htype⟩ :
      ∃ p, Program.load ledgerSource = .ok p ∧
        (∃ k ∈ p.classes, ∃ d ∈ k.methods, ∃ k' ∈ p.classes, ∃ d' ∈ k'.methods,
          d.id.cls ≠ d'.id.cls ∧ d.id.subsig = d'.id.subsig) ∧
        (p.type? "Book[][]").isSome = true :=
    exists_of_any_toOption (by decide +kernel)
  obtain ⟨t, ht⟩ := Option.isSome_iff_exists.mp htype
  obtain ⟨-, hnames, -, hsigs⟩ := names_determine_signatures p ⟨_, hload⟩
  obtain ⟨hname, htypes⟩ := (hsigs k hk d hd k' hk' d' hd').mp hsubsig
  exact ⟨p, k, d, k', d', t, hload, hk, hd, hk', hd', hne, hname, htypes, ht,
    fun n hn => hnames n _ t hn ht⟩

end HeapFlow
