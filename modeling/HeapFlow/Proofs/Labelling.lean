import HeapFlow.Proofs.Canonical
import HeapFlow.Proofs.Naming
import HeapFlow.Proofs.Precision
import HeapFlow.Proofs.Rereading

/-!
# Labels of objects

Results show an object by its label, a text put together from the names of methods and types, from a
number, or from the label of another object. It can be taken apart again: its last character and the
separators in it tell of which of six kinds it is (`labelKind`), and within a kind the last
separators tell the parts from each other. The name of a class comes first in a label, or is a type
that someone has written, so it may be anything.
-/

namespace HeapFlow

open List Text Grammar

/-- The type that is a part of the label of what a statement makes. -/
def Stmt.shownType? : Stmt → Option Ty
  | .new _ t _ => some t
  | .const _ (.cls t) => some t
  | _ => none

/-- A type that can be written: with the characters of types, and its name denotes it. -/
structure Program.Spells (p : Program) (t : Ty) : Prop where
  chars : ∀ c ∈ t.name.toList, isTypeChar c = true
  found : p.type? t.name = some t

namespace Program

variable {p : Program}

theorem spells_of_type? {w : String} {t : Ty} (hw : ∀ c ∈ w.toList, isTypeChar c = true)
    (h : p.type? w = some t) : p.Spells t := by
  obtain rfl := name_of_type? h
  exact ⟨hw, h⟩

namespace Spells

variable {t : Ty}

/-- A type that can be written is told by its name. -/
theorem eq_of_name {u : Ty} (ht : p.Spells t) (hu : p.Spells u) (h : t.name = u.name) : t = u := by
  have hfound := ht.found
  rw [h, hu.found] at hfound
  exact (Option.some.inj hfound).symm

theorem not_mem (ht : p.Spells t) {c : Char} (hc : isTypeChar c = false) : c ∉ t.name.toList := by
  intro hmem
  rw [ht.chars c hmem] at hc
  cases hc

theorem of_names {q : Program} (ht : q.Spells t) (h : q.names = p.names) : p.Spells t :=
  ⟨ht.chars, type?_congr h ▸ ht.found⟩

theorem elem (h : p.Spells (.array t)) : p.Spells t := by
  have hname : (Ty.array t).name = t.name ++ "[]" := rfl
  refine ⟨fun c hc => h.chars c (by simp [hname, hc]), ?_⟩
  have hfound := h.found
  rw [hname, type?_append_brackets, Option.map_eq_some_iff] at hfound
  obtain ⟨u, hu, heq⟩ := hfound
  cases heq
  exact hu

end Spells

/-- The array types of the variables of a method can be written. -/
def SpellsVars (p : Program) (m : Method) : Prop :=
  ∀ v ∈ m.vars, v.type.isArray = true → p.Spells v.type

end Program

namespace Source

variable {p : Program} {m : Method}

theorem isTypeChar_brackets {n : Nat} : ∀ c ∈ (repeated n "[]").toList, isTypeChar c = true := by
  intro c hc
  rw [repeated, String.toList_join, mem_flatMap] at hc
  obtain ⟨w, hw, hc⟩ := hc
  cases eq_of_mem_replicate hw
  exact all_eq_true.mp (by decide : "[]".toList.all isTypeChar = true) c hc

variable {text : String}

/-- The types in statements have been written. -/
theorem spells_of_readStmt {s : Stmt} (h : readStmt p m text = .ok s) {t : Ty}
    (ht : s.shownType? = some t) : p.Spells t := by
  obtain ⟨form, hread, h⟩ := exists_of_readStmt h
  have hformed := formed_of_read hread
  cases resolves_of_resolveForm h with
  | @new dst cls bounds x t hx htype =>
    cases ht
    refine Program.spells_of_type? (fun c hc => ?_) htype
    rw [String.toList_append, mem_append] at hc
    obtain hc | hc := hc
    · exact isTypeChar_of_isNameChar (hformed.2.2 c hc)
    · exact isTypeChar_brackets c hc
  | cls hx htype =>
    cases ht
    exact Program.spells_of_type? hformed.2.2 htype
  | _ => cases ht

theorem spells_of_declared {v : VarDecl} (h : Declared p v) : p.Spells v.type := by
  have hspelled := (spelled_of_declared h).1
  obtain ⟨text, t, -, htype, -⟩ := h
  exact Program.spells_of_type? (Program.name_of_type? htype ▸ hspelled.2) htype

theorem spellsVars_of_readSignature {k : Class} {source : MethodSource} {d : Method}
    (h : readSignature p k source = .ok d) : p.SpellsVars d := by
  obtain ⟨sig, ret, params, -, -, hparams, _, rfl, rfl⟩ := exists_of_readSignature h
  intro v hv harray
  obtain hv | hv := mem_append.mp hv
  · -- the receiver is of the type of a class
    cases Method.eq_of_mem_declare hv
    cases harray
  · exact spells_of_declared (hparams v hv)

theorem spellsVars_of_declareLocal {q : Program} (hq : p.names = q.names) {m' : Method}
    (hm : q.SpellsVars m) (h : declareLocal p m text = .ok m') : q.SpellsVars m' := by
  obtain ⟨v, hv, -, rfl⟩ := exists_of_declareLocal h
  intro w hw harray
  obtain hw | hw := mem_append.mp hw
  · exact hm w hw harray
  · cases mem_singleton.mp hw
    exact (spells_of_declared hv).of_names hq

theorem names_eq_of_stages {s : ProgramSource} {linked headed bodied : Program}
    (h : Stages s linked headed bodied p) : linked.names = p.names ∧ headed.names = p.names := by
  rw [names_of_stages h, names_of_pass (keepsNames_memberStep _) h.head,
    names_of_pass (keepsNames_linkStep _) h.link]
  exact ⟨rfl, rfl⟩

end Source

namespace Program.Accepted

variable {p : Program} (hp : p.Accepted)

include hp

variable {m : MethodId} {d : Method}

theorem spellsVars (hd : p.method? m = some d) : p.SpellsVars d := by
  obtain ⟨source, linked, headed, bodied, h⟩ := hp.exists_stages
  obtain ⟨k, hk, hkd⟩ := method?_eq_some hd
  obtain ⟨hlinked, hheaded⟩ := Source.names_eq_of_stages h
  refine Source.forall_methods h (P := p.SpellsVars) (fun hread v hv harray => ?_)
    (Source.spellsVars_of_declareLocal hheaded) id k (mem_of_class? hk) d
    (mem_of_find?_eq_some hkd)
  exact (Source.spellsVars_of_readSignature hread v hv harray).of_names hlinked

theorem spells_shown (hd : p.method? m = some d) {i : Nat} {s : Stmt} (hs : d.body[i]? = some s)
    {t : Ty} (ht : s.shownType? = some t) : p.Spells t := by
  obtain ⟨source, linked, headed, bodied, h⟩ := hp.exists_stages
  obtain ⟨k, hk, hkd⟩ := method?_eq_some hd
  obtain ⟨j, hj⟩ := mem_iff_getElem?.mp (mem_of_find?_eq_some hkd)
  obtain ⟨text, m, -, -, hread⟩ := Source.exists_of_stages h (mem_of_class? hk) hj hs
  exact (Source.spells_of_readStmt hread ht).of_names (Source.names_eq_of_stages h).2

theorem spells_arguments {t : Ty} (h : p.argumentsOwner? t = some m) : p.Spells (.array t) := by
  obtain ⟨d, x, hd, harray⟩ := exists_of_argumentsOwner? h
  unfold Method.varType at harray
  split at harray
  next v hv =>
    have hspells := hp.spellsVars hd v (mem_of_getElem? hv)
    rw [harray] at hspells
    exact hspells rfl
  next => cases harray

end Program.Accepted

/-! ### Kinds of labels -/

inductive LabelKind where
  | str
  | merged
  | inner
  | alloc
  | cls
  | args
deriving DecidableEq, Repr

/-- The kind of a label, by its last character and the separators in it. -/
def labelKind (cs : List Char) : LabelKind :=
  if cs.getLast? = some '"' then .str
  else if cs.getLast? = some '>' then .merged
  else if '/' ∈ cs then
    if cs.getLast? = some ']' then .inner else .alloc
  else if '.' ∈ cs then .cls
  else .args

theorem labelKind_concat (cs : List Char) (c : Char) : labelKind (cs ++ [c]) =
    if c = '"' then .str
    else if c = '>' then .merged
    else if '/' ∈ cs ++ [c] then
      if c = ']' then .inner else .alloc
    else if '.' ∈ cs ++ [c] then .cls
    else .args := by
  simp only [labelKind, getLast?_concat, Option.some.injEq]

/-- **The objects of a program**, by the kind of their labels, with types that can be written. -/
inductive Program.Shows (p : Program) : LabelKind → Obj → Prop where
  | alloc {m : MethodId} {d : Method} {i : Nat} {dst : Slot} {t : Ty} {n : Nat}
      (hd : p.method? m = some d) (hs : d.body[i]? = some (.new dst t n)) (ht : p.Spells t) :
      Shows p .alloc (.allocated d i t)
  | inner {m : MethodId} {d : Method} {i : Nat} {dst : Slot} {t u : Ty} {n : Nat}
      (hd : p.method? m = some d) (hs : d.body[i]? = some (.new dst t n)) (ht : p.Spells t)
      (hu : p.Spells (.array u)) :
      Shows p .inner (.innerMock innerArrayDesc (.allocated d i t) (.array u) (some d.id))
  | mergedStrings : Shows p .merged .mergedStrings
  | mergedConstants : Shows p .merged .mergedConstants
  | str (bs : List UInt8) : Shows p .str (.constant (.str bs))
  | cls {t : Ty} (ht : p.Spells t) : Shows p .cls (.constant (.cls t))
  | arguments {t : Ty} {m : MethodId} (ht : p.Spells (.array t)) : Shows p .args (.arguments t m)
  | argument {t : Ty} {m : MethodId} (ht : p.Spells t) : Shows p .args (.argument t m)

theorem Obj.exists_spells_of_mem_inners {p : Program} {m : MethodId} {outer o : Obj} {n : Nat}
    {t : Ty} (ht : p.Spells t) (h : o ∈ Obj.inners m outer n t) :
    ∃ u, p.Spells (.array u) ∧ o = .innerMock innerArrayDesc outer (.array u) (some m) := by
  induction n generalizing t with
  | zero => cases h
  | succ n ih =>
    unfold inners at h
    split at h
    next u hu =>
      have hspells : p.Spells (.array u) := by
        cases t with
        | array s =>
          cases hu
          exact ht.elem
        | _ => cases hu
      rcases mem_cons.mp h with rfl | h
      · exact ⟨u, hspells, rfl⟩
      · exact ih hspells h
    next => cases h

/-- All objects of a run are of such kinds. -/
theorem Setup.Creates.exists_shows {g : Setup} (hp : g.program.Accepted) {o : Obj}
    (h : g.Creates o) : ∃ k, g.program.Shows k o := by
  cases h with
  | @alloc m d i dst t n _ hd hs ho =>
    have ht : g.program.Spells t := hp.spells_shown hd hs rfl
    rcases mem_cons.mp ho with rfl | ho
    · unfold Merging.allocated
      split
      · exact ⟨_, .mergedStrings⟩
      · exact ⟨_, .alloc hd hs ht⟩
    · have harray := (Obj.exists_of_mem_inners ho).1
      obtain ⟨u, hu, rfl⟩ := Obj.exists_spells_of_mem_inners ht ho
      rw [Merging.allocated_of_isArray _ _ _ harray]
      exact ⟨_, .inner hd hs ht hu⟩
  | @const m d i dst l _ hd hs ho =>
    cases l with
    | str bs =>
      cases ho
      split
      · exact ⟨_, .mergedConstants⟩
      · exact ⟨_, .str bs⟩
    | cls t =>
      cases ho
      exact ⟨_, .cls (hp.spells_shown hd hs rfl)⟩
    | null | int => cases ho
  | arguments h => exact ⟨_, .arguments (hp.spells_arguments h)⟩
  | argument h => exact ⟨_, .argument (hp.spells_arguments h).elem⟩

/-! ### Taking labels apart -/

namespace Obj

variable {d d' : Method} {i j : Nat} {t u : Ty} {m : MethodId}

theorem toList_label_allocated : (Obj.allocated d i t).label.toList =
    (d.id.text.toList ++ '/' :: ("new ".toList ++ t.name.toList)) ++
      '/' :: Nat.toDigits 10 (d.allocsBefore i) := by
  simp [allocated, Nat.toList_repr]

theorem toList_label_inner {outer : Obj} :
    (Obj.innerMock innerArrayDesc outer (.array u) (some m)).label.toList =
      ("MultiArrayObj[".toList ++ outer.label.toList ++ [']']) ++
        ':' :: (Ty.array u).name.toList := by
  simp [innerMock, qualifiedLabel, innerArrayDesc]

theorem toList_label_mock {desc : String} {owner : Option MethodId} :
    (Obj.mock desc t owner).label.toList = desc.toList ++ ':' :: t.name.toList := by
  simp [mock]

end Obj

theorem Method.allocsBefore_lt {d : Method} {i j : Nat} {dst : Slot} {t : Ty} {n : Nat}
    (hi : d.body[i]? = some (.new dst t n)) (h : i < j) : d.allocsBefore i < d.allocsBefore j := by
  have hsplit : d.body.take (i + 1) = d.body.take i ++ [.new dst t n] := by
    rw [take_add_one, hi]
    rfl
  have hprefix : d.body.take (i + 1) <+: d.body.take j := take_prefix_take_left h
  have hle := hprefix.sublist.countP_le (p := Stmt.isNew)
  rw [hsplit, countP_append] at hle
  exact hle

namespace Program

variable {p : Program}

/-- Allocations are told by their methods and numbers. -/
theorem Accepted.allocated_inj (hp : p.Accepted) {m m' : MethodId} {d d' : Method} {i j : Nat}
    {dst dst' : Slot} {t t' : Ty} {n n' : Nat} (hd : p.method? m = some d)
    (hs : d.body[i]? = some (.new dst t n)) (ht : p.Spells t) (hd' : p.method? m' = some d')
    (hs' : d'.body[j]? = some (.new dst' t' n')) (ht' : p.Spells t')
    (h : (Obj.allocated d i t).label = (Obj.allocated d' j t').label) : d.id = d'.id ∧ i = j := by
  have hdigits : ∀ n, '/' ∉ Nat.toDigits 10 n := fun n hmem =>
    absurd (Nat.isDigit_of_mem_toDigits (by decide) (by decide) hmem) (by decide)
  have htype : ∀ {t : Ty}, p.Spells t → '/' ∉ "new ".toList ++ t.name.toList := by
    intro t ht
    rw [mem_append]
    exact not_or.mpr ⟨by decide, ht.not_mem rfl⟩
  rw [← String.toList_inj, Obj.toList_label_allocated, Obj.toList_label_allocated] at h
  obtain ⟨h, hcount⟩ := append_cons_inj_of_not_mem (hdigits _) (hdigits _) h
  obtain ⟨hid, -⟩ := append_cons_inj_of_not_mem (htype ht) (htype ht') h
  rw [String.toList_inj] at hid
  replace hid := MethodId.text_inj (hp.named_of_method? hd).subsig
    (hp.named_of_method? hd').subsig hid
  refine ⟨hid, ?_⟩
  have hsame : d = d' := by
    rw [hp.wellFormed.id_eq hd, hp.wellFormed.id_eq hd'] at hid
    subst hid
    exact Option.some.inj (hd.symm.trans hd')
  subst hsame
  replace hcount := toDigits_injective hcount
  obtain hlt | heq | hlt := Nat.lt_trichotomy i j
  · exact absurd hcount (Method.allocsBefore_lt hs hlt).ne
  · exact heq
  · exact absurd hcount (Method.allocsBefore_lt hs' hlt).ne'

theorem Spells.mock_inj {t t' : Ty} (ht : p.Spells t) (ht' : p.Spells t') {desc desc' : String}
    {owner owner' : Option MethodId}
    (h : (Obj.mock desc t owner).label = (Obj.mock desc' t' owner').label) :
    desc = desc' ∧ t = t' := by
  rw [← String.toList_inj, Obj.toList_label_mock, Obj.toList_label_mock] at h
  obtain ⟨hdesc, hname⟩ := append_cons_inj_of_not_mem (ht.not_mem rfl) (ht'.not_mem rfl) h
  exact ⟨String.toList_inj.mp hdesc, ht.eq_of_name ht' (String.toList_inj.mp hname)⟩

namespace Shows

variable {k : LabelKind} {a b : Obj}

theorem labelKind_mock {t : Ty} (ht : p.Spells t) {desc : String} {owner : Option MethodId}
    (hdesc : ∀ c ∈ desc.toList, isTypeChar c = true) :
    labelKind (Obj.mock desc t owner).label.toList = .args := by
  have hnot : ∀ {c}, isTypeChar c = false → c ≠ ':' → c ∉ (Obj.mock desc t owner).label.toList := by
    intro c hc hne
    rw [Obj.toList_label_mock, mem_append, mem_cons]
    refine not_or.mpr ⟨fun hmem => ?_, not_or.mpr ⟨hne, ht.not_mem hc⟩⟩
    rw [hdesc c hmem] at hc
    cases hc
  have hlast : ∀ {c}, isTypeChar c = false → c ≠ ':' →
      (Obj.mock desc t owner).label.toList.getLast? ≠ some c := fun hc hne hlast =>
    hnot hc hne (mem_of_getLast? hlast)
  rw [labelKind, if_neg (hlast rfl (by decide)), if_neg (hlast rfl (by decide)),
    if_neg (hnot rfl (by decide)), if_neg (hnot rfl (by decide))]

/-- **A label tells its kind.** -/
theorem labelKind_label (h : p.Shows k a) : labelKind a.label.toList = k := by
  cases h with
  | @alloc m d i dst t n hd hs ht =>
    obtain ⟨ds, c, hdigits⟩ : ∃ ds c, Nat.toDigits 10 (d.allocsBefore i) = ds ++ [c] :=
      ⟨_, _, (dropLast_append_getLast Nat.toDigits_ne_nil).symm⟩
    have hc : c.isDigit = true := Nat.isDigit_of_mem_toDigits (b := 10) (by decide) (by decide)
      (hdigits ▸ mem_append_right _ (mem_singleton_self c))
    have hne : c ≠ '"' ∧ c ≠ '>' ∧ c ≠ ']' := by
      refine ⟨?_, ?_, ?_⟩ <;> rintro rfl <;> cases hc
    have hlabel : (Obj.allocated d i t).label.toList =
        (d.id.text.toList ++ '/' :: ("new ".toList ++ t.name.toList) ++ '/' :: ds) ++ [c] := by
      rw [Obj.toList_label_allocated, hdigits, append_assoc _ _ [c], cons_append]
    rw [hlabel, labelKind_concat]
    simp [hne]
  | @inner m d i dst t u n hd hs ht hu =>
    have hslash : '/' ∈ (Obj.allocated d i t).label.toList := by
      rw [Obj.toList_label_allocated]
      simp
    have hname : (Ty.array u).name.toList = (u.name.toList ++ ['[']) ++ [']'] := by
      simp [Ty.name]
    rw [Obj.toList_label_inner, hname, ← cons_append, ← append_assoc, labelKind_concat]
    simp [hslash]
  | mergedStrings | mergedConstants => decide
  | str bs =>
    have hlabel : (Obj.constant (.str bs)).label.toList = _ := toList_quoteBytes bs
    rw [hlabel, ← cons_append, labelKind_concat]
    rfl
  | @cls t ht =>
    have hlabel : (Obj.constant (.cls t)).label.toList =
        (t.name.toList ++ ".clas".toList) ++ ['s'] := by
      simp [Obj.constant, Literal.text]
    have hslash := ht.not_mem (c := '/') rfl
    rw [hlabel, labelKind_concat]
    simp [hslash]
  | arguments ht | argument ht => exact labelKind_mock ht (all_eq_true.mp (by decide))

/-- **Labels of one kind tell where their objects come from.** -/
theorem origin_eq (hp : p.Accepted) (ha : p.Shows k a) (hb : p.Shows k b)
    (h : a.label = b.label) : a.origin = b.origin := by
  cases ha with
  | alloc hd hs ht =>
    cases hb with
    | alloc hd' hs' ht' =>
      obtain ⟨hid, rfl⟩ := hp.allocated_inj hd hs ht hd' hs' ht' h
      simp only [Obj.allocated, hid]
  | inner hd hs ht hu =>
    cases hb with
    | inner hd' hs' ht' hu' =>
      rw [← String.toList_inj, Obj.toList_label_inner, Obj.toList_label_inner] at h
      obtain ⟨houter, hname⟩ := append_cons_inj_of_not_mem (hu.not_mem rfl) (hu'.not_mem rfl) h
      rw [append_cancel_right_eq, append_cancel_left_eq, String.toList_inj] at houter
      obtain ⟨hid, rfl⟩ := hp.allocated_inj hd hs ht hd' hs' ht' houter
      cases hu.eq_of_name hu' (String.toList_inj.mp hname)
      simp only [Obj.innerMock, Obj.allocated, hid]
  | mergedStrings =>
    cases hb with
    | mergedStrings => rfl
    | mergedConstants => exact absurd h (by decide)
  | mergedConstants =>
    cases hb with
    | mergedStrings => exact absurd h (by decide)
    | mergedConstants => rfl
  | str bs =>
    cases hb with
    | str bs' =>
      cases quoteBytes_injective h
      rfl
  | cls ht =>
    cases hb with
    | cls ht' =>
      cases ht.eq_of_name ht' ((String.append_left_inj ".class").mp h)
      rfl
  | arguments ht =>
    cases hb with
    | arguments ht' =>
      cases (ht.mock_inj ht' h).2
      rfl
    | argument ht' => exact absurd (ht.mock_inj ht' h).1 (by decide)
  | argument ht =>
    cases hb with
    | arguments ht' => exact absurd (ht.mock_inj ht' h).1 (by decide)
    | argument ht' =>
      cases (ht.mock_inj ht' h).2
      rfl

end Shows

end Program

/-- **No two objects have the same label.** -/
theorem Setup.Creates.eq_of_label {g : Setup} (hp : g.program.Accepted) {a b : Obj}
    (ha : g.Creates a) (hb : g.Creates b) (h : a.label = b.label) : a = b := by
  obtain ⟨k, hka⟩ := ha.exists_shows hp
  obtain ⟨k', hkb⟩ := hb.exists_shows hp
  have hk : k = k' := by rw [← hka.labelKind_label, h, hkb.labelKind_label]
  subst hk
  exact ha.ext hp.wellFormed hb (hka.origin_eq hp hkb h)

theorem Registry.Wf.eq_of_label {g : Setup} {r : Registry} (hr : r.Wf g)
    (hp : g.program.Accepted) {i j : ObjId} {a b : Obj} (hi : r.heap.get? i = some a)
    (hj : r.heap.get? j = some b) (h : a.label = b.label) : i = j :=
  r.heap.origin_inj hi hj (congrArg Obj.origin ((hr.created hi).eq_of_label hp (hr.created hj) h))

namespace Result

variable {g : Setup} {r : Result} (hs : r.state.Wf g)

include hs

variable {ps : List PtrId} {i : ObjId}

theorem exists_of_mem_collapse (h : i ∈ r.collapse ps) : ∃ a, r.registry.heap.get? i = some a := by
  obtain ⟨q, -, x, hx, rfl⟩ := mem_collapse.mp h
  obtain ⟨-, O, hO⟩ := hs.ptrIs hx
  exact ⟨_, hO.objId⟩

theorem exists_of_mem_objects
    (hlists : Snapshot.of r.registry r.state.calls = ⟨r.vars, r.objects, r.reachable⟩)
    (h : i ∈ r.objects) : ∃ a, r.registry.heap.get? i = some a := by
  obtain ⟨-, hobjects, -⟩ := Snapshot.mk.inj hlists
  rw [← hobjects, mem_mergeSort, mem_eraseDups, mem_map] at h
  obtain ⟨k, hk, rfl⟩ := h
  obtain ⟨x, hx⟩ := mem_iff_getElem?.mp hk
  rw [Array.getElem?_toList] at hx
  obtain ⟨O, -, hO, -⟩ := hs.registry.objects hx
  exact ⟨_, hO⟩

variable (hp : g.program.Accepted)

include hp

theorem eq_of_label {j : ObjId} {a b : Obj} (hi : r.registry.heap.get? i = some a)
    (hj : r.registry.heap.get? j = some b) (h : r.label i = r.label j) : i = j := by
  rw [label, label, hi, hj] at h
  exact hs.registry.eq_of_label hp hi hj h

/-- An object is found by its label. -/
theorem objectNamed?_label
    (hlists : Snapshot.of r.registry r.state.calls = ⟨r.vars, r.objects, r.reachable⟩)
    (hi : i ∈ r.objects) : r.objectNamed? (r.label i) = some i := by
  obtain ⟨a, ha⟩ := exists_of_mem_objects hs hlists hi
  have hsome : (r.objectNamed? (r.label i)).isSome = true :=
    find?_isSome.mpr ⟨i, hi, beq_self_eq_true _⟩
  obtain ⟨j, hj⟩ := Option.isSome_iff_exists.mp hsome
  obtain ⟨b, hb⟩ := exists_of_mem_objects hs hlists (mem_of_find?_eq_some hj)
  have hlabel : r.label j = r.label i := by simpa using find?_some hj
  rw [hj, eq_of_label hs hp hb ha hlabel]

theorem label_mem_map_iff {a : Obj} (hi : r.registry.heap.get? i = some a) :
    r.label i ∈ (r.collapse ps).map r.label ↔ i ∈ r.collapse ps := by
  refine ⟨fun hmem => ?_, mem_map_of_mem⟩
  obtain ⟨j, hj, hlabel⟩ := mem_map.mp hmem
  obtain ⟨b, hb⟩ := exists_of_mem_collapse hs hj
  exact eq_of_label hs hp hb hi hlabel ▸ hj

theorem labels_inj {qs : List PtrId} (h : r.labels (r.collapse ps) = r.labels (r.collapse qs)) :
    r.collapse ps = r.collapse qs := by
  have hmem : ∀ {ps qs i}, r.labels (r.collapse ps) = r.labels (r.collapse qs) →
      i ∈ r.collapse ps → i ∈ r.collapse qs := by
    intro ps qs i h hi
    obtain ⟨a, ha⟩ := exists_of_mem_collapse hs hi
    rw [← label_mem_map_iff hs hp ha, ← Text.mem_sortTexts, ← labels, ← h, labels,
      Text.mem_sortTexts]
    exact mem_map_of_mem hi
  have hperm : (r.collapse ps).Perm (r.collapse qs) :=
    (perm_ext_iff_of_nodup (r.nodup_collapse ps) (r.nodup_collapse qs)).mpr fun i =>
      ⟨hmem h, hmem h.symm⟩
  exact hperm.eq_of_pairwise (fun _ _ _ _ hab hba => absurd hab (Nat.lt_asymm hba))
    (OrderedSet.sorted _) (OrderedSet.sorted _)

end Result

/-- **Labels identify objects.** Whatever the options and the policy, at no time of a run do two
objects have the same label. So a result finds every object by its label, a list of labels has the
label of an object just if the object is listed, and lists of different objects are shown
differently. -/
theorem labels_identify_objects {p : Program} (hp : p.Accepted) (o : Options) (policy : Policy)
    {more : List Observer} (hmore : ∀ w ∈ more, w.Watches) :
    let g := o.setup p policy more
    (∀ n i j a b, ((g.initial []).run g n).state.registry.heap.get? i = some a →
      ((g.initial []).run g n).state.registry.heap.get? j = some b → a.label = b.label → i = j) ∧
    ∃ r, analyze p o policy more = .ok r ∧
      (∀ i ∈ r.objects, r.objectNamed? (r.label i) = some i) ∧
      (∀ ps i a, r.registry.heap.get? i = some a →
        (a.label ∈ (r.collapse ps).map r.label ↔ i ∈ r.collapse ps)) ∧
      ∀ ps qs, r.labels (r.collapse ps) = r.labels (r.collapse qs) ↔
        r.collapse ps = r.collapse qs := by
  intro g
  have hscript : g.Unscripted := Options.unscripted_setup hmore
  refine ⟨fun n i j a b hi hj hlabel => ?_, ?_⟩
  · exact (Setup.sound_run hp.wellFormed hscript [] n).wf.registry.eq_of_label hp hi hj hlabel
  · obtain ⟨r, hr, -⟩ := exists_analyze_eq_ok hp o policy hmore
    obtain ⟨hs, hlists⟩ := snapshot_of_analyze hp hmore hr
    refine ⟨r, hr, fun i hi => Result.objectNamed?_label hs hp hlists hi, fun ps i a ha => ?_,
      fun ps qs => ⟨Result.labels_inj hs hp, congrArg _⟩⟩
    rw [← Result.label_mem_map_iff hs hp ha, Result.label, ha]

/-- A program with objects of all kinds, and with a string and a class that look like labels. -/
def labelSource : ProgramSource where
  classes := [
    { name := "Main/new Object/0"
      methods := [
        { sig := "static void make()", locals := ["Object o"], body := ["o = new Object"] }] },
    { name := "Main"
      methods := [
        { sig := "static void main(String[] args)"
          locals := ["Object[][] grid", "String text", "Class kind", "Object o"]
          body := ["o = new Object", "grid = new Object[n][m]",
            "text = \"Main.main(String[])/new Object/0\"", "kind = Object[].class"] }] }]
  entries := ["Main.main(String[])", "Main/new Object/0.make()"]

/-- The labels in that program, by the numbers of the objects. -/
def labelTexts : List String :=
  ["Main.main(String[])/new Object/0", "Main.main(String[])/new Object[][]/1",
    "MultiArrayObj[Main.main(String[])/new Object[][]/1]:Object[]",
    "\"Main.main(String[])/new Object/0\"", "Object[].class",
    "Main/new Object/0.make()/new Object/0", "MainArgs:String[]", "MainArgsElem:String"]

theorem labels_identify_objects_labelSource : ∃ p r, Program.load labelSource = .ok p ∧
    analyze p {} .insensitive [] = .ok r ∧ (List.range 8).map r.label = labelTexts ∧
    (∀ i ∈ r.objects, r.objectNamed? (r.label i) = some i) ∧
    ∀ ps qs, r.labels (r.collapse ps) = r.labels (r.collapse qs) ↔
      r.collapse ps = r.collapse qs := by
  obtain ⟨p, hload, r, hr, hlabels⟩ : ∃ p, Program.load labelSource = .ok p ∧
      ∃ r ∈ resultWithin 150 p {} .insensitive, (List.range 8).map r.label = labelTexts :=
    exists_of_any_toOption (by decide +kernel)
  have hr := analyze_of_resultWithin hr
  have hnone : ∀ w ∈ ([] : List Observer), w.Watches := fun _ h => absurd h not_mem_nil
  obtain ⟨-, r', hr', hfound, -, hlists⟩ :=
    labels_identify_objects ⟨labelSource, hload⟩ {} .insensitive hnone
  cases hr.symm.trans hr'
  exact ⟨p, r, hload, hr, hlabels, hfound, hlists⟩

end HeapFlow
