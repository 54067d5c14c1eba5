import HeapFlow.Proofs.Literals
import HeapFlow.Proofs.Reading
import HeapFlow.Proofs.Shapes

/-!
# Printed statements are read back

A statement that is neither a call nor an access to a static field is printed in the form in which
it can be written, and its text is read as the statement it was printed from
(`Source.readStmt_stmtText`), whatever text that was read from first. A variable, a type or a field
that is found by its name is shown by it. What changes on the way is the text of a constant (`007`
is printed `7`, and a string with the escapes of quoted text) and the bounds of an allocation, of
which only the number counts (`shownBounds`).
-/

namespace HeapFlow

open List Text Grammar

theorem stripBrackets_brackets {k : Nat} {l : List Char} (h : Stops (· == ']') l) :
    stripBrackets (brackets k ++ l) = (k, l) := by
  induction k with
  | zero =>
    cases l with
    | nil => rfl
    | cons c l =>
      have hc : c ≠ ']' := by simpa using h
      show stripBrackets (c :: l) = _
      rw [stripBrackets]
      simp [hc]
  | succ k ih => simp only [brackets, cons_append, stripBrackets, ih]

namespace Ty

theorem base_of_not_isArray {t : Ty} (h : t.isArray = false) : t.base = t ∧ t.dims = 0 := by
  cases t with
  | array t => cases h
  | _ => exact ⟨rfl, rfl⟩

theorem isArray_arrays {t : Ty} (h : t.isArray = false) (n : Nat) :
    (t.arrays n).isArray = decide (0 < n) := by
  cases n with
  | zero => exact h
  | succ n => rfl

end Ty

namespace Program

theorem exists_arrays_of_type? {p : Program} {c : String} {k : Nat} {t : Ty}
    (hc : Spelled isNameChar c) (h : p.type? (c ++ repeated k "[]") = some t) :
    ∃ u : Ty, u.isArray = false ∧ u.name = c ∧ t = u.arrays k := by
  have hstrip : stripBrackets (c ++ repeated k "[]").toList.reverse = (k, c.toList.reverse) := by
    rw [String.toList_append, reverse_append, reverse_repeated, stripBrackets_brackets]
    intro ch hch
    have hmem : ch ∈ c.toList := mem_reverse.mp (mem_of_mem_head? hch)
    rw [beq_eq_false_iff_ne]
    rintro rfl
    exact hc.not_mem rfl hmem
  simp only [type?, hstrip, reverse_reverse, String.ofList_toList] at h
  split at h
  next prim hprim =>
    cases h
    exact ⟨.prim prim, rfl, by simpa [Ty.name] using find?_some hprim, rfl⟩
  next =>
    obtain ⟨k, hk, rfl⟩ := Option.map_eq_some_iff.mp h
    exact ⟨.cls k.name, rfl, name_of_class? hk, rfl⟩

end Program

namespace Source

variable {p : Program} {m : Method}

variable {name c : String} {v : Slot} {bounds : List Bool}

theorem varName_of_var? (h : m.var? name = some v) : m.varName v = name := by
  obtain ⟨hlt, hv, -⟩ := findIdx?_eq_some_iff_getElem.mp h
  rw [Method.varName, getElem?_eq_getElem hlt]
  exact beq_iff_eq.mp hv

theorem slotOf_of_var? (h : m.var? name = some v) : slotOf m name = .ok v := by
  rw [slotOf, h]

theorem resolveNew_congr {dst cls : String} {bounds' : List Bool}
    (hlength : bounds'.length = bounds.length)
    (hcount : max 1 (bounds'.countP id) = max 1 (bounds.countP id)) :
    resolveNew p m dst cls bounds' = resolveNew p m dst cls bounds := by
  rw [resolveNew, resolveNew, hlength, hcount]

/-- The dimensions that the text of an allocation shows. -/
def shownBounds (k d : Nat) : List Bool :=
  if 1 < d then List.replicate d true ++ List.replicate (k - d) false else List.replicate k false

/-- The text of an allocation, in characters. -/
theorem toList_allocText {p : Program} {k d : Nat} {t : Ty} (hc : Spelled isNameChar c)
    (h : p.type? (c ++ repeated k "[]") = some t) (hd : d = 1 ∨ d ≤ k) :
    (Stmt.allocText t d).toList = c.toList ++ boundsText (shownBounds k d) := by
  obtain ⟨u, hu, rfl, rfl⟩ := Program.exists_arrays_of_type? hc h
  unfold shownBounds
  split
  next hlt =>
    rw [Stmt.allocText, Ty.isArray_arrays hu, if_pos (by simp; omega)]
    rw [Ty.base_arrays, (Ty.base_of_not_isArray hu).1, Ty.dims_arrays,
      (Ty.base_of_not_isArray hu).2, Nat.zero_add, String.append_assoc, String.toList_append,
      toList_repeated_bounds]
  next hle =>
    have hname := Program.name_of_type? h
    rw [Stmt.allocText, if_neg (by simp [hle]), hname, String.toList_append]
    have := toList_repeated_bounds 0 k
    rw [show repeated 0 "[n]" = "" from rfl, String.empty_append] at this
    rw [this]
    rfl

theorem reread {s : Stmt} {f : Form} {cs : List Char} (htext : (m.stmtText s).toList = cs)
    (hread : Form.read cs = some f) (hs : resolveForm p m f = .ok s) :
    readStmt p m (m.stmtText s) = .ok s := by
  rw [readStmt, htext, hread]
  exact hs

theorem toList_assigns (x w : String) : (x ++ " = " ++ w).toList = assignment x w.toList := by
  rw [String.toList_append, String.toList_append, append_assoc]
  rfl

/-- An allocation is read back. -/
theorem reread_new {x : String} {t : Ty} {n : Nat} (hx : Spelled isWordChar x)
    (hc : Spelled isNameChar c) (hv : m.var? x = some v)
    (ht : p.type? (c ++ repeated bounds.length "[]") = some t) (hn : n = max 1 (bounds.countP id))
    (h : resolveForm p m (.new x c bounds) = .ok (.new v t n)) :
    readStmt p m (m.stmtText (.new v t n)) = .ok (.new v t n) := by
  have hcount : bounds.countP id ≤ bounds.length := countP_le_length
  have htext : (m.stmtText (.new v t n)).toList = assignment x ("new ".toList ++
      (c.toList ++ boundsText (shownBounds bounds.length n))) := by
    rw [Method.stmtText, Stmt.text, varName_of_var? hv, String.toList_append,
      toList_allocText hc ht (by omega)]
    simp [assignment]
  refine reread htext (read_assignment_new hx hc) ?_
  rw [← h]
  refine resolveNew_congr ?_ ?_
  · unfold shownBounds
    split <;> simp
    omega
  · unfold shownBounds
    split
    next hlt =>
      simp [countP_replicate]
      omega
    next hle =>
      simp [countP_replicate]
      omega

theorem unsigned_toString (n : Int) : unsigned (toString n).toList = Nat.toDigits 10 n.natAbs := by
  rw [toList_toString_int]
  split
  next hn =>
    rw [show n.natAbs = n.toNat by omega]
    unfold unsigned
    split
    next ds h =>
      have hdigit := Nat.isDigit_of_mem_toDigits (b := 10) (by decide) (by decide)
        (h ▸ .head _ : '-' ∈ Nat.toDigits 10 n.toNat)
      cases hdigit
    next => rfl
  next hn =>
    rw [show n.natAbs = (-n).toNat by omega]
    rfl

/-- **Printed statements are read back.** -/
theorem readStmt_stmtText {text : String} {s : Stmt} (h : readStmt p m text = .ok s)
    (hcall : s.call? = none) (hstatic : s.staticField? = none) :
    readStmt p m (m.stmtText s) = .ok s := by
  obtain ⟨form, hread, hform⟩ := exists_of_readStmt h
  have hformed := formed_of_read hread
  cases resolves_of_resolveForm hform with
  | ret =>
    have hread : Form.read "return".toList = some (.ret none) := by decide
    exact reread rfl hread rfl
  | @retVar v x hx =>
    have htext : (m.stmtText (.ret (some x))).toList = "return ".toList ++ v.toList := by
      rw [Method.stmtText, Stmt.text, varName_of_var? hx, String.toList_append]
    exact reread htext (read_ret (hformed v rfl)) hform
  | call => cases hcall
  | new hx ht => exact reread_new hformed.1 hformed.2 hx ht rfl hform
  | @str dst quoted x bytes hx hbytes =>
    have htext : (m.stmtText (.const x (.str bytes))).toList =
        assignment dst ('"' :: ((pieces bytes).flatMap quotePiece ++ ['"'])) := by
      rw [Method.stmtText, Stmt.text, varName_of_var? hx, toList_assigns, Literal.text,
        toList_quoteBytes]
    refine reread htext (read_assignment_str hformed (closesQuote_flatMap _)) ?_
    rw [resolveForm, slotOf_of_var? hx, ← toList_quoteBytes, unquote_quoteBytes]
    rfl
  | @int dst digits x n hx hn =>
    have htext : (m.stmtText (.const x (.int n))).toList = assignment dst (toString n).toList := by
      rw [Method.stmtText, Stmt.text, varName_of_var? hx, toList_assigns, Literal.text]
    have hne : unsigned (toString n).toList ≠ [] := unsigned_toString n ▸ Nat.toDigits_ne_nil
    have hdigits : ∀ c ∈ unsigned (toString n).toList, c.isDigit = true := fun c hc =>
      Nat.isDigit_of_mem_toDigits (by decide) (by decide) (unsigned_toString n ▸ hc)
    refine reread htext (read_assignment_int hformed hne hdigits) ?_
    rw [resolveForm, slotOf_of_var? hx, String.ofList_toList, readInt64_toString hn]
    rfl
  | @cls dst type x t hx ht =>
    have htext : (m.stmtText (.const x (.cls t))).toList =
        assignment dst (type.toList ++ ".class".toList) := by
      rw [Method.stmtText, Stmt.text, varName_of_var? hx, toList_assigns, Literal.text,
        Program.name_of_type? ht, String.toList_append]
    exact reread htext (read_assignment_of_plain hread trivial hformed.1) hform
  | @null dst x hx =>
    have htext : (m.stmtText (.const x .null)).toList = assignment dst "null".toList := by
      rw [Method.stmtText, Stmt.text, varName_of_var? hx, toList_assigns, Literal.text]
    exact reread htext (read_assignment_of_plain hread trivial hformed) hform
  | @cast dst type src x y t hx hy ht =>
    have htext : (m.stmtText (.cast x t y)).toList =
        assignment dst ('(' :: (type.toList ++ ')' :: ' ' :: src.toList)) := by
      rw [Method.stmtText, Stmt.text, varName_of_var? hx, varName_of_var? hy,
        Program.name_of_type? ht]
      simp [assignment]
    exact reread htext (read_assignment_cast hformed.1 hformed.2.1 hformed.2.2) hform
  | @loadElem dst base x y hx hy =>
    have htext : (m.stmtText (.loadElem x y)).toList =
        assignment dst (base.toList ++ "[*]".toList) := by
      rw [Method.stmtText, Stmt.text, varName_of_var? hx, varName_of_var? hy]
      simp [assignment]
    exact reread htext (read_assignment_loadElem hformed.1 hformed.2) hform
  | @storeElem base src x y hx hy =>
    have htext : (m.stmtText (.storeElem x y)).toList =
        base.toList ++ ("[*] = ".toList ++ src.toList) := by
      rw [Method.stmtText, Stmt.text, varName_of_var? hx, varName_of_var? hy]
      simp
    exact reread htext (read_storeElem hformed.1 hformed.2) hform
  | @load dst base field x b f hx hf =>
    obtain ⟨hb, hname, -⟩ := of_fieldAccess hf
    have htext : (m.stmtText (.load x b f.id)).toList =
        assignment dst (base.toList ++ '.' :: field.toList) := by
      rw [Method.stmtText, Stmt.text, varName_of_var? hx, varName_of_var? hb, hname]
      simp [assignment]
    exact reread htext (read_assignment_of_plain hread trivial hformed) hform
  | loadStatic | storeStatic => cases hstatic
  | @store base field src b y f hf hy =>
    obtain ⟨hb, hname, -⟩ := of_fieldAccess hf
    have htext : (m.stmtText (.store b f.id y)).toList =
        base.toList ++ '.' :: (field.toList ++ (" = ".toList ++ src.toList)) := by
      rw [Method.stmtText, Stmt.text, varName_of_var? hy, varName_of_var? hb, hname]
      simp
    exact reread htext (read_storeField hformed.1 hformed.2.1 hformed.2.2) hform
  | @copy dst src x y hx hy =>
    have htext : (m.stmtText (.copy x y)).toList = assignment dst src.toList := by
      rw [Method.stmtText, Stmt.text, varName_of_var? hx, varName_of_var? hy, toList_assigns]
    exact reread htext (read_assignment_of_plain hread trivial hformed) hform

/-- A program with variables that are named like keywords. -/
def keywordSource : ProgramSource where
  classes := [
    { name := "Words"
      methods := [
        { sig := "static void keep(Object new, Object return)"
          locals := ["Object[][][] cube", "int null", "String text"] }] }]

/-- Statements of that program's method, and how they are printed. -/
def keywordTexts : List (String × String) :=
  [("cube=new  Object[i][j][]", "cube = new Object[n][n][]"), ("return=new", "return = new"),
    ("null = -007", "null = -7"), ("text = \"\\101\\u000a\"", "text = \"A\\n\"")]

/-- An allocation, a copy between variables that are named like keywords and two constants, none of
which is written as it is printed. -/
theorem readStmt_stmtText_keywordTexts :
    ∃ p m, Program.load keywordSource = .ok p ∧ ∀ t ∈ keywordTexts,
      ∃ s, readStmt p m t.1 = .ok s ∧ m.stmtText s = t.2 ∧ readStmt p m t.2 = .ok s := by
  obtain ⟨p, hload, k, -, m, -, h⟩ : ∃ p, Program.load keywordSource = .ok p ∧
      ∃ k ∈ p.classes, ∃ m ∈ k.methods, ∀ t ∈ keywordTexts,
        (readStmt p m t.1).toOption.any (fun s =>
          decide (m.stmtText s = t.2 ∧ s.call? = none ∧ s.staticField? = none)) = true :=
    exists_of_any_toOption (by decide +kernel)
  refine ⟨p, m, hload, fun t ht => ?_⟩
  obtain ⟨s, hs, htext, hcall, hstatic⟩ := exists_of_any_toOption (h t ht)
  exact ⟨s, hs, htext, htext ▸ readStmt_stmtText hs hcall hstatic⟩

end Source

end HeapFlow
