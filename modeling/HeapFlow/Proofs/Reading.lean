import HeapFlow.Proofs.Signatures

/-!
# Reading and normal texts

A statement can be spelled in many ways: the blanks around an equals sign, after `new` and after a
cast do not matter, nor does the text of an index or of a bound. Each form has a *normal text* with
one choice for each of these, and it is read as that form. The shapes are tried in order and
overlap, so a normal text has to be read by its own shape and by no earlier one. Where the right
side of an assignment has only one spelling, the earlier shapes see the right side that the form was
read from. Otherwise some character rules them out.
-/

namespace HeapFlow.Grammar

open List Option Text

section Pieces

variable {ok : Char → Bool} {s rest : List Char} {w : String}

theorem takeWhile_of_stops (h : Stops ok s) : s.takeWhile ok = [] := by
  cases s with
  | nil => rfl
  | cons c s => rw [takeWhile_cons, stops_cons.mp h, if_neg Bool.false_ne_true]

theorem dropWhile_of_stops (h : Stops ok s) : s.dropWhile ok = s := by
  cases s with
  | nil => rfl
  | cons c s => rw [dropWhile_cons, stops_cons.mp h, if_neg Bool.false_ne_true]

theorem takeWhile_append_of_stops {w : List Char} (hw : ∀ c ∈ w, ok c = true) (hs : Stops ok s) :
    (w ++ s).takeWhile ok = w := by
  rw [takeWhile_append_of_pos hw, takeWhile_of_stops hs, append_nil]

theorem dropWhile_append_of_stops {w : List Char} (hw : ∀ c ∈ w, ok c = true) (hs : Stops ok s) :
    (w ++ s).dropWhile ok = s := by
  rw [dropWhile_append_of_pos hw, dropWhile_of_stops hs]

/-- A run ends where another character follows. -/
theorem Spelled.run_append (hw : Spelled ok w) (hs : Stops ok s) :
    run ok (w.toList ++ s) = some (w, s) := by
  rw [run, takeWhile_append_of_stops hw.2 hs, dropWhile_append_of_stops hw.2 hs]
  split
  next h => exact absurd h hw.1
  next => rw [String.ofList_toList]

theorem blanks_of_stops (h : Stops isBlank s) : blanks s = s :=
  dropWhile_of_stops h

theorem someBlanks_space (h : Stops isBlank s) : someBlanks (' ' :: s) = some s := by
  show some (blanks s) = some s
  rw [blanks_of_stops h]

theorem keyword_of_no_blank (h : ∀ c ∈ s, isBlank c = false) : keyword w s = none := by
  cases hw : keyword w s with
  | none => rfl
  | some rest =>
    obtain ⟨b, t, rfl, hb, -⟩ := exists_of_keyword hw
    rw [h b (by simp)] at hb
    cases hb

variable {ok' : Char → Bool}

theorem Spelled.mono (hw : Spelled ok w) (h : ∀ c, ok c = true → ok' c = true) : Spelled ok' w :=
  ⟨hw.1, fun c hc => h c (hw.2 c hc)⟩

theorem Spelled.stops (hw : Spelled ok w) (h : ∀ c, ok c = true → ok' c = false) :
    Stops ok' (w.toList ++ s) := by
  obtain ⟨c, cs, hcs⟩ := exists_cons_of_ne_nil hw.1
  rw [hcs, cons_append, stops_cons]
  exact h c (hw.2 c (hcs ▸ .head _))

end Pieces

variable {c : Char}

theorem isNameChar_of_isWordChar (h : isWordChar c = true) : isNameChar c = true := by
  rw [isNameChar, h, Bool.true_or]

theorem isTypeChar_of_isNameChar (h : isNameChar c = true) : isTypeChar c = true := by
  rw [isTypeChar, h, Bool.true_or, Bool.true_or]

theorem isBlank_of_isTypeChar (h : isTypeChar c = true) : isBlank c = false := by
  by_contra hc
  rw [Bool.not_eq_false, isBlank] at hc
  simp only [Bool.or_eq_true, beq_iff_eq] at hc
  obtain (((rfl | rfl) | rfl) | rfl) | rfl := hc <;> cases h

theorem isBlank_of_isWordChar (h : isWordChar c = true) : isBlank c = false :=
  isBlank_of_isTypeChar (isTypeChar_of_isNameChar (isNameChar_of_isWordChar h))

theorem Spelled.run_toList {ok : Char → Bool} {w : String} (hw : Spelled ok w) :
    run ok w.toList = some (w, []) := by
  have := hw.run_append (s := []) stops_nil
  rwa [append_nil] at this

theorem Spelled.blanks_toList {w : String} (hw : Spelled isWordChar w) :
    blanks (' ' :: w.toList) = w.toList := by
  show blanks w.toList = _
  have := hw.stops (s := []) fun _ => isBlank_of_isWordChar
  rw [append_nil] at this
  exact blanks_of_stops this

theorem ret?_of_mem {s : List Char} (h : '=' ∈ s) : ret? s = none := by
  refine Option.eq_none_iff_forall_ne_some.mpr fun f hf => ?_
  obtain ⟨-, rfl⟩ | ⟨b, t, v, -, rfl, hb, ht, hv⟩ := exists_of_ret? hf
  · exact absurd h (by decide)
  · have hmem : '=' ∈ b :: t := (mem_append.mp h).resolve_left (by decide)
    obtain rfl | hmem := mem_cons.mp hmem
    · cases hb
    -- what is not among the blanks is in the variable
    rw [← takeWhile_append_dropWhile (p := isBlank) (l := t), mem_append] at hmem
    obtain hmem | hmem := hmem
    · cases all_eq_true.mp all_takeWhile _ hmem
    · exact hv.not_mem (c := '=') rfl (ht ▸ (hmem : '=' ∈ blanks t))

/-! ### Assignments -/

/-- An assignment to `x` with one blank on each side of the equals sign. -/
def assignment (x : String) (r : List Char) : List Char :=
  x.toList ++ ' ' :: '=' :: ' ' :: r

section Assignments

variable {x : String} {r s : List Char}

/-- An assignment is a call just if its right side is, or the whole text. -/
theorem call?_of_assigned (h : assigned s = some (x, r)) :
    call? s = (callBody (some x) r).or (callBody none s) := by
  simp only [call?, h, bind_some]
  cases callBody (some x) r <;> rfl

theorem ret?_assignment : ret? (assignment x r) = none :=
  ret?_of_mem (by simp [assignment])

theorem run_assignment {ok : Char → Bool} (hx : Spelled ok x) (hblank : ok ' ' = false) :
    run ok (assignment x r) = some (x, ' ' :: '=' :: ' ' :: r) :=
  hx.run_append (by simpa using hblank)

variable (hx : Spelled isWordChar x)

include hx

theorem assigned_assignment (hr : Stops isBlank r) : assigned (assignment x r) = some (x, r) := by
  rw [assigned, run_assignment hx rfl]
  show some (x, blanks r) = _
  rw [blanks_of_stops hr]

theorem callTail_assignment (result : Option String) (kind : Option CallKind) :
    callTail result kind (assignment x r) = none := by
  rw [callTail, run_assignment (hx.mono fun _ => isNameChar_of_isWordChar) rfl]
  rfl

theorem keyword_assignment {w : String} {rest : List Char}
    (hw : ∀ c ∈ w.toList, isWordChar c = true) (h : keyword w (assignment x r) = some rest) :
    rest = '=' :: ' ' :: r := by
  obtain ⟨b, t, heq, hb, rfl⟩ := exists_of_keyword h
  have hx' := takeWhile_append_of_stops (s := ' ' :: '=' :: ' ' :: r) hx.2 (by simp; rfl)
  have hb' : isWordChar b = false := by
    by_contra hc
    rw [isBlank_of_isWordChar (Bool.not_eq_false _ ▸ hc)] at hb
    cases hb
  have hw' := takeWhile_append_of_stops (s := b :: t) hw (by simpa using hb')
  rw [← heq] at hw'
  rw [assignment] at heq hw'
  rw [hw'] at hx'
  rw [hx'] at heq
  have := append_cancel_left heq
  cases this
  rfl

/-- An assignment as a whole is no call. -/
theorem callBody_assignment (result : Option String) : callBody result (assignment x r) = none := by
  rw [callBody, callTail_assignment hx]
  cases h : callKind (assignment x r) with
  | none => rfl
  | some ks =>
    obtain ⟨k, s'⟩ := ks
    obtain ⟨k', hk', h⟩ := exists_of_findSome?_eq_some h
    obtain ⟨rest, hrest, h⟩ := Option.map_eq_some_iff.mp h
    cases h
    have hw : k.text.toList.all isWordChar = true :=
      (by decide : ∀ k ∈ [CallKind.virtual, .interface, .special, .static],
        k.text.toList.all isWordChar = true) k hk'
    rw [keyword_assignment hx (all_eq_true.mp hw) hrest]
    rfl

theorem call?_assignment (hr : Stops isBlank r) : call? (assignment x r) = callBody (some x) r := by
  rw [call?_of_assigned (assigned_assignment hx hr), callBody_assignment hx, or_none]

theorem storeElem?_assignment : storeElem? (assignment x r) = none := by
  rw [storeElem?, run_assignment hx rfl]
  rfl

theorem storeField?_assignment : storeField? (assignment x r) = none := by
  rw [storeField?, run_assignment (hx.mono fun _ => isNameChar_of_isWordChar) rfl]
  rfl

end Assignments

/-! ### Normal texts -/

/-- The forms whose text is an assignment with only one spelling of its right side. -/
def Form.Plain : Form → Prop
  | .cls .. | .null .. | .loadField .. | .copy .. => True
  | _ => False

/-- Reading is the same for two texts if no shape tells them apart but those of forms that are not
read from the first. -/
theorem findSome?_of_shapes {l : List (List Char → Option Form)} {P : Form → Prop} {s t : List Char}
    {f : Form} (hf : P f) (h : l.findSome? (fun shape => shape s) = some f)
    (hl : ∀ shape ∈ l, shape t = shape s ∨
      (shape s = none → shape t = none) ∧ ∀ f', shape s = some f' → ¬ P f') :
    l.findSome? (fun shape => shape t) = some f := by
  induction l with
  | nil => cases h
  | cons shape l ih =>
    have hhead := hl shape (.head _)
    have htail := fun g hg => hl g (.tail _ hg)
    rw [findSome?_cons] at h ⊢
    cases hs : shape s with
    | none =>
      rw [hs] at h
      have ht : shape t = none := hhead.elim (fun heq => heq.trans hs) fun hnone => hnone.1 hs
      rw [ht]
      exact ih h htail
    | some f' =>
      rw [hs] at h
      obtain rfl := Option.some.inj h
      rw [(hhead.resolve_right fun hnone => hnone.2 _ hs hf).trans hs]

section Normal

variable {s r : List Char} {x : String} {f : Form}

/-- **The blanks around the equals sign do not matter**: an assignment is read like its normal
text. -/
theorem read_assignment_of_plain (h : Form.read s = some f) (hf : f.Plain)
    (hassigned : assigned s = some (x, r)) : Form.read (assignment x r) = some f := by
  obtain ⟨hx, hr⟩ := of_assigned hassigned
  have heq : assigned (assignment x r) = assigned s := by
    rw [assigned_assignment hx hr, hassigned]
  refine findSome?_of_shapes hf h fun shape hshape => ?_
  simp only [shapes, mem_cons, not_mem_nil, or_false] at hshape
  obtain rfl | rfl | rfl | rfl | rfl | rfl | rfl | rfl | rfl | rfl | rfl | rfl | rfl := hshape
  case inl =>
    refine .inr ⟨fun _ => ret?_assignment, fun f' hf' => ?_⟩
    obtain ⟨rfl, -⟩ | ⟨_, _, _, rfl, -⟩ := exists_of_ret? hf' <;> exact id
  case inr.inl =>
    refine .inr ⟨fun hnone => ?_, fun f' hf' => ?_⟩
    · rw [call?_of_assigned hassigned, or_eq_none_iff] at hnone
      rw [call?_assignment hx hr, hnone.1]
    · obtain ⟨⟨_, _, _, _, _, _, rfl⟩, -⟩ := exists_of_call? hf'
      exact id
  case inr.inr.inr.inr.inr.inr.inr.inr.inr.inl =>
    refine .inr ⟨fun _ => storeElem?_assignment hx, fun f' hf' => ?_⟩
    obtain ⟨_, _, rfl, -⟩ := exists_of_storeElem? hf'
    exact id
  case inr.inr.inr.inr.inr.inr.inr.inr.inr.inr.inr.inl =>
    refine .inr ⟨fun _ => storeField?_assignment hx, fun f' hf' => ?_⟩
    obtain ⟨_, _, _, rfl, -⟩ := exists_of_storeField? hf'
    exact id
  all_goals exact .inl (congrArg (Option.bind · _) heq)

/-- Characters that rule out all shapes of an assignment that are tried before those of a number. -/
def isBare (c : Char) : Bool :=
  !isBlank c && c != '"' && c != '.' && c != '('

theorem isBare_of_isWordChar {c : Char} (h : isWordChar c = true) : isBare c = true := by
  simp only [isBare, isBlank_of_isWordChar h, Bool.not_false, Bool.true_and, Bool.and_eq_true,
    bne_iff_ne]
  refine ⟨⟨?_, ?_⟩, ?_⟩ <;> rintro rfl <;> cases h

/-- **The right side of an assignment is bare**: then it is a number, an element or less. -/
theorem read_assignment_of_bare (hx : Spelled isWordChar x) (hr : ∀ c ∈ r, isBare c = true)
    (hnull : r ≠ "null".toList) : assigned (assignment x r) = some (x, r) ∧
      Form.read (assignment x r) = (int? (assignment x r)).or
        ((loadElem? (assignment x r)).or ((loadField? (assignment x r)).or
          (copy? (assignment x r)))) := by
  have hbare : ∀ c ∈ r, isBlank c = false ∧ c ≠ '"' ∧ c ≠ '.' ∧ c ≠ '(' := by
    simpa [isBare, and_assoc] using hr
  have hhead : ∀ c, c ∈ r.head? → c ∈ r := fun c => mem_of_mem_head?
  have hblank : Stops isBlank r := fun c hc => (hbare c (hhead c hc)).1
  have hassigned := assigned_assignment hx hblank
  have hcall : call? (assignment x r) = none := by
    rw [call?_assignment hx hblank, callBody_of_not_mem fun hc => (hbare _ hc).2.2.2 rfl]
  have hnew : new? (assignment x r) = none := by
    simp [new?, hassigned, keyword_of_no_blank fun c hc => (hbare c hc).1]
  have hstr : str? (assignment x r) = none := by
    rw [str?, hassigned]
    cases r with
    | nil => rfl
    | cons c r => simp [(hbare c (.head _)).2.1]
  have hcls : cls? (assignment x r) = none := by
    refine Option.eq_none_iff_forall_ne_some.mpr fun f hf => ?_
    obtain ⟨x', t, -, hx', -⟩ := exists_of_cls? hf
    cases hassigned.symm.trans hx'
    exact (hbare '.' (by simp)).2.2.1 rfl
  have hnone : null? (assignment x r) = none := by
    refine Option.eq_none_iff_forall_ne_some.mpr fun f hf => hnull ?_
    obtain ⟨x', -, hx'⟩ := exists_of_null? hf
    cases hassigned.symm.trans hx'
    rfl
  have hcast : cast? (assignment x r) = none := by
    have hword : word "(" r = none := by
      refine Option.eq_none_iff_forall_ne_some.mpr fun rest h => ?_
      rw [word_eq_some_iff] at h
      exact (hbare '(' (h ▸ .head _)).2.2.2 rfl
    simp [cast?, hassigned, hword]
  refine ⟨hassigned, ?_⟩
  simp only [Form.read, shapes, findSome?_cons, findSome?_nil, ret?_assignment, hcall,
    hnew, hstr, hcls, hnone, hcast, storeElem?_assignment hx, storeField?_assignment hx]
  cases int? (assignment x r) <;> cases loadElem? (assignment x r) <;>
    cases loadField? (assignment x r) <;> cases copy? (assignment x r) <;> rfl

theorem read_assignment_int (hx : Spelled isWordChar x) (hne : unsigned r ≠ [])
    (hdigits : ∀ c ∈ unsigned r, c.isDigit = true) :
    Form.read (assignment x r) = some (.int x (String.ofList r)) := by
  have hchars : ∀ c ∈ r, c = '-' ∨ c.isDigit = true := by
    intro c hc
    unfold unsigned at hdigits
    split at hdigits
    next ds => exact (mem_cons.mp hc).imp_right (hdigits c)
    next => exact .inr (hdigits c hc)
  have hbare : ∀ c ∈ r, isBare c = true := by
    intro c hc
    obtain rfl | hdigit := hchars c hc
    · decide
    · exact isBare_of_isWordChar (by simp [isWordChar, Char.isAlphanum, hdigit])
  have hnull : r ≠ "null".toList := by
    rintro rfl
    exact absurd (hchars 'n' (by decide)) (by decide)
  obtain ⟨hassigned, hread⟩ := read_assignment_of_bare hx hbare hnull
  rw [hread, int?_of_assigned hassigned, if_neg, some_or]
  simp only [Bool.or_eq_true, List.isEmpty_iff, Bool.not_eq_true', List.all_eq_false, not_or,
    not_exists]
  exact ⟨hne, fun c hc => hc.2 (hdigits c hc.1)⟩

variable {y : String} {t : List Char} {bounds : List Bool}

theorem read_assignment_loadElem (hx : Spelled isWordChar x) (hy : Spelled isWordChar y) :
    Form.read (assignment x (y.toList ++ "[*]".toList)) = some (.loadElem x y) := by
  have hbare : ∀ c ∈ y.toList ++ "[*]".toList, isBare c = true := by
    intro c hc
    obtain hc | hc := mem_append.mp hc
    · exact isBare_of_isWordChar (hy.2 c hc)
    · exact all_eq_true.mp (by decide : "[*]".toList.all isBare = true) c hc
  have hstar : '*' ∈ y.toList ++ "[*]".toList := mem_append_right _ (by decide)
  obtain ⟨hassigned, hread⟩ := read_assignment_of_bare hx hbare fun h =>
    absurd (h ▸ hstar) (by decide)
  have hint : int? (assignment x (y.toList ++ "[*]".toList)) = none := by
    have hmem : '*' ∈ unsigned (y.toList ++ "[*]".toList) := by
      unfold unsigned
      split
      next ds hds => exact (mem_cons.mp (hds ▸ hstar)).resolve_left (by decide)
      next => exact hstar
    rw [int?_of_assigned hassigned, if_pos]
    rw [Bool.or_eq_true, Bool.not_eq_true', List.all_eq_false]
    exact .inr ⟨'*', hmem, by decide⟩
  have hload : loadElem? (assignment x (y.toList ++ "[*]".toList)) = some (.loadElem x y) := by
    rw [loadElem?, hassigned]
    show (run isWordChar _).bind _ = _
    rw [hy.run_append (by simp; rfl)]
    rfl
  rw [hread, hint, hload, none_or, some_or]

/-- A quoted string is assigned. -/
theorem read_assignment_str (hx : Spelled isWordChar x) {body : List Char}
    (hbody : closesQuote body = true) :
    Form.read (assignment x ('"' :: body)) = some (.str x ('"' :: body)) := by
  have hassigned := assigned_assignment hx (r := '"' :: body) (by simp; rfl)
  have hcall : call? (assignment x ('"' :: body)) = none := by
    rw [call?_assignment hx (by simp; rfl)]
    rfl
  have hnew : new? (assignment x ('"' :: body)) = none := by
    rw [new?, hassigned]
    rfl
  have hstr : str? (assignment x ('"' :: body)) = some (.str x ('"' :: body)) := by
    rw [str?, hassigned]
    show (if closesQuote body = true then _ else _) = _
    rw [if_pos hbody]
    rfl
  simp only [Form.read, shapes, findSome?_cons, ret?_assignment, hcall, hnew, hstr]

/-- A cast, with one blank. -/
theorem read_assignment_cast {t : String} (hx : Spelled isWordChar x) (ht : Spelled isTypeChar t)
    (hy : Spelled isWordChar y) :
    Form.read (assignment x ('(' :: (t.toList ++ ')' :: ' ' :: y.toList))) =
      some (.cast x t y) := by
  have hrun : run isTypeChar (t.toList ++ ')' :: ' ' :: y.toList) =
      some (t, ')' :: ' ' :: y.toList) :=
    ht.run_append (by simp; rfl)
  obtain ⟨u, hu⟩ : ∃ u, t.toList ++ ')' :: ' ' :: y.toList = u := ⟨_, rfl⟩
  rw [hu] at hrun ⊢
  have hr : Stops isBlank ('(' :: u) := stops_cons.mpr rfl
  have hassigned := assigned_assignment hx hr
  have hcall : call? (assignment x ('(' :: u)) = none := by
    rw [call?_assignment hx hr]
    rfl
  have hint : int? (assignment x ('(' :: u)) = none := int?_of_assigned hassigned
  have hcast : cast? (assignment x ('(' :: u)) = some (.cast x t y) := by
    rw [cast?, hassigned]
    show (run isTypeChar u).bind _ = _
    rw [hrun]
    show (run isWordChar (blanks (' ' :: y.toList))).bind _ = _
    rw [hy.blanks_toList, hy.run_toList]
    rfl
  have hbefore : ∀ {shape : List Char → Option Form}, shape ∈ [new?, str?, cls?, null?] →
      shape (assignment x ('(' :: u)) = none := by
    intro shape hshape
    simp only [mem_cons, not_mem_nil, or_false] at hshape
    obtain rfl | rfl | rfl | rfl := hshape <;> exact congrArg (Option.bind · _) hassigned
  simp only [Form.read, shapes, findSome?_cons, ret?_assignment, hcall, hbefore, hint, hcast,
    mem_cons, true_or, or_true]

theorem read_of_assigned_none (hassigned : assigned s = none) (heq : '=' ∈ s) (hb : '(' ∉ s) :
    Form.read s = (storeElem? s).or (storeField? s) := by
  have hcall : call? s = none := by
    rw [call?, hassigned]
    exact callBody_of_not_mem hb
  simp only [Form.read, shapes, findSome?_cons, findSome?_nil, ret?_of_mem heq, hcall,
    new?, str?, cls?, null?, int?, cast?, loadElem?, loadField?, copy?, hassigned,
    bind_eq_bind, bind_none]
  cases storeElem? s <;> cases storeField? s <;> rfl

theorem read_storeElem (hx : Spelled isWordChar x) (hy : Spelled isWordChar y) :
    Form.read (x.toList ++ ("[*] = ".toList ++ y.toList)) = some (.storeElem x y) := by
  have hrun : run isWordChar (x.toList ++ ("[*] = ".toList ++ y.toList)) =
      some (x, "[*] = ".toList ++ y.toList) := hx.run_append (by simp; rfl)
  have hassigned : assigned (x.toList ++ ("[*] = ".toList ++ y.toList)) = none := by
    rw [assigned, hrun]
    rfl
  have hstore : storeElem? (x.toList ++ ("[*] = ".toList ++ y.toList)) = some (.storeElem x y) := by
    rw [storeElem?, hrun]
    show (run isWordChar (blanks (' ' :: y.toList))).bind _ = _
    rw [hy.blanks_toList, hy.run_toList]
    rfl
  rw [read_of_assigned_none hassigned, hstore, some_or]
  · simp
  · simp [hx.not_mem (c := '(') rfl, hy.not_mem (c := '(') rfl]

theorem exists_of_run_dotted {w : String} {rest : List Char} (hx : Spelled isNameChar x)
    (h : run isWordChar (x.toList ++ '.' :: t) = some (w, rest)) :
    ∃ c cs, rest = c :: cs ∧ (isNameChar c = true ∨ c = '.') := by
  obtain ⟨u, hu, hrest⟩ | ⟨u, hu, ht⟩ := append_eq_append_iff.mp (append_of_run h)
  · cases u with
    | nil => exact ⟨'.', t, hrest, .inr rfl⟩
    | cons c cs =>
      have hc : c ∈ x.toList := hu ▸ mem_append_right _ (.head _)
      exact ⟨c, cs ++ '.' :: t, hrest, .inl (hx.2 c hc)⟩
  · cases u with
    | nil => exact ⟨'.', t, ht.symm, .inr rfl⟩
    | cons c cs =>
      obtain rfl : '.' = c := (List.cons.inj ht).1
      have hdot := (of_run h).2 '.' (hu ▸ mem_append_right _ (.head _))
      cases hdot

theorem assigned_dotted (hx : Spelled isNameChar x) :
    assigned (x.toList ++ '.' :: t) = none ∧ storeElem? (x.toList ++ '.' :: t) = none := by
  cases hrun : run isWordChar (x.toList ++ '.' :: t) with
  | none =>
    rw [assigned, storeElem?, hrun]
    exact ⟨rfl, rfl⟩
  | some wr =>
    obtain ⟨w, rest⟩ := wr
    obtain ⟨c, cs, rfl, hc⟩ := exists_of_run_dotted hx hrun
    have hblank : isBlank c = false := by
      obtain hc | rfl := hc
      · exact isBlank_of_isTypeChar (isTypeChar_of_isNameChar hc)
      · rfl
    have hword : ∀ sign : Char, isNameChar sign = false → sign ≠ '.' → ∀ as,
        exactly (sign :: as) (c :: cs) = none := by
      intro sign hname hdot as
      refine if_neg ?_
      rintro rfl
      obtain hc | hc := hc
      · rw [hname] at hc
        cases hc
      · exact hdot hc
    constructor
    · rw [assigned, hrun]
      show (word "=" (blanks (c :: cs))).bind _ = none
      rw [blanks_of_stops (stops_cons.mpr hblank), show word "=" (c :: cs) = none from
        hword '=' rfl (by decide) []]
      rfl
    · rw [storeElem?, hrun]
      show (index (c :: cs)).bind _ = none
      rw [index, show word "[" (c :: cs) = none from hword '[' rfl (by decide) []]
      rfl

/-- A store to a field. -/
theorem read_storeField {g : String} (hx : Spelled isNameChar x) (hg : Spelled isNameChar g)
    (hy : Spelled isWordChar y) :
    Form.read (x.toList ++ '.' :: (g.toList ++ (" = ".toList ++ y.toList))) =
      some (.storeField x g y) := by
  obtain ⟨hassigned, hstoreElem⟩ := assigned_dotted (t := g.toList ++ (" = ".toList ++ y.toList)) hx
  have hstore : storeField? (x.toList ++ '.' :: (g.toList ++ (" = ".toList ++ y.toList))) =
      some (.storeField x g y) := by
    rw [storeField?, hx.run_append (by simp; rfl)]
    show (run isNameChar (g.toList ++ (" = ".toList ++ y.toList))).bind _ = _
    rw [hg.run_append (by simp; rfl)]
    show (run isWordChar (blanks (' ' :: y.toList))).bind _ = _
    rw [hy.blanks_toList, hy.run_toList]
    rfl
  rw [read_of_assigned_none hassigned, hstoreElem, hstore, none_or]
  · simp
  · simp [hx.not_mem (c := '(') rfl, hg.not_mem (c := '(') rfl, hy.not_mem (c := '(') rfl]

theorem read_ret (hy : Spelled isWordChar y) :
    Form.read ("return ".toList ++ y.toList) = some (.ret (some y)) := by
  have hblanks : someBlanks (' ' :: y.toList) = some y.toList := congrArg some hy.blanks_toList
  have hret : ret? ("return ".toList ++ y.toList) = some (.ret (some y)) := by
    have hword : word "return" ("return ".toList ++ y.toList) = some (' ' :: y.toList) := rfl
    simp only [ret?, hword, bind_eq_bind, bind_some, isEmpty_cons,
      Bool.false_eq_true, if_false, hblanks, hy.run_toList]
    rfl
  simp only [Form.read, shapes, findSome?_cons, hret]

/-- Dimensions as they are written, with `n` for a bound. -/
def boundsText (bounds : List Bool) : List Char :=
  bounds.flatMap fun b => if b then "[n]".toList else "[]".toList

/-- Dimensions are read as they are written. -/
theorem dimensions_boundsText {n : Nat} (h : bounds.length ≤ n) :
    dimensions n (boundsText bounds) = some bounds := by
  induction bounds generalizing n with
  | nil => cases n <;> rfl
  | cons b bounds ih =>
    obtain ⟨n, rfl⟩ := Nat.exists_eq_succ_of_ne_zero (Nat.ne_of_gt (Nat.zero_lt_of_lt h))
    have hrest := ih (Nat.le_of_succ_le_succ h)
    cases b
    all_goals
      show (dimensions n (boundsText bounds)).bind _ = _
      rw [hrest]
      rfl

theorem length_le_boundsText (bounds : List Bool) : bounds.length ≤ (boundsText bounds).length := by
  induction bounds with
  | nil => exact Nat.le_refl 0
  | cons b bounds ih =>
    rw [boundsText, flatMap_cons, length_append, ← boundsText, length_cons]
    cases b <;> simp <;> omega

theorem mem_boundsText {c : Char} (h : c ∈ boundsText bounds) : c ∈ "[n]".toList := by
  obtain ⟨b, -, hc⟩ := mem_flatMap.mp h
  cases b
  · exact (by decide : "[]".toList ⊆ "[n]".toList) hc
  · exact hc

theorem toList_repeated_bounds (d k : Nat) :
    (repeated d "[n]" ++ repeated k "[]").toList =
      boundsText (List.replicate d true ++ List.replicate k false) := by
  simp [repeated, boundsText, String.toList_join, flatMap_append, flatMap_replicate]

/-- An allocation. -/
theorem read_assignment_new {c : String} (hx : Spelled isWordChar x) (hc : Spelled isNameChar c) :
    Form.read (assignment x ("new ".toList ++ (c.toList ++ boundsText bounds))) =
      some (.new x c bounds) := by
  have hr : Stops isBlank ("new ".toList ++ (c.toList ++ boundsText bounds)) := by
    simp
    rfl
  have hassigned := assigned_assignment hx hr
  have hcall : call? (assignment x ("new ".toList ++ (c.toList ++ boundsText bounds))) = none := by
    rw [call?_assignment hx hr, callBody_of_not_mem]
    simp only [mem_append, not_or]
    exact ⟨by decide, hc.not_mem rfl, fun h => absurd (mem_boundsText h) (by decide)⟩
  have hblank : ∀ ch, isNameChar ch = true → isBlank ch = false := fun _ h =>
    isBlank_of_isTypeChar (isTypeChar_of_isNameChar h)
  have hkeyword : keyword "new" ("new ".toList ++ (c.toList ++ boundsText bounds)) =
      some (c.toList ++ boundsText bounds) := someBlanks_space (hc.stops hblank)
  have hrun : run isNameChar (c.toList ++ boundsText bounds) = some (c, boundsText bounds) := by
    refine hc.run_append ?_
    cases bounds with
    | nil => exact stops_nil
    | cons b bounds => cases b <;> exact stops_cons.mpr rfl
  have hnew : new? (assignment x ("new ".toList ++ (c.toList ++ boundsText bounds))) =
      some (.new x c bounds) := by
    simp only [new?, hassigned, bind_eq_bind, bind_some, hkeyword, hrun,
      dimensions_boundsText (length_le_boundsText bounds)]
    rfl
  simp only [Form.read, shapes, findSome?_cons, ret?_assignment, hcall, hnew]

end Normal

end HeapFlow.Grammar
