import HeapFlow.Source.Grammar

/-!
# What a form is read from

The readers of the grammar are chains of small ones, each of which takes a piece from the front of a
text. This file turns them around: what a piece says about its text, and from that what a form says
about its text (`Form.Formed`).
-/

namespace HeapFlow.Grammar

open List Option Text

section Pieces

variable {ok : Char → Bool} {s rest : List Char} {w : String}

/-- A text does not go on with a character of a class. -/
def Stops (ok : Char → Bool) (s : List Char) : Prop :=
  ∀ c ∈ s.head?, ok c = false

@[simp]
theorem stops_nil : Stops ok [] := by
  simp [Stops]

@[simp]
theorem stops_cons {c : Char} : Stops ok (c :: s) ↔ ok c = false := by
  simp [Stops]

theorem stops_dropWhile : Stops ok (s.dropWhile ok) := by
  have h := head?_dropWhile_not ok s
  intro c hc
  rw [Option.mem_def.mp hc] at h
  exact h

/-- The characters of a text are of a class, and there are some. -/
def Spelled (ok : Char → Bool) (w : String) : Prop :=
  w.toList ≠ [] ∧ ∀ c ∈ w.toList, ok c = true

theorem Spelled.not_mem (hw : Spelled ok w) {c : Char} (hc : ok c = false) : c ∉ w.toList := by
  intro hmem
  rw [hw.2 c hmem] at hc
  cases hc

theorem of_run (h : run ok s = some (w, rest)) : Spelled ok w := by
  unfold run at h
  split at h
  · cases h
  · rename_i hne
    cases h
    rw [Spelled, String.toList_ofList]
    exact ⟨hne, all_eq_true.mp all_takeWhile⟩

/-- A run of characters is a beginning of the text. -/
theorem append_of_run (h : run ok s = some (w, rest)) : w.toList ++ rest = s := by
  unfold run at h
  split at h
  · cases h
  · cases h
    rw [String.toList_ofList]
    exact takeWhile_append_dropWhile

theorem exactly_eq_some_iff {w s rest : List Char} : exactly w s = some rest ↔ s = w ++ rest := by
  fun_induction exactly w s with
  | case1 | case4 => simp
  | case2 a w s ih => simp [ih]
  | case3 a w b s hne => simp [Ne.symm hne]

theorem word_eq_some_iff : word w s = some rest ↔ s = w.toList ++ rest :=
  exactly_eq_some_iff

theorem ended_eq_some_iff {u : Unit} : ended s = some u ↔ s = [] := by
  simp [ended]

theorem toList_of_run {u : Unit} (h : run ok s = some (w, rest)) (hend : ended rest = some u) :
    s = w.toList := by
  rw [← append_of_run h, ended_eq_some_iff.mp hend, append_nil]

theorem exists_of_someBlanks (h : someBlanks s = some rest) :
    ∃ b t, s = b :: t ∧ isBlank b = true ∧ rest = blanks t := by
  cases s with
  | nil => cases h
  | cons b t =>
    by_cases hb : isBlank b = true
    · rw [someBlanks, if_pos hb] at h
      obtain rfl := Option.some.inj h
      exact ⟨b, t, rfl, hb, by rw [blanks, dropWhile_cons, if_pos hb, blanks]⟩
    · rw [someBlanks, if_neg hb] at h
      cases h

/-- A keyword has a blank behind it. -/
theorem exists_of_keyword (h : keyword w s = some rest) :
    ∃ b t, s = w.toList ++ b :: t ∧ isBlank b = true ∧ rest = blanks t := by
  obtain ⟨s', hw, h⟩ := Option.bind_eq_some_iff.mp h
  obtain ⟨b, t, rfl, hb, rfl⟩ := exists_of_someBlanks h
  exact ⟨b, t, word_eq_some_iff.mp hw, hb, rfl⟩

/-- The variable that is assigned to is a word. -/
theorem of_assigned {x : String} {r : List Char} (h : assigned s = some (x, r)) :
    Spelled isWordChar x ∧ Stops isBlank r := by
  simp only [assigned, bind_eq_bind, bind_eq_some_iff, Prod.exists] at h
  obtain ⟨_, _, hrun, _, -, h⟩ := h
  cases h
  exact ⟨of_run hrun, stops_dropWhile⟩

end Pieces

/-- A declaration is made of a type and a name. -/
theorem spelled_of_declaration? {text : String} {t : Typed} (h : declaration? text = some t) :
    Spelled isTypeChar t.type ∧ Spelled isNameChar t.name := by
  simp only [declaration?, typed, bind_eq_bind, bind_eq_some_iff, Prod.exists] at h
  obtain ⟨_, _, ht, _, -, _, _, hx, _, -, h⟩ := h
  cases h
  exact ⟨of_run ht, of_run hx⟩

theorem spelled_of_signature? {text : String} {sig : Signature} (h : signature? text = some sig) :
    Spelled isMemberChar sig.name := by
  obtain ⟨⟨ms, s⟩, -, h⟩ := exists_of_findSome?_eq_some h
  simp only [header, bind_eq_bind, bind_eq_some_iff, Prod.exists] at h
  obtain ⟨_, _, -, _, -, _, _, hx, _, -, h⟩ := h
  cases h
  exact of_run hx

/-- The kind that is written at a call is one of four. -/
def Form.KindOk : Form → Prop
  | .call _ (some k) _ _ _ _ => k = .virtual ∨ k = .interface ∨ k = .special ∨ k = .static
  | _ => True

section Calls

variable {s : List Char} {result : Option String} {f : Form}

theorem mem_of_bracketed {a : String} (h : bracketed s = some a) : '(' ∈ s := by
  obtain ⟨t, hword, -⟩ := Option.bind_eq_some_iff.mp h
  rw [word_eq_some_iff.mp hword]
  exact .head _

theorem of_callTail {kind : Option CallKind} (h : callTail result kind s = some f) :
    (∃ t q n a, f = .call result kind t q n a) ∧ '(' ∈ s := by
  obtain ⟨⟨t, s₁⟩, hrun, h⟩ := Option.bind_eq_some_iff.mp h
  obtain ⟨s₂, hword, h⟩ := Option.bind_eq_some_iff.mp h
  have hplain : ∀ {f : Form}, ((run isMemberChar s₂).bind fun x =>
      (bracketed x.2).bind fun a => some (Form.call result kind t none x.1 a)) = some f →
      (∃ t q n a, f = .call result kind t q n a) ∧ '(' ∈ s₂ := by
    intro f h
    obtain ⟨⟨n, s₃⟩, hrun, h⟩ := Option.bind_eq_some_iff.mp h
    obtain ⟨a, ha, h⟩ := Option.bind_eq_some_iff.mp h
    cases h
    rw [← append_of_run hrun]
    exact ⟨⟨t, none, n, a, rfl⟩, mem_append_right _ (mem_of_bracketed ha)⟩
  have htail : (∃ t q n a, f = .call result kind t q n a) ∧ '(' ∈ s₂ := by
    dsimp only at h
    split at h
    next q s₃ hq =>
      split at h
      next n s₄ hn =>
        split at h
        next a ha =>
          cases h
          obtain ⟨⟨q', s₅⟩, hrun, hq⟩ := Option.bind_eq_some_iff.mp hq
          obtain ⟨s₆, hcolons, hq⟩ := Option.bind_eq_some_iff.mp hq
          cases hq
          rw [← append_of_run hrun, word_eq_some_iff.mp hcolons, ← append_of_run hn]
          exact ⟨⟨t, _, n, a, rfl⟩, mem_append_right _ (mem_append_right _
            (mem_append_right _ (mem_of_bracketed ha)))⟩
        next => exact hplain h
      next => exact hplain h
    next => exact hplain h
  refine ⟨htail.1, ?_⟩
  rw [← append_of_run hrun, word_eq_some_iff.mp hword]
  exact mem_append_right _ (mem_append_right _ htail.2)

/-- A call has an opening bracket, and a kind that calls can have. -/
theorem of_callBody (h : callBody result s = some f) :
    (∃ k t q n a, f = .call result k t q n a) ∧ f.KindOk ∧ '(' ∈ s := by
  unfold callBody at h
  split at h
  next f' hkind =>
    cases h
    obtain ⟨⟨k, s'⟩, hk, htail⟩ := Option.bind_eq_some_iff.mp hkind
    obtain ⟨k', hmem, hk⟩ := exists_of_findSome?_eq_some hk
    obtain ⟨rest, hrest, hk⟩ := Option.map_eq_some_iff.mp hk
    cases hk
    obtain ⟨b, t, rfl, -, rfl⟩ := exists_of_keyword hrest
    obtain ⟨⟨t', q, n, a, rfl⟩, hbracket⟩ := of_callTail htail
    refine ⟨⟨_, _, _, _, _, rfl⟩, by simpa [Form.KindOk] using hmem, ?_⟩
    exact mem_append_right _ (.tail _ (dropWhile_subset _ hbracket))
  next =>
    obtain ⟨⟨t, q, n, a, rfl⟩, hmem⟩ := of_callTail h
    exact ⟨⟨_, _, _, _, _, rfl⟩, trivial, hmem⟩

theorem callBody_of_not_mem (h : '(' ∉ s) : callBody result s = none :=
  Option.eq_none_iff_forall_ne_some.mpr fun _ hf => h (of_callBody hf).2.2

theorem exists_of_call? (h : call? s = some f) :
    (∃ result k t q n a, f = .call result k t q n a) ∧ f.KindOk := by
  unfold call? at h
  split at h
  next f' hassigned =>
    cases h
    obtain ⟨⟨x, s'⟩, -, hbody⟩ := Option.bind_eq_some_iff.mp hassigned
    exact ⟨⟨_, (of_callBody hbody).1⟩, (of_callBody hbody).2.1⟩
  next => exact ⟨⟨_, (of_callBody h).1⟩, (of_callBody h).2.1⟩

end Calls

/-- What a form says about the text that it is read from. -/
def Form.Formed (s : List Char) : Form → Prop
  | .ret v => ∀ x ∈ v, Spelled isWordChar x
  | .call result kind target q name args => (Form.call result kind target q name args).KindOk
  | .new x c _ => Spelled isWordChar x ∧ Spelled isNameChar c
  | .str x _ => Spelled isWordChar x
  | .cls x t => assigned s = some (x, t.toList ++ ".class".toList) ∧ Spelled isTypeChar t
  | .null x => assigned s = some (x, "null".toList)
  | .int x _ => Spelled isWordChar x
  | .cast x t y => Spelled isWordChar x ∧ Spelled isTypeChar t ∧ Spelled isWordChar y
  | .loadElem x y => Spelled isWordChar x ∧ Spelled isWordChar y
  | .storeElem x y => Spelled isWordChar x ∧ Spelled isWordChar y
  | .loadField x y f => assigned s = some (x, y.toList ++ '.' :: f.toList)
  | .storeField x f y => Spelled isNameChar x ∧ Spelled isNameChar f ∧ Spelled isWordChar y
  | .copy x y => assigned s = some (x, y.toList)

section Formed

variable {s : List Char} {f : Form}

/-- A return, with or without a variable. -/
theorem exists_of_ret? (h : ret? s = some f) :
    f = .ret none ∧ s = "return".toList ∨
      ∃ b t v, f = .ret (some v) ∧ s = "return".toList ++ b :: t ∧ isBlank b = true ∧
        blanks t = v.toList ∧ Spelled isWordChar v := by
  obtain ⟨s₁, hword, h⟩ := Option.bind_eq_some_iff.mp h
  rw [word_eq_some_iff.mp hword]
  split at h
  next hempty =>
    cases h
    rw [List.isEmpty_iff.mp hempty, append_nil]
    exact .inl ⟨rfl, rfl⟩
  next =>
    simp only [bind_eq_bind, bind_eq_some_iff, Prod.exists] at h
    obtain ⟨_, hblanks, v, _, hrun, _, hend, h⟩ := h
    cases h
    obtain ⟨b, t, rfl, hb, rfl⟩ := exists_of_someBlanks hblanks
    exact .inr ⟨b, t, v, rfl, rfl, hb, toList_of_run hrun hend, of_run hrun⟩

theorem exists_of_cls? (h : cls? s = some f) :
    ∃ x t, f = .cls x t ∧ assigned s = some (x, t.toList ++ ".class".toList) ∧
      Spelled isTypeChar t := by
  simp only [cls?, bind_eq_bind, bind_eq_some_iff, Prod.exists] at h
  obtain ⟨x, _, hx, t, _, ht, _, hword, _, hend, h⟩ := h
  cases h
  rw [← append_of_run ht, word_eq_some_iff.mp hword, ended_eq_some_iff.mp hend, append_nil] at hx
  exact ⟨x, t, rfl, hx, of_run ht⟩

theorem exists_of_null? (h : null? s = some f) :
    ∃ x, f = .null x ∧ assigned s = some (x, "null".toList) := by
  simp only [null?, bind_eq_bind, bind_eq_some_iff, Prod.exists] at h
  obtain ⟨x, _, hx, _, hword, _, hend, h⟩ := h
  cases h
  rw [word_eq_some_iff.mp hword, ended_eq_some_iff.mp hend, append_nil] at hx
  exact ⟨x, rfl, hx⟩

/-- A decimal without its minus sign. -/
def unsigned : List Char → List Char
  | '-' :: ds => ds
  | ds => ds

/-- A number is assigned if digits follow. -/
theorem int?_of_assigned {x : String} {r : List Char} (h : assigned s = some (x, r)) : int? s =
    if (unsigned r).isEmpty || !(unsigned r).all Char.isDigit then none
    else some (.int x (String.ofList r)) := by
  rw [int?, h]
  rfl

theorem exists_of_storeElem? (h : storeElem? s = some f) :
    ∃ x y, f = .storeElem x y ∧ Spelled isWordChar x ∧ Spelled isWordChar y := by
  simp only [storeElem?, bind_eq_bind, bind_eq_some_iff, Prod.exists] at h
  obtain ⟨x, _, hx, _, -, _, -, y, _, hy, _, -, h⟩ := h
  cases h
  exact ⟨x, y, rfl, of_run hx, of_run hy⟩

/-- A store names its variables and its field. -/
theorem exists_of_storeField? (h : storeField? s = some f) :
    ∃ x g y, f = .storeField x g y ∧ Spelled isNameChar x ∧ Spelled isNameChar g ∧
      Spelled isWordChar y := by
  simp only [storeField?, bind_eq_bind, bind_eq_some_iff, Prod.exists] at h
  obtain ⟨x, _, hx, _, -, g, _, hg, _, -, y, _, hy, _, -, h⟩ := h
  cases h
  exact ⟨x, g, y, rfl, of_run hx, of_run hg, of_run hy⟩

/-- **What a form says about its text.** -/
theorem formed_of_read (h : Form.read s = some f) : f.Formed s := by
  obtain ⟨shape, hshape, h⟩ := exists_of_findSome?_eq_some h
  simp only [shapes, mem_cons, not_mem_nil, or_false] at hshape
  -- the shapes in the order in which they are tried
  obtain rfl | rfl | rfl | rfl | rfl | rfl | rfl | rfl | rfl | rfl | rfl | rfl | rfl := hshape
  all_goals
    try simp only [new?, str?, cast?, loadElem?, loadField?, copy?, bind_eq_bind,
      bind_eq_some_iff, Prod.exists] at h
  · obtain ⟨rfl, -⟩ | ⟨b, t, v, rfl, -, -, -, hv⟩ := exists_of_ret? h
    · simp [Form.Formed]
    · rintro _ ⟨⟩
      exact hv
  · obtain ⟨⟨_, _, _, _, _, _, rfl⟩, hkind⟩ := exists_of_call? h
    exact hkind
  · obtain ⟨_, _, hx, _, -, _, _, hc, _, -, h⟩ := h
    cases h
    exact ⟨(of_assigned hx).1, of_run hc⟩
  · obtain ⟨_, _, hx, h⟩ := h
    split at h
    · split at h
      · cases h
        exact (of_assigned hx).1
      · cases h
    · cases h
  · obtain ⟨_, _, rfl, hx⟩ := exists_of_cls? h
    exact hx
  · obtain ⟨_, rfl, hx⟩ := exists_of_null? h
    exact hx
  · obtain ⟨⟨_, _⟩, hx, -⟩ := Option.bind_eq_some_iff.mp h
    rw [int?_of_assigned hx] at h
    split at h
    · cases h
    · cases h
      exact (of_assigned hx).1
  · obtain ⟨_, _, hx, _, -, _, _, ht, _, -, _, _, hy, _, -, h⟩ := h
    cases h
    exact ⟨(of_assigned hx).1, of_run ht, of_run hy⟩
  · obtain ⟨_, _, hx, _, _, hy, _, -, _, -, h⟩ := h
    cases h
    exact ⟨(of_assigned hx).1, of_run hy⟩
  · obtain ⟨_, _, rfl, hx⟩ := exists_of_storeElem? h
    exact hx
  · obtain ⟨_, _, hx, _, _, hy, _, hword, _, _, hg, _, hend, h⟩ := h
    cases h
    rw [← append_of_run hy, word_eq_some_iff.mp hword, toList_of_run hg hend] at hx
    exact hx
  · obtain ⟨_, _, _, rfl, hx⟩ := exists_of_storeField? h
    exact hx
  · obtain ⟨_, _, hx, _, _, hy, _, hend, h⟩ := h
    cases h
    rw [toList_of_run hy hend] at hx
    exact hx

end Formed

end HeapFlow.Grammar
