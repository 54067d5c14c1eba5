import HeapFlow.Source.Grammar
import HeapFlow.Text.Decimal
import Mathlib.Data.List.Basic
import Mathlib.Tactic.Ring

/-!
# Constants are read back as they are written

A string constant is shown as quoted text and an integer by its digits, and reading undoes writing
(`unquote_quoteBytes`, `readInt64_toString`). For strings the argument has two halves. Cutting a
byte sequence into characters and stray bytes loses nothing, because `pieces` accepts exactly the
encodings of characters. And what is written for a piece denotes the bytes of the piece whatever
follows it (`Writes`), so a text is read piece by piece.
-/

namespace HeapFlow.Text

open List

def Piece.bytes : Piece → List UInt8
  | .char c => encodeChar c
  | .stray b => [b]

variable {b a : UInt8} {n : Nat} {c : Char} {w : List Char} {bs : List UInt8}

theorem isTail_iff : isTail b = true ↔ 0x80 ≤ b.toNat ∧ b.toNat ≤ 0xbf := by
  simp [isTail, UInt8.le_iff_toNat_le]

theorem encodeChar_ofNat (h : n.isValidChar) : encodeChar (Char.ofNat n) =
    if n ≤ 0x7f then [UInt8.ofNat n]
    else if n ≤ 0x7ff then [UInt8.ofNat (n / 64 % 32 + 192), UInt8.ofNat (n % 64 + 128)]
    else if n ≤ 0xffff then [UInt8.ofNat (n / 4096 % 16 + 224), UInt8.ofNat (n / 64 % 64 + 128),
      UInt8.ofNat (n % 64 + 128)]
    else [UInt8.ofNat (n / 262144 % 8 + 240), UInt8.ofNat (n / 4096 % 64 + 128),
      UInt8.ofNat (n / 64 % 64 + 128), UInt8.ofNat (n % 64 + 128)] := by
  have hn : (Char.ofNat n).val.toNat = n := by
    rw [Char.ofNat, dif_pos h]
    rfl
  simp only [encodeChar, String.utf8EncodeChar, hn]

theorem ofNat_eq_of_toNat (h : n = b.toNat) : UInt8.ofNat n = b := by
  rw [h, UInt8.ofNat_toNat]

theorem tailBits_of_isTail (h : isTail b = true) : tailBits b = b.toNat - 0x80 := by
  rw [isTail_iff] at h
  show b.toNat % 0x40 = _
  omega

theorem encodeChar_two (hl : 0xc2 ≤ a) (hr : a ≤ 0xdf) (hb : isTail b = true) :
    encodeChar (Char.ofNat (a.toNat % 0x20 * 0x40 + tailBits b)) = [a, b] := by
  rw [tailBits_of_isTail hb]
  rw [isTail_iff] at hb
  simp only [UInt8.le_iff_toNat_le, UInt8.reduceToNat] at hl hr
  rw [encodeChar_ofNat (.inl (by omega)), if_neg (by omega), if_pos (by omega),
    ofNat_eq_of_toNat (b := a) (by omega), ofNat_eq_of_toNat (b := b) (by omega)]

/-- Three bytes that `pieces` takes for a character encode it: the second byte excludes the longer
encodings and the surrogates. -/
theorem encodeChar_three {c : UInt8} (hl : 0xe0 ≤ a) (hr : a ≤ 0xef) (hb : isTail b = true)
    (hc : isTail c = true) (hlow : a = 0xe0 → 0xa0 ≤ b) (hhigh : a = 0xed → b ≤ 0x9f) :
    encodeChar (Char.ofNat (a.toNat % 0x10 * 0x1000 + tailBits b * 0x40 + tailBits c)) =
      [a, b, c] := by
  rw [tailBits_of_isTail hb, tailBits_of_isTail hc]
  rw [isTail_iff] at hb hc
  simp only [UInt8.le_iff_toNat_le, ← UInt8.toNat_inj, UInt8.reduceToNat] at hl hr hlow hhigh
  have hvalid :
      (a.toNat % 0x10 * 0x1000 + (b.toNat - 0x80) * 0x40 + (c.toNat - 0x80)).isValidChar := by
    show _ ∨ _ ∧ _
    omega
  rw [encodeChar_ofNat hvalid, if_neg (by omega), if_neg (by omega), if_pos (by omega),
    ofNat_eq_of_toNat (b := a) (by omega), ofNat_eq_of_toNat (b := b) (by omega),
    ofNat_eq_of_toNat (b := c) (by omega)]

/-- Four bytes that `pieces` takes for a character encode it: the second byte excludes the longer
encodings and the numbers above the last code point. -/
theorem encodeChar_four {c d : UInt8} (hl : 0xf0 ≤ a) (hr : a ≤ 0xf4) (hb : isTail b = true)
    (hc : isTail c = true) (hd : isTail d = true) (hlow : a = 0xf0 → 0x90 ≤ b)
    (hhigh : a = 0xf4 → b ≤ 0x8f) :
    encodeChar (Char.ofNat (a.toNat % 0x8 * 0x40000 + tailBits b * 0x1000 + tailBits c * 0x40 +
      tailBits d)) = [a, b, c, d] := by
  rw [tailBits_of_isTail hb, tailBits_of_isTail hc, tailBits_of_isTail hd]
  rw [isTail_iff] at hb hc hd
  simp only [UInt8.le_iff_toNat_le, ← UInt8.toNat_inj, UInt8.reduceToNat] at hl hr hlow hhigh
  have hvalid : (a.toNat % 0x8 * 0x40000 + (b.toNat - 0x80) * 0x1000 + (c.toNat - 0x80) * 0x40 +
      (d.toNat - 0x80)).isValidChar := by
    show _ ∨ _ ∧ _
    omega
  rw [encodeChar_ofNat hvalid, if_neg (by omega), if_neg (by omega), if_neg (by omega),
    ofNat_eq_of_toNat (b := a) (by omega), ofNat_eq_of_toNat (b := b) (by omega),
    ofNat_eq_of_toNat (b := c) (by omega), ofNat_eq_of_toNat (b := d) (by omega)]

/-- **Cutting bytes into pieces loses nothing.** -/
theorem flatMap_bytes_pieces (bs : List UInt8) : (pieces bs).flatMap Piece.bytes = bs := by
  fun_induction pieces bs with
  | case1 | case5 => rfl
  | case2 a rest ha ih =>
    have ha : a.toNat < 128 := ha
    have he : encodeChar (Char.ofNat a.toNat) = [a] := by
      rw [encodeChar_ofNat (.inl (by omega)), if_pos (by omega), UInt8.ofNat_toNat]
    rw [flatMap_cons, ih, Piece.bytes, he, singleton_append]
  | case3 a _ ha b rest hb ih =>
    simp only [Bool.and_eq_true, decide_eq_true_eq] at ha
    rw [flatMap_cons, ih, Piece.bytes, encodeChar_two ha.1 ha.2 hb]
    rfl
  | case6 a _ _ ha b c rest h ih =>
    simp only [Bool.and_eq_true, Bool.or_eq_true, bne_iff_ne, decide_eq_true_eq] at ha h
    obtain ⟨⟨⟨hb, hc⟩, hlow⟩, hhigh⟩ := h
    rw [flatMap_cons, ih, Piece.bytes, encodeChar_three ha.1 ha.2 hb hc
      hlow.neg_resolve_left hhigh.neg_resolve_left]
    rfl
  | case9 a _ _ _ ha b c d rest h ih =>
    simp only [Bool.and_eq_true, Bool.or_eq_true, bne_iff_ne, decide_eq_true_eq] at ha h
    obtain ⟨⟨⟨⟨hb, hc⟩, hd⟩, hlow⟩, hhigh⟩ := h
    rw [flatMap_cons, ih, Piece.bytes, encodeChar_four ha.1 ha.2 hb hc hd
      hlow.neg_resolve_left hhigh.neg_resolve_left]
    rfl
  | case4 _ _ _ _ _ _ ih | case7 _ _ _ _ _ _ _ _ ih | case8 _ _ _ _ _ _ ih
  | case10 _ _ _ _ _ _ _ _ _ _ ih | case11 _ _ _ _ _ _ _ ih | case12 _ _ _ _ _ _ ih =>
    rw [flatMap_cons, ih]
    rfl

theorem hexValue?_hexDigit : ∀ d < 16, hexValue? (hexDigit d) = some d := by
  decide

theorem takeHex_hexDigits (w k v n : Nat) (s : List Char) :
    takeHex (w + k) v (hexDigits w n ++ s) = takeHex k (v * 16 ^ w + n % 16 ^ w) s := by
  induction w generalizing n k s with
  | zero => simp [hexDigits, Nat.mod_one]
  | succ w ih =>
    have hd := hexValue?_hexDigit (n % 16) (Nat.mod_lt _ (by decide))
    have hv : (v * 16 ^ w + n / 16 % 16 ^ w) * 16 + n % 16 =
        v * 16 ^ (w + 1) + n % 16 ^ (w + 1) := by
      rw [pow_succ', Nat.mod_mul]
      ring
    calc takeHex (w + 1 + k) v (hexDigits (w + 1) n ++ s)
        = takeHex (w + (k + 1)) v (hexDigits w (n / 16) ++ (hexDigit (n % 16) :: s)) := by
          rw [hexDigits, append_assoc, Nat.add_right_comm, Nat.add_assoc]
          rfl
      _ = takeHex (k + 1) (v * 16 ^ w + n / 16 % 16 ^ w) (hexDigit (n % 16) :: s) := ih ..
      _ = takeHex k (v * 16 ^ (w + 1) + n % 16 ^ (w + 1)) s := by
          rw [takeHex, hd, ← hv]
          rfl

theorem takeHex_hexDigits_of_lt {w : Nat} (h : n < 16 ^ w) (s : List Char) :
    takeHex w 0 (hexDigits w n ++ s) = some (n, s) := by
  have := takeHex_hexDigits w 0 0 n s
  rwa [Nat.mod_eq_of_lt h, Nat.zero_mul, Nat.zero_add, takeHex] at this

theorem mem_hexDigits {w : Nat} (h : c ∈ hexDigits w n) : ∃ d < 16, c = hexDigit d := by
  induction w generalizing n with
  | zero => simp [hexDigits] at h
  | succ w ih =>
    rw [hexDigits, mem_append, mem_singleton] at h
    exact h.elim ih fun h => ⟨n % 16, Nat.mod_lt _ (by decide), h⟩

/-! ### Reading what quoting writes -/

/-- The text `w` stands for the bytes `bs` between quotes, whatever follows it. -/
structure Writes (w : List Char) (bs : List UInt8) : Prop where
  opens : ∀ s, Grammar.closesQuote (w ++ s) = Grammar.closesQuote s
  reads : ∀ n s, unquoteBody (n + 1) (w ++ s) = (unquoteBody n s).map (bs ++ ·)

theorem closesQuote_cons (hq : c ≠ '"') (hb : c ≠ '\\') (s : List Char) :
    Grammar.closesQuote (c :: s) = Grammar.closesQuote s := by
  rw [Grammar.closesQuote] <;> simp [hq, hb]

theorem closesQuote_append (hw : ∀ d ∈ w, d ≠ '"' ∧ d ≠ '\\') (s : List Char) :
    Grammar.closesQuote (w ++ s) = Grammar.closesQuote s := by
  induction w with
  | nil => rfl
  | cons c w ih =>
    have hc := hw c (.head _)
    rw [cons_append, closesQuote_cons hc.1 hc.2, ih fun d hd => hw d (.tail _ hd)]

theorem writes_plain (hq : c ≠ '"') (hb : c ≠ '\\') (hn : c ≠ '\n') :
    Writes [c] (encodeChar c) where
  opens s := closesQuote_cons hq hb s
  reads n s := by
    rw [singleton_append, unquoteBody]
    · cases unquoteBody n s <;> rfl
    all_goals simp [hq, hb, hn]

/-- An escape, of which the first character is no line feed and the others are neither quotes nor
backslashes. -/
theorem writes_escape (hc : c ≠ '\n') (hw : ∀ d ∈ w, d ≠ '"' ∧ d ≠ '\\')
    (h : ∀ s, takeEscape (c :: w ++ s) = some (bs, s)) : Writes ('\\' :: c :: w) bs where
  opens s := by
    show Grammar.closesQuote ('\\' :: c :: (w ++ s)) = _
    rw [Grammar.closesQuote, closesQuote_append hw, decide_eq_true hc, Bool.true_and]
  reads n s := by
    show unquoteBody (n + 1) ('\\' :: (c :: w ++ s)) = _
    rw [unquoteBody, h]
    show (unquoteBody n s).bind (fun r => some (bs ++ r)) = _
    cases unquoteBody n s <;> rfl

theorem hexDigits_plain {w : Nat} : ∀ c ∈ hexDigits w n, c ≠ '"' ∧ c ≠ '\\' := by
  intro c hc
  obtain ⟨d, hd, rfl⟩ := mem_hexDigits hc
  exact (by decide : ∀ d < 16, hexDigit d ≠ '"' ∧ hexDigit d ≠ '\\') d hd

theorem encodeChar_of_lt (h : c.toNat < 0x80) : encodeChar c = [UInt8.ofNat c.toNat] := by
  have hv : c.toNat.isValidChar := c.valid
  rw [← Char.ofNat_toNat c, encodeChar_ofNat hv, if_pos (by omega), Char.ofNat_toNat]

theorem writes_hexByte (b : UInt8) : Writes ('\\' :: 'x' :: hexDigits 2 b.toNat) [b] := by
  refine writes_escape (by decide) hexDigits_plain fun s => ?_
  show (takeHex 2 0 (hexDigits 2 b.toNat ++ s)).bind _ = _
  rw [takeHex_hexDigits_of_lt b.toNat_lt]
  show some ([UInt8.ofNat b.toNat], s) = _
  rw [UInt8.ofNat_toNat]

theorem scalarBytes?_toNat (c : Char) : scalarBytes? c.toNat = some (encodeChar c) := by
  have hv : c.toNat.isValidChar := c.valid
  rw [scalarBytes?, if_pos hv, Char.ofNat_toNat]

theorem writes_hexScalar {l : Char} {w : Nat} (hl : l = 'u' ∧ w = 4 ∨ l = 'U' ∧ w = 8)
    (hc : c.toNat < 16 ^ w) : Writes ('\\' :: l :: hexDigits w c.toNat) (encodeChar c) := by
  have hbytes : ∀ s, (takeHex w 0 (hexDigits w c.toNat ++ s)).bind
      (fun x => (scalarBytes? x.1).bind fun bs => some (bs, x.2)) = some (encodeChar c, s) := by
    intro s
    rw [takeHex_hexDigits_of_lt hc]
    show (scalarBytes? c.toNat).bind _ = _
    rw [scalarBytes?_toNat]
    rfl
  obtain ⟨rfl, rfl⟩ | ⟨rfl, rfl⟩ := hl
  all_goals exact writes_escape (by decide) hexDigits_plain hbytes

theorem writes_controlLetter {l : Char} (h : controlLetter? c = some l) :
    Writes ['\\', l] (encodeChar c) := by
  unfold controlLetter? at h
  split at h
  case h_8 => cases h
  all_goals
    rename_i hc
    obtain rfl := Option.some.inj h
    rw [← Char.ofNat_toNat c, hc]
    exact writes_escape (by decide) (by simp) fun _ => rfl

/-- What is written for a character denotes it. -/
theorem writes_quoteChar (c : Char) : Writes (quoteChar c) (encodeChar c) := by
  unfold quoteChar
  split
  next h =>
    simp only [Bool.or_eq_true, decide_eq_true_eq] at h
    obtain rfl | rfl := h
    all_goals exact writes_escape (by decide) (by simp) fun _ => rfl
  next hq =>
    simp only [Bool.or_eq_true, decide_eq_true_eq, not_or] at hq
    split
    next hp =>
      -- a line feed is not printable
      refine writes_plain hq.1 hq.2 ?_
      rintro rfl
      cases hp
    next =>
      split
      next l hl => exact writes_controlLetter hl
      next =>
        split
        next hlt =>
          have h := writes_hexByte (UInt8.ofNat c.toNat)
          rwa [UInt8.toNat_ofNat_of_lt' (hlt.trans (by decide)), ← encodeChar_of_lt hlt] at h
        next =>
          split
          next hlt => exact writes_hexScalar (.inl ⟨rfl, rfl⟩) hlt
          next => exact writes_hexScalar (.inr ⟨rfl, rfl⟩) c.val.toNat_lt

theorem writes_quotePiece : (p : Piece) → Writes (quotePiece p) p.bytes
  | .char c => writes_quoteChar c
  | .stray b => writes_hexByte b

theorem closesQuote_flatMap (ps : List Piece) :
    Grammar.closesQuote (ps.flatMap quotePiece ++ ['"']) = true := by
  induction ps with
  | nil => rfl
  | cons p ps ih => rw [flatMap_cons, append_assoc, (writes_quotePiece p).opens, ih]

theorem unquoteBody_flatMap {ps : List Piece} (h : ps.length < n) :
    unquoteBody n (ps.flatMap quotePiece ++ ['"']) = some (ps.flatMap Piece.bytes) := by
  induction ps generalizing n with
  | nil =>
    obtain ⟨n, rfl⟩ := Nat.exists_eq_succ_of_ne_zero (Nat.ne_of_gt h)
    rfl
  | cons p ps ih =>
    obtain ⟨n, rfl⟩ := Nat.exists_eq_succ_of_ne_zero (Nat.ne_of_gt (Nat.zero_lt_of_lt h))
    rw [flatMap_cons, append_assoc, (writes_quotePiece p).reads,
      ih (Nat.lt_of_succ_lt_succ h), flatMap_cons]
    rfl

theorem Writes.ne_nil (h : Writes w bs) : w ≠ [] := by
  rintro rfl
  cases h.reads 0 ['"']

theorem length_le_flatMap_quotePiece (ps : List Piece) :
    ps.length ≤ (ps.flatMap quotePiece).length := by
  induction ps with
  | nil => exact Nat.le_refl 0
  | cons p ps ih =>
    have := length_pos_of_ne_nil (writes_quotePiece p).ne_nil
    rw [flatMap_cons, length_append, length_cons]
    omega

theorem toList_quoteBytes (bs : List UInt8) :
    (quoteBytes bs).toList = '"' :: ((pieces bs).flatMap quotePiece ++ ['"']) :=
  String.toList_ofList

/-- **Quoted text denotes the bytes that it was made from.** -/
theorem unquote_quoteBytes (bs : List UInt8) : unquote (quoteBytes bs).toList = some bs := by
  have hlen := length_le_flatMap_quotePiece (pieces bs)
  rw [toList_quoteBytes, unquote, unquoteBody_flatMap, flatMap_bytes_pieces]
  rw [length_append]
  omega

theorem quoteBytes_injective : Function.Injective quoteBytes := by
  intro a b h
  have := unquote_quoteBytes a
  rw [h, unquote_quoteBytes b] at this
  exact (Option.some.inj this).symm

/-! ### Decimals -/

theorem digitsValue_eq (ds : List Char) : digitsValue ds = Nat.ofDigitChars 10 ds 0 := by
  simp only [digitsValue, Nat.ofDigitChars, Nat.mul_comm 10]
  rfl

theorem toDigits_injective : Function.Injective (Nat.toDigits 10) := by
  intro a b h
  rw [← Nat.ofDigitChars_ten_toDigits (n := a), h, Nat.ofDigitChars_ten_toDigits]

/-- The texts of a number: one or more decimal digits with its value, of which the first ones may be
zeros. -/
def IsNumeral (ds : List Char) (n : Nat) : Prop :=
  ds ≠ [] ∧ (∀ d ∈ ds, d.isDigit = true) ∧ Nat.ofDigitChars 10 ds 0 = n

theorem isNumeral_toDigits (n : Nat) : IsNumeral (Nat.toDigits 10 n) n :=
  ⟨Nat.toDigits_ne_nil, fun _ h => Nat.isDigit_of_mem_toDigits (by decide) (by decide) h,
    Nat.ofDigitChars_ten_toDigits⟩

/-- The texts of a 64-bit integer: a numeral in range, with or without a sign. -/
inductive DenotesInt : List Char → Int → Prop
  | bare {ds : List Char} {n : Nat} (h : IsNumeral ds n) (hn : n < 2 ^ 63) : DenotesInt ds n
  | plus {ds : List Char} {n : Nat} (h : IsNumeral ds n) (hn : n < 2 ^ 63) :
      DenotesInt ('+' :: ds) n
  | minus {ds : List Char} {n : Nat} (h : IsNumeral ds n) (hn : n ≤ 2 ^ 63) :
      DenotesInt ('-' :: ds) (-n)

theorem DenotesInt.bounds {s : List Char} {k : Int} (h : DenotesInt s k) :
    -2 ^ 63 ≤ k ∧ k < 2 ^ 63 := by
  cases h <;> omega

/-- Digits are read as numerals, in range. -/
theorem signedDigits_eq_ok_iff {negative : Bool} {ds : List Char} {k : Int} :
    signedDigits negative ds = .ok k ↔ ∃ n, IsNumeral ds n ∧ withSign negative n = .ok k := by
  rw [signedDigits, digitsValue_eq]
  constructor
  · intro h
    split at h
    · cases h
    next hds =>
      simp only [Bool.or_eq_true, List.isEmpty_iff, Bool.not_eq_true', not_or,
        Bool.not_eq_false, all_eq_true] at hds
      exact ⟨_, ⟨hds.1, hds.2, rfl⟩, h⟩
  · rintro ⟨n, ⟨hne, hall, rfl⟩, h⟩
    rwa [all_eq_true.mpr hall, isEmpty_eq_false_iff.mpr hne]

theorem withSign_false_eq_ok_iff {n : Nat} {k : Int} :
    withSign false n = .ok k ↔ n < 2 ^ 63 ∧ (n : Int) = k := by
  rw [withSign, if_neg Bool.false_ne_true, show signedBound = 2 ^ 63 from rfl]
  split <;> simp only [*, Except.ok.injEq, reduceCtorEq, true_and, false_and]

theorem withSign_true_eq_ok_iff {n : Nat} {k : Int} :
    withSign true n = .ok k ↔ n ≤ 2 ^ 63 ∧ -(n : Int) = k := by
  rw [withSign, if_pos rfl, show signedBound = 2 ^ 63 from rfl]
  split <;> simp only [*, Except.ok.injEq, reduceCtorEq, true_and, false_and]

/-- **What the reader of integers accepts**, and as which integer. -/
theorem readInt64_eq_ok_iff {s : List Char} {k : Int} : readInt64 s = .ok k ↔ DenotesInt s k := by
  constructor
  · intro h
    unfold readInt64 at h
    split at h <;> obtain ⟨n, hn, hk⟩ := signedDigits_eq_ok_iff.mp h
    · obtain ⟨hlt, rfl⟩ := withSign_true_eq_ok_iff.mp hk
      exact .minus hn hlt
    · obtain ⟨hlt, rfl⟩ := withSign_false_eq_ok_iff.mp hk
      exact .plus hn hlt
    · obtain ⟨hlt, rfl⟩ := withSign_false_eq_ok_iff.mp hk
      exact .bare hn hlt
  · intro h
    cases h with
    | @bare _ n hn hlt =>
      have hread := signedDigits_eq_ok_iff.mpr ⟨n, hn, withSign_false_eq_ok_iff.mpr ⟨hlt, rfl⟩⟩
      unfold readInt64
      split
      -- a numeral begins with a digit, which no sign is
      · cases hn.2.1 '-' (.head _)
      · cases hn.2.1 '+' (.head _)
      · exact hread
    | plus hn hlt =>
      exact signedDigits_eq_ok_iff.mpr ⟨_, hn, withSign_false_eq_ok_iff.mpr ⟨hlt, rfl⟩⟩
    | minus hn hle =>
      exact signedDigits_eq_ok_iff.mpr ⟨_, hn, withSign_true_eq_ok_iff.mpr ⟨hle, rfl⟩⟩

theorem toList_toString_int (n : Int) : (toString n).toList =
    if 0 ≤ n then Nat.toDigits 10 n.toNat else '-' :: Nat.toDigits 10 (-n).toNat := by
  rw [Int.toString_eq_repr, Int.repr_eq_if]
  split
  · exact Nat.toList_repr
  · rw [String.toList_append, Nat.toList_repr]
    rfl

theorem denotesInt_toString {n : Int} (h : -2 ^ 63 ≤ n ∧ n < 2 ^ 63) :
    DenotesInt (toString n).toList n := by
  rw [toList_toString_int]
  split
  next hn =>
    have hbare := DenotesInt.bare (isNumeral_toDigits n.toNat) (by omega)
    rwa [Int.toNat_of_nonneg hn] at hbare
  next hn =>
    have hminus := DenotesInt.minus (isNumeral_toDigits (-n).toNat) (by omega)
    rwa [Int.toNat_of_nonneg (by omega), Int.neg_neg] at hminus

/-- An integer is read back from its digits. -/
theorem readInt64_toString {s : List Char} {n : Int} (h : readInt64 s = .ok n) :
    readInt64 (toString n).toList = .ok n :=
  readInt64_eq_ok_iff.mpr (denotesInt_toString (readInt64_eq_ok_iff.mp h).bounds)

end HeapFlow.Text
