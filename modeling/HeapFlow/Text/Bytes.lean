/-!
# Byte sequences that need not be text

A string constant of an analysed program is a sequence of bytes: an escape such as `\xff` writes a
byte that belongs to no UTF-8 encoded character. `pieces` cuts such a sequence into characters and
stray bytes; it accepts exactly the shortest encodings of the Unicode scalar values.
-/

namespace HeapFlow.Text

def bytesOf (s : String) : List UInt8 :=
  s.toUTF8.toList

def encodeChar (c : Char) : List UInt8 :=
  String.utf8EncodeChar c

/-- A piece of a byte sequence: an encoded character, or a byte that starts none. -/
inductive Piece where
  | char (c : Char)
  | stray (b : UInt8)
deriving DecidableEq, Repr

/-- Whether a byte continues a character. -/
def isTail (b : UInt8) : Bool :=
  0x80 ≤ b && b ≤ 0xbf

/-- The six payload bits of a continuation byte. -/
def tailBits (b : UInt8) : Nat :=
  b.toNat % 0x40

/-- Cuts a byte sequence into characters and stray bytes. After a stray byte the reading starts
again at the next byte. -/
def pieces : List UInt8 → List Piece
  | [] => []
  | a :: rest =>
    if a < 0x80 then .char (Char.ofNat a.toNat) :: pieces rest
    else if 0xc2 ≤ a && a ≤ 0xdf then
      match rest with
      | b :: rest' =>
        if isTail b then .char (Char.ofNat (a.toNat % 0x20 * 0x40 + tailBits b)) :: pieces rest'
        else .stray a :: pieces (b :: rest')
      | [] => [.stray a]
    else if 0xe0 ≤ a && a ≤ 0xef then
      match rest with
      | b :: c :: rest' =>
        if isTail b && isTail c && (a != 0xe0 || 0xa0 ≤ b) && (a != 0xed || b ≤ 0x9f) then
          .char (Char.ofNat (a.toNat % 0x10 * 0x1000 + tailBits b * 0x40 + tailBits c)) ::
            pieces rest'
        else .stray a :: pieces (b :: c :: rest')
      | rest' => .stray a :: pieces rest'
    else if 0xf0 ≤ a && a ≤ 0xf4 then
      match rest with
      | b :: c :: d :: rest' =>
        if isTail b && isTail c && isTail d && (a != 0xf0 || 0x90 ≤ b) && (a != 0xf4 || b ≤ 0x8f)
        then
          .char (Char.ofNat (a.toNat % 0x8 * 0x40000 + tailBits b * 0x1000 + tailBits c * 0x40
            + tailBits d)) :: pieces rest'
        else .stray a :: pieces (b :: c :: d :: rest')
      | rest' => .stray a :: pieces rest'
    else .stray a :: pieces rest
termination_by bs => bs.length

end HeapFlow.Text
