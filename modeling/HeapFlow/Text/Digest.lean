import HeapFlow.Text.Quoted

/-!
# The 64-bit digest of a text

A dump is identified by a digest of its bytes: the 64-bit variant of the xxHash family with seed
zero. Four lanes absorb the text in stripes of 32 bytes, the lanes are merged, the rest is absorbed
in pieces of eight, four and one bytes, and a final avalanche mixes the bits. All arithmetic is
modulo `2 ^ 64`.
-/

namespace HeapFlow.Text.Digest

/-- The five odd constants of the digest. -/
def prime1 : UInt64 := 11400714785074694791

@[inherit_doc prime1]
def prime2 : UInt64 := 14029467366897019727

@[inherit_doc prime1]
def prime3 : UInt64 := 1609587929392839161

@[inherit_doc prime1]
def prime4 : UInt64 := 9650029242287828579

@[inherit_doc prime1]
def prime5 : UInt64 := 2870177450012600261

def rotl (x : UInt64) (n : UInt64) : UInt64 :=
  (x <<< n) ||| (x >>> (64 - n))

/-- A number from its bytes, least significant first. -/
def littleEndian (bs : List UInt8) : UInt64 :=
  bs.foldr (fun b acc => (acc <<< 8) ||| b.toUInt64) 0

/-- One lane absorbs eight bytes. -/
def round (acc input : UInt64) : UInt64 :=
  rotl (acc + input * prime2) 31 * prime1

/-- The four lanes. -/
structure Lanes where
  a : UInt64
  b : UInt64
  c : UInt64
  d : UInt64

/-- The lanes before any stripe. -/
def Lanes.start : Lanes :=
  ⟨prime1 + prime2, prime2, 0, 0 - prime1⟩

/-- The lanes after a stripe of 32 bytes. -/
def Lanes.absorb (l : Lanes) (stripe : List UInt8) : Lanes :=
  let word (i : Nat) := littleEndian ((stripe.drop (8 * i)).take 8)
  ⟨round l.a (word 0), round l.b (word 1), round l.c (word 2), round l.d (word 3)⟩

/-- Merges one lane into the accumulator. -/
def mergeLane (acc lane : UInt64) : UInt64 :=
  (acc ^^^ round 0 lane) * prime1 + prime4

/-- The accumulator of all lanes. -/
def Lanes.merge (l : Lanes) : UInt64 :=
  let acc := rotl l.a 1 + rotl l.b 7 + rotl l.c 12 + rotl l.d 18
  [l.a, l.b, l.c, l.d].foldl mergeLane acc

/-- Absorbs the whole stripes at the start of the bytes; gives the lanes and what is left. -/
def stripes : (count : Nat) → Lanes → List UInt8 → Lanes × List UInt8
  | 0, l, bs => (l, bs)
  | n + 1, l, bs => stripes n (l.absorb (bs.take 32)) (bs.drop 32)

/-- Absorbs eight bytes at a time. -/
def words : (count : Nat) → UInt64 → List UInt8 → UInt64 × List UInt8
  | 0, acc, bs => (acc, bs)
  | n + 1, acc, bs =>
    words n (rotl (acc ^^^ round 0 (littleEndian (bs.take 8))) 27 * prime1 + prime4) (bs.drop 8)

/-- Absorbs four bytes, if there are as many. -/
def halfWord (acc : UInt64) (bs : List UInt8) : UInt64 × List UInt8 :=
  if 4 ≤ bs.length then
    (rotl (acc ^^^ littleEndian (bs.take 4) * prime1) 23 * prime2 + prime3, bs.drop 4)
  else (acc, bs)

/-- Absorbs one byte. -/
def single (acc : UInt64) (b : UInt8) : UInt64 :=
  rotl (acc ^^^ b.toUInt64 * prime5) 11 * prime1

/-- The final mixing of the bits. -/
def avalanche (h : UInt64) : UInt64 :=
  let h := (h ^^^ (h >>> 33)) * prime2
  let h := (h ^^^ (h >>> 29)) * prime3
  h ^^^ (h >>> 32)

def ofBytes (bs : List UInt8) : UInt64 :=
  let size := bs.length
  let (acc, rest) :=
    if 32 ≤ size then
      let (l, rest) := stripes (size / 32) Lanes.start bs
      (l.merge, rest)
    else (prime5, bs)
  let (acc, rest) := words (rest.length / 8) (acc + size.toUInt64) rest
  let (acc, rest) := halfWord acc rest
  avalanche (rest.foldl single acc)

def ofText (s : String) : UInt64 :=
  ofBytes (bytesOf s)

/-- A digest as sixteen hexadecimal digits. -/
def text (h : UInt64) : String :=
  String.ofList (hexDigits 16 h.toNat)

end HeapFlow.Text.Digest
