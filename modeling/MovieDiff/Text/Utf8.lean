/-!
UTF-8. Decoding goes byte by byte and yields, for every maximal ill-formed piece, one hole;
the lenient reader fills the holes with the replacement character, the strict one refuses.
-/
namespace MovieDiff.Text

/-- A character that has begun: the bytes it still needs, the bounds of the next one and the
bits read so far. -/
structure PartialChar where
  needed : Nat
  low : Nat
  high : Nat
  bits : Nat
  deriving DecidableEq, Repr

/-- What a byte means between two characters. -/
inductive LeadByte where
  | whole (c : Char)
  | opens (p : PartialChar)
  | invalid

def leadByte (b : UInt8) : LeadByte :=
  let n := b.toNat
  if n < 0x80 then .whole (Char.ofNat n)
  else if n < 0xC2 then .invalid
  else if n < 0xE0 then .opens ⟨1, 0x80, 0xBF, n - 0xC0⟩
  else if n = 0xE0 then .opens ⟨2, 0xA0, 0xBF, 0⟩
  else if n = 0xED then .opens ⟨2, 0x80, 0x9F, 0xD⟩
  else if n < 0xF0 then .opens ⟨2, 0x80, 0xBF, n - 0xE0⟩
  else if n = 0xF0 then .opens ⟨3, 0x90, 0xBF, 0⟩
  else if n < 0xF4 then .opens ⟨3, 0x80, 0xBF, n - 0xF0⟩
  else if n = 0xF4 then .opens ⟨3, 0x80, 0x8F, 4⟩
  else .invalid

/-- What a byte between two characters yields, and the character that it begins. -/
def decodeLead (b : UInt8) : List (Option Char) × Option PartialChar :=
  match leadByte b with
  | .whole c => ([some c], none)
  | .opens p => ([], some p)
  | .invalid => ([none], none)

/-- One byte, between or inside characters; `none` marks an ill-formed piece. A byte that does
not go on with a character ends it and is looked at afresh. -/
def decodeByte : Option PartialChar → UInt8 → List (Option Char) × Option PartialChar
  | none, b => decodeLead b
  | some p, b =>
    let n := b.toNat
    if p.low ≤ n && n ≤ p.high then
      let bits := p.bits * 64 + (n - 0x80)
      if p.needed ≤ 1 then ([some (Char.ofNat bits)], none)
      else ([], some ⟨p.needed - 1, 0x80, 0xBF, bits⟩)
    else
      let (yielded, state) := decodeLead b
      (none :: yielded, state)

def decodeFrom : Option PartialChar → List UInt8 → List (Option Char)
  | none, [] => []
  | some _, [] => [none]
  | state, b :: rest =>
    let (yielded, next) := decodeByte state b
    yielded ++ decodeFrom next rest

def replacementChar : Char := Char.ofNat 0xFFFD

def decodeLenient (bytes : List UInt8) : List Char :=
  (decodeFrom none bytes).map fun c => c.getD replacementChar

def decodeStrict (bytes : List UInt8) : Option (List Char) :=
  (decodeFrom none bytes).mapM id

def encode (s : String) : List UInt8 :=
  s.toList.flatMap String.utf8EncodeChar

end MovieDiff.Text
