import Equate.Binary64.Rounding
import Equate.Bytes
/-!
# Numerals

A numeral is a run of bytes: an optional sign, digits, an optional fraction and an optional
exponent. Without fraction and exponent it denotes a 64-bit integer, otherwise a double. The digits
of fraction and exponent may be missing, and an exponent without digits counts for nothing.
-/

namespace Equate

/-- The exponent of a numeral, as written. -/
structure NumeralExponent where
  letter : UInt8
  sign : Bytes
  digits : Bytes
  deriving DecidableEq, Repr

/-- A numeral, as written. -/
structure Numeral where
  sign : Bytes
  whole : Bytes
  fraction? : Option Bytes
  exponent? : Option NumeralExponent
  deriving DecidableEq, Repr

namespace Numeral

def isSign (b : UInt8) : Bool := b == Ascii.plus || b == Ascii.minus

/-- Whether a numeral starts here: a digit, or a sign and a digit. -/
def starts : Bytes → Bool
  | b :: c :: _ => Ascii.isDigit b || (isSign b && Ascii.isDigit c)
  | [b] => Ascii.isDigit b
  | [] => false

/-- Splits off a sign, if there is one. -/
def splitSign : Bytes → Bytes × Bytes
  | b :: bs => if isSign b then ([b], bs) else ([], b :: bs)
  | [] => ([], [])

/-- Splits off a point and the digits after it, if there is a point. -/
def splitFraction : Bytes → Option Bytes × Bytes
  | b :: bs => if b = Ascii.dot then (some (bs.takeWhile Ascii.isDigit), bs.dropWhile Ascii.isDigit)
      else (none, b :: bs)
  | [] => (none, [])

/-- Splits off an exponent, if there is the letter for it. -/
def splitExponent : Bytes → Option NumeralExponent
  | b :: bs =>
    if b = 0x65 ∨ b = 0x45 then
      let (sign, digits) := splitSign bs
      some ⟨b, sign, digits.takeWhile Ascii.isDigit⟩
    else none
  | [] => none

/-- The longest numeral at the front of a text. -/
def scan (s : Bytes) : Numeral :=
  let (sign, s) := splitSign s
  let whole := s.takeWhile Ascii.isDigit
  let (fraction?, s) := splitFraction (s.dropWhile Ascii.isDigit)
  ⟨sign, whole, fraction?, splitExponent s⟩

/-- The bytes of a numeral. -/
def text (n : Numeral) : Bytes :=
  n.sign ++ n.whole ++
    (match n.fraction? with
      | some digits => Ascii.dot :: digits
      | none => []) ++
    (match n.exponent? with
      | some e => e.letter :: (e.sign ++ e.digits)
      | none => [])

def isInteger (n : Numeral) : Bool := n.fraction?.isNone && n.exponent?.isNone

def isNegative (n : Numeral) : Bool := n.sign == [Ascii.minus]

/-- The integer that sign and whole digits denote. -/
def integer (n : Numeral) : Int :=
  let size : Int := Bytes.toNat n.whole
  if n.isNegative then -size else size

/-- The integer, if it fits in 64 bits. -/
def int64? (n : Numeral) : Option Int64 :=
  if -0x8000000000000000 ≤ n.integer ∧ n.integer < 0x8000000000000000 then
    some (Int64.ofInt n.integer)
  else none

/-- The power of ten that the exponent asks for. -/
def power (n : Numeral) : Int :=
  match n.exponent? with
  | some e =>
    let size : Int := Bytes.toNat e.digits
    if e.sign = [Ascii.minus] then -size else size
  | none => 0

/-- The double nearest to the numeral, if it is in range. -/
def binary64? (n : Numeral) : Option Binary64 :=
  let fraction := n.fraction?.getD []
  Binary64.ofDecimal? n.isNegative (n.whole ++ fraction) (n.power - fraction.length)

end Numeral

end Equate
