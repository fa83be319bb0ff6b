import Equate.Binary64.Rounding
import Equate.Bytes
/-!
# Printing doubles

Six significant digits of the exact value, a tie going to the even digit, without trailing zeros.
Decimal exponents from -4 to 5 are written positionally, the others with an exponent of at least
two digits.
-/

namespace Equate.Binary64

/-- How many significant digits are printed. -/
def precision : Nat := 6

/-- The value of a finite number as a quotient. -/
def quotient (x : Binary64) : Nat × Nat := scaleQuotient 2 x.exponent x.significand 1

/-- How many decimal digits a number has. -/
def decimalSize (n : Nat) : Nat := (Nat.toDigits 10 n).length

/-- The `precision` leading digits of a positive quotient as one number, and the decimal exponent
of the first of them. -/
def leadingDigits (num den : Nat) : Nat × Int :=
  let top := quotientLog 10 decimalSize num den
  let (n, d) := scaleQuotient 10 (precision - 1 - top) num den
  let digits := roundHalfEven n d
  if digits = Nat.pow 10 precision then (Nat.pow 10 (precision - 1), top + 1) else (digits, top)

/-- Drops zeros from the right. -/
def dropTrailingZeros (digits : Bytes) : Bytes :=
  (digits.reverse.dropWhile (· == Ascii.zero)).reverse

/-- A whole part and a fraction; an empty fraction takes the point with it. -/
def pointed (whole fraction : Bytes) : Bytes :=
  if fraction.isEmpty then whole else whole ++ Ascii.dot :: fraction

/-- Lays out the digits `d₀d₁…` that stand for `d₀.d₁… * 10 ^ exponent`. -/
def layOut (digits : Bytes) (exponent : Int) : Bytes :=
  if exponent < -4 ∨ precision ≤ exponent then
    let sign : Bytes := if exponent < 0 then utf8 "e-" else utf8 "e+"
    let size := Bytes.ofNat exponent.natAbs
    pointed (digits.take 1) (dropTrailingZeros (digits.drop 1)) ++ sign ++
      List.replicate (2 - size.length) Ascii.zero ++ size
  else if exponent < 0 then
    pointed [Ascii.zero]
      (dropTrailingZeros (List.replicate (-exponent - 1).toNat Ascii.zero ++ digits))
  else
    let point := exponent.toNat + 1
    pointed (digits.take point) (dropTrailingZeros (digits.drop point))

/-- The printed form. -/
def text (x : Binary64) : Bytes :=
  let sign : Bytes := if x.isNegative then [Ascii.minus] else []
  if x.isNaN then sign ++ utf8 "nan"
  else if x.isInfinite then sign ++ utf8 "inf"
  else if x.isZero then sign ++ [Ascii.zero]
  else
    let (num, den) := x.quotient
    let (digits, exponent) := leadingDigits num den
    sign ++ layOut (Bytes.ofNat digits) exponent

end Equate.Binary64
