import Equate.Binary64.Basic
import Equate.Bytes
/-!
# Rounding exact quotients

A decimal numeral is an exact quotient of natural numbers, and so is the value of a double. Here
are the leading digit position of a quotient in any base, rounding to the nearest integer, and the
double nearest to a quotient.
-/

namespace Equate

/-- The integer nearest to `num / den`; a tie goes to the even neighbour. -/
def roundHalfEven (num den : Nat) : Nat :=
  let whole := num / den
  let rest := num % den
  if den < 2 * rest ∨ (2 * rest = den ∧ whole % 2 = 1) then whole + 1 else whole

/-- `num / den` times `base ^ shift`, as a quotient. -/
def scaleQuotient (base : Nat) (shift : Int) (num den : Nat) : Nat × Nat :=
  if 0 ≤ shift then (num * Nat.pow base shift.toNat, den)
  else (num, den * Nat.pow base (-shift).toNat)

/-- The largest `k` with `base ^ k ≤ num / den`, for positive `num` and `den`. Up to a constant,
`size` counts the digits of a number in that base. -/
def quotientLog (base : Nat) (size : Nat → Nat) (num den : Nat) : Int :=
  let guess : Int := (size num : Int) - size den
  let (n, d) := scaleQuotient base (-guess) num den
  if d ≤ n then guess else guess - 1

namespace Binary64

/-- Whether `rest / den` counts as no rest behind the integer `whole`, in multiples of the smallest
double. A rest does not count if it is the single bit right behind the 53 leading bits of the whole
quotient, provided that 1076 decimal places are enough to write it down: the smallest double is
`2 ^ -1074`, and `2 ^ -k` takes `k` places. -/
def isExact (whole rest den : Nat) : Bool :=
  let guardPlaces := 53 - whole.log2
  rest == 0 || (1074 + guardPlaces ≤ 1076 && rest * Nat.pow 2 guardPlaces == den)

/-- The magnitude bits nearest to a positive quotient. There are none when it rounds to infinity,
or when it is not exact and lies below every normal number even after rounding to 53 bits. -/
def magnitudeOfQuotient? (num den : Nat) : Option UInt64 :=
  let exponent := max (quotientLog 2 Nat.log2 num den - 52) (-1074)
  let (n, d) := scaleQuotient 2 (-exponent) num den
  let bits := (exponent + 1074).toNat * 0x10000000000000 + roundHalfEven n d
  let overflows := 0x7ff0000000000000 ≤ bits
  let tiny := num * Nat.pow 2 1076 < den * 0x3fffffffffffff
  if overflows ∨ (tiny ∧ !isExact (n / d) (n % d) d) then none else some bits.toUInt64

/-- The double nearest to a decimal integer times `10 ^ power`, if that is in range. A number whose
size in decimal digits is beyond 400 either way is out of range, so no larger power is ever
computed. -/
def ofDecimal? (negative : Bool) (digits : Bytes) (power : Int) : Option Binary64 :=
  let sign : UInt64 := if negative then 0x8000000000000000 else 0
  let digits := digits.dropWhile (· == Ascii.zero)
  let size := power + digits.length
  if digits.isEmpty then some ⟨sign⟩
  else if 400 < size ∨ size < -400 then none
  else
    let (num, den) := scaleQuotient 10 power (Bytes.toNat digits) 1
    (magnitudeOfQuotient? num den).map fun bits => ⟨sign ||| bits⟩

end Binary64

end Equate
