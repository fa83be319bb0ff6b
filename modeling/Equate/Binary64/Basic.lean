/-!
# Double-precision numbers by their bits

A `Binary64` is its 64-bit pattern. A finite pattern stands for `significand * 2 ^ exponent` with
the sign of its top bit, and everything the library does with numbers is integer arithmetic on
those fields.
-/

namespace Equate

/-- An IEEE 754 double, as its bit pattern. -/
structure Binary64 where
  bits : UInt64
  deriving DecidableEq, Repr

namespace Binary64

/-- The pattern without its sign bit. -/
def magnitude (x : Binary64) : UInt64 := x.bits &&& 0x7fffffffffffffff

def isNegative (x : Binary64) : Bool := x.bits != x.magnitude

def isNaN (x : Binary64) : Bool := 0x7ff0000000000000 < x.magnitude

def isInfinite (x : Binary64) : Bool := x.magnitude == 0x7ff0000000000000

/-- Holds of both zeros. -/
def isZero (x : Binary64) : Bool := x.magnitude == 0

/-- The biased exponent field. -/
def exponentField (x : Binary64) : Nat := (x.magnitude >>> 52).toNat

/-- The fraction field. -/
def fractionField (x : Binary64) : Nat := (x.magnitude &&& 0xfffffffffffff).toNat

/-- Of a finite number, the integer that is scaled by `2 ^ exponent`. -/
def significand (x : Binary64) : Nat :=
  if x.exponentField = 0 then x.fractionField else x.fractionField + 0x10000000000000

/-- Of a finite number, the power of two that scales `significand`. -/
def exponent (x : Binary64) : Int :=
  if x.exponentField = 0 then -1074 else (x.exponentField : Int) - 1075

/-- Numeric equality: NaN differs from everything and the two zeros are equal. -/
def eq (x y : Binary64) : Bool :=
  !x.isNaN && !y.isNaN && (x.bits == y.bits || (x.isZero && y.isZero))

/-- A finite number or infinity as an integer that grows with it. -/
def rank (x : Binary64) : Int :=
  if x.isNegative then -(x.magnitude.toNat : Int) else x.magnitude.toNat

/-- Numeric order; nothing is below or above NaN. -/
def lt (x y : Binary64) : Bool := !x.isNaN && !y.isNaN && x.rank < y.rank

/-- The pattern that numerically equal numbers share: both zeros give that of `0.0`. -/
def hashWord (x : Binary64) : UInt64 := if x.isZero then 0 else x.bits

/-! ## Single precision -/

/-- The pattern with an exponent field and a fraction field. -/
def ofFields (negative : Bool) (field fraction : Nat) : Binary64 :=
  let sign : UInt64 := if negative then 0x8000000000000000 else 0
  ⟨sign ||| (field * 0x10000000000000 + fraction).toUInt64⟩

/-- A single-precision pattern widened without loss; NaN becomes quiet. A subnormal number becomes
normal, with its top bit implied. -/
def ofSingle (bits : UInt32) : Binary64 :=
  let negative := bits &&& 0x80000000 != 0
  let field := ((bits >>> 23) &&& 0xff).toNat
  let fraction := (bits &&& 0x7fffff).toNat
  let widened := fraction * 0x20000000
  if field = 0xff then
    if fraction = 0 then ofFields negative 0x7ff 0
    else ofFields negative 0x7ff (widened ||| 0x8000000000000)
  else if field = 0 then
    if fraction = 0 then ofFields negative 0 0
    else
      let top := fraction.log2
      ofFields negative (top + 874) (fraction * Nat.pow 2 (52 - top) - 0x10000000000000)
  else ofFields negative (field + 896) widened

end Binary64

end Equate
