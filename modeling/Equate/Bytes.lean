/-!
# Byte strings

Text is a list of bytes: columns, names and escapes all count bytes, and nothing here assumes
that they are valid UTF-8. Literals enter through `utf8`.
-/

namespace Equate

/-- A text, byte by byte. -/
abbrev Bytes := List UInt8

/-- The UTF-8 bytes of a string. -/
def utf8 (s : String) : Bytes := s.toByteArray.data.toList

instance : Coe String Bytes := ⟨utf8⟩

/-! ## Single bytes -/

namespace Ascii

abbrev nul : UInt8 := 0x00
abbrev tab : UInt8 := 0x09
abbrev newline : UInt8 := 0x0a
abbrev verticalTab : UInt8 := 0x0b
abbrev formFeed : UInt8 := 0x0c
abbrev carriageReturn : UInt8 := 0x0d
abbrev space : UInt8 := 0x20
abbrev quote : UInt8 := 0x22
abbrev hash : UInt8 := 0x23
abbrev leftParen : UInt8 := 0x28
abbrev rightParen : UInt8 := 0x29
abbrev plus : UInt8 := 0x2b
abbrev comma : UInt8 := 0x2c
abbrev minus : UInt8 := 0x2d
abbrev dot : UInt8 := 0x2e
abbrev slash : UInt8 := 0x2f
abbrev zero : UInt8 := 0x30
abbrev colon : UInt8 := 0x3a
abbrev semicolon : UInt8 := 0x3b
abbrev leftBracket : UInt8 := 0x5b
abbrev backslash : UInt8 := 0x5c
abbrev rightBracket : UInt8 := 0x5d
abbrev leftBrace : UInt8 := 0x7b
abbrev rightBrace : UInt8 := 0x7d

def isDigit (b : UInt8) : Bool := 0x30 ≤ b && b ≤ 0x39

def isUpper (b : UInt8) : Bool := 0x41 ≤ b && b ≤ 0x5a

def isLower (b : UInt8) : Bool := 0x61 ≤ b && b ≤ 0x7a

def isLetter (b : UInt8) : Bool := isUpper b || isLower b

/-- Lower-case ASCII letters become upper-case ones; every other byte stays. -/
def toUpper (b : UInt8) : UInt8 := if isLower b then b - 0x20 else b

/-- Upper-case ASCII letters become lower-case ones; every other byte stays. -/
def toLower (b : UInt8) : UInt8 := if isUpper b then b + 0x20 else b

end Ascii

namespace Bytes

/-! ## Numbers -/

/-- The decimal digits of a number. -/
def ofNat (n : Nat) : Bytes := (Nat.toDigits 10 n).map Char.toUInt8

/-- The decimal text of an integer; only negative numbers carry a sign. -/
def ofInt : Int → Bytes
  | .ofNat n => ofNat n
  | .negSucc n => Ascii.minus :: ofNat (n + 1)

/-- The number that a string of decimal digits denotes. -/
def toNat (digits : Bytes) : Nat := digits.foldl (fun n b => 10 * n + (b - Ascii.zero).toNat) 0

/-- Lower-case hexadecimal digits, padded with zeros to `width`. -/
def hex (width n : Nat) : Bytes :=
  let digits := (Nat.toDigits 16 n).map Char.toUInt8
  List.replicate (width - digits.length) Ascii.zero ++ digits

/-! ## Cutting and joining -/

/-- The bytes before the first NUL. -/
def untilNul (s : Bytes) : Bytes := s.takeWhile (· != Ascii.nul)

/-- The pieces with `separator` between neighbours. -/
def join (separator : Bytes) (pieces : List Bytes) : Bytes := separator.intercalate pieces

/-- Byte-wise lexicographic order. -/
def lt : Bytes → Bytes → Bool
  | [], [] => false
  | [], _ :: _ => true
  | _ :: _, [] => false
  | x :: xs, y :: ys => x < y || (x == y && lt xs ys)

end Bytes

end Equate
