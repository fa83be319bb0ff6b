import Equate.Bytes
/-!
# Companion functions

A member with a custom strategy is compared and hashed by two functions of its class. Their names
are made from the member's name.
-/

namespace Equate

/-- A member's name without one leading `_` or `m_` and with its first letter in upper case. A name
of which nothing, or something that starts with a digit, would be left stays as it is. -/
def companionSuffix (name : Bytes) : Bytes :=
  let rest :=
    match name with
    | 0x5f :: rest => rest
    | 0x6d :: 0x5f :: rest => rest
    | _ => name
  match rest with
  | [] => name
  | b :: bs => if Ascii.isDigit b then name else Ascii.toUpper b :: bs

/-- The function that compares two values of a member. -/
def equalsCompanion (member : Bytes) : Bytes := utf8 "Equals_" ++ companionSuffix member

/-- The function that hashes a value of a member. -/
def hashCompanion (member : Bytes) : Bytes := utf8 "GetHashCode_" ++ companionSuffix member

end Equate
