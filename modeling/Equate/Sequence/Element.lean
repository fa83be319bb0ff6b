import Equate.Binary64.Basic
import Equate.Sequence.Basic
/-!
# Elements of sequences

The element types that generated code folds into hashes. A pointer compares and hashes its target
when the comparison is deep and its address otherwise.
-/

namespace Equate

/-- An element. Integers are given at 64 bits, booleans and narrow types extended. -/
inductive Element where
  | signed (value : Int64)
  | unsigned (value : UInt64)
  | single (bits : UInt32)
  | double (value : Binary64)
  | text (bytes : Bytes)
  | null
  | pointer (address : UInt64) (target : Element)
  deriving DecidableEq, Repr

namespace Element

/-- Equality of values; pointers are values too, and equal if their addresses are. -/
def eq : Element → Element → Bool
  | .signed x, .signed y => x == y
  | .unsigned x, .unsigned y => x == y
  | .single x, .single y => (Binary64.ofSingle x).eq (Binary64.ofSingle y)
  | .double x, .double y => x.eq y
  | .text x, .text y => x == y
  | .null, .null => true
  | .pointer a _, .pointer b _ => a == b
  | _, _ => false

/-- The hash of a value: its word, the FNV-1a hash of a text, the address of a pointer. -/
def word : Element → UInt64
  | .signed x => x.toUInt64
  | .unsigned x => x
  | .single x => (Binary64.ofSingle x).hashWord
  | .double x => x.hashWord
  | .text s => fnv1a s
  | .null => 0
  | .pointer a _ => a

/-- Equality that follows pointers when `deep`. -/
def equal (deep : Bool) : Element → Element → Bool
  | .pointer a x, .pointer b y => if deep then x.eq y else a == b
  | x, y => x.eq y

/-- The hash that goes with `equal`. -/
def hash (deep : Bool) : Element → UInt64
  | .pointer a x => if deep then x.word else a
  | x => x.word

def comparison (deep : Bool) : Comparison Element := ⟨equal deep, hash deep⟩

/-! ## Order -/

/-- The order of values, pointers by their addresses; values of different kinds and NaN are not
ordered. -/
def lt : Element → Element → Bool
  | .signed x, .signed y => x < y
  | .unsigned x, .unsigned y => x < y
  | .single x, .single y => (Binary64.ofSingle x).lt (Binary64.ofSingle y)
  | .double x, .double y => x.lt y
  | .text x, .text y => x.lt y
  | .null, .pointer _ _ => true
  | .pointer a _, .pointer b _ => a < b
  | _, _ => false

/-- Whether a value is NaN, which has no place in the order. -/
def isNaN : Element → Bool
  | .single x => (Binary64.ofSingle x).isNaN
  | .double x => x.isNaN
  | _ => false

/-- The elements in ascending order, and only the first of those that the order does not tell
apart. A set that a NaN comes first to takes nothing more, and any other set takes no NaN. -/
def sortedSet : List Element → List Element
  | [] => []
  | x :: xs =>
    if x.isNaN then [x]
    else
      let ordered := (x :: xs).filter fun y => !y.isNaN
      (sortBy (fun y z => !z.lt y) ordered).eraseRepsBy fun y z => !y.lt z

end Element

end Equate
