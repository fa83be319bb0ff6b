import Equate.Proofs.Binary64
import Equate.Proofs.Sequence.Classes
import Equate.Sequence.Element
/-!
# Elements are compared and hashed consistently

Equality of elements is symmetric and transitive and keeps the hash, as `Agree` shows case by case.
It is not reflexive, because NaN differs from itself, and neither is a deep comparison of pointers
to NaN. A deep comparison is equality of what it looks at, a shallow one equality of the elements
themselves.
-/

namespace Equate.Element

/-- What makes two elements equal. -/
inductive Agree : Element → Element → Prop
  | signed (x : Int64) : Agree (.signed x) (.signed x)
  | unsigned (x : UInt64) : Agree (.unsigned x) (.unsigned x)
  | single {x y : UInt32} (h : (Binary64.ofSingle x).eq (Binary64.ofSingle y) = true) :
      Agree (.single x) (.single y)
  | double {x y : Binary64} (h : x.eq y = true) : Agree (.double x) (.double y)
  | text (s : Bytes) : Agree (.text s) (.text s)
  | null : Agree .null .null
  | pointer (a : UInt64) (s t : Element) : Agree (.pointer a s) (.pointer a t)

theorem agree_of_eq {x y : Element} (h : x.eq y = true) : Agree x y := by
  cases x <;> cases y
  case signed.signed x y =>
    rw [beq_iff_eq.1 h]
    exact .signed y
  case unsigned.unsigned x y =>
    rw [beq_iff_eq.1 h]
    exact .unsigned y
  case single.single x y => exact .single h
  case double.double x y => exact .double h
  case text.text s t =>
    rw [beq_iff_eq.1 h]
    exact .text t
  case null.null => exact .null
  case pointer.pointer a s b t =>
    rw [beq_iff_eq.1 h]
    exact .pointer b s t
  all_goals cases h

theorem Agree.eq {x y : Element} (h : Agree x y) : x.eq y = true := by
  cases h with
  | signed x => exact beq_self_eq_true x
  | unsigned x => exact beq_self_eq_true x
  | single h => exact h
  | double h => exact h
  | text s => exact beq_self_eq_true s
  | null => rfl
  | pointer a s t => exact beq_self_eq_true a

theorem agree_iff {x y : Element} : Agree x y ↔ x.eq y = true := ⟨Agree.eq, agree_of_eq⟩

theorem eq_symm {x y : Element} (h : x.eq y = true) : y.eq x = true := by
  rw [← agree_iff] at h ⊢
  cases h with
  | signed x => exact .signed x
  | unsigned x => exact .unsigned x
  | single h => exact .single (Binary64.eq_symm h)
  | double h => exact .double (Binary64.eq_symm h)
  | text s => exact .text s
  | null => exact .null
  | pointer a s t => exact .pointer a t s

theorem eq_trans {x y z : Element} (hxy : x.eq y = true) (hyz : y.eq z = true) :
    x.eq z = true := by
  rw [← agree_iff] at hxy hyz ⊢
  cases hxy with
  | signed x => exact hyz
  | unsigned x => exact hyz
  | text s => exact hyz
  | null => exact hyz
  | single hxy => cases hyz with | single hyz => exact .single (Binary64.eq_trans hxy hyz)
  | double hxy => cases hyz with | double hyz => exact .double (Binary64.eq_trans hxy hyz)
  | pointer a s t => cases hyz with | pointer _ _ u => exact .pointer a s u

theorem word_eq_of_eq {x y : Element} (h : x.eq y = true) : x.word = y.word := by
  cases agree_of_eq h with
  | single h => exact Binary64.hashWord_eq_of_eq h
  | double h => exact Binary64.hashWord_eq_of_eq h
  | signed | unsigned | text | null | pointer => rfl

/-! ## Pointers -/

def isPointer : Element → Bool
  | .pointer _ _ => true
  | _ => false

/-- What a deep comparison looks at. -/
def followed : Element → Element
  | .pointer _ target => target
  | x => x

theorem equal_deep (x y : Element) :
    x.equal true y = (x.isPointer == y.isPointer && x.followed.eq y.followed) := by
  cases x <;> cases y <;> rfl

theorem hash_deep (x : Element) : x.hash true = x.followed.word := by
  cases x <;> rfl

theorem equal_shallow (x y : Element) : x.equal false y = x.eq y := by
  cases x <;> cases y <;> rfl

theorem hash_shallow (x : Element) : x.hash false = x.word := by
  cases x <;> rfl

/-- Elements are compared and hashed consistently, NaN and pointers included. -/
theorem comparison_consistent (deep : Bool) : (comparison deep).Consistent := by
  cases deep with
  | false =>
    constructor <;> simp only [comparison, equal_shallow, hash_shallow]
    · exact eq_symm
    · exact eq_trans
    · exact word_eq_of_eq
  | true =>
    constructor <;> simp only [comparison, equal_deep, hash_deep, Bool.and_eq_true, beq_iff_eq]
    · exact fun h => ⟨h.1.symm, eq_symm h.2⟩
    · exact fun hxy hyz => ⟨hxy.1.trans hyz.1, eq_trans hxy.2 hyz.2⟩
    · exact fun h => word_eq_of_eq h.2

end Equate.Element
