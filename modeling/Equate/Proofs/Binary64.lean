import Equate.Binary64.Rounding
/-!
# Numeric equality of doubles

Symmetric and transitive, though NaN is not equal to itself. Numbers that are equal give the same
word to hashes. No decimal numeral stands for NaN.
-/

namespace Equate.Binary64

theorem eq_iff {x y : Binary64} :
    x.eq y = true ↔
      x.isNaN = false ∧ y.isNaN = false ∧ (x = y ∨ x.isZero = true ∧ y.isZero = true) := by
  obtain ⟨x⟩ := x
  obtain ⟨y⟩ := y
  simp [eq, and_assoc]

theorem eq_self {x : Binary64} (h : x.isNaN = false) : x.eq x = true :=
  eq_iff.2 ⟨h, h, .inl rfl⟩

theorem eq_symm {x y : Binary64} (h : x.eq y = true) : y.eq x = true := by
  obtain ⟨hx, hy, h⟩ := eq_iff.1 h
  exact eq_iff.2 ⟨hy, hx, h.imp Eq.symm And.symm⟩

theorem eq_trans {x y z : Binary64} (hxy : x.eq y = true) (hyz : y.eq z = true) :
    x.eq z = true := by
  obtain ⟨hx, -, hxy⟩ := eq_iff.1 hxy
  obtain ⟨-, hz, hyz⟩ := eq_iff.1 hyz
  refine eq_iff.2 ⟨hx, hz, ?_⟩
  rcases hxy with rfl | ⟨hx0, hy0⟩
  · exact hyz
  · rcases hyz with rfl | ⟨-, hz0⟩
    · exact .inr ⟨hx0, hy0⟩
    · exact .inr ⟨hx0, hz0⟩

theorem hashWord_eq_of_eq {x y : Binary64} (h : x.eq y = true) : x.hashWord = y.hashWord := by
  obtain ⟨-, -, rfl | ⟨hx, hy⟩⟩ := eq_iff.1 h
  · rfl
  · rw [hashWord, hashWord, if_pos hx, if_pos hy]

/-! ## Decimal numerals -/

/-- A sign in front of bits below those of infinity is a finite number. -/
theorem isNaN_sign {sign bits : UInt64} (hsign : sign &&& 0x7fffffffffffffff = 0)
    (hbits : bits ≤ 0x7ff0000000000000) : isNaN ⟨sign ||| bits⟩ = false := by
  have hmagnitude : (sign ||| bits) &&& 0x7fffffffffffffff = bits &&& 0x7fffffffffffffff := by
    rw [← UInt64.toNat_inj] at hsign ⊢
    rw [UInt64.toNat_and] at hsign
    rw [UInt64.toNat_and, UInt64.toNat_or, Nat.and_or_distrib_right, hsign, UInt64.toNat_and]
    exact Nat.zero_or _
  have hle : bits &&& 0x7fffffffffffffff ≤ bits := by
    rw [UInt64.le_iff_toNat_le, UInt64.toNat_and]
    exact Nat.and_le_left
  rw [isNaN, magnitude, hmagnitude, decide_eq_false_iff_not, UInt64.not_lt]
  exact UInt64.le_trans hle hbits

theorem magnitudeOfQuotient?_le {num den : Nat} {bits : UInt64}
    (h : magnitudeOfQuotient? num den = some bits) : bits ≤ 0x7ff0000000000000 := by
  rw [magnitudeOfQuotient?] at h
  dsimp only at h
  split at h
  · cases h
  · rename_i hrange
    cases h
    obtain ⟨hfits, -⟩ := not_or.1 hrange
    rw [Nat.not_le] at hfits
    rw [UInt64.le_iff_toNat_le, Nat.toUInt64_eq, UInt64.toNat_ofNat',
      show (0x7ff0000000000000 : UInt64).toNat = 0x7ff0000000000000 from rfl]
    exact Nat.le_trans (Nat.mod_le _ _) (Nat.le_of_lt hfits)

theorem isNaN_ofDecimal? {negative : Bool} {digits : Bytes} {power : Int} {x : Binary64}
    (h : ofDecimal? negative digits power = some x) : x.isNaN = false := by
  have hsign : (if negative then 0x8000000000000000 else 0 : UInt64) &&& 0x7fffffffffffffff =
      0 := by
    cases negative <;> rfl
  rw [ofDecimal?] at h
  dsimp only at h
  split at h
  · cases h
    have h := isNaN_sign hsign (show (0 : UInt64) ≤ 0x7ff0000000000000 by decide)
    rwa [UInt64.or_zero] at h
  split at h
  · cases h
  · obtain ⟨bits, hbits, rfl⟩ := Option.map_eq_some_iff.1 h
    exact isNaN_sign hsign (magnitudeOfQuotient?_le hbits)

end Equate.Binary64
