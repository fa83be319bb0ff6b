import Mathlib.Logic.Function.Basic
import Equate.Hash
/-!
# Mixing loses nothing

Every step of the mixing function can be taken back: a word that was xored with its own right shift
comes back from two more shifts, and an odd factor has an inverse modulo 2^64. `unmix` takes the
steps back in turn, so `mix` is a bijection. The last word that is folded into a hash can therefore
be told from the finished hash (`Hasher.finish_add_inj`). Of earlier words this does not hold
(`Hasher.exists_add_eq`).
-/

namespace Equate

/-! ## Shifts -/

/-- The word with its own right shift laid over it. -/
def xorShift (k x : UInt64) : UInt64 := x ^^^ (x >>> k)

/-- What takes `xorShift` back, if three shifts leave nothing of a word. -/
def xorUnshift (k x : UInt64) : UInt64 := x ^^^ (x >>> k) ^^^ (x >>> k >>> k)

/-- Whether three shifts by `k` leave nothing of a word. -/
structure IsWideShift (k : UInt64) : Prop where
  lt : k.toNat < 64
  le : 64 ≤ 3 * k.toNat

variable {k : UInt64}

theorem IsWideShift.shiftRight_eq_zero (hk : IsWideShift k) (x : UInt64) :
    x >>> k >>> k >>> k = 0 := by
  have hx : x.toNat < 2 ^ (3 * k.toNat) :=
    Nat.lt_of_lt_of_le x.toNat_lt (Nat.pow_le_pow_right (by decide) hk.le)
  have hsum : 3 * k.toNat = k.toNat + k.toNat + k.toNat := by omega
  rw [hsum] at hx
  apply UInt64.toNat_inj.1
  simp only [UInt64.toNat_shiftRight, Nat.mod_eq_of_lt hk.lt, ← Nat.shiftRight_add]
  exact Nat.shiftRight_eq_zero x.toNat _ hx

theorem xorUnshift_xorShift (hk : IsWideShift k) (x : UInt64) :
    xorUnshift k (xorShift k x) = x := by
  calc xorUnshift k (xorShift k x)
      = x ^^^ (x >>> k >>> k >>> k) ^^^
          ((x >>> k ^^^ x >>> k) ^^^ (x >>> k >>> k ^^^ x >>> k >>> k)) := by
        simp only [xorUnshift, xorShift, UInt64.shiftRight_xor]
        ac_rfl
    _ = x := by
        rw [hk.shiftRight_eq_zero]
        simp only [UInt64.xor_self, UInt64.xor_zero]

theorem xorShift_xorUnshift (hk : IsWideShift k) (x : UInt64) :
    xorShift k (xorUnshift k x) = x := by
  have hcomm : xorShift k (xorUnshift k x) = xorUnshift k (xorShift k x) := by
    simp only [xorUnshift, xorShift, UInt64.shiftRight_xor]
    ac_rfl
  rw [hcomm, xorUnshift_xorShift hk]

/-! ## Mixing -/

theorem mix_eq (x : UInt64) :
    mix x =
      xorShift 31 (xorShift 27 (xorShift 30 x * 0xbf58476d1ce4e5b9) * 0x94d049bb133111eb) := rfl

/-- The steps of `mix`, each taken back, the last one first. -/
def unmix (x : UInt64) : UInt64 :=
  xorUnshift 30
    (xorUnshift 27 (xorUnshift 31 x * 0x319642b2d24d8ec3) * 0x96de1b173f119089)

theorem mul_mul_of_inverse {a b : UInt64} (h : a * b = 1) (x : UInt64) : x * a * b = x := by
  rw [UInt64.mul_assoc, h, UInt64.mul_one]

theorem unmix_mix (x : UInt64) : unmix (mix x) = x := by
  rw [mix_eq, unmix, xorUnshift_xorShift ⟨by decide, by decide⟩, mul_mul_of_inverse (by decide),
    xorUnshift_xorShift ⟨by decide, by decide⟩, mul_mul_of_inverse (by decide),
    xorUnshift_xorShift ⟨by decide, by decide⟩]

theorem mix_unmix (x : UInt64) : mix (unmix x) = x := by
  rw [mix_eq, unmix, xorShift_xorUnshift ⟨by decide, by decide⟩, mul_mul_of_inverse (by decide),
    xorShift_xorUnshift ⟨by decide, by decide⟩, mul_mul_of_inverse (by decide),
    xorShift_xorUnshift ⟨by decide, by decide⟩]

theorem bijective_mix : Function.Bijective mix :=
  Function.bijective_iff_has_inverse.2 ⟨unmix, unmix_mix, mix_unmix⟩

@[simp] theorem mix_inj {x y : UInt64} : mix x = mix y ↔ x = y := bijective_mix.injective.eq_iff

/-! ## Hashes -/

namespace Hasher

theorem finish_inj {g h : Hasher} : g.finish = h.finish ↔ g = h := by
  rw [finish, finish, mix_inj]
  exact ⟨fun hstate => congrArg mk hstate, congrArg state⟩

theorem add_inj {h : Hasher} {v w : UInt64} : h.add v = h.add w ↔ v = w := by
  simp only [add, mk.injEq, UInt64.xor_right_inj, UInt64.add_left_inj, mix_inj]

/-- The last word is told by the hash. -/
theorem finish_add_inj {h : Hasher} {v w : UInt64} :
    (h.add v).finish = (h.add w).finish ↔ v = w := finish_inj.trans add_inj

/-- An earlier word may be lost: there is a word that two states forget their difference by. -/
theorem exists_add_eq : ∃ (g h : Hasher) (w : UInt64), g ≠ h ∧ g.add w = h.add w :=
  ⟨⟨0⟩, ⟨0xffffffffffffffff⟩, unmix (0xe000000000000020 - 0x9e3779b97f4a7c15), by decide, by decide⟩

end Hasher

end Equate
