import Mathlib

/-! Machine words: the order of unsigned 64-bit words, and the two's complement values of C's
signed types, as integers. -/
namespace Foundations

instance linearOrderUInt64 : LinearOrder UInt64 where
  le_refl a := UInt64.le_refl a
  le_trans _ _ _ hab hbc := UInt64.le_trans hab hbc
  lt_iff_le_not_ge a b := by
    rw [UInt64.lt_iff_toNat_lt,UInt64.le_iff_toNat_le,UInt64.le_iff_toNat_le]
    omega
  le_antisymm _ _ hab hba := UInt64.le_antisymm hab hba
  le_total a b := UInt64.le_total a b
  toDecidableLE := inferInstance
  toDecidableLT := inferInstance
  toDecidableEq := inferInstance

/-- Conversion to a signed type of `w` bits: reduction modulo `2^w` into its range. -/
def wrap (w : ℕ) (x : ℤ) : ℤ := x.bmod (2^w)

theorem wrap_of_range {w : ℕ} {x : ℤ} (hl : -2^w ≤ x) (hu : x < 2^w) : wrap (w+1) x = x := by
  have hp : (2 : ℤ)^(w+1) = 2*2^w := by ring
  apply Int.bmod_eq_of_le
  · push_cast; omega
  · push_cast; omega

theorem wrap_range (w : ℕ) (x : ℤ) : -2^w ≤ wrap (w+1) x ∧ wrap (w+1) x < 2^w := by
  have hp : (2 : ℤ)^(w+1) = 2*2^w := by ring
  have hpos : 0 < 2^(w+1) := by positivity
  have h1 := Int.le_bmod (x := x) hpos
  have h2 := Int.bmod_lt (x := x) hpos
  unfold wrap
  push_cast at h1 h2
  omega

theorem wrap_wrap_add (w : ℕ) (x y : ℤ) : wrap w (wrap w x+y) = wrap w (x+y) := Int.bmod_add_bmod

theorem wrap_wrap_sub (w : ℕ) (x y : ℤ) : wrap w (wrap w x-y) = wrap w (x-y) := Int.bmod_sub_bmod

end Foundations
