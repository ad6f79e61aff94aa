import JustKit.Hash.DefaultHash
import JustKit.Hash.Entries

/-! When the searches and the rehash compute the same bucket for a key under the default hash. The
signed remainder of the `long` and the unsigned remainder of the stored `int` differ in general. -/
namespace JustKit.Hash
open Foundations

/-- The stored `int` is the low part of the hash. -/
theorem stored_defaultHash (key : Key) : wrap 32 (defaultHash key) = low key := by
  have hl := low_lt key
  rw [wrap,defaultHash_eq,show (2 : ℤ)^32*high key = high key*((2^32 : ℕ) : ℤ) by push_cast; ring,
    Int.mul_add_bmod_self_right]
  apply Int.bmod_eq_of_le
  · push_cast; omega
  · push_cast; omega

lemma rehashIndex_default (key : Key) (n : ℕ) : rehashIndex (wrap 32 (defaultHash key)) n = low key % n := by
  have hl := low_lt key
  rw [stored_defaultHash,rehashIndex_eq (by omega) (by omega),Int.toNat_natCast]

lemma lookupIndex_tmod {n : ℕ} (hn : 0 < n) (hn' : n ≤ 2147483647) (h : ℤ) : lookupIndex h n = h.tmod n := by
  have h1 := Int.tmod_lt_of_pos h (show (0 : ℤ) < n by omega)
  have h2 := Int.lt_tmod_of_pos h (show (0 : ℤ) < n by omega)
  exact wrap_of_range (w := 31) (by omega) (by omega)

/-- Both indices are in range and are the same. -/
def SameBucket (key : Key) (n : ℕ) : Prop :=
  0 ≤ lookupIndex (defaultHash key) n ∧ lookupIndex (defaultHash key) n < n ∧
    rehashIndex (wrap 32 (defaultHash key)) n < n ∧
    lookupIndex (defaultHash key) n = rehashIndex (wrap 32 (defaultHash key)) n

instance (key : Key) (n : ℕ) : Decidable (SameBucket key n) := inferInstanceAs (Decidable (_ ∧ _ ∧ _ ∧ _))

/-- The two indices agree if and only if the number of buckets divides what the carries of the last
eight bytes add to the hash and, should this be negative, also divides the low part. -/
theorem sameBucket_iff (key : Key) (n : ℕ) (hn : bucketsMinSize ≤ n) (hn' : n ≤ bucketsMaxSize) :
    SameBucket key n ↔ (n : ℤ) ∣ 2^32*high key ∧ (0 ≤ high key ∨ n ∣ low key) := by
  have hpos : 0 < n := lt_of_lt_of_le (by decide) hn
  have hl := low_lt key
  have hmod : low key % n < n := Nat.mod_lt _ hpos
  have hlow : (n : ℤ) ∣ low key ↔ n ∣ low key := Int.natCast_dvd_natCast
  rw [SameBucket,rehashIndex_default,lookupIndex_tmod hpos hn']
  by_cases hh : 0 ≤ high key
  · -- The remainder is the unsigned one.
    have hemod : (defaultHash key).tmod n = defaultHash key % n :=
      Int.tmod_eq_emod_of_nonneg (by rw [defaultHash_eq]; omega)
    have h1 := Int.emod_nonneg (defaultHash key) (show (n : ℤ) ≠ 0 by omega)
    have h2 := Int.emod_lt_of_pos (defaultHash key) (show (0 : ℤ) < n by omega)
    have hdvd : (n : ℤ) ∣ 2^32*high key ↔ defaultHash key % n = (low key % n : ℕ) := by
      rw [Int.natCast_mod,Int.emod_eq_emod_iff_emod_sub_eq_zero,← Int.dvd_iff_emod_eq_zero,defaultHash_eq,
        add_sub_cancel_right]
    rw [hemod,hdvd]
    constructor
    · rintro ⟨_,_,_,he⟩
      exact ⟨he,Or.inl hh⟩
    · rintro ⟨he,_⟩
      exact ⟨h1,h2,hmod,he⟩
  · -- The remainder is not positive, so both indices must be zero.
    have hneg : (defaultHash key).tmod n ≤ 0 := by
      have h0 := Int.tmod_nonneg (a := -defaultHash key) n (by rw [defaultHash_eq]; omega)
      rw [Int.neg_tmod] at h0
      omega
    constructor
    · rintro ⟨h1,_,_,he⟩
      have hzero : (defaultHash key).tmod n = 0 := le_antisymm hneg h1
      have hln : n ∣ low key := Nat.dvd_of_mod_eq_zero (by omega)
      have hdvd := Int.dvd_of_tmod_eq_zero hzero
      rw [defaultHash_eq] at hdvd
      exact ⟨(dvd_add_left (hlow.mpr hln)).mp hdvd,Or.inr hln⟩
    · rintro ⟨hd,hl'⟩
      have hln : n ∣ low key := hl'.resolve_left hh
      have hzero : (defaultHash key).tmod n = 0 := by
        apply Int.tmod_eq_zero_of_dvd
        rw [defaultHash_eq]
        exact dvd_add hd (hlow.mpr hln)
      rw [hzero,Nat.mod_eq_zero_of_dvd hln]
      exact ⟨le_refl _,by omega,hpos,rfl⟩

/-- A short text: no byte carries. -/
theorem sameBucket_iff_text : SameBucket [0x61,0x62] 7 ↔
    ((7 : ℕ) : ℤ) ∣ 2^32*high [0x61,0x62] ∧ (0 ≤ high [0x61,0x62] ∨ 7 ∣ low [0x61,0x62]) :=
  sameBucket_iff [0x61,0x62] 7 (by decide) (by decide)

/-- The one byte 0xFF: the hash is negative and so is the index. -/
theorem lookupIndex_negative : ¬ SameBucket [0xFF] 7 := by decide

end JustKit.Hash
