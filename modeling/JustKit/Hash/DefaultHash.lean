import JustKit.Hash.Model

/-! The value of the default hash. Its low 28 bits are folded byte by byte; what a byte carries out of
the low 32 bits stays in the `long` while the next seven bytes are added. -/
namespace JustKit.Hash
open Foundations

/-- The byte as a signed `char`. -/
def signedChar (c : UInt8) : ℤ := c.toBitVec.toInt

/-- The fold of bits 28 to 31 of a 32-bit value into its low bits. -/
def foldBits (x : ℕ) : ℕ := (x % 2^28) ^^^ (x/2^28*16)

/-- The low 28 bits after one more byte. -/
def lowStep (l : ℕ) (c : UInt8) : ℕ := foldBits ((16*(l : ℤ)+signedChar c) % 2^32).toNat

/-- What one more byte carries out of the low 32 bits, or borrows. -/
def carryStep (l : ℕ) (c : UInt8) : ℤ := (16*(l : ℤ)+signedChar c)/2^32

/-- The low 28 bits and the carries, the latest first, after the bytes of a key. -/
def scan (key : Key) : ℕ × List ℤ :=
  key.foldl (fun p c => (lowStep p.1 c,carryStep p.1 c::p.2)) (0,[])

/-- The low 28 bits of the hash. -/
def low (key : Key) : ℕ := (scan key).1

/-- The carries of the last eight bytes, the latest first. Earlier ones have left the `long`. -/
def lastCarries (key : Key) : List ℤ := (scan key).2.take 8

/-- Carries as digits of base 16, the first one of weight one. -/
def carryValue (ds : List ℤ) : ℤ := ds.foldr (fun d s => d+16*s) 0

/-- The part of the hash above the low 32 bits. -/
def high (key : Key) : ℤ := carryValue (lastCarries key)

lemma signedChar_range (c : UInt8) : -128 ≤ signedChar c ∧ signedChar c < 128 := by
  have h1 := BitVec.le_toInt c.toBitVec
  have h2 := BitVec.toInt_lt (x := c.toBitVec)
  exact ⟨h1,h2⟩

lemma foldBits_lt {x : ℕ} (h : x < 2^32) : foldBits x < 2^28 := by
  apply Nat.xor_lt_two_pow
  · exact Nat.mod_lt _ (by norm_num)
  · omega

lemma testBit_of_lt {x k : ℕ} (h : x < 2^k) {j : ℕ} (hj : k ≤ j) : x.testBit j = false :=
  Nat.testBit_lt_two_pow (lt_of_lt_of_le h (Nat.pow_le_pow_right (by norm_num) hj))

/-- The mask selects bits 28 to 31. -/
theorem mask_nat {a n r : ℕ} (hn : n < 2^4) (hr : r < 2^28) :
    (2^32*a+(2^28*n+r)) &&& 0xF0000000 = 2^28*n := by
  have hmask : 0xF0000000 = 2^28*(2^4-1) := by norm_num
  apply Nat.eq_of_testBit_eq
  intro i
  rw [hmask,Nat.testBit_and,Nat.testBit_two_pow_mul_add _ (by omega),Nat.testBit_two_pow_mul_add _ hr,
    Nat.testBit_two_pow_mul,Nat.testBit_two_pow_mul,Nat.testBit_two_pow_sub_one]
  by_cases h28 : i < 28
  · simp [show i < 32 by omega,show ¬ 28 ≤ i by omega]
  · by_cases h32 : i < 32
    · simp [h28,h32,show 28 ≤ i by omega,show i-28 < 4 by omega]
    · simp [h32,show 28 ≤ i by omega,show ¬ i-28 < 4 by omega,testBit_of_lt hn (show 4 ≤ i-28 by omega)]

/-- The fold on the whole `long` leaves everything above the low 32 bits. -/
theorem fold_nat {a n r : ℕ} (hn : n < 2^4) (hr : r < 2^28) :
    ((2^32*a+(2^28*n+r)) ^^^ (2^4*n)) ^^^ (2^28*n) = 2^32*a+(r ^^^ (2^4*n)) := by
  have hrn : r ^^^ (2^4*n) < 2^28 := Nat.xor_lt_two_pow hr (by omega)
  apply Nat.eq_of_testBit_eq
  intro i
  rw [Nat.testBit_xor,Nat.testBit_xor,Nat.testBit_two_pow_mul_add _ (by omega),Nat.testBit_two_pow_mul_add _ hr,
    Nat.testBit_two_pow_mul_add _ (by omega),Nat.testBit_xor,Nat.testBit_two_pow_mul,Nat.testBit_two_pow_mul]
  by_cases h28 : i < 28
  · simp [h28,show i < 32 by omega,show ¬ 28 ≤ i by omega]
  · by_cases h32 : i < 32
    · simp [h28,h32,show 4 ≤ i by omega,show 28 ≤ i by omega,testBit_of_lt hr (show 28 ≤ i by omega),
        testBit_of_lt hn (show 4 ≤ i-4 by omega)]
    · simp [h32,show 4 ≤ i by omega,show 28 ≤ i by omega,testBit_of_lt hn (show 4 ≤ i-4 by omega),
        testBit_of_lt hn (show 4 ≤ i-28 by omega)]

/-- The fold of `jk_hash_default_hash`. -/
def foldLong (h : BitVec 64) : BitVec 64 :=
  if h &&& 0xF0000000#64 = 0#64 then h
  else (h ^^^ ((h &&& 0xF0000000#64) >>> 24)) ^^^ (h &&& 0xF0000000#64)

theorem foldLong_toInt (h : BitVec 64) :
    (foldLong h).toInt = 2^32*(h.toInt/2^32)+foldBits (h.toInt % 2^32).toNat := by
  obtain ⟨a,n,r,hn,hr,hN⟩ : ∃ a n r, n < 2^4 ∧ r < 2^28 ∧ h.toNat = 2^32*a+(2^28*n+r) :=
    ⟨h.toNat/2^32,h.toNat/2^28 % 2^4,h.toNat % 2^28,by omega,by omega,by omega⟩
  have hg : (h &&& 0xF0000000#64).toNat = 2^28*n := by
    rw [BitVec.toNat_and,hN]
    exact mask_nat hn hr
  have hfold : (foldLong h).toNat = 2^32*a+(r ^^^ (2^4*n)) := by
    by_cases h0 : h &&& 0xF0000000#64 = 0#64
    · have hn0 : n = 0 := by
        rw [h0] at hg
        simpa using hg.symm
      rw [foldLong,if_pos h0,hN,hn0]
      simp
    · rw [foldLong,if_neg h0,BitVec.toNat_xor,BitVec.toNat_xor,BitVec.toNat_ushiftRight,hg,hN,← fold_nat hn hr,
        Nat.shiftRight_eq_div_pow,show 2^28*n/2^24 = 2^4*n by omega]
  have hrn : r ^^^ (2^4*n) < 2^28 := Nat.xor_lt_two_pow hr (by omega)
  have hlt := h.isLt
  have hmod : (h.toInt % 2^32).toNat = 2^28*n+r := by
    rw [BitVec.toInt_eq_toNat_cond,hN]
    split_ifs <;> omega
  have hbits : foldBits (2^28*n+r) = r ^^^ (2^4*n) := by
    rw [foldBits,show (2^28*n+r) % 2^28 = r by omega,show (2^28*n+r)/2^28*16 = 2^4*n by omega]
  rw [hmod,hbits,BitVec.toInt_eq_toNat_cond,BitVec.toInt_eq_toNat_cond,hfold,hN]
  rw [hN] at hlt
  split_ifs <;> omega

theorem shiftAdd_toInt (h : BitVec 64) (c : UInt8) :
    ((h <<< 4)+c.toBitVec.signExtend 64).toInt = (16*h.toInt+signedChar c).bmod (2^64) := by
  rw [BitVec.toInt_add,BitVec.shiftLeft_eq_mul_twoPow,BitVec.toInt_mul,
    BitVec.toInt_signExtend_of_le (by norm_num),Int.bmod_add_bmod,
    show (BitVec.twoPow 64 4).toInt = 16 by decide,mul_comm]
  rfl

/-! ### The accumulated carries -/

lemma scan_concat (key : Key) (c : UInt8) :
    scan (key++[c]) = (lowStep (low key) c,carryStep (low key) c::(scan key).2) := by
  rw [scan,List.foldl_concat]
  rfl

lemma low_lt (key : Key) : low key < 2^28 := by
  induction key using List.reverseRecOn with
  | nil => decide
  | append_singleton key c _ =>
    rw [low,scan_concat]
    apply foldBits_lt
    have h1 := Int.emod_nonneg (16*(low key : ℤ)+signedChar c) (show (2^32 : ℤ) ≠ 0 by norm_num)
    have h2 := Int.emod_lt_of_pos (16*(low key : ℤ)+signedChar c) (show (0 : ℤ) < 2^32 by norm_num)
    omega

/-- A byte carries one, borrows one, or neither. -/
lemma carry_range (key : Key) : ∀ d ∈ (scan key).2, -1 ≤ d ∧ d ≤ 1 := by
  induction key using List.reverseRecOn with
  | nil => simp [scan]
  | append_singleton key c ih =>
    intro d hd
    rw [scan_concat] at hd
    rcases List.mem_cons.mp hd with rfl | hd
    · have h1 := low_lt key
      have h2 := signedChar_range c
      simp only [carryStep]
      omega
    · exact ih d hd

lemma carryValue_bound (ds : List ℤ) (h : ∀ d ∈ ds, -1 ≤ d ∧ d ≤ 1) :
    -16^ds.length < 15*carryValue ds ∧ 15*carryValue ds < 16^ds.length := by
  induction ds with
  | nil => simp [carryValue]
  | cons d ds ih =>
    have hd := h d List.mem_cons_self
    have hds := ih fun e he => h e (List.mem_cons_of_mem _ he)
    have hcons : carryValue (d::ds) = d+16*carryValue ds := rfl
    rw [hcons,List.length_cons,pow_succ]
    omega

/-- The first of eight carries that leaves with the next byte weighs 16^7. -/
lemma carryValue_take (ds : List ℤ) (n : ℕ) :
    ∃ e, carryValue (ds.take (n+1)) = carryValue (ds.take n)+16^n*e := by
  induction n generalizing ds with
  | zero => exact ⟨carryValue (ds.take 1),by simp [carryValue]⟩
  | succ n ih =>
    cases ds with
    | nil => exact ⟨0,by simp [carryValue]⟩
    | cons d ds =>
      obtain ⟨e,he⟩ := ih ds
      refine ⟨e,?_⟩
      have hcons : ∀ k, carryValue ((d::ds).take (k+1)) = d+16*carryValue (ds.take k) := fun _ => rfl
      rw [hcons,hcons,he]
      ring

lemma high_range (key : Key) : -286331153 ≤ high key ∧ high key ≤ 286331153 := by
  have hb := carryValue_bound (lastCarries key) fun d hd => carry_range key d (List.mem_of_mem_take hd)
  have hlen : (lastCarries key).length ≤ 8 := by simp [lastCarries]
  have hpow : (16 : ℤ)^(lastCarries key).length ≤ 16^8 := pow_le_pow_right₀ (by norm_num) hlen
  rw [high]
  omega

/-- The default hash consists of its low 28 bits and, above the low 32 bits, of the carries of the
last eight bytes. -/
theorem defaultHash_eq (key : Key) : defaultHash key = 2^32*high key+low key := by
  induction key using List.reverseRecOn with
  | nil => decide
  | append_singleton key c ih =>
    have hl := low_lt key
    have hH := high_range (key++[c])
    obtain ⟨e,he⟩ := carryValue_take (scan key).2 7
    have hold : high key = carryValue ((scan key).2.take 7)+16^7*e := he
    have hnew : high (key++[c]) = carryStep (low key) c+16*carryValue ((scan key).2.take 7) := by
      rw [high,lastCarries,scan_concat]
      rfl
    let h := key.foldl defaultHashStep 0#64
    have hstep : defaultHash (key++[c]) = (foldLong ((h <<< 4)+c.toBitVec.signExtend 64)).toInt := by
      rw [defaultHash,List.foldl_concat]
      rfl
    have hsum : (16*h.toInt+signedChar c).bmod (2^64) =
        2^32*high (key++[c])+(16*(low key : ℤ)+signedChar c) % 2^32 := by
      have hx : 16*h.toInt+signedChar c =
          2^32*high (key++[c])+(16*(low key : ℤ)+signedChar c) % 2^32+((2^64 : ℕ) : ℤ)*e := by
        have hh : h.toInt = 2^32*high key+low key := ih
        rw [hh,hold,hnew,carryStep]
        push_cast
        omega
      rw [hx,Int.add_mul_bmod_self_left]
      apply Int.bmod_eq_of_le
      · push_cast; omega
      · push_cast; omega
    rw [hstep,foldLong_toInt,shiftAdd_toInt,hsum]
    have hlow : low (key++[c]) = foldBits ((16*(low key : ℤ)+signedChar c) % 2^32).toNat := by
      rw [low,scan_concat]
      rfl
    rw [hlow,show (2^32*high (key++[c])+(16*(low key : ℤ)+signedChar c) % 2^32)/2^32 = high (key++[c]) by omega,
      show (2^32*high (key++[c])+(16*(low key : ℤ)+signedChar c) % 2^32) % 2^32 =
        (16*(low key : ℤ)+signedChar c) % 2^32 by omega]

end JustKit.Hash
