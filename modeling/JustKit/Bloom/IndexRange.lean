import JustKit.Bloom.Answers

/-! Buffers of any size: `filter->size` is the number of bits modulo 2³², and an index from 2³¹ on is negative
as an `int`. -/
namespace JustKit.Bloom
open Foundations
variable {salts : Salts} {f f' : Filter} {key : Key} {keys : List Key} {size : ℕ}

/-- What hash values are divided by. -/
def divisor (size : ℕ) : ℕ := 8*size%2^32

/-- The index of the key does not fail for any of the eight hash values. -/
def InRange (hash : Hash) (size : ℕ) (key : Key) : Prop :=
  divisor size ≠ 0 ∧ ∀ i < 8, (hash key i).toNat%divisor size < 2^31

/-- A filter on a buffer of `size` bytes. -/
structure Sized (f : Filter) (size : ℕ) : Prop where
  bits : f.size = wrap 32 ((size : ℤ)*8)
  length : f.bits.length = size

/-- The filter is initialised, some keys are set, and then another one is set and looked up: no call divides by
zero, shifts by a negative number or leaves the buffer. -/
def Safe (salts : Salts) (rand : ℕ → BitVec 32) (hash : Option Hash) (size : ℕ) (keys : List Key)
    (key : Key) : Prop :=
  ∃ salts' f f', bloomFilterInit salts rand hash size = some (salts',f) ∧ setAll salts' f keys = some f' ∧
    bloomFilterSet salts' f' key ≠ none ∧ bloomFilterIsset salts' f' key ≠ none

/-! ### One index -/

lemma wrap_of_large {x : ℤ} (hl : 2^31 ≤ x) (hu : x < 2^32) : wrap 32 x = x-2^32 := by
  have hshift : wrap 32 x = wrap 32 (x-2^32) := by
    unfold wrap
    exact (Int.sub_bmod_right x (2^32)).symm
  rw [hshift]
  exact wrap_of_range (w := 31) (by omega) (by omega)

lemma place_neg {index : ℤ} (h : index < 0) : f.place index = none := by
  apply if_neg
  rintro ⟨hdiv,_,hmod⟩
  have := Int.mul_tdiv_add_tmod index 8
  omega

section Sized
variable (h : Sized f size)
include h

lemma Sized.index (hashval : BitVec 32) : f.index hashval =
    if divisor size = 0 then none else some (wrap 32 ((hashval.toNat%divisor size : ℕ) : ℤ)) := by
  have hsize : f.size%2^32 = (divisor size : ℤ) := by
    rw [h.bits,divisor,wrap]
    push_cast
    rw [mul_comm]
    exact Int.bmod_emod
  unfold Filter.index
  rw [hsize]
  simp only [Nat.cast_eq_zero]
  split
  · rfl
  · rw [Int.natCast_mod]

lemma Sized.position_iff (hashval : BitVec 32) :
    f.position hashval ≠ none ↔ divisor size ≠ 0 ∧ hashval.toNat%divisor size < 2^31 := by
  have hle : divisor size < 2^32 := Nat.mod_lt _ (by decide)
  have hbits : divisor size ≤ 8*size := Nat.mod_le _ _
  unfold Filter.position
  rw [h.index]
  by_cases hzero : divisor size = 0
  · simp [hzero]
  · have hlt := Nat.mod_lt hashval.toNat (Nat.pos_of_ne_zero hzero)
    generalize hashval.toNat%divisor size = n at hlt
    rw [if_neg hzero]
    by_cases hn : n < 2^31
    · have hwrap : wrap 32 (n : ℤ) = n := wrap_of_range (w := 31) (by omega) (by omega)
      have hplace : f.place n = some (n/8,n%8) := place_nat (by rw [h.length]; omega)
      refine iff_of_true ?_ ⟨hzero,hn⟩
      rw [hwrap]
      simp [hplace]
    · have hwrap : wrap 32 (n : ℤ) = n-2^32 := wrap_of_large (by omega) (by omega)
      have hplace : f.place ((n : ℤ)-2^32) = none := place_neg (by omega)
      refine iff_of_false (not_not.mpr ?_) fun hc => hn hc.2
      rw [hwrap]
      change (f.place ((n : ℤ)-2^32)).bind _ = none
      rw [hplace]
      rfl

lemma Sized.positions_iff : (∀ i ∈ List.range 8, f.positionOf salts key i ≠ none) ↔
    InRange (f.hashFn salts) size key := by
  unfold InRange Filter.positionOf
  simp only [h.position_iff,List.mem_range]
  exact ⟨fun hall => ⟨(hall 0 (by decide)).1,fun i hi => (hall i hi).2⟩,fun hall i hi =>
    ⟨hall.1,hall.2 i hi⟩⟩

/-! ### Calls -/

lemma Sized.set_iff : bloomFilterSet salts f key ≠ none ↔ InRange (f.hashFn salts) size key := by
  rw [← h.positions_iff]
  constructor
  · intro hset
    obtain ⟨f',hf'⟩ := Option.ne_none_iff_exists'.mp hset
    exact (bloomFilterSet_spec hf').position
  · intro hall
    obtain ⟨f',hf'⟩ := setLoop_total hall
    exact Option.ne_none_iff_exists'.mpr ⟨f',hf'⟩

lemma Sized.isset (hkey : InRange (f.hashFn salts) size key) : bloomFilterIsset salts f key ≠ none := by
  rcases issetLoop_total (h.positions_iff.mpr hkey) with h0 | h1
  · exact Option.ne_none_iff_exists'.mpr ⟨0,h0⟩
  · exact Option.ne_none_iff_exists'.mpr ⟨1,h1⟩

lemma Sized.set (hset : bloomFilterSet salts f key = some f') : Sized f' size ∧ f'.hash = f.hash := by
  have ha := bloomFilterSet_spec hset
  exact ⟨⟨ha.size.trans h.bits,ha.length.trans h.length⟩,ha.hash⟩

theorem Sized.setAll_iff : setAll salts f keys ≠ none ↔ ∀ k ∈ keys, InRange (f.hashFn salts) size k := by
  induction keys generalizing f with
  | nil => simp [setAll]
  | cons k ks ih =>
    rw [List.forall_mem_cons,← h.set_iff]
    change (bloomFilterSet salts f k).bind (fun g => setAll salts g ks) ≠ none ↔ _
    cases hset : bloomFilterSet salts f k with
    | none => simp
    | some g =>
      obtain ⟨hg,hhash⟩ := h.set hset
      have hfn : g.hashFn salts = f.hashFn salts := by rw [Filter.hashFn,hhash,Filter.hashFn]
      rw [Option.bind_some,ih hg,hfn]
      simp

lemma Sized.setAll (hset : Bloom.setAll salts f keys = some f') : Sized f' size ∧ f'.hash = f.hash := by
  induction keys generalizing f with
  | nil =>
    obtain rfl := Option.some.inj hset
    exact ⟨h,rfl⟩
  | cons k ks ih =>
    obtain ⟨g,hg,hrest⟩ := Option.bind_eq_some_iff.mp hset
    obtain ⟨hsized,hhash⟩ := h.set hg
    obtain ⟨hsized',hhash'⟩ := ih hsized hrest
    exact ⟨hsized',hhash'.trans hhash⟩

end Sized

/-- For one hash function: all calls stay within the buffer exactly if all keys have their indices in range. -/
lemma safe_iff (salts : Salts) (rand : ℕ → BitVec 32) (hash : Option Hash) (size : ℕ)
    (keys : List Key) (key : Key) :
    Safe salts rand hash size keys key ↔ ∀ k ∈ key::keys, InRange (resolve salts rand hash) size k := by
  have hinit := bloomFilterInit_eq salts rand hash (Int.natCast_nonneg size)
  have hresolve :=
    @hashFn_resolve salts rand ⟨hash,wrap 32 ((size : ℤ)*8),List.replicate (size : ℤ).toNat 0#8⟩ hash rfl
  generalize (if hash.isNone then initSalts rand salts else salts) = salts' at hinit hresolve
  generalize hf : (⟨hash,wrap 32 ((size : ℤ)*8),List.replicate (size : ℤ).toNat 0#8⟩ : Filter) =
    f at hinit hresolve
  have hsized : Sized f size := by
    rw [← hf]
    refine ⟨?_,List.length_replicate⟩
    dsimp only
  have hkeys : setAll salts' f keys ≠ none ↔ _ := hsized.setAll_iff
  rw [List.forall_mem_cons,← hresolve,← hkeys]
  constructor
  · rintro ⟨_,_,f',hi,hall,hset,_⟩
    obtain ⟨rfl,rfl⟩ := Prod.mk.inj (Option.some.inj (hinit.symm.trans hi))
    obtain ⟨hsized',hhash⟩ := hsized.setAll hall
    have hset' := hsized'.set_iff.mp hset
    rw [Filter.hashFn,hhash] at hset'
    exact ⟨hset',Option.ne_none_iff_exists'.mpr ⟨f',hall⟩⟩
  · rintro ⟨hkey,hall⟩
    obtain ⟨f',hf'⟩ := Option.ne_none_iff_exists'.mp hall
    obtain ⟨hsized',hhash⟩ := hsized.setAll hf'
    have hkey' : InRange (f'.hashFn salts') size key := by
      rw [Filter.hashFn,hhash]
      exact hkey
    exact ⟨salts',f,f',hinit,hf',hsized'.set_iff.mpr hkey',hsized'.isset hkey'⟩

/-- The least residue of 2³¹ and more is there exactly if the divisor is at most 2³¹. -/
lemma inRange_all_iff (size : ℕ) : (∀ hash key, InRange hash size key) ↔ 0 < size%2^29 ∧
    size%2^29 ≤ 2^28 := by
  have hdivisor : divisor size = 8*(size%2^29) := by
    unfold divisor
    omega
  unfold InRange
  rw [hdivisor]
  constructor
  · intro hall
    obtain ⟨hzero,hlt⟩ := hall (fun _ _ => 2^31) []
    have hlt0 := hlt 0 (by decide)
    refine ⟨by omega,?_⟩
    by_contra hlarge
    rw [Nat.mod_eq_of_lt] at hlt0
    · exact absurd hlt0 (by decide)
    · change 2^31 < _
      omega
  · rintro ⟨hpos,hle⟩ hash key
    refine ⟨by omega,fun i _ => ?_⟩
    have := Nat.mod_lt (hash key i).toNat (show 0 < 8*(size%2^29) by omega)
    omega

/-- The calls on a filter of `size` bytes are safe for a hash function exactly if the divisor is not zero and
the remainders of the hash values are below 2³¹; and so they are for every hash function exactly if `size` modulo
2²⁹ is from 1 to 2²⁸. -/
theorem bloom_safe_iff (size : ℕ) :
    (∀ salts rand hash keys key, Safe salts rand hash size keys key ↔
      ∀ k ∈ key::keys, InRange (resolve salts rand hash) size k) ∧
    ((∀ salts rand hash keys key, Safe salts rand hash size keys key) ↔ 0 < size%2^29 ∧
    size%2^29 ≤ 2^28) := by
  refine ⟨fun salts rand hash keys key => safe_iff salts rand hash size keys key,?_⟩
  rw [← inRange_all_iff]
  constructor
  · intro hall hash key
    exact (safe_iff 0 0 (some hash) size [] key).mp (hall 0 0 (some hash) [] key) key List.mem_cons_self
  · intro hall salts rand hash keys key
    exact (safe_iff salts rand hash size keys key).mpr fun k _ => hall _ k

/-- With 2²⁹ bytes the number of bits is 2³² and `filter->size` is zero; with one byte more than 2²⁸ the
hash value 2³¹ is an index of its own, and negative. -/
theorem bloom_unsafe_sizes : ¬Safe 0 0 (some fun _ _ => 0) (2^29) [] [] ∧
    ¬Safe 0 0 (some fun _ _ => 2^31) (2^28+1) [] [] := by
  rw [safe_iff,safe_iff]
  constructor
  · intro hall
    exact (hall [] List.mem_cons_self).1 (by decide)
  · intro hall
    exact absurd ((hall [] List.mem_cons_self).2 0 (by decide)) (by decide)

end JustKit.Bloom
