import JustKit.Bloom.Positions

/-! The exact answer of a filter after any sets: the residues of the key are among the residues of the keys
that were set. -/
namespace JustKit.Bloom
open Foundations Foundations.BitArray
variable {salts : Salts} {f f' : Filter} {key : Key} {keys : List Key} {size : ℕ}

/-- `jk_bloom_filter_set` for each of the keys. -/
def setAll (salts : Salts) (f : Filter) (keys : List Key) : Option Filter := keys.foldlM (bloomFilterSet salts) f

/-- The answer of a new filter after the keys are set. -/
def answer (salts : Salts) (rand : ℕ → BitVec 32) (hash : Option Hash) (size : ℤ)
    (keys : List Key) (key : Key) : Option ℤ :=
  do
  let (salts,f) ← bloomFilterInit salts rand hash size
  let f ← setAll salts f keys
  bloomFilterIsset salts f key

/-- Up to 2²⁸ bytes the position is the residue of the hash value modulo the number of bits. -/
lemma position_eq (h1 : 1 ≤ size) (h2 : size < 2^28) (hsize : f.size = 8*size) (hlen : f.bits.length = size)
    (hashval : BitVec 32) : f.position hashval = some (hashval.toNat%(8*size)) := by
  have hlt : hashval.toNat%(8*size) < 8*size := Nat.mod_lt _ (by omega)
  generalize hn : hashval.toNat%(8*size) = n at hlt
  have hmod : f.size%2^32 = 8*size := by
    rw [hsize]
    exact Int.emod_eq_of_lt (by omega) (by omega)
  have hindex : f.index hashval = some (n : ℤ) := by
    unfold Filter.index
    have hres : (hashval.toNat : ℤ)%(8*size) = n := by
      rw [← hn]
      push_cast
      rfl
    have hwrap : wrap 32 (n : ℤ) = n := wrap_of_range (w := 31) (by omega) (by omega)
    rw [hmod,if_neg (by omega),hres,hwrap]
  have hplace : f.place n = some (n/8,n%8) := place_nat (by rw [hlen]; omega)
  have hsum : 8*(n/8)+n%8 = n := Nat.div_add_mod n 8
  simp [Filter.position,hindex,hplace,hsum]

/-- A filter of `size` bytes in which exactly the positions of `keys` are set. -/
structure Holds (salts : Salts) (f : Filter) (size : ℕ) (keys : List Key) : Prop where
  bits : f.size = 8*size
  length : f.bits.length = size
  member : ∀ n, Member f.bits n ↔ ∃ k ∈ keys, ∃ j < 8, (f.hashFn salts k j).toNat%(8*size) = n

lemma bloomFilterInit_eq (salts : Salts) (rand : ℕ → BitVec 32) (hash : Option Hash) {size : ℤ}
    (h : 0 ≤ size) :
    bloomFilterInit salts rand hash size = some (if hash.isNone then initSalts rand salts else salts,
      ⟨hash,wrap 32 (size*8),List.replicate size.toNat 0#8⟩) := by
  unfold bloomFilterInit
  exact if_neg (not_lt.mpr h)

theorem init_holds (salts : Salts) (hash : Option Hash) (h2 : size < 2^28) :
    Holds salts ⟨hash,wrap 32 ((size : ℤ)*8),List.replicate (size : ℤ).toNat 0#8⟩ size [] := by
  refine ⟨?_,?_,fun n => ?_⟩
  · have hwrap : wrap 32 ((size : ℤ)*8) = (size : ℤ)*8 := wrap_of_range (w := 31) (by omega) (by omega)
    dsimp only
    rw [hwrap,mul_comm]
  · simp
  · simpa using not_member_zero size

section Sets
variable (h1 : 1 ≤ size) (h2 : size < 2^28) (h : Holds salts f size keys)
include h1 h2 h

lemma Holds.positionOf (k : Key) (i : ℕ) :
    f.positionOf salts k i = some ((f.hashFn salts k i).toNat%(8*size)) :=
  position_eq h1 h2 h.bits h.length _

/-- One more key. -/
theorem Holds.set (k : Key) : ∃ f', bloomFilterSet salts f k = some f' ∧ f'.hash = f.hash ∧
    Holds salts f' size (k::keys) := by
  have hp := h.positionOf h1 h2
  obtain ⟨f',hf'⟩ : ∃ f', bloomFilterSet salts f k = some f' := setLoop_total fun i _ => by simp [hp]
  have ha := bloomFilterSet_spec hf'
  have hsame : f'.hashFn salts = f.hashFn salts := by rw [Filter.hashFn,ha.hash,Filter.hashFn]
  refine ⟨f',hf',ha.hash,ha.size.trans h.bits,ha.length.trans h.length,fun n => ?_⟩
  rw [ha.member n,h.member n,hsame]
  simp [hp]

theorem Holds.setAll (ks : List Key) : ∃ f', setAll salts f ks = some f' ∧ f'.hash = f.hash ∧
    Holds salts f' size (ks++keys) := by
  induction ks generalizing f keys with
  | nil => exact ⟨f,rfl,rfl,h⟩
  | cons k ks ih =>
    obtain ⟨g,hg,hhash,hh⟩ := h.set h1 h2 k
    obtain ⟨f',hf',hhash',hh'⟩ := ih hh
    refine ⟨f',?_,hhash'.trans hhash,hh'.bits,hh'.length,fun n => ?_⟩
    · change (bloomFilterSet salts f k).bind (fun g => Bloom.setAll salts g ks) = some f'
      rw [hg]
      exact hf'
    · rw [hh'.member n]
      simp only [List.mem_append,List.mem_cons]
      constructor
      · rintro ⟨k',hk',hj⟩
        exact ⟨k',by tauto,hj⟩
      · rintro ⟨k',hk',hj⟩
        exact ⟨k',by tauto,hj⟩

/-- The filter answers 0 or 1, and 1 exactly if every position of the key is one of a set key. -/
theorem Holds.isset (k : Key) :
    (bloomFilterIsset salts f k = some 0 ∨ bloomFilterIsset salts f k = some 1) ∧
      (bloomFilterIsset salts f k = some 1 ↔ ∀ i < 8, ∃ k' ∈ keys, ∃ j < 8,
        (f.hashFn salts k i).toNat%(8*size) = (f.hashFn salts k' j).toNat%(8*size)) := by
  have hp := h.positionOf h1 h2
  refine ⟨issetLoop_total fun i _ => by simp [hp],?_⟩
  refine (issetLoop_iff (List.range 8)).trans ?_
  unfold Filter.Reports
  simp only [List.mem_range,hp,Option.some.injEq,exists_eq_left',h.member]
  constructor
  · intro hall i hi
    obtain ⟨k',hk',j,hj,heq⟩ := hall i hi
    exact ⟨k',hk',j,hj,heq.symm⟩
  · intro hall i hi
    obtain ⟨k',hk',j,hj,heq⟩ := hall i hi
    exact ⟨k',hk',j,hj,heq.symm⟩

end Sets

/-- The hash function of a filter that was made with `hash`. -/
def resolve (salts : Salts) (rand : ℕ → BitVec 32) (hash : Option Hash) : Hash :=
  hash.getD (defaultHash (initSalts rand salts))

lemma hashFn_resolve (salts : Salts) (rand : ℕ → BitVec 32) {f : Filter} {hash : Option Hash}
    (h : f.hash = hash) :
    f.hashFn (if hash.isNone then initSalts rand salts else salts) = resolve salts rand hash := by
  rw [Filter.hashFn,h,resolve]
  cases hash <;> rfl

lemma answer_eq (h1 : 1 ≤ size) (h2 : size < 2^28) (salts : Salts) (rand : ℕ → BitVec 32) (hash : Option Hash)
    (keys : List Key) (key : Key) :
    (answer salts rand hash size keys key = some 0 ∨ answer salts rand hash size keys key = some 1) ∧
      (answer salts rand hash size keys key = some 1 ↔ ∀ i < 8, ∃ k ∈ keys, ∃ j < 8,
        (resolve salts rand hash key i).toNat%(8*size) = (resolve salts rand hash k j).toNat%(8*size)) := by
  have hinit := bloomFilterInit_eq salts rand hash (Int.natCast_nonneg size)
  have hresolve (f : Filter) := @hashFn_resolve salts rand f hash
  generalize (if hash.isNone then initSalts rand salts else salts) = salts' at hinit hresolve
  obtain ⟨f,hset,hhash,h⟩ := (init_holds salts' hash h2).setAll h1 h2 keys
  have hanswer : answer salts rand hash size keys key = bloomFilterIsset salts' f key := by
    unfold answer
    rw [hinit]
    simp only [Option.bind_eq_bind,Option.bind_some,hset]
  have hfn : f.hashFn salts' = resolve salts rand hash := hresolve f hhash
  have hisset := h.isset h1 h2 key
  rw [hanswer]
  simpa only [List.append_nil,hfn] using hisset

/-- A filter of less than 2²⁸ bytes answers 1 exactly if every residue of the key is a residue of a key
that was set. So it reports every key that was set, whatever the order and the repetition of the sets. -/
theorem isset_exact (h1 : 1 ≤ size) (h2 : size < 2^28) (salts : Salts) (rand : ℕ → BitVec 32)
    (hash : Option Hash) (keys : List Key) (key : Key) :
    (answer salts rand hash size keys key = some 0 ∨ answer salts rand hash size keys key = some 1) ∧
      (answer salts rand hash size keys key = some 1 ↔ ∀ i < 8, ∃ k ∈ keys, ∃ j < 8,
        (resolve salts rand hash key i).toNat%(8*size) = (resolve salts rand hash k j).toNat%(8*size)) ∧
      (key ∈ keys → answer salts rand hash size keys key = some 1) ∧
      ∀ keys', (∀ k, k ∈ keys' ↔ k ∈ keys) →
        answer salts rand hash size keys' key = answer salts rand hash size keys key := by
  obtain ⟨htotal,hiff⟩ := answer_eq h1 h2 salts rand hash keys key
  refine ⟨htotal,hiff,fun hk => hiff.mpr fun i hi => ⟨key,hk,i,hi,rfl⟩,fun keys' hsame => ?_⟩
  obtain ⟨htotal',hiff'⟩ := answer_eq h1 h2 salts rand hash keys' key
  simp only [hsame] at hiff'
  have hone := hiff'.trans hiff.symm
  rcases htotal with h0 | h1'
  · rcases htotal' with h0' | h1'
    · rw [h0,h0']
    · rw [hone.mp h1',h1']
  · rw [hone.mpr h1',h1']

/-- A key hashes to its length plus the index. -/
def lengthHash : Hash := fun k i => BitVec.ofNat 32 (k.length+i)

def shortKeys : List Key := [[1,2],[3]]

/-- The answer of a filter of 17 bytes for `lengthHash`. -/
def lengthAnswer (keys : List Key) (key : Key) : Option ℤ :=
  answer (fun _ => 0) (fun _ => 0) (some lengthHash) (17 : ℕ) keys key

theorem isset_exact_length : lengthAnswer shortKeys [7,8] = some 1 ∧
    (lengthAnswer shortKeys [4,5,6] = some 0 ∨ lengthAnswer shortKeys [4,5,6] = some 1) ∧
      (lengthAnswer shortKeys [4,5,6] = some 1 ↔ ∀ i < 8, ∃ k ∈ shortKeys, ∃ j < 8,
        (lengthHash [4,5,6] i).toNat%(8*17) = (lengthHash k j).toNat%(8*17)) ∧
      ([4,5,6] ∈ shortKeys → lengthAnswer shortKeys [4,5,6] = some 1) ∧
      ∀ keys', (∀ k, k ∈ keys' ↔ k ∈ shortKeys) →
      lengthAnswer keys' [4,5,6] = lengthAnswer shortKeys [4,5,6] :=
  ⟨by decide +kernel,
    isset_exact (by decide : 1 ≤ 17) (by decide) (fun _ => 0) (fun _ => 0) (some lengthHash) shortKeys [4,5,6]⟩

end JustKit.Bloom
