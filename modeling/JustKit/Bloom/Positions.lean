import JustKit.Bloom.Model
import JustKit.Foundations.BitArray

/-! The positions of a key in the bit array of a filter: `jk_bloom_filter_set` adds them, and
`jk_bloom_filter_isset` looks them up. -/
namespace JustKit.Bloom
open Foundations Foundations.BitArray
variable {salts : Salts} {f f' : Filter} {key : Key}

/-! ### Characters -/

lemma signExtend_bit (c : BitVec 8) {bit : ℕ} (h : bit < 8) : (c.signExtend 32).getLsbD bit = c.getLsbD bit := by
  have hb : bit < 32 := by omega
  simp only [BitVec.getLsbD_signExtend,h,hb,decide_true,Bool.true_and,if_true]

lemma orBit_eq (c : BitVec 8) {bit : ℕ} (h : bit < 8) : orBit c bit = c ||| BitVec.twoPow 8 bit := by
  unfold orBit
  rw [← BitVec.twoPow_eq]
  apply BitVec.eq_of_getLsbD_eq
  intro i hi
  have hb : bit < 32 := by omega
  simp only [BitVec.getLsbD_setWidth,BitVec.getLsbD_or,signExtend_bit c hi,BitVec.getLsbD_twoPow,hi,h,hb,decide_true,
    Bool.true_and]

lemma andBit_iff (c : BitVec 8) {bit : ℕ} (h : bit < 8) : andBit c bit = true ↔ c.getLsbD bit = true := by
  unfold andBit
  rw [← BitVec.twoPow_eq,decide_eq_true_eq,BitVec.and_twoPow,signExtend_bit c h]
  have hb : bit < 32 := by omega
  have hpos : BitVec.twoPow 32 bit ≠ 0#32 := by
    intro e
    have hbit := congrArg (fun x : BitVec 32 => x.getLsbD bit) e
    simp only [BitVec.getLsbD_twoPow,hb,decide_true,Bool.true_and,BitVec.getLsbD_zero] at hbit
    cases hbit
  cases c.getLsbD bit with
  | false => simp
  | true => simpa using hpos

/-! ### Positions -/

/-- The bit that a hash value stands for. -/
def Filter.position (f : Filter) (hashval : BitVec 32) : Option ℕ := do
  let index ← f.index hashval
  let (byte,bit) ← f.place index
  return 8*byte+bit

/-- The bit of index `i`. -/
def Filter.positionOf (salts : Salts) (f : Filter) (key : Key) (i : ℕ) : Option ℕ :=
  f.position (f.hashFn salts key i)

lemma place_range {index : ℤ} {byte bit : ℕ} (h : f.place index = some (byte,bit)) :
    bit < 8 ∧ byte < f.bits.length := by
  obtain ⟨⟨hb,hlen,hm⟩,heq⟩ := Option.ite_none_right_eq_some.mp h
  cases heq
  have hlt := Int.tmod_lt_of_pos index (show (0 : ℤ) < 8 by decide)
  omega

lemma place_nat {n : ℕ} (h : n/8 < f.bits.length) : f.place n = some (n/8,n%8) := by
  have hdiv : (n : ℤ).tdiv 8 = (n/8 : ℕ) := (Int.ofNat_tdiv n 8).symm
  have hrem : (n : ℤ).tmod 8 = (n%8 : ℕ) := (Int.ofNat_tmod n 8).symm
  unfold Filter.place
  rw [hdiv,hrem,if_pos ⟨by omega,by omega,by omega⟩]
  rfl

lemma position_cases {hashval : BitVec 32} {n : ℕ} (h : f.position hashval = some n) :
    ∃ index, f.index hashval = some index ∧ f.place index = some (n/8,n%8) ∧ n/8 < f.bits.length := by
  obtain ⟨index,hi,h⟩ := Option.bind_eq_some_iff.mp h
  obtain ⟨⟨byte,bit⟩,hp,h⟩ := Option.bind_eq_some_iff.mp h
  obtain rfl := Option.some.inj h
  obtain ⟨hbit,hbyte⟩ := place_range hp
  have hdiv : (8*byte+bit)/8 = byte := by omega
  have hmod : (8*byte+bit)%8 = bit := by omega
  exact ⟨index,hi,by rw [hdiv,hmod]; exact hp,by omega⟩

lemma position_eq_none {hashval : BitVec 32} (h : f.position hashval = none) :
    f.index hashval = none ∨ ∃ index, f.index hashval = some index ∧ f.place index = none := by
  cases hi : f.index hashval with
  | none => exact Or.inl rfl
  | some index =>
    refine Or.inr ⟨index,rfl,?_⟩
    cases hp : f.place index with
    | none => rfl
    | some p => simp [Filter.position,hi,hp] at h

/-- Positions depend on the size and on the number of bytes only. -/
lemma position_congr (hsize : f'.size = f.size) (hlen : f'.bits.length = f.bits.length) (hashval : BitVec 32) :
    f'.position hashval = f.position hashval := by
  unfold Filter.position Filter.index Filter.place
  rw [hsize,hlen]

/-! ### Set -/

lemma setStep_eq (salts : Salts) (key : Key) (f : Filter) (i : ℕ) :
    setStep salts key f i = (f.positionOf salts key i).map fun n => { f with bits := mark f.bits n } := by
  unfold Filter.positionOf
  cases h : f.position (f.hashFn salts key i) with
  | none =>
    rcases position_eq_none h with hi | ⟨index,hi,hp⟩
    · simp [setStep,hi]
    · simp [setStep,hi,hp]
  | some n =>
    obtain ⟨index,hi,hp,_⟩ := position_cases h
    have hor : (fun c => orBit c (n%8)) = fun c => c ||| BitVec.twoPow 8 (n%8) :=
      funext fun c => orBit_eq c (Nat.mod_lt n (by decide))
    simp [setStep,hi,hp,mark,hor]

/-- The filter after a set: the positions of the key are added. -/
structure Added (salts : Salts) (key : Key) (is : List ℕ) (f f' : Filter) : Prop where
  hash : f'.hash = f.hash
  size : f'.size = f.size
  length : f'.bits.length = f.bits.length
  position : ∀ i ∈ is, f.positionOf salts key i ≠ none
  member : ∀ n, Member f'.bits n ↔ (∃ i ∈ is, f.positionOf salts key i = some n) ∨ Member f.bits n

lemma positionOf_congr (hhash : f'.hash = f.hash) (hsize : f'.size = f.size) (hlen : f'.bits.length = f.bits.length)
    (i : ℕ) : f'.positionOf salts key i = f.positionOf salts key i := by
  unfold Filter.positionOf Filter.hashFn
  rw [hhash,position_congr hsize hlen]

lemma mark_positionOf (f : Filter) (n i : ℕ) :
    Filter.positionOf salts { f with bits := mark f.bits n } key i = f.positionOf salts key i := by
  apply positionOf_congr
  · rfl
  · rfl
  · exact length_mark

theorem setLoop_spec {is : List ℕ} (h : is.foldlM (setStep salts key) f = some f') : Added salts key is f f' := by
  induction is generalizing f with
  | nil =>
    obtain rfl := Option.some.inj h
    exact ⟨rfl,rfl,rfl,by simp,by simp⟩
  | cons i is ih =>
    rw [List.foldlM_cons,setStep_eq] at h
    obtain ⟨g,hg,hrest⟩ := Option.bind_eq_some_iff.mp h
    obtain ⟨n,hn,rfl⟩ := Option.map_eq_some_iff.mp hg
    have ha := ih hrest
    obtain ⟨_,_,_,hbyte⟩ := position_cases hn
    refine ⟨ha.hash,ha.size,ha.length.trans length_mark,?_,?_⟩
    · intro j hj
      rcases List.mem_cons.mp hj with rfl | hj
      · simp [hn]
      · rw [← mark_positionOf f n j]
        exact ha.position j hj
    · intro m
      rw [ha.member m]
      change _ ∨ Member (mark f.bits n) m ↔ _
      rw [member_mark hbyte (by decide)]
      simp only [mark_positionOf,List.mem_cons,exists_eq_or_imp,hn,Option.some.injEq,eq_comm (a := m)]
      exact or_left_comm.trans or_assoc.symm

theorem bloomFilterSet_spec (h : bloomFilterSet salts f key = some f') : Added salts key (List.range 8) f f' :=
  setLoop_spec h

/-- A set fails only where a position does. -/
theorem setLoop_total {is : List ℕ} (h : ∀ i ∈ is, f.positionOf salts key i ≠ none) :
    ∃ f', is.foldlM (setStep salts key) f = some f' := by
  induction is generalizing f with
  | nil => exact ⟨f,rfl⟩
  | cons i is ih =>
    obtain ⟨n,hn⟩ := Option.ne_none_iff_exists'.mp (h i List.mem_cons_self)
    rw [List.foldlM_cons,setStep_eq,hn]
    apply ih
    intro j hj
    rw [mark_positionOf]
    exact h j (List.mem_cons_of_mem _ hj)

/-! ### Isset -/

/-- The positions of the key that are looked up are all set. -/
def Filter.Reports (salts : Salts) (f : Filter) (key : Key) (is : List ℕ) : Prop :=
  ∀ i ∈ is, ∃ n, f.positionOf salts key i = some n ∧ Member f.bits n

theorem issetLoop_iff (is : List ℕ) : issetLoop salts f key is = some 1 ↔ f.Reports salts key is := by
  induction is with
  | nil => simp [issetLoop,Filter.Reports]
  | cons i is ih =>
    unfold Filter.Reports at ih ⊢
    rw [List.forall_mem_cons,← ih]
    unfold Filter.positionOf
    cases h : f.position (f.hashFn salts key i) with
    | none =>
      rcases position_eq_none h with hi | ⟨index,hi,hp⟩
      · simp [issetLoop,hi]
      · simp [issetLoop,hi,hp]
    | some n =>
      obtain ⟨index,hi,hp,hlen⟩ := position_cases h
      obtain ⟨c,hc⟩ : ∃ c, f.bits[n/8]? = some c := ⟨_,List.getElem?_eq_getElem hlen⟩
      have hbit := andBit_iff c (Nat.mod_lt n (show 0 < 8 by decide))
      have hmember : Member f.bits n ↔ andBit c (n%8) = true := by simp [Member,hc,hbit]
      by_cases hb : andBit c (n%8) = true
      · simp [issetLoop,hi,hp,hc,hb,hmember]
      · simp [issetLoop,hi,hp,hc,hb,hmember]

/-- An answer is there as soon as all positions are. -/
theorem issetLoop_total {is : List ℕ} (h : ∀ i ∈ is, f.positionOf salts key i ≠ none) :
    issetLoop salts f key is = some 0 ∨ issetLoop salts f key is = some 1 := by
  induction is with
  | nil => exact Or.inr rfl
  | cons i is ih =>
    obtain ⟨n,hn⟩ := Option.ne_none_iff_exists'.mp (h i List.mem_cons_self)
    obtain ⟨index,hi,hp,hlen⟩ := position_cases hn
    obtain ⟨c,hc⟩ : ∃ c, f.bits[n/8]? = some c := ⟨_,List.getElem?_eq_getElem hlen⟩
    have hrest := ih fun j hj => h j (List.mem_cons_of_mem _ hj)
    by_cases hb : andBit c (n%8) = true
    · simpa [issetLoop,hi,hp,hc,hb] using hrest
    · exact Or.inl (by simp [issetLoop,hi,hp,hc,hb])

end JustKit.Bloom
