import Mathlib

/-! Sets of numbers as bits packed in words of `w` bits. -/
namespace Foundations.BitArray
variable {w : ℕ} {words : List (BitVec w)} {n m : ℕ}

/-- Bit `n` is set. -/
def Member (words : List (BitVec w)) (n : ℕ) : Prop := ∃ c, words[n/w]? = some c ∧ c.getLsbD (n%w) = true

/-- Set bit `n`. -/
def mark (words : List (BitVec w)) (n : ℕ) : List (BitVec w) :=
  words.modify (n/w) fun c => c ||| BitVec.twoPow w (n%w)

theorem not_member_zero (k : ℕ) : ¬ Member (List.replicate k (0#w)) n := by
  rintro ⟨c,hc,hbit⟩
  have hzero := List.eq_of_mem_replicate (List.mem_of_getElem? hc)
  simp [hzero] at hbit

@[simp] theorem length_mark : (mark words n).length = words.length := List.length_modify _ _ _

theorem member_mark (hn : n/w < words.length) (hw : 0 < w) : Member (mark words n) m ↔ m = n ∨
    Member words m := by
  obtain ⟨c,hc⟩ : ∃ c, words[n/w]? = some c := ⟨_,List.getElem?_eq_getElem hn⟩
  have hbit : n%w < w := Nat.mod_lt n hw
  have hsame : m = n ↔ m/w = n/w ∧ m%w = n%w := by
    constructor
    · rintro rfl
      exact ⟨rfl,rfl⟩
    · rintro ⟨hd,hm⟩
      rw [← Nat.div_add_mod m w,hd,hm,Nat.div_add_mod]
  unfold Member mark
  rw [List.getElem?_modify,hsame]
  by_cases hd : n/w = m/w
  · rw [← hd,hc]
    simp only [if_true,Option.map_eq_map,Option.map_some,Option.some.injEq,true_and,exists_eq_left',
      BitVec.getLsbD_or,BitVec.getLsbD_twoPow,hbit,decide_true,Bool.true_and,Bool.or_eq_true,decide_eq_true_eq]
    tauto
  · simp [hd,Ne.symm hd]

end Foundations.BitArray
