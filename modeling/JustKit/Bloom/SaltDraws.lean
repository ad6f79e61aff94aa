import JustKit.Bloom.Model

/-! `jk_bloom_filter_init_salts` loop by loop. The inner loop looks for a salt that has been drawn before, but its
`continue` only goes on with the inner loop. -/
namespace JustKit.Bloom

/-- The inner loop from `j` on, with the value of `j` at its end. -/
def saltScan (salts : Salts) (salt : BitVec 32) (i : ℕ) : ℕ → ℕ → Option ℕ
  | 0,_ => none
  | fuel+1,j =>
    if j < i then
      -- `continue` and the end of the body lead to the same place
      if salts j = salt then saltScan salts salt i fuel (j+1) else saltScan salts salt i fuel (j+1)
    else some j

/-- The outer loop from `i` on, after so many draws. -/
def saltLoop (rand : ℕ → BitVec 32) : ℕ → ℕ → ℕ → Salts → Option Salts
  | 0,_,_,_ => none
  | fuel+1,draws,i,salts =>
    if i < 8 then do
      let salt := rand draws ^^^ rand (draws+1)
      let _ ← saltScan salts salt i (i+1) 0
      saltLoop rand fuel (draws+2) (i+1) (Function.update salts i salt)
    else some salts

/-- What the outer loop draws for index `i`. -/
def drawn (rand : ℕ → BitVec 32) (i : ℕ) : BitVec 32 := rand (2*i) ^^^ rand (2*i+1)

lemma saltScan_eq (salts : Salts) (salt : BitVec 32) {i j fuel : ℕ} (hj : j ≤ i) (hfuel : i < fuel+j) :
    saltScan salts salt i fuel j = some i := by
  induction fuel generalizing j with
  | zero => omega
  | succ fuel ih =>
    unfold saltScan
    by_cases hlt : j < i
    · rw [if_pos hlt,ite_self]
      exact ih hlt (by omega)
    · rw [if_neg hlt]
      exact congrArg some (by omega)

/-- A pass of the outer loop. -/
lemma saltLoop_succ (rand : ℕ → BitVec 32) {i : ℕ} (hi : i < 8) (fuel : ℕ) (salts : Salts) :
    saltLoop rand (fuel+1) (2*i) i salts = saltLoop rand fuel (2*(i+1)) (i+1) (saltStep rand salts i) := by
  rw [saltLoop,if_pos hi]
  dsimp only
  rw [saltScan_eq _ _ (Nat.zero_le i) (Nat.lt_succ_self i)]
  rfl

lemma saltLoop_eq (rand : ℕ → BitVec 32) {k fuel : ℕ} (hk : k ≤ 8) (hfuel : k < fuel) (salts : Salts) :
    saltLoop rand fuel (2*(8-k)) (8-k) salts = some ((List.range' (8-k) k).foldl (saltStep rand) salts) := by
  induction k generalizing fuel salts with
  | zero =>
    obtain ⟨fuel,rfl⟩ := Nat.exists_eq_succ_of_ne_zero (Nat.ne_of_gt hfuel)
    rfl
  | succ k ih =>
    obtain ⟨fuel,rfl⟩ := Nat.exists_eq_succ_of_ne_zero (Nat.ne_of_gt (Nat.zero_lt_of_lt hfuel))
    have hnext : 8-(k+1)+1 = 8-k := by omega
    rw [saltLoop_succ rand (by omega),List.range'_succ,hnext]
    exact ih (by omega) (by omega) _

/-- The loops end, and draw as `initSalts` does. -/
theorem saltLoop_initSalts (rand : ℕ → BitVec 32) (salts : Salts) {fuel : ℕ} (hfuel : 8 < fuel) :
    saltLoop rand fuel 0 0 salts = some (initSalts rand salts) := by
  rw [initSalts,List.range_eq_range']
  exact saltLoop_eq rand le_rfl hfuel salts

lemma saltSteps_apply (rand : ℕ → BitVec 32) (salts : Salts) (n : ℕ) :
    (List.range n).foldl (saltStep rand) salts = fun i => if i < n then drawn rand i else salts i := by
  induction n with
  | zero => rfl
  | succ n ih =>
    rw [List.range_succ,List.foldl_append,ih]
    funext i
    change Function.update (fun i => if i < n then drawn rand i else salts i) n (drawn rand n) i = _
    rcases eq_or_ne i n with rfl | hi
    · rw [Function.update_self,if_pos (Nat.lt_succ_self i)]
    · rw [Function.update_of_ne hi]
      refine if_congr ?_ rfl rfl
      omega

/-- Whatever is drawn, the loops end, and the salts are different exactly if the first eight draws are: the scan
for equal salts has no effect. -/
theorem salts_distinct_iff (rand : ℕ → BitVec 32) (salts : Salts) :
    ∃ salts', (∀ fuel, 8 < fuel → saltLoop rand fuel 0 0 salts = some salts') ∧
      ((∀ i < 8, ∀ j < 8, i ≠ j → salts' i ≠ salts' j) ↔
        ∀ i < 8, ∀ j < 8, i ≠ j → drawn rand i ≠ drawn rand j) := by
  refine ⟨initSalts rand salts,fun fuel hfuel => saltLoop_initSalts rand salts hfuel,?_⟩
  have hdrawn (i : ℕ) (hi : i < 8) : initSalts rand salts i = drawn rand i := by
    unfold initSalts
    rw [saltSteps_apply]
    exact if_pos hi
  refine forall₂_congr fun i hi => forall₂_congr fun j hj => ?_
  rw [hdrawn i hi,hdrawn j hj]

/-- A source of one value: the loops end with eight equal salts, and the default hash is the same for all indices. -/
theorem salts_equal : ∃ salts', saltLoop (fun _ => 0) 9 0 0 (fun _ => 1) = some salts' ∧ salts' 0 = salts' 1 ∧
    defaultHash salts' [7] 0 = defaultHash salts' [7] 1 :=
  ⟨_,saltLoop_initSalts _ _ (by decide),by decide,by decide⟩

end JustKit.Bloom
