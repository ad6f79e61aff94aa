import JustKit.Skip.Refinement

/-! The level that `jk_skip_random_level` draws. It goes on as long as `random` returns values whose low 16 bits are
below a quarter of 0xFFFF, and nothing keeps it within the 32 slots of `update` and of the header. -/
namespace JustKit.Skip
open Foundations
variable {δ : Type}

/-- `(random() & 0xFFFF) < (0.25 * 0xFFFF)`, in integers. -/
def goesOn (r : ℕ) : Bool := 4*(r &&& 0xFFFF) < 0xFFFF

/-- The loop of `jk_skip_random_level` from `level` on; `random` are the values that the function of this name
returns from then on. The first argument bounds the number of passes. -/
def levelLoop : ℕ → (ℕ → ℕ) → ℕ → Option ℕ
  | 0,_,_ => none
  | fuel+1,random,level =>
    if goesOn (random 0) then levelLoop fuel (fun k => random (k+1)) (level+1) else some level

/-- `jk_skip_random_level`. -/
def skipRandomLevel (fuel : ℕ) (random : ℕ → ℕ) : Option ℕ := levelLoop fuel random 1

/-- The loop returns as soon as a value does not let it go on. -/
lemma levelLoop_eq_some {fuel : ℕ} {random : ℕ → ℕ} {level level' : ℕ} :
    levelLoop fuel random level = some level' ↔
      ∃ n < fuel, level' = level+n ∧ (∀ k < n, goesOn (random k) = true) ∧ goesOn (random n) = false := by
  induction fuel generalizing random level with
  | zero => simp [levelLoop]
  | succ fuel ih =>
    rw [levelLoop]
    cases hgo : goesOn (random 0) with
    | true =>
      rw [if_pos rfl,ih]
      constructor
      · intro ⟨n,hn,hlevel,hall,hstop⟩
        refine ⟨n+1,by omega,by omega,?_,hstop⟩
        intro k hk
        cases k with
        | zero => exact hgo
        | succ k => exact hall k (by omega)
      · intro ⟨n,hn,hlevel,hall,hstop⟩
        cases n with
        | zero => simp [hgo] at hstop
        | succ n => exact ⟨n,by omega,by omega,fun k hk => hall (k+1) (by omega),hstop⟩
    | false =>
      simp only [Bool.false_eq_true,if_false,Option.some.injEq]
      constructor
      · intro hlevel
        exact ⟨0,by omega,by omega,by simp,hgo⟩
      · intro ⟨n,_,hlevel,hall,_⟩
        cases n with
        | zero => exact hlevel.symm
        | succ n => simp [hall 0 (by omega)] at hgo

/-- The level is within bounds exactly if one of the first 32 values ends the loop. -/
theorem skipRandomLevel_le_iff {random : ℕ → ℕ} :
    (∃ fuel level, skipRandomLevel fuel random = some level ∧ level ≤ skipMaxLevel) ↔
      ∃ k < skipMaxLevel, goesOn (random k) = false := by
  constructor
  · intro ⟨fuel,level,hdraw,hle⟩
    obtain ⟨n,_,hlevel,_,hstop⟩ := levelLoop_eq_some.mp hdraw
    exact ⟨n,by omega,hstop⟩
  · intro hex
    have hspec := Nat.find_spec hex
    refine ⟨_,1+Nat.find hex,levelLoop_eq_some.mpr ⟨Nat.find hex,Nat.lt_succ_self _,rfl,?_,hspec.2⟩,by omega⟩
    intro k hk
    have hmin := Nat.find_min hex hk
    rw [not_and,Bool.not_eq_false] at hmin
    exact hmin (hk.trans hspec.1)

lemma skipRandomLevel_pos {fuel : ℕ} {random : ℕ → ℕ} {level : ℕ}
    (h : skipRandomLevel fuel random = some level) :
    1 ≤ level := by
  obtain ⟨n,_,hlevel,_⟩ := levelLoop_eq_some.mp h
  omega

lemma goesOn_eq_false {r : ℕ} : goesOn r = false ↔ 2^14 ≤ r % 2^16 := by
  have hmask : r &&& 0xFFFF = r % 2^16 := Nat.and_two_pow_sub_one_eq_mod r 16
  rw [goesOn,hmask]
  simp only [decide_eq_false_iff_not]
  omega

/-- With a level within bounds the insertion stays in `update` and in the forward pointers of the header. -/
lemma Refines.insert_isSome {list : SkipList δ} {m : Multimap UInt64 δ} (h : Refines list m) {fuel : ℕ}
    (hfuel : m.length ≤ fuel) {key : UInt64} {value : δ} {level : ℕ} {alloc : Option Addr}
    (ha : (Op.insert key value level alloc).allowed list = true) :
    (skipInsert fuel list key value level alloc).isSome = true := by
  obtain ⟨list',hexec,_⟩ := h.insert hfuel ha
  obtain ⟨r,hinsert,_⟩ := Option.map_eq_some_iff.mp hexec
  rw [hinsert]
  rfl

/-- For every list that calls lead to: an insertion draws a level from 1 to 32, and stays within the 32 slots, if and
only if one of the first 32 values that `random` returns during it has 2^14 or more in its low 16 bits. -/
theorem skip_level_bound_iff (header : Addr) (null : δ) (fuel : ℕ) (ops : List (Op δ))
    (hfuel : ops.length ≤ fuel) (ha : allowedRun fuel (skipNew header null) ops = true) :
    ∃ list rs, run fuel (skipNew header null) ops = some (list,rs) ∧
      ∀ (key : UInt64) (value : δ) (random : ℕ → ℕ) (alloc : Option Addr),
        (alloc.all fun a => 0 < a && a < 2^64 && (list.mem a).isNone) = true →
        ((∃ draws level, skipRandomLevel draws random = some level ∧ 1 ≤ level ∧ level ≤ skipMaxLevel ∧
            (skipInsert fuel list key value level alloc).isSome) ↔
          ∃ k < skipMaxLevel, 2^14 ≤ random k % 2^16) := by
  obtain ⟨list,hrun,h,hlen⟩ := run_new hfuel ha
  refine ⟨list,_,hrun,?_⟩
  intro key value random alloc halloc
  simp only [← goesOn_eq_false]
  rw [← skipRandomLevel_le_iff]
  constructor
  · intro ⟨draws,level,hdraw,_,hle,_⟩
    exact ⟨draws,level,hdraw,hle⟩
  · intro ⟨draws,level,hdraw,hle⟩
    have hpos := skipRandomLevel_pos hdraw
    refine ⟨draws,level,hdraw,hpos,hle,h.insert_isSome hlen ?_⟩
    simp only [Op.allowed,Bool.and_eq_true,decide_eq_true_eq]
    exact ⟨⟨hpos,hle⟩,by simpa using halloc⟩

theorem skip_level_bound_iff_hidden : ∃ list rs, run 9 (skipNew 0 0) hiddenRun = some (list,rs) ∧
    ∀ (key : UInt64) (value : ℕ) (random : ℕ → ℕ) (alloc : Option Addr),
      (alloc.all fun a => 0 < a && a < 2^64 && (list.mem a).isNone) = true →
      ((∃ draws level, skipRandomLevel draws random = some level ∧ 1 ≤ level ∧ level ≤ skipMaxLevel ∧
          (skipInsert 9 list key value level alloc).isSome) ↔
        ∃ k < skipMaxLevel, 2^14 ≤ random k % 2^16) :=
  skip_level_bound_iff 0 0 9 hiddenRun (by simp [hiddenRun]) (by decide +kernel)

/-- After 32 small values the level is 33, and the insertion into an empty list writes behind `update`. -/
theorem skip_level_unbounded : skipRandomLevel 33 (fun k => if k < 32 then 0 else 65535) = some 33 ∧
    skipInsert 0 (skipNew 9 0) 5 10 33 (some 1) = none ∧
    ∀ fuel, skipRandomLevel fuel (fun _ => 0) = none := by
  refine ⟨by decide +kernel,by decide +kernel,?_⟩
  intro fuel
  cases h : skipRandomLevel fuel fun _ => 0 with
  | none => rfl
  | some level =>
    obtain ⟨_,_,_,_,hstop⟩ := levelLoop_eq_some.mp h
    exact absurd hstop (by decide)

end JustKit.Skip
