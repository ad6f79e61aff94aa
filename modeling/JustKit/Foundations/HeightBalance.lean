import JustKit.Foundations.HeightTree

/-! The AVL condition on height-labelled trees, its version for trees with a hole, and the
theorem that rebalancing restores it when the subtree in the hole changed height by at most one. -/
namespace Foundations.HTree
variable {α : Type*}

/-- Stored heights are right and the two subtrees of every node differ by at most one. -/
def Valid : HTree α → Prop
  | nil => True
  | node l _ h r => Settled l h r ∧ Valid l ∧ Valid r

/-- A path is valid for a hole of height `H`. -/
def ValidPath : List (Frame α) → ℕ → Prop
  | [],_ => True
  | .left _ h r::fs,H => (H ≤ r.stored+1 ∧ r.stored ≤ H+1 ∧ max H r.stored+1 = h) ∧ Valid r ∧
      ValidPath fs h
  | .right l _ h::fs,H => (l.stored ≤ H+1 ∧ H ≤ l.stored+1 ∧ max l.stored H+1 = h) ∧ Valid l ∧
      ValidPath fs h

@[simp] theorem valid_nil : Valid (nil : HTree α) := trivial
@[simp] theorem valid_node (l : HTree α) (a : α) (h : ℕ) (r : HTree α) :
    Valid (node l a h r) ↔ Settled l h r ∧ Valid l ∧ Valid r := Iff.rfl

theorem valid_plug (fs : List (Frame α)) (t : HTree α) :
    Valid (plug fs t) ↔ ValidPath fs t.stored ∧ Valid t := by
  induction fs generalizing t with
  | nil => simp [ValidPath]
  | cons f fs ih =>
    rw [plug_cons,ih]
    cases f with
    | left a h r => simp only [Frame.fill,valid_node,ValidPath,stored_node,Settled]; tauto
    | right l a h => simp only [Frame.fill,valid_node,ValidPath,stored_node,Settled]; tauto

lemma Valid.stored_pos {l r : HTree α} {a : α} {h : ℕ} (hv : Valid (node l a h r)) : 0 < h := by
  have hs := hv.1.2.2
  omega

/-- A right rotation repairs a node whose left subtree is exactly two higher. -/
lemma rotateRight_valid {l r : HTree α} (a : α) (h : ℕ) (hl : Valid l) (hr : Valid r)
    (hd : l.stored = r.stored+2) :
    Valid (rotateRight l a h r) ∧
      (rotateRight l a h r).stored ≤ r.stored+3 ∧ r.stored+2 ≤ (rotateRight l a h r).stored := by
  obtain ⟨ll,b,k,lr,rfl⟩ := eq_nil_of_stored_pos (t := l) (by omega)
  obtain ⟨⟨h1,h2,h3⟩,hll,hlr⟩ := hl
  simp only [stored_node] at hd
  by_cases hc : lr.stored ≤ ll.stored
  · simp only [rotateRight,hc,ite_true,valid_node,Settled,stored_node]
    exact ⟨⟨⟨by omega,by omega,by omega⟩,hll,⟨by omega,by omega,by omega⟩,hlr,hr⟩,by omega,by omega⟩
  · obtain ⟨lrl,c,m,lrr,rfl⟩ := eq_nil_of_stored_pos (t := lr) (by omega)
    obtain ⟨⟨g1,g2,g3⟩,hlrl,hlrr⟩ := hlr
    simp only [stored_node] at h1 h2 h3 hc
    simp only [rotateRight,stored_node,hc,ite_false,valid_node,Settled]
    exact ⟨⟨⟨by omega,by omega,by omega⟩,⟨⟨by omega,by omega,by omega⟩,hll,hlrl⟩,
      ⟨by omega,by omega,by omega⟩,hlrr,hr⟩,by omega,by omega⟩

lemma rotateLeft_valid {l r : HTree α} (a : α) (h : ℕ) (hl : Valid l) (hr : Valid r)
    (hd : r.stored = l.stored+2) :
    Valid (rotateLeft l a h r) ∧
      (rotateLeft l a h r).stored ≤ l.stored+3 ∧ l.stored+2 ≤ (rotateLeft l a h r).stored := by
  obtain ⟨rl,b,k,rr,rfl⟩ := eq_nil_of_stored_pos (t := r) (by omega)
  obtain ⟨⟨h1,h2,h3⟩,hrl,hrr⟩ := hr
  simp only [stored_node] at hd
  by_cases hc : rl.stored ≤ rr.stored
  · simp only [rotateLeft,hc,ite_true,valid_node,Settled,stored_node]
    exact ⟨⟨⟨by omega,by omega,by omega⟩,⟨⟨by omega,by omega,by omega⟩,hl,hrl⟩,hrr⟩,
      by omega,by omega⟩
  · obtain ⟨rll,c,m,rlr,rfl⟩ := eq_nil_of_stored_pos (t := rl) (by omega)
    obtain ⟨⟨g1,g2,g3⟩,hrll,hrlr⟩ := hrl
    simp only [stored_node] at h1 h2 h3 hc
    simp only [rotateLeft,stored_node,hc,ite_false,valid_node,Settled]
    exact ⟨⟨⟨by omega,by omega,by omega⟩,⟨⟨by omega,by omega,by omega⟩,hl,hrll⟩,
      ⟨by omega,by omega,by omega⟩,hrlr,hrr⟩,by omega,by omega⟩

/-- A visit to a node whose subtrees differ by at most two makes it valid, and the height moves
by at most one from the value that was stored while the tree was valid. -/
lemma fix_valid {l r : HTree α} (a : α) (h : ℕ) (hl : Valid l) (hr : Valid r)
    (hlr : l.stored ≤ r.stored+2) (hrl : r.stored ≤ l.stored+2) :
    Valid (fix l a h r) ∧
      (fix l a h r).stored ≤ max l.stored r.stored+1 ∧ max l.stored r.stored ≤ (fix l a h r).stored ∧
      (l.stored ≤ r.stored+1 → r.stored ≤ l.stored+1 → (fix l a h r).stored = max l.stored r.stored+1) := by
  unfold fix
  split_ifs with h1 h2
  · obtain ⟨hv,hu,hw⟩ := rotateRight_valid a h hl hr (by omega)
    exact ⟨hv,by omega,by omega,fun _ _ => by omega⟩
  · obtain ⟨hv,hu,hw⟩ := rotateLeft_valid a h hl hr (by omega)
    exact ⟨hv,by omega,by omega,fun _ _ => by omega⟩
  · exact ⟨⟨⟨by omega,by omega,rfl⟩,hl,hr⟩,by simp,by simp,fun _ _ => rfl⟩

/-- Every stored height is at most `B`. -/
def Below (B : ℕ) : HTree α → Prop
  | nil => True
  | node l _ h r => h ≤ B ∧ Below B l ∧ Below B r

def BelowPath (B : ℕ) : List (Frame α) → Prop
  | [] => True
  | .left _ h r::fs => h ≤ B ∧ Below B r ∧ BelowPath B fs
  | .right l _ h::fs => h ≤ B ∧ Below B l ∧ BelowPath B fs

theorem below_plug (B : ℕ) (fs : List (Frame α)) (t : HTree α) :
    Below B (plug fs t) ↔ BelowPath B fs ∧ Below B t := by
  induction fs generalizing t with
  | nil => simp [BelowPath]
  | cons f fs ih =>
    rw [plug_cons,ih]
    cases f with
    | left a h r => simp only [Frame.fill,Below,BelowPath]; tauto
    | right l a h => simp only [Frame.fill,Below,BelowPath]; tauto

lemma Below.mono {B C : ℕ} (hBC : B ≤ C) {t : HTree α} (ht : Below B t) : Below C t := by
  induction t with
  | nil => trivial
  | node l a h r hl hr =>
    obtain ⟨h1,h2,h3⟩ := ht
    exact ⟨h1.trans hBC,hl h2,hr h3⟩

/-- No height in a valid tree exceeds the one at its root. -/
lemma Valid.below {t : HTree α} (hv : Valid t) : Below t.stored t := by
  induction t with
  | nil => trivial
  | node l a h r hl hr =>
    obtain ⟨⟨h1,h2,h3⟩,hvl,hvr⟩ := hv
    refine ⟨le_rfl,(hl hvl).mono ?_,(hr hvr).mono ?_⟩
    · simp only [stored_node]; omega
    · simp only [stored_node]; omega

lemma BelowPath.mono {B C : ℕ} (hBC : B ≤ C) {fs : List (Frame α)} (hfs : BelowPath B fs) :
    BelowPath C fs := by
  have hplug := ((below_plug B fs nil).mpr ⟨hfs,trivial⟩).mono hBC
  exact ((below_plug C fs nil).mp hplug).1

/-- What rebalancing starts from: the tree was valid and at most `B` high when the hole of `fs` had
some height from which that of `t` differs by at most one. -/
structure OffByOne (B : ℕ) (fs : List (Frame α)) (t : HTree α) : Prop where
  path : ∃ H ≤ B, ValidPath fs H ∧ H ≤ t.stored+1 ∧ t.stored ≤ H+1
  below : BelowPath B fs
  valid : Valid t

/-- A subtree of a valid tree may be replaced by one that is at most one higher or lower. -/
theorem OffByOne.of_valid {B : ℕ} {fs : List (Frame α)} {t u : HTree α} (hv : Valid (plug fs t))
    (hB : (plug fs t).stored ≤ B) (hu : Valid u) (hle : t.stored ≤ u.stored+1)
    (hge : u.stored ≤ t.stored+1) : OffByOne B fs u := by
  obtain ⟨hfs,_⟩ := (valid_plug fs t).mp hv
  obtain ⟨hbelow,ht⟩ := (below_plug B fs t).mp (hv.below.mono hB)
  refine ⟨⟨t.stored,?_,hfs,hle,hge⟩,hbelow,hu⟩
  cases t with
  | nil => exact Nat.zero_le B
  | node l a h r => exact ht.1

theorem OffByOne.plug_below {B : ℕ} {fs : List (Frame α)} {t : HTree α} (h : OffByOne B fs t) :
    Below (B+1) (plug fs t) := by
  obtain ⟨H,hH,_,_,hge⟩ := h.path
  exact (below_plug _ fs t).mpr ⟨h.below.mono (Nat.le_succ B),h.valid.below.mono (by omega)⟩

/-- One visit carries the condition to the next node of the path. -/
theorem OffByOne.visit {B : ℕ} {f : Frame α} {fs : List (Frame α)} {t l r : HTree α} {a : α} {h : ℕ}
    (hf : f.fill t = node l a h r) (ho : OffByOne B (f::fs) t) :
    OffByOne B fs (if Settled l h r then node l a h r else fix l a h r) := by
  obtain ⟨⟨H,hH,hpath,hle,hge⟩,hbelow,ht⟩ := ho
  cases f with
  | left b k q =>
    cases hf
    obtain ⟨⟨h1,h2,h3⟩,hr,hfs⟩ := hpath
    obtain ⟨hk,_,hb⟩ := hbelow
    split_ifs with hs
    · exact ⟨⟨h,hk,hfs,by simp,by simp⟩,hb,⟨hs,ht,hr⟩⟩
    · obtain ⟨hv,hu,hw,he⟩ := fix_valid a h ht hr (by omega) (by omega)
      exact ⟨⟨h,hk,hfs,by omega,by omega⟩,hb,hv⟩
  | right q b k =>
    cases hf
    obtain ⟨⟨h1,h2,h3⟩,hl,hfs⟩ := hpath
    obtain ⟨hk,_,hb⟩ := hbelow
    split_ifs with hs
    · exact ⟨⟨h,hk,hfs,by simp,by simp⟩,hb,⟨hs,hl,ht⟩⟩
    · obtain ⟨hv,hu,hw,he⟩ := fix_valid a h hl ht (by omega) (by omega)
      exact ⟨⟨h,hk,hfs,by omega,by omega⟩,hb,hv⟩

/-- Rebalancing restores validity when the hole changed height by at most one. -/
theorem OffByOne.rebalance_valid {B : ℕ} {fs : List (Frame α)} {t : HTree α} (h : OffByOne B fs t) :
    Valid (rebalance fs t) := by
  induction fs generalizing t with
  | nil => exact h.valid
  | cons f fs ih =>
    rw [rebalance]
    cases ht : f.fill t with
    | nil => cases f <;> simp [Frame.fill] at ht
    | node l a k r =>
      have hnext := h.visit ht
      dsimp only
      split_ifs with hs
      · rw [if_pos hs] at hnext
        obtain ⟨⟨H,_,hpath,_,_⟩,_,hv⟩ := h
        refine (valid_plug fs _).mpr ⟨?_,hnext.valid⟩
        cases f with
        | left b m q => cases ht; exact hpath.2.2
        | right q b m => cases ht; exact hpath.2.2
      · rw [if_neg hs] at hnext
        exact ih hnext

/-- A path of a valid tree is no longer than the tree is high. -/
theorem ValidPath.length_le (fs : List (Frame α)) (t : HTree α) (hp : ValidPath fs t.stored) :
    fs.length+t.stored ≤ (plug fs t).stored := by
  induction fs generalizing t with
  | nil => simp
  | cons f fs ih =>
    cases f with
    | left a h r =>
      obtain ⟨⟨h1,h2,h3⟩,hr,hfs⟩ := hp
      have hi := ih (node t a h r) (by simpa using hfs)
      simp only [List.length_cons,plug_cons,Frame.fill,stored_node] at hi ⊢
      omega
    | right l a h =>
      obtain ⟨⟨h1,h2,h3⟩,hl,hfs⟩ := hp
      have hi := ih (node l a h t) (by simpa using hfs)
      simp only [List.length_cons,plug_cons,Frame.fill,stored_node] at hi ⊢
      omega

/-- The least number of nodes of a valid tree of a given height is a Fibonacci number less one. -/
theorem Valid.fib_le {t : HTree α} (hv : Valid t) : Nat.fib (t.stored+2) ≤ t.toList.length+1 := by
  induction t with
  | nil => simp
  | node l a h r hl hr =>
    obtain ⟨⟨h1,h2,h3⟩,hvl,hvr⟩ := hv
    have hl' := hl hvl
    have hr' := hr hvr
    simp only [stored_node,toList_node,List.length_append,List.length_cons]
    have hfib : Nat.fib (h+2) = Nat.fib h+Nat.fib (h+1) := Nat.fib_add_two
    have hmono : ∀ m n, m ≤ n → Nat.fib m ≤ Nat.fib n := fun _ _ hmn => Nat.fib_mono hmn
    rcases Nat.le_total l.stored r.stored with hc | hc
    · have e1 := hmono (h+1) (r.stored+2) (by omega)
      have e2 := hmono h (l.stored+2) (by omega)
      omega
    · have e1 := hmono (h+1) (l.stored+2) (by omega)
      have e2 := hmono h (r.stored+2) (by omega)
      omega

/-- Fewer than `fib (n+3) - 1` nodes keep the height at `n`. -/
theorem Valid.stored_le {t : HTree α} (hv : Valid t) {n : ℕ} (hn : t.toList.length+1 < Nat.fib (n+3)) :
    t.stored ≤ n := by
  by_contra hc
  have hf := hv.fib_le
  have hm : Nat.fib (n+3) ≤ Nat.fib (t.stored+2) := Nat.fib_mono (by omega)
  omega

lemma two_pow_le_fib (k : ℕ) : 2^k ≤ Nat.fib (2*k+2) := by
  induction k with
  | zero => exact le_rfl
  | succ k ih =>
    have hfib : Nat.fib (2*(k+1)+2) = Nat.fib (2*k+2)+Nat.fib (2*k+2+1) := Nat.fib_add_two
    have hmono : Nat.fib (2*k+2) ≤ Nat.fib (2*k+2+1) := Nat.fib_mono (Nat.le_succ _)
    rw [pow_succ]
    omega

/-- The height is logarithmic in the number of nodes. -/
theorem Valid.stored_le_log {t : HTree α} (hv : Valid t) : t.stored ≤ 2*Nat.log 2 (t.toList.length+1)+1 := by
  have hpow := two_pow_le_fib (t.stored/2)
  have hmono : Nat.fib (2*(t.stored/2)+2) ≤ Nat.fib (t.stored+2) := Nat.fib_mono (by omega)
  have hlog : t.stored/2 ≤ Nat.log 2 (t.toList.length+1) :=
    Nat.le_log_of_pow_le one_lt_two (hpow.trans (hmono.trans hv.fib_le))
  omega

end Foundations.HTree
