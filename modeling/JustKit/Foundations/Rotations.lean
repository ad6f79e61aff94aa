import JustKit.Foundations.SearchPath

/-! How often rebalancing rotates. A subtree that has grown by one leans to one side, so that the first rotation
above it takes the growth back, and the walk ends at the next node. -/
namespace Foundations.HTree
variable {α : Type*}

/-- The subtrees differ by more than one, and the visit rotates. -/
def Lopsided (l r : HTree α) : Prop := r.stored+1 < l.stored ∨ l.stored+1 < r.stored

instance (l r : HTree α) : Decidable (Lopsided l r) := inferInstanceAs (Decidable (_ ∨ _))

/-- The rotations of `rebalance`. -/
def rotations : List (Frame α) → HTree α → ℕ
  | [],_ => 0
  | f::fs,t =>
    match f.fill t with
    | nil => 0
    | node l a h r => if Settled l h r then 0 else (if Lopsided l r then 1 else 0)+rotations fs (fix l a h r)

/-- A leaf, or a node whose subtrees are not of one height. -/
def Leaning : HTree α → Prop
  | nil => False
  | node l _ h r => h = 1 ∨ l.stored ≠ r.stored

/-- The tree was valid when the hole was one lower than `t` is. -/
structure Grown (fs : List (Frame α)) (t : HTree α) : Prop where
  path : ∃ H, t.stored = H+1 ∧ ValidPath fs H
  valid : Valid t
  leaning : Leaning t

/-- Where the height is the old one nothing is left to do. -/
lemma rotations_of_validPath {fs : List (Frame α)} {t : HTree α} (h : ValidPath fs t.stored) :
    rotations fs t = 0 := by
  cases fs with
  | nil => rfl
  | cons f fs =>
    cases f with
    | left a k r =>
      have hsettled : Settled t k r := h.1
      simp [rotations,Frame.fill,hsettled]
    | right l a k =>
      have hsettled : Settled l k t := h.1
      simp [rotations,Frame.fill,hsettled]

/-- The rotation of a leaning subtree takes its growth back. -/
lemma rotateRight_stored {l r : HTree α} (a : α) (h : ℕ) (hl : Valid l) (hlean : Leaning l)
    (hd : l.stored = r.stored+2) : (rotateRight l a h r).stored = r.stored+2 := by
  obtain ⟨ll,b,k,lr,rfl⟩ := eq_nil_of_stored_pos (t := l) (by omega)
  obtain ⟨h1,h2,h3⟩ := hl.1
  simp only [stored_node] at hd
  have hne : ll.stored ≠ lr.stored := hlean.resolve_left (by omega)
  by_cases hc : lr.stored ≤ ll.stored
  · simp only [rotateRight,hc,ite_true,stored_node]
    omega
  · obtain ⟨lrl,c,m,lrr,rfl⟩ := eq_nil_of_stored_pos (t := lr) (by omega)
    simp only [stored_node] at hc
    simp only [rotateRight,stored_node,hc,ite_false]
    omega

lemma rotateLeft_stored {l r : HTree α} (a : α) (h : ℕ) (hr : Valid r) (hlean : Leaning r)
    (hd : r.stored = l.stored+2) : (rotateLeft l a h r).stored = l.stored+2 := by
  obtain ⟨rl,b,k,rr,rfl⟩ := eq_nil_of_stored_pos (t := r) (by omega)
  obtain ⟨h1,h2,h3⟩ := hr.1
  simp only [stored_node] at hd
  have hne : rl.stored ≠ rr.stored := hlean.resolve_left (by omega)
  by_cases hc : rl.stored ≤ rr.stored
  · simp only [rotateLeft,hc,ite_true,stored_node]
    omega
  · obtain ⟨rll,c,m,rlr,rfl⟩ := eq_nil_of_stored_pos (t := rl) (by omega)
    simp only [stored_node] at hc
    simp only [rotateLeft,stored_node,hc,ite_false]
    omega

/-- A visit rotates and hands on the old height, or hands on the growth without a rotation. -/
lemma Grown.visit {f : Frame α} {fs : List (Frame α)} {t l r : HTree α} {a : α} {h : ℕ} (hg : Grown (f::fs) t)
    (hf : f.fill t = node l a h r) (hs : ¬Settled l h r) :
    (Lopsided l r ∧ ValidPath fs (fix l a h r).stored) ∨ (¬Lopsided l r ∧ Grown fs (fix l a h r)) := by
  obtain ⟨⟨H,ht,hpath⟩,hv,hlean⟩ := hg
  cases f with
  | left b k q =>
    cases hf
    obtain ⟨⟨h1,h2,h3⟩,hq,hfs⟩ := hpath
    by_cases hrot : r.stored+1 < t.stored
    · left
      have hstored := rotateRight_stored a h hv hlean (r := r) (by omega)
      have hfix : fix t a h r = rotateRight t a h r := if_pos hrot
      have heq : r.stored+2 = h := by omega
      refine ⟨Or.inl hrot,?_⟩
      rwa [hfix,hstored,heq]
    · right
      have hnot : ¬Lopsided t r := fun hl => hl.elim hrot fun hl => by omega
      have hfix : fix t a h r = node t a (max t.stored r.stored+1) r := by
        rw [fix,if_neg hrot,if_neg fun hl => hnot (Or.inr hl)]
      have hup : max t.stored r.stored+1 = h+1 := by
        unfold Settled at hs
        omega
      rw [hfix,hup]
      refine ⟨hnot,⟨h,rfl,hfs⟩,⟨⟨by omega,by omega,hup⟩,hv,hq⟩,Or.inr ?_⟩
      omega
  | right q b k =>
    cases hf
    obtain ⟨⟨h1,h2,h3⟩,hq,hfs⟩ := hpath
    by_cases hrot : l.stored+1 < t.stored
    · left
      have hstored := rotateLeft_stored a h hv hlean (l := l) (by omega)
      have hfix : fix l a h t = rotateLeft l a h t := by rw [fix,if_neg (by omega),if_pos hrot]
      have heq : l.stored+2 = h := by omega
      refine ⟨Or.inr hrot,?_⟩
      rwa [hfix,hstored,heq]
    · right
      have hnot : ¬Lopsided l t := fun hl => hl.elim (fun hl => by omega) hrot
      have hfix : fix l a h t = node l a (max l.stored t.stored+1) t := by
        rw [fix,if_neg fun hl => hnot (Or.inl hl),if_neg hrot]
      have hup : max l.stored t.stored+1 = h+1 := by
        unfold Settled at hs
        omega
      rw [hfix,hup]
      refine ⟨hnot,⟨h,rfl,hfs⟩,⟨⟨by omega,by omega,hup⟩,hq,hv⟩,Or.inr ?_⟩
      omega

theorem Grown.rotations_le_one {fs : List (Frame α)} {t : HTree α} (h : Grown fs t) : rotations fs t ≤ 1 := by
  induction fs generalizing t with
  | nil => exact Nat.zero_le 1
  | cons f fs ih =>
    rw [rotations]
    cases hf : f.fill t with
    | nil => cases f <;> simp [Frame.fill] at hf
    | node l a k r =>
      dsimp only
      split_ifs with hs hl
      · exact Nat.zero_le 1
      · rcases h.visit hf hs with ⟨_,hpath⟩ | ⟨hnot,_⟩
        · rw [rotations_of_validPath hpath]
        · exact absurd hl hnot
      · rcases h.visit hf hs with ⟨hlop,_⟩ | ⟨_,hgrown⟩
        · exact absurd hlop hl
        · rw [Nat.zero_add]
          exact ih hgrown

/-- An insertion into a valid tree rotates at most once. -/
theorem Valid.insert_rotations {κ : Type*} [LinearOrder κ] {key : α → κ} {t : HTree α}
    (hv : Valid t) (a : α) :
    rotations (descend key (key a) t []) (node nil a 1 nil) ≤ 1 := by
  have hp : Valid (plug (descend key (key a) t []) nil) := by
    rw [plug_descend]
    exact hv
  exact Grown.rotations_le_one ⟨⟨0,rfl,((valid_plug _ _).mp hp).1⟩,⟨by simp [Settled],trivial,trivial⟩,
    Or.inl rfl⟩

end Foundations.HTree
