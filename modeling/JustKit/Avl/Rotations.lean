import JustKit.Avl.PathStack
import JustKit.Foundations.Rotations

/-! How often `jk_avl_rebalance` rotates. After an insertion that is once at most, whatever the tree. -/
namespace JustKit.Avl
open Foundations Foundations.HTree
variable {δ : Type}

/-- The condition of the two branches of a pass that rotate. -/
def rotates (s : Store δ) (nodeplace : Place) : Option Bool := do
  let node ← (← s.load nodeplace)
  let n ← s.mem node
  let heightleft ← s.heightOf n.left
  let heightright ← s.heightOf n.right
  return decide (heightright+1 < heightleft ∨ heightleft+1 < heightright)

/-- The passes of `jk_avl_rebalance` that rotate. -/
def rotationCount (s : Store δ) : List Place → ℕ
  | [] => 0
  | nodeplace::stack => (if rotates s nodeplace = some true then 1 else 0)+
      match rebalancePass s nodeplace with
      | none => 0
      | some (s',stop) => if stop then 0 else rotationCount s' stack

/-- The rotations that a call makes. -/
def Op.rotations (s : Store δ) (op : Op δ) : ℕ :=
  match op.prepare s with
  | none => 0
  | some r => rotationCount r.1 r.2

lemma rotates_eq {s : Store δ} {fs : List (Frame (Item δ))} {l r : HTree (Item δ)} {a : Item δ} {h : ℕ}
    (hs : Represents s (plug fs (node l a h r))) : rotates s (place fs) = some (decide (Lopsided l r)) := by
  obtain ⟨hload,ha,hl,hr,_⟩ := holds_focus hs
  simp only [rotates,hload,ha,heightOf_ptr hl,heightOf_ptr hr,Lopsided,Option.bind_eq_bind,Option.bind_some]
  rfl

/-- The passes that rotate are those of `HTree.rebalance`. -/
theorem rotationCount_refines {s : Store δ} {fs : List (Frame (Item δ))} {t : HTree (Item δ)}
    (hs : Represents s (plug fs t)) : rotationCount s (stack fs) = HTree.rotations fs t := by
  induction fs generalizing s t with
  | nil => rfl
  | cons f fs ih =>
    cases ht : f.fill t with
    | nil => cases f <;> simp [Frame.fill] at ht
    | node l a h r =>
      rw [plug_cons,ht] at hs
      obtain ⟨s₁,h1,h2,_⟩ := rebalancePass_refines hs
      have hrot := rotates_eq hs
      by_cases hst : Settled l h r
      · have hnot : ¬Lopsided l r := fun hl => hl.elim (fun hl => by have := hst.1; omega) fun hl => by
          have := hst.2.1
          omega
        simp [stack,rotationCount,HTree.rotations,ht,h1,hrot,hst,hnot]
      · simp only [hst,ite_false] at h2
        simp [stack,rotationCount,HTree.rotations,ht,h1,hrot,hst,ih h2]

/-- A path that does not fit the stack leads to no rebalancing. -/
lemma insertPrepare_overflow {s : Store δ} {t : HTree (Item δ)} (hs : Represents s t) {a : Addr} {n : Node δ}
    (hn : s.mem a = some n) (hroom : maxHeight < (descend Item.key n.key t []).length) :
    insertPrepare s a = none := by
  have hsearch : insertSearch s n.key maxHeight .root [] = none := by
    have h := insertSearch_refines n.key t [] maxHeight hs
    rwa [List.length_nil,Nat.zero_add,if_neg (not_le.mpr hroom)] at h
  simp [insertPrepare,hn,hsearch]

/-- Whatever its keys, an insertion into an AVL tree rotates at most once. -/
theorem IsAvl.insert_rotations {s : Store δ} {t : HTree (Item δ)} (h : IsAvl s t) {a : Addr} (ha : a ∉ addrs t)
    (n : Node δ) : (Op.insert a n).rotations s ≤ 1 := by
  have hput := h.put ha n
  unfold Op.rotations
  cases hprep : (Op.insert a n).prepare s with
  | none => exact Nat.zero_le 1
  | some r =>
    dsimp only
    by_cases hroom : (descend Item.key n.key t []).length ≤ maxHeight
    · obtain ⟨s₁,h1,h2,_⟩ := insertPrepare_refines (a := ⟨a,n.key,n.data⟩) hput.rep ha
        (Mem.put_same _ _ _) rfl rfl hroom
      obtain rfl : r = _ := Option.some.inj (hprep.symm.trans h1)
      rw [rotationCount_refines h2]
      exact @Valid.insert_rotations _ _ _ Item.key _ h.valid ⟨a,n.key,n.data⟩
    · rw [Op.prepare,insertPrepare_overflow hput.rep (Mem.put_same _ _ _) (not_le.mp hroom)] at hprep
      cases hprep

lemma legalRun_append {p : List (Item δ)} {pre ops : List (Op δ)} :
    LegalRun p (pre++ops) ↔ LegalRun p pre ∧ LegalRun (pre.foldl Op.after p) ops := by
  induction pre generalizing p with
  | nil => exact (and_iff_right trivial).symm
  | cons op pre ih => exact (and_congr_right fun _ => ih).trans and_assoc.symm

/-- In a legal run of insertions and removals every insertion rotates at most once. -/
theorem insertions_rotate_once (m : Mem (Node δ)) (ops : List (Op δ)) (h : LegalRun [] ops)
    (pre post : List (Op δ)) (a : Addr) (n : Node δ) (hops : ops = pre++.insert a n::post) :
    ∃ s, run ⟨none,m⟩ pre = some s ∧ (Op.insert a n).rotations s ≤ 1 := by
  subst hops
  obtain ⟨hpre,hop,_⟩ := legalRun_append.mp h
  obtain ⟨s,h1,t,ht,hperm,_⟩ := run_tracks (tracks_empty m) hpre
  exact ⟨s,h1,ht.insert_rotations (notMem_addrs hperm fun i hi => (hop.1 i hi).1) n⟩

/-- The third insertion of the run rotates. -/
theorem insertions_rotate_once_rotated : ∃ s, run ⟨none,fun _ => none⟩ (rotatedRun.take 2) = some s ∧
    (Op.insert 3 (⟨7,(),0,none,none⟩ : Node Unit)).rotations s ≤ 1 :=
  insertions_rotate_once (fun _ => none) rotatedRun (by decide) (rotatedRun.take 2) [.remove 2] 3
    ⟨7,(),0,none,none⟩ rfl

end JustKit.Avl
