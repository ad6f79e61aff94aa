import Mathlib

/-! Binary trees that store a height in every node, their zippers, and rebalancing along a
search path with early exit. Nothing assumes the stored heights to be right before `Valid`. -/
namespace Foundations

/-- A binary tree whose nodes store a label and a height. -/
inductive HTree (α : Type*) where
  | nil
  | node (left : HTree α) (label : α) (height : ℕ) (right : HTree α)
  deriving Repr, DecidableEq

namespace HTree
variable {α : Type*}

/-- The height stored at the root; the empty tree counts as 0. -/
def stored : HTree α → ℕ
  | nil => 0
  | node _ _ h _ => h

/-- The in-order sequence of labels. -/
def toList : HTree α → List α
  | nil => []
  | node l a _ r => l.toList ++ a :: r.toList

@[simp] theorem stored_nil : (nil : HTree α).stored = 0 := rfl
@[simp] theorem stored_node (l : HTree α) (a : α) (h : ℕ) (r : HTree α) : (node l a h r).stored = h := rfl
@[simp] theorem toList_nil : (nil : HTree α).toList = [] := rfl
@[simp] theorem toList_node (l : HTree α) (a : α) (h : ℕ) (r : HTree α) :
    (node l a h r).toList = l.toList ++ a :: r.toList := rfl

lemma eq_nil_of_stored_pos {t : HTree α} (h : 0 < t.stored) : ∃ l a k r, t = node l a k r := by
  cases t with
  | nil => simp at h
  | node l a k r => exact ⟨l,a,k,r,rfl⟩

/-- One step of a path: the parent's label and stored height, and the subtree not entered. -/
inductive Frame (α : Type*) where
  | left (label : α) (height : ℕ) (sibling : HTree α)
  | right (sibling : HTree α) (label : α) (height : ℕ)
  deriving Repr, DecidableEq

/-- Put a subtree back below its parent. -/
def Frame.fill : Frame α → HTree α → HTree α
  | .left a h r,t => node t a h r
  | .right l a h,t => node l a h t

def Frame.label : Frame α → α
  | .left a _ _ => a
  | .right _ a _ => a
def Frame.sibling : Frame α → HTree α
  | .left _ _ r => r
  | .right l _ _ => l

/-- Labels of one frame that come before, and after, the hole. -/
def Frame.before : Frame α → List α
  | .left _ _ _ => []
  | .right l a _ => l.toList ++ [a]
def Frame.after : Frame α → List α
  | .left a _ r => a :: r.toList
  | .right _ _ _ => []

/-- Rebuild the whole tree around a hole; the innermost frame comes first. -/
def plug : List (Frame α) → HTree α → HTree α
  | [],t => t
  | f::fs,t => plug fs (f.fill t)

def before : List (Frame α) → List α
  | [] => []
  | f::fs => before fs ++ f.before
def after : List (Frame α) → List α
  | [] => []
  | f::fs => f.after ++ after fs

@[simp] theorem plug_nil (t : HTree α) : plug [] t = t := rfl
@[simp] theorem plug_cons (f : Frame α) (fs : List (Frame α)) (t : HTree α) :
    plug (f::fs) t = plug fs (f.fill t) := rfl
@[simp] theorem before_nil : before ([] : List (Frame α)) = [] := rfl
@[simp] theorem before_cons (f : Frame α) (fs : List (Frame α)) :
    before (f::fs) = before fs ++ f.before := rfl
@[simp] theorem after_nil : after ([] : List (Frame α)) = [] := rfl
@[simp] theorem after_cons (f : Frame α) (fs : List (Frame α)) :
    after (f::fs) = f.after ++ after fs := rfl

theorem fill_toList (f : Frame α) (t : HTree α) : (f.fill t).toList = f.before ++ t.toList ++ f.after := by
  cases f <;> simp [Frame.fill,Frame.before,Frame.after]

theorem plug_toList (fs : List (Frame α)) (t : HTree α) :
    (plug fs t).toList = before fs ++ t.toList ++ after fs := by
  induction fs generalizing t with
  | nil => simp
  | cons f fs ih => simp [ih,fill_toList,List.append_assoc]

theorem plug_append (fs gs : List (Frame α)) (t : HTree α) : plug (fs++gs) t = plug gs (plug fs t) := by
  induction fs generalizing t with
  | nil => rfl
  | cons f fs ih => simp [ih]

/-! ### Rotations -/

/-- Single or double rotation to the right, with the heights written as the loop writes them. -/
def rotateRight (l : HTree α) (a : α) (h : ℕ) (r : HTree α) : HTree α :=
  match l with
  | nil => node nil a h r
  | node ll b hl lr =>
    if lr.stored ≤ ll.stored then
      node ll b (1+(1+lr.stored)) (node lr a (1+lr.stored) r)
    else
      match lr with
      | nil => node (node ll b hl nil) a h r
      | node lrl c hlr lrr => node (node ll b hlr lrl) c hl (node lrr a hlr r)

/-- Single or double rotation to the left. -/
def rotateLeft (l : HTree α) (a : α) (h : ℕ) (r : HTree α) : HTree α :=
  match r with
  | nil => node l a h nil
  | node rl b hr rr =>
    if rl.stored ≤ rr.stored then
      node (node l a (1+rl.stored) rl) b (1+(1+rl.stored)) rr
    else
      match rl with
      | nil => node l a h (node nil b hr rr)
      | node rll c hrl rlr => node (node l a hrl rll) c hr (node rlr b hrl rr)

/-- One visit of the rebalancing loop to a node with subtrees `l` and `r`. -/
def fix (l : HTree α) (a : α) (h : ℕ) (r : HTree α) : HTree α :=
  if r.stored+1 < l.stored then rotateRight l a h r
  else if l.stored+1 < r.stored then rotateLeft l a h r
  else node l a (max l.stored r.stored+1) r

/-- The visit changes nothing, and the loop stops. -/
def Settled (l : HTree α) (h : ℕ) (r : HTree α) : Prop :=
  l.stored ≤ r.stored+1 ∧ r.stored ≤ l.stored+1 ∧ max l.stored r.stored+1 = h

instance (l : HTree α) (h : ℕ) (r : HTree α) : Decidable (Settled l h r) :=
  inferInstanceAs (Decidable (_ ∧ _ ∧ _))

/-- Walk up a path, repairing every node, until one is found settled. -/
def rebalance : List (Frame α) → HTree α → HTree α
  | [],t => t
  | f::fs,t =>
    match f.fill t with
    | nil => plug fs nil
    | node l a h r => if Settled l h r then plug fs (node l a h r) else rebalance fs (fix l a h r)

theorem rotateRight_toList (l : HTree α) (a : α) (h : ℕ) (r : HTree α) :
    (rotateRight l a h r).toList = l.toList ++ a :: r.toList := by
  unfold rotateRight
  split
  · rfl
  · split
    · simp
    · split <;> simp

theorem rotateLeft_toList (l : HTree α) (a : α) (h : ℕ) (r : HTree α) :
    (rotateLeft l a h r).toList = l.toList ++ a :: r.toList := by
  unfold rotateLeft
  split
  · rfl
  · split
    · simp
    · split <;> simp

theorem fix_toList (l : HTree α) (a : α) (h : ℕ) (r : HTree α) :
    (fix l a h r).toList = l.toList ++ a :: r.toList := by
  unfold fix
  split_ifs
  · exact rotateRight_toList l a h r
  · exact rotateLeft_toList l a h r
  · rfl

/-- Rebalancing never changes the in-order sequence, whatever the stored heights are. -/
theorem rebalance_toList (fs : List (Frame α)) (t : HTree α) :
    (rebalance fs t).toList = before fs ++ t.toList ++ after fs := by
  induction fs generalizing t with
  | nil => simp [rebalance]
  | cons f fs ih =>
    rw [rebalance]
    have hf := fill_toList f t
    cases ht : f.fill t with
    | nil => cases f <;> simp [Frame.fill] at ht
    | node l a h r =>
      rw [ht] at hf
      simp only [before_cons,after_cons]
      split_ifs with hs
      · rw [plug_toList,hf]
        simp [List.append_assoc]
      · rw [ih,fix_toList,← toList_node l a h r,hf]
        simp [List.append_assoc]

end HTree
end Foundations
