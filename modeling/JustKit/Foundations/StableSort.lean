import Mathlib

/-! Stable sorts by a key: the keys never decrease and each class of equal keys keeps its order.
These two conditions determine the list, which is therefore the one `List.mergeSort` computes. -/
namespace Foundations
variable {α κ : Type*} [LinearOrder κ] (key : α → κ)

/-- `ys` is `xs` sorted by key, with equal keys in the order of `xs`. -/
structure IsStableSort (xs ys : List α) : Prop where
  ordered : ys.Pairwise fun a b => key a ≤ key b
  class_eq : ∀ k, ys.filter (fun a => key a = k) = xs.filter (fun a => key a = k)

/-- The first of the elements of smallest key. -/
def IsFirstMin (xs : List α) (a : α) : Prop :=
  ∃ l₁ l₂, xs = l₁++a::l₂ ∧ (∀ b ∈ l₁, key a < key b) ∧ ∀ b ∈ l₂, key a ≤ key b

/-- The last of the elements of largest key. -/
def IsLastMax (xs : List α) (a : α) : Prop :=
  ∃ l₁ l₂, xs = l₁++a::l₂ ∧ (∀ b ∈ l₁, key b ≤ key a) ∧ ∀ b ∈ l₂, key b < key a

variable {key}

lemma IsFirstMin.mem {xs : List α} {a : α} (h : IsFirstMin key xs a) : a ∈ xs := by
  obtain ⟨l₁,l₂,rfl,_⟩ := h
  simp

lemma IsFirstMin.le {xs : List α} {a : α} (h : IsFirstMin key xs a) : ∀ b ∈ xs, key a ≤ key b := by
  obtain ⟨l₁,l₂,rfl,h1,h2⟩ := h
  intro b hb
  rcases List.mem_append.mp hb with hb | hb
  · exact (h1 b hb).le
  · rcases List.mem_cons.mp hb with rfl | hb
    · exact le_rfl
    · exact h2 b hb

lemma IsLastMax.mem {xs : List α} {a : α} (h : IsLastMax key xs a) : a ∈ xs := by
  obtain ⟨l₁,l₂,rfl,_⟩ := h
  simp

lemma IsLastMax.le {xs : List α} {a : α} (h : IsLastMax key xs a) : ∀ b ∈ xs, key b ≤ key a := by
  obtain ⟨l₁,l₂,rfl,h1,h2⟩ := h
  intro b hb
  rcases List.mem_append.mp hb with hb | hb
  · exact h1 b hb
  · rcases List.mem_cons.mp hb with rfl | hb
    · exact le_rfl
    · exact (h2 b hb).le

lemma isStableSort_nil : IsStableSort key ([] : List α) [] := ⟨List.Pairwise.nil,fun _ => rfl⟩

namespace IsStableSort
variable {xs ys zs : List α}

lemma mem_iff (h : IsStableSort key xs ys) (a : α) : a ∈ ys ↔ a ∈ xs := by
  have hclass := h.class_eq (key a)
  constructor
  · intro ha
    have hmem : a ∈ xs.filter (fun b => key b = key a) := by
      rw [← hclass]
      exact List.mem_filter.mpr ⟨ha,by simp⟩
    exact (List.mem_filter.mp hmem).1
  · intro ha
    have hmem : a ∈ ys.filter (fun b => key b = key a) := by
      rw [hclass]
      exact List.mem_filter.mpr ⟨ha,by simp⟩
    exact (List.mem_filter.mp hmem).1

/-- A further element goes behind all elements whose key is not larger. -/
theorem insert {bs cs : List α} {a : α} (h : IsStableSort key xs (bs++cs)) (hb : ∀ b ∈ bs, key b ≤ key a)
    (hc : ∀ c ∈ cs, key a < key c) : IsStableSort key (xs++[a]) (bs++a::cs) := by
  obtain ⟨h1,h2,h3⟩ := List.pairwise_append.mp h.ordered
  constructor
  case ordered =>
    refine List.pairwise_append.mpr ⟨h1,List.pairwise_cons.mpr ⟨fun c hm => (hc c hm).le,h2⟩,?_⟩
    intro b hm c hm'
    rcases List.mem_cons.mp hm' with rfl | hm'
    · exact hb b hm
    · exact h3 b hm c hm'
  case class_eq =>
    intro k
    have hclass := h.class_eq k
    rw [List.filter_append] at hclass
    rw [List.filter_append,List.filter_append,← hclass,List.filter_cons]
    by_cases hk : key a = k
    · -- No element behind the new one has its key.
      have hnone : cs.filter (fun c => key c = k) = [] := by
        apply List.filter_eq_nil_iff.mpr
        intro c hm he
        have heq : key c = k := of_decide_eq_true he
        exact absurd (heq.trans hk.symm) (hc c hm).ne'
      simp [hk,hnone]
    · simp [hk]

/-- Where `List.orderedInsert` puts a further element. -/
theorem orderedInsert_eq {bs cs : List α} {a : α} (hb : ∀ b ∈ bs, key b ≤ key a)
    (hc : ∀ c ∈ cs, key a < key c) : (bs++cs).orderedInsert (fun x y => key x < key y) a = bs++a::cs := by
  induction bs with
  | nil =>
    cases cs with
    | nil => rfl
    | cons c cs => exact List.orderedInsert_cons_of_le _ _ (hc c List.mem_cons_self)
  | cons b bs ih =>
    have hle := hb b List.mem_cons_self
    rw [List.cons_append,List.orderedInsert_cons,if_neg (not_lt.mpr hle),
      ih fun b' hb' => hb b' (List.mem_cons_of_mem _ hb')]
    rfl

/-- The insertion keeps a sorted list sorted, also behind elements whose keys are not larger than the new one. -/
theorem pairwise_orderedInsert {a : α} (h : (xs++ys).Pairwise fun x y => key x ≤ key y)
    (hx : ∀ x ∈ xs, key x ≤ key a) : (xs++ys.orderedInsert (fun x y => key x < key y) a).Pairwise fun x y =>
    key x ≤ key y := by
  induction ys generalizing xs with
  | nil =>
    rw [List.append_nil] at h
    refine List.pairwise_append.mpr ⟨h,List.pairwise_singleton _ _,fun x hm y hy => ?_⟩
    rw [List.mem_singleton.mp hy]
    exact hx x hm
  | cons b ys ih =>
    rw [List.orderedInsert_cons]
    split_ifs with hlt
    · obtain ⟨h1,h2,h3⟩ := List.pairwise_append.mp h
      refine List.pairwise_append.mpr ⟨h1,List.pairwise_cons.mpr ⟨fun y hy => ?_,h2⟩,fun x hm y hy => ?_⟩
      · rcases List.mem_cons.mp hy with rfl | hy
        · exact hlt.le
        · exact hlt.le.trans ((List.pairwise_cons.mp h2).1 y hy)
      · rcases List.mem_cons.mp hy with rfl | hy
        · exact hx x hm
        · exact h3 x hm y hy
    · rw [List.append_cons] at h ⊢
      refine ih h fun x hm => ?_
      rcases List.mem_append.mp hm with hm | hm
      · exact hx x hm
      · rw [List.mem_singleton.mp hm]
        exact not_lt.mp hlt

/-- A list has at most one stable sort. -/
theorem unique (hy : IsStableSort key xs ys) (hz : IsStableSort key xs zs) : ys = zs := by
  induction ys generalizing xs zs with
  | nil =>
    symm
    apply List.eq_nil_iff_forall_not_mem.mpr
    intro z hm
    have hmem := (hy.mem_iff z).mpr ((hz.mem_iff z).mp hm)
    cases hmem
  | cons y ys ih =>
    cases zs with
    | nil => cases (hz.mem_iff y).mpr ((hy.mem_iff y).mp List.mem_cons_self)
    | cons z zs =>
      obtain ⟨hley,hys⟩ := List.pairwise_cons.mp hy.ordered
      obtain ⟨hlez,hzs⟩ := List.pairwise_cons.mp hz.ordered
      have hyz : key y ≤ key z := by
        rcases List.mem_cons.mp ((hy.mem_iff z).mpr ((hz.mem_iff z).mp List.mem_cons_self)) with rfl | hm
        · exact le_rfl
        · exact hley z hm
      have hzy : key z ≤ key y := by
        rcases List.mem_cons.mp ((hz.mem_iff y).mpr ((hy.mem_iff y).mp List.mem_cons_self)) with rfl | hm
        · exact le_rfl
        · exact hlez y hm
      have hkey : key y = key z := le_antisymm hyz hzy
      have hclass (k : κ) := (hy.class_eq k).trans (hz.class_eq k).symm
      have hhead := hclass (key z)
      simp only [List.filter_cons,hkey,decide_true,ite_true,List.cons.injEq] at hhead
      obtain ⟨rfl,_⟩ := hhead
      congr 1
      have hself : IsStableSort key ys ys := ⟨hys,fun _ => rfl⟩
      refine ih hself ⟨hzs,fun k => ?_⟩
      have htail := hclass k
      rw [List.filter_cons,List.filter_cons] at htail
      split_ifs at htail with hk
      · exact (List.cons.inj htail).2.symm
      · exact htail.symm

end IsStableSort

theorem isStableSort_mergeSort (xs : List α) :
    IsStableSort key xs (xs.mergeSort fun a b => key a ≤ key b) := by
  have htrans : ∀ a b c : α, decide (key a ≤ key b) → decide (key b ≤ key c) →
      decide (key a ≤ key c) := by
    intro a b c hab hbc
    exact decide_eq_true ((of_decide_eq_true hab).trans (of_decide_eq_true hbc))
  have htotal : ∀ a b : α, decide (key a ≤ key b) || decide (key b ≤ key a) := by
    intro a b
    simpa using le_total (key a) (key b)
  constructor
  case ordered => exact (List.pairwise_mergeSort htrans htotal xs).imp of_decide_eq_true
  case class_eq =>
    intro k
    symm
    have hclass : (xs.filter fun a => key a = k).Pairwise fun a b => decide (key a ≤ key b) := by
      apply List.pairwise_of_forall_mem_list
      intro a ha b hb
      have hka : key a = k := of_decide_eq_true (List.mem_filter.mp ha).2
      have hkb : key b = k := of_decide_eq_true (List.mem_filter.mp hb).2
      exact decide_eq_true (hka.trans hkb.symm).le
    have hsub := (List.sublist_mergeSort htrans htotal hclass List.filter_sublist).filter fun a => key a = k
    rw [List.filter_filter] at hsub
    simp only [Bool.and_self] at hsub
    apply hsub.eq_of_length
    exact ((List.mergeSort_perm xs _).filter _).length_eq.symm

namespace IsStableSort
variable {xs ys : List α}

theorem eq_mergeSort (h : IsStableSort key xs ys) : ys = xs.mergeSort fun a b => key a ≤ key b :=
  h.unique (isStableSort_mergeSort xs)

theorem perm (h : IsStableSort key xs ys) : ys.Perm xs := by
  rw [h.eq_mergeSort]
  exact List.mergeSort_perm xs _

/-- A stable sort begins with the first of the elements of smallest key. -/
theorem head_isFirstMin {a : α} (h : IsStableSort key xs (a::ys)) : IsFirstMin key xs a := by
  have hclass := h.class_eq (key a)
  rw [List.filter_cons_of_pos (by simp)] at hclass
  obtain ⟨l₁,l₂,rfl,h1,_,_⟩ := List.filter_eq_cons_iff.mp hclass.symm
  have hle : ∀ b ∈ l₁++a::l₂, key a ≤ key b := by
    intro b hb
    rcases List.mem_cons.mp ((h.mem_iff b).mpr hb) with rfl | hb
    · exact le_rfl
    · exact (List.pairwise_cons.mp h.ordered).1 b hb
  refine ⟨l₁,l₂,rfl,fun b hb => lt_of_le_of_ne (hle b (by simp [hb])) ?_,fun b hb => hle b (by simp [hb])⟩
  intro heq
  exact h1 b hb (decide_eq_true heq.symm)

/-- It ends with the last of the elements of largest key. -/
theorem getLast_isLastMax {a : α} (h : IsStableSort key xs (ys++[a])) : IsLastMax key xs a := by
  have hclass := h.class_eq (key a)
  rw [List.filter_append,List.filter_cons_of_pos (by simp),List.filter_nil] at hclass
  obtain ⟨l₁,l₂,rfl,_,h2⟩ := List.filter_eq_append_iff.mp hclass.symm
  obtain ⟨l₃,l₄,rfl,_,_,h4⟩ := List.filter_eq_cons_iff.mp h2
  have hle : ∀ b ∈ l₁++(l₃++a::l₄), key b ≤ key a := by
    intro b hb
    rcases List.mem_append.mp ((h.mem_iff b).mpr hb) with hb | hb
    · exact (List.pairwise_append.mp h.ordered).2.2 b hb a List.mem_cons_self
    · rw [List.mem_singleton.mp hb]
  refine ⟨l₁++l₃,l₄,by simp,fun b hb => hle b ?_,fun b hb => lt_of_le_of_ne (hle b (by simp [hb])) ?_⟩
  · rcases List.mem_append.mp hb with hb | hb
    · simp [hb]
    · simp [hb]
  · intro heq
    exact List.filter_eq_nil_iff.mp h4 b hb (decide_eq_true heq)

end IsStableSort
end Foundations
