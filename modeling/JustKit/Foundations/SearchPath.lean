import JustKit.Foundations.HeightBalance
import JustKit.Foundations.StableSort

/-! Searching an ordered height-labelled tree by key, and insertion and removal at the place a
search ends. Equal keys may occur; insertion puts a new label after all labels with its key. -/
namespace Foundations.HTree
variable {α κ : Type*} [LinearOrder κ] (key : α → κ)

/-- Keys never decrease along a list. -/
def Ordered (xs : List α) : Prop := xs.Pairwise (fun a b => key a ≤ key b)

/-- The path an insertion of key `k` takes below `t`. -/
def descend (k : κ) : HTree α → List (Frame α) → List (Frame α)
  | nil,fs => fs
  | node l a h r,fs =>
    if k < key a then descend k l (.left a h r::fs) else descend k r (.right l a h::fs)

/-- The path to, and the subtree at, the first node with key `k` that a search meets. -/
def locate (k : κ) : HTree α → List (Frame α) → Option (List (Frame α) × HTree α)
  | nil,_ => none
  | node l a h r,fs =>
    if k = key a then some (fs,node l a h r)
    else if k < key a then locate k l (.left a h r::fs) else locate k r (.right l a h::fs)

/-- Follow right children until there is none. -/
def lastRight : HTree α → List (Frame α) → List (Frame α) × HTree α
  | nil,fs => (fs,nil)
  | node l a h nil,fs => (fs,node l a h nil)
  | node l a h (node rl b k rr),fs => lastRight (node rl b k rr) (.right l a h::fs)

/-- Insert a label as a new leaf and rebalance. -/
def insertNode (a : α) (t : HTree α) : HTree α :=
  rebalance (descend key (key a) t []) (node nil a 1 nil)

/-- Remove the root of the subtree `node l _ h r` in the hole: its in-order predecessor, if it has
a left child, takes its place and its stored height. -/
def removeRoot (fs : List (Frame α)) (l : HTree α) (h : ℕ) (r : HTree α) : HTree α :=
  match lastRight l [] with
  | (_,nil) => rebalance fs r
  | (spine,node pl p _ _) => rebalance (spine++.left p h r::fs) pl

/-- The path and the subtree from which `removeRoot` rebalances. -/
def unlink (fs : List (Frame α)) (l : HTree α) (h : ℕ) (r : HTree α) : List (Frame α) × HTree α :=
  match lastRight l [] with
  | (_,nil) => (fs,r)
  | (spine,node pl p _ _) => (spine++.left p h r::fs,pl)

theorem exists_plug_of_mem {a : α} {t : HTree α} (ha : a ∈ t.toList) :
    ∃ fs l h r, t = plug fs (node l a h r) := by
  induction t with
  | nil => simp at ha
  | node l b h r hl hr =>
    simp only [toList_node,List.mem_append,List.mem_cons] at ha
    rcases ha with ha | rfl | ha
    · obtain ⟨fs,l',h',r',rfl⟩ := hl ha
      exact ⟨fs++[.left b h r],l',h',r',by simp [plug_append,Frame.fill]⟩
    · exact ⟨[],l,h,r,rfl⟩
    · obtain ⟨fs,l',h',r',rfl⟩ := hr ha
      exact ⟨fs++[.right l b h],l',h',r',by simp [plug_append,Frame.fill]⟩

lemma Ordered.node {l r : HTree α} {a : α} {h : ℕ} (ho : Ordered key (node l a h r).toList) :
    Ordered key l.toList ∧ Ordered key r.toList ∧
      (∀ b ∈ l.toList, key b ≤ key a) ∧ (∀ b ∈ r.toList, key a ≤ key b) := by
  obtain ⟨hl,har,hlr⟩ := List.pairwise_append.mp ho
  obtain ⟨har,hr⟩ := List.pairwise_cons.mp har
  exact ⟨hl,hr,fun b hb => hlr b hb a List.mem_cons_self,har⟩

/-! ### Insertion -/

theorem plug_descend (k : κ) (t : HTree α) (fs : List (Frame α)) :
    plug (descend key k t fs) nil = plug fs t := by
  induction t generalizing fs with
  | nil => rfl
  | node l a h r hl hr =>
    rw [descend]
    split_ifs
    · rw [hl]; rfl
    · rw [hr]; rfl

theorem length_le_descend (k : κ) (t : HTree α) (fs : List (Frame α)) :
    fs.length ≤ (descend key k t fs).length := by
  induction t generalizing fs with
  | nil => exact le_rfl
  | node l a h r hl hr =>
    rw [descend]
    split_ifs
    · exact (Nat.le_succ _).trans (hl (.left a h r::fs))
    · exact (Nat.le_succ _).trans (hr (.right l a h::fs))

/-- Everything before the place an insertion reaches has a key up to `k`, everything after it a
larger one. -/
theorem descend_between (k : κ) (t : HTree α) (fs : List (Frame α)) (ho : Ordered key t.toList)
    (hb : ∀ a ∈ before fs, key a ≤ k) (ha : ∀ a ∈ after fs, k < key a) :
    (∀ a ∈ before (descend key k t fs), key a ≤ k) ∧ ∀ a ∈ after (descend key k t fs), k < key a := by
  induction t generalizing fs with
  | nil => exact ⟨hb,ha⟩
  | node l a h r hl hr =>
    obtain ⟨hol,hor,hle,hge⟩ := ho.node
    rw [descend]
    split_ifs with hk
    · apply hl _ hol
      · simpa [Frame.before] using hb
      · intro b hm
        simp only [after_cons,Frame.after,List.mem_append,List.mem_cons] at hm
        rcases hm with (rfl | hm) | hm
        · exact hk
        · exact hk.trans_le (hge b hm)
        · exact ha b hm
    · apply hr _ hor
      · intro b hm
        simp only [before_cons,Frame.before,List.mem_append,List.mem_singleton] at hm
        rcases hm with hm | hm | rfl
        · exact hb b hm
        · exact (hle b hm).trans (not_lt.mp hk)
        · exact not_lt.mp hk
      · simpa [Frame.after] using ha

theorem insertNode_toList (a : α) (t : HTree α) :
    (insertNode key a t).toList =
      before (descend key (key a) t []) ++ a :: after (descend key (key a) t []) := by
  simp [insertNode,rebalance_toList]

/-- The old sequence is the new one without the inserted label. -/
theorem toList_eq_descend (k : κ) (t : HTree α) :
    t.toList = before (descend key k t []) ++ after (descend key k t []) := by
  have h := congrArg toList (plug_descend key k t [])
  rw [plug_toList] at h
  simpa using h.symm

theorem insertNode_perm (a : α) (t : HTree α) : (insertNode key a t).toList.Perm (a::t.toList) := by
  rw [insertNode_toList,toList_eq_descend key (key a) t]
  exact List.perm_middle

theorem insertNode_ordered (a : α) (t : HTree α) (ho : Ordered key t.toList) :
    Ordered key (insertNode key a t).toList := by
  obtain ⟨hb,ha⟩ := descend_between key (key a) t [] ho (by simp) (by simp)
  rw [insertNode_toList]
  rw [toList_eq_descend key (key a) t] at ho
  obtain ⟨h1,h2,h3⟩ := List.pairwise_append.mp ho
  refine List.pairwise_append.mpr ⟨h1,List.pairwise_cons.mpr ⟨fun b hm => (ha b hm).le,h2⟩,?_⟩
  intro b hm c hc
  rcases List.mem_cons.mp hc with rfl | hc
  · exact hb b hm
  · exact h3 b hm c hc

/-- Insertion one by one is a stable sort. -/
theorem insertNode_isStableSort {xs : List α} (a : α) (t : HTree α) (h : IsStableSort key xs t.toList) :
    IsStableSort key (xs++[a]) (insertNode key a t).toList := by
  obtain ⟨hb,ha⟩ := descend_between key (key a) t [] h.ordered (by simp) (by simp)
  rw [insertNode_toList]
  rw [toList_eq_descend key (key a) t] at h
  exact h.insert hb ha

theorem insertNode_valid (a : α) (t : HTree α) (hv : Valid t) : Valid (insertNode key a t) := by
  have hp : Valid (plug (descend key (key a) t []) nil) := by rw [plug_descend]; exact hv
  apply OffByOne.rebalance_valid (B := (plug (descend key (key a) t []) nil).stored)
  apply OffByOne.of_valid hp le_rfl
  · simp [Settled]
  · simp
  · simp

theorem descend_length_le (k : κ) (t : HTree α) (hv : Valid t) :
    (descend key k t []).length ≤ t.stored := by
  have hp : Valid (plug (descend key k t []) nil) := by rw [plug_descend]; exact hv
  have hl := ValidPath.length_le _ nil ((valid_plug _ _).mp hp).1
  rw [plug_descend] at hl
  simpa using hl

/-! ### Search by key -/

theorem locate_plug {k : κ} {t u : HTree α} {fs gs : List (Frame α)}
    (h : locate key k t fs = some (gs,u)) :
    plug gs u = plug fs t ∧ ∃ l a m r, u = node l a m r ∧ key a = k := by
  induction t generalizing fs with
  | nil => simp [locate] at h
  | node l a m r hl hr =>
    rw [locate] at h
    split_ifs at h with hk hlt
    · cases h; exact ⟨rfl,l,a,m,r,rfl,hk.symm⟩
    · exact hl h
    · exact hr h

/-- The path only grows below the place where the search starts. -/
lemma locate_length_le {k : κ} {t u : HTree α} {fs gs : List (Frame α)}
    (h : locate key k t fs = some (gs,u)) : fs.length ≤ gs.length := by
  induction t generalizing fs with
  | nil => simp [locate] at h
  | node l a m r hl hr =>
    rw [locate] at h
    split_ifs at h
    · cases h
      exact le_rfl
    · exact (Nat.le_succ _).trans (hl h)
    · exact (Nat.le_succ _).trans (hr h)

theorem locate_between {k : κ} {t u : HTree α} {fs gs : List (Frame α)}
    (h : locate key k t fs = some (gs,u)) (ho : Ordered key t.toList)
    (hb : ∀ a ∈ before fs, key a < k) (ha : ∀ a ∈ after fs, k < key a) :
    (∀ a ∈ before gs, key a < k) ∧ ∀ a ∈ after gs, k < key a := by
  induction t generalizing fs with
  | nil => simp [locate] at h
  | node l b m r hl hr =>
    obtain ⟨hol,hor,hle,hge⟩ := ho.node
    rw [locate] at h
    split_ifs at h with hk hlt
    · cases h; exact ⟨hb,ha⟩
    · apply hl h hol
      · simpa [Frame.before] using hb
      · intro c hm
        simp only [after_cons,Frame.after,List.mem_append,List.mem_cons] at hm
        rcases hm with (rfl | hm) | hm
        · exact hlt
        · exact hlt.trans_le (hge c hm)
        · exact ha c hm
    · have hgt : key b < k := lt_of_le_of_ne (not_lt.mp hlt) (Ne.symm hk)
      apply hr h hor
      · intro c hm
        simp only [before_cons,Frame.before,List.mem_append,List.mem_singleton] at hm
        rcases hm with hm | hm | rfl
        · exact hb c hm
        · exact (hle c hm).trans_lt hgt
        · exact hgt
      · simpa [Frame.after] using ha

theorem locate_isSome {k : κ} {t : HTree α} (fs : List (Frame α)) (ho : Ordered key t.toList)
    {a : α} (ha : a ∈ t.toList) (hk : key a = k) : (locate key k t fs).isSome := by
  induction t generalizing fs with
  | nil => simp at ha
  | node l b m r hl hr =>
    obtain ⟨hol,hor,hle,hge⟩ := ho.node
    rw [locate]
    simp only [toList_node,List.mem_append,List.mem_cons] at ha
    split_ifs with hkb hlt
    · rfl
    · rcases ha with ha | rfl | ha
      · exact hl _ hol ha
      · exact absurd hk.symm hkb
      · exact absurd (hge a ha) (by rw [hk]; exact not_le.mpr hlt)
    · rcases ha with ha | rfl | ha
      · have := hle a ha
        rw [hk] at this
        exact absurd (le_antisymm this (not_lt.mp hlt)) hkb
      · exact absurd hk.symm hkb
      · exact hr _ hor ha

/-- All labels with the wanted key lie in the subtree where the search stops. -/
theorem mem_of_locate {k : κ} {t u : HTree α} {gs : List (Frame α)}
    (h : locate key k t [] = some (gs,u)) (ho : Ordered key t.toList)
    {a : α} (ha : a ∈ t.toList) (hk : key a = k) : a ∈ u.toList := by
  obtain ⟨hb,hf⟩ := locate_between key h ho (by simp) (by simp)
  have hp := (locate_plug key h).1
  rw [plug_nil] at hp
  rw [← hp,plug_toList] at ha
  simp only [List.mem_append] at ha
  rcases ha with (ha | ha) | ha
  · exact absurd hk (hb a ha).ne
  · exact ha
  · exact absurd hk (hf a ha).ne'

/-! ### Removal -/

theorem lastRight_plug (t : HTree α) (fs : List (Frame α)) :
    plug (lastRight t fs).1 (lastRight t fs).2 = plug fs t := by
  fun_induction lastRight t fs with
  | case1 fs => rfl
  | case2 l a h fs => rfl
  | case3 l a h rl b k rr fs ih => rw [ih]; rfl

theorem lastRight_after (t : HTree α) (fs : List (Frame α)) : after (lastRight t fs).1 = after fs := by
  fun_induction lastRight t fs with
  | case1 fs => rfl
  | case2 l a h fs => rfl
  | case3 l a h rl b k rr fs ih => rw [ih]; rfl

/-- The path is extended by a spine that depends on the tree alone. -/
theorem lastRight_append (t : HTree α) (fs gs : List (Frame α)) :
    lastRight t (fs++gs) = ((lastRight t fs).1++gs,(lastRight t fs).2) := by
  fun_induction lastRight t fs with
  | case1 fs => rfl
  | case2 l a h fs => rfl
  | case3 l a h rl b k rr fs ih => exact ih

theorem lastRight_node {t : HTree α} (ht : t ≠ nil) (fs : List (Frame α)) :
    ∃ pl p hp, (lastRight t fs).2 = node pl p hp nil := by
  fun_induction lastRight t fs with
  | case1 fs => exact absurd rfl ht
  | case2 l a h fs => exact ⟨l,a,h,rfl⟩
  | case3 l a h rl b k rr fs ih => exact ih (by simp)

@[simp] theorem removeRoot_nil (fs : List (Frame α)) (h : ℕ) (r : HTree α) :
    removeRoot fs nil h r = rebalance fs r := rfl

theorem removeRoot_eq (fs : List (Frame α)) (l : HTree α) (h : ℕ) (r : HTree α) :
    removeRoot fs l h r = rebalance (unlink fs l h r).1 (unlink fs l h r).2 := by
  unfold removeRoot unlink
  split <;> rfl

@[simp] theorem unlink_nil (fs : List (Frame α)) (h : ℕ) (r : HTree α) : unlink fs nil h r = (fs,r) := rfl

lemma unlink_of_lastRight {l pl pr : HTree α} {p : α} {hp : ℕ} {spine : List (Frame α)}
    (hl : lastRight l [] = (spine,node pl p hp pr)) (fs : List (Frame α)) (h : ℕ) (r : HTree α) :
    unlink fs l h r = (spine++.left p h r::fs,pl) := by
  simp [unlink,hl]

lemma before_append (fs gs : List (Frame α)) : before (fs++gs) = before gs ++ before fs := by
  induction fs with
  | nil => simp
  | cons f fs ih => simp [ih,List.append_assoc]

lemma after_append (fs gs : List (Frame α)) : after (fs++gs) = after fs ++ after gs := by
  induction fs with
  | nil => simp
  | cons f fs ih => simp [ih,List.append_assoc]

theorem unlink_toList (fs : List (Frame α)) (l : HTree α) (h : ℕ) (r : HTree α) :
    (plug (unlink fs l h r).1 (unlink fs l h r).2).toList = before fs ++ (l.toList ++ r.toList) ++ after fs := by
  by_cases hl : l = nil
  · subst hl; simp [plug_toList]
  · obtain ⟨pl,p,hp,he⟩ := lastRight_node hl []
    have hs : lastRight l [] = ((lastRight l []).1,node pl p hp nil) := Prod.ext rfl he
    have hplug := congrArg toList (lastRight_plug l [])
    have hafter := lastRight_after l []
    rw [he,plug_toList,hafter] at hplug
    simp only [toList_node,toList_nil,after_nil,List.append_nil,plug_nil] at hplug
    rw [unlink_of_lastRight hs,plug_toList,before_append,after_append,hafter,← hplug]
    simp [Frame.before,Frame.after,List.append_assoc]

theorem removeRoot_toList (fs : List (Frame α)) (l : HTree α) (h : ℕ) (r : HTree α) :
    (removeRoot fs l h r).toList = before fs ++ (l.toList ++ r.toList) ++ after fs := by
  rw [removeRoot_eq,rebalance_toList,← plug_toList,unlink_toList]

lemma stored_plug_congr (fs : List (Frame α)) {t u : HTree α} (h : t.stored = u.stored) :
    (plug fs t).stored = (plug fs u).stored := by
  induction fs generalizing t u with
  | nil => exact h
  | cons f fs ih => cases f <;> exact ih rfl

/-- Unlinking the root of a subtree of a valid tree changes the height of one place by at most one. -/
theorem unlink_offByOne (fs : List (Frame α)) (l : HTree α) (a : α) (h : ℕ) (r : HTree α) {B : ℕ}
    (hv : Valid (plug fs (node l a h r))) (hB : (plug fs (node l a h r)).stored ≤ B) :
    OffByOne B (unlink fs l h r).1 (unlink fs l h r).2 := by
  have hfocus := ((valid_plug _ _).mp hv).2
  obtain ⟨⟨h1,h2,h3⟩,hl,hr⟩ := hfocus
  by_cases hn : l = nil
  · subst hn
    simp only [stored_nil] at h1 h2 h3
    rw [unlink_nil]
    exact .of_valid hv hB hr (by simp only [stored_node]; omega) (by simp only [stored_node]; omega)
  · obtain ⟨pl,p,hp,he⟩ := lastRight_node hn []
    have hs : lastRight l [] = ((lastRight l []).1,node pl p hp nil) := Prod.ext rfl he
    have hplug := lastRight_plug l []
    rw [he,plug_nil] at hplug
    -- The label of the removed node plays no part in validity, so its place may carry `p`.
    have hw : Valid (plug ((lastRight l []).1++.left p h r::fs) (node pl p hp nil)) := by
      rw [plug_append,hplug,plug_cons,Frame.fill,valid_plug]
      exact ⟨((valid_plug _ _).mp hv).1,⟨h1,h2,h3⟩,hl,hr⟩
    have hB' : (plug ((lastRight l []).1++.left p h r::fs) (node pl p hp nil)).stored ≤ B := by
      rw [plug_append,hplug,plug_cons,Frame.fill,stored_plug_congr fs (t := node l p h r) (u := node l a h r) rfl]
      exact hB
    obtain ⟨_,⟨g1,g2,g3⟩,hpl,_⟩ := (valid_plug _ _).mp hw
    simp only [stored_nil] at g1 g2 g3
    rw [unlink_of_lastRight hs]
    exact .of_valid hw hB' hpl (by simp only [stored_node]; omega) (by simp only [stored_node]; omega)

/-- Removing the root of any subtree of a valid tree leaves a valid tree. -/
theorem removeRoot_valid (fs : List (Frame α)) (l : HTree α) (a : α) (h : ℕ) (r : HTree α)
    (hv : Valid (plug fs (node l a h r))) : Valid (removeRoot fs l h r) := by
  rw [removeRoot_eq]
  exact (unlink_offByOne fs l a h r hv le_rfl).rebalance_valid

end Foundations.HTree
