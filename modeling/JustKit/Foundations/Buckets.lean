import Mathlib

/-! Tables of chains: the items of all chains, and how they change when one chain is replaced or items
are moved into other chains. -/
namespace Foundations
variable {α : Type*}

/-- The items of the first `n` chains. -/
def chained (n : ℕ) (b : ℕ → List α) : List α := (List.range n).flatMap b

theorem mem_chained {n : ℕ} {b : ℕ → List α} {a : α} : a ∈ chained n b ↔ ∃ i < n, a ∈ b i := by
  simp [chained]

theorem chained_nil (n : ℕ) : chained n (fun _ => ([] : List α)) = [] := by
  simp [chained]

/-- Replacing one chain changes one segment of the items. -/
theorem chained_update {n i : ℕ} (hi : i < n) (b : ℕ → List α) :
    ∃ xs ys, ∀ c, chained n (Function.update b i c) = xs++c++ys := by
  have hr : List.range n = List.range i ++ i::(List.range (n-i-1)).map (fun k => i+1+k) := by
    rw [show n = i+1+(n-i-1) by omega,List.range_add,List.range_succ]
    simp [show i+1+(n-i-1)-i-1 = n-i-1 by omega]
  refine ⟨(List.range i).flatMap b,((List.range (n-i-1)).map (fun k => i+1+k)).flatMap b,fun c => ?_⟩
  have hout : ∀ xs : List ℕ, i ∉ xs → xs.flatMap (Function.update b i c) = xs.flatMap b := by
    intro xs hx
    apply List.flatMap_congr
    intro k hk
    exact Function.update_of_ne (fun he : k = i => hx (he ▸ hk)) _ _
  rw [chained,hr,List.flatMap_append,List.flatMap_cons,Function.update_self,hout _ (by simp),
    hout _ (by simp; omega),List.append_assoc]

/-- Replacing the middle of one chain. -/
theorem chained_update_perm {n i : ℕ} (hi : i < n) (b : ℕ → List α) {xs ys zs : List α}
    (hb : b i = xs++ys++zs) (ys' : List α) : ∃ rest, (chained n b).Perm (ys++rest) ∧
      (chained n (Function.update b i (xs++ys'++zs))).Perm (ys'++rest) := by
  obtain ⟨us,vs,h⟩ := chained_update hi b
  have hself := h (b i)
  rw [Function.update_eq_self,hb] at hself
  have hp (ws : List α) : (us++(xs++ws++zs)++vs).Perm (ws++(us++xs++(zs++vs))) := by
    have he : us++(xs++ws++zs)++vs = us++xs++(ws++(zs++vs)) := by simp [List.append_assoc]
    rw [he]
    exact List.perm_append_comm_assoc _ _ _
  exact ⟨us++xs++(zs++vs),hself ▸ hp ys,h (xs++ys'++zs) ▸ hp ys'⟩

/-- Link an item to the front of the chain that it belongs to. -/
def pushFront (place : α → ℕ) (b : ℕ → List α) (a : α) : ℕ → List α :=
  Function.update b (place a) (a::b (place a))

theorem chained_pushFront {n : ℕ} {place : α → ℕ} (b : ℕ → List α) {a : α} (ha : place a < n) :
    (chained n (pushFront place b a)).Perm (a::chained n b) := by
  obtain ⟨rest,h1,h2⟩ := chained_update_perm ha b (show b (place a) = []++[]++b (place a) from rfl) [a]
  exact h2.trans (h1.symm.cons a)

theorem chained_refill {n : ℕ} {place : α → ℕ} (as : List α) (b : ℕ → List α)
    (ha : ∀ a ∈ as, place a < n) : (chained n (as.foldl (pushFront place) b)).Perm (as++chained n b) := by
  induction as generalizing b with
  | nil => rfl
  | cons a as ih =>
    have h := ih (pushFront place b a) fun c hc => ha c (List.mem_cons_of_mem _ hc)
    refine h.trans ((List.Perm.append_left _ (chained_pushFront b (ha a List.mem_cons_self))).trans ?_)
    exact List.perm_middle

/-- After refilling empty chains every item is in the chain that it belongs to. -/
theorem mem_refill {place : α → ℕ} (as : List α) (b : ℕ → List α) {i : ℕ} {a : α}
    (h : a ∈ as.foldl (pushFront place) b i) : a ∈ b i ∨ a ∈ as ∧ place a = i := by
  induction as generalizing b with
  | nil => exact Or.inl h
  | cons c as ih =>
    rcases ih _ h with h | ⟨h,hp⟩
    · by_cases hi : i = place c
      · subst hi
        simp only [pushFront,Function.update_self,List.mem_cons] at h
        rcases h with rfl | h
        · exact Or.inr ⟨List.mem_cons_self,rfl⟩
        · exact Or.inl h
      · rw [pushFront,Function.update_of_ne hi] at h
        exact Or.inl h
    · exact Or.inr ⟨List.mem_cons_of_mem _ h,hp⟩

end Foundations
