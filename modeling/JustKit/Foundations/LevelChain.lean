import Mathlib

/-! A sequence whose elements have levels, and its chains: the chain of level `i` consists of the
elements above `i`. The last element of a chain before a position and the first one after it. -/
namespace Foundations.LevelChain
variable {α : Type*} (level : α → ℕ) (i : ℕ)

/-- The last element above level `i`. -/
def lastAbove (xs : List α) : Option α := (xs.filter fun a => i < level a).getLast?

/-- The first element above level `i`. -/
def firstAbove (xs : List α) : Option α := (xs.filter fun a => i < level a).head?

@[simp] theorem lastAbove_nil : lastAbove level i ([] : List α) = none := rfl
@[simp] theorem firstAbove_nil : firstAbove level i ([] : List α) = none := rfl

theorem lastAbove_append (xs ys : List α) :
    lastAbove level i (xs++ys) = (lastAbove level i ys).or (lastAbove level i xs) := by
  simp [lastAbove,List.getLast?_append]

theorem firstAbove_append (xs ys : List α) :
    firstAbove level i (xs++ys) = (firstAbove level i xs).or (firstAbove level i ys) := by
  simp [firstAbove,List.head?_append]

theorem lastAbove_singleton (a : α) : lastAbove level i [a] = if i < level a then some a else none := by
  by_cases h : i < level a <;> simp [lastAbove,h]

theorem firstAbove_singleton (a : α) : firstAbove level i [a] = if i < level a then some a else none := by
  by_cases h : i < level a <;> simp [firstAbove,h]

variable {level i}

theorem mem_of_lastAbove {xs : List α} {a : α} (h : lastAbove level i xs = some a) : a ∈ xs ∧ i < level a := by
  have hm := List.mem_of_getLast? h
  simpa using hm

theorem mem_of_firstAbove {xs : List α} {a : α} (h : firstAbove level i xs = some a) : a ∈ xs ∧
    i < level a := by
  have hm := List.mem_of_head? h
  simpa using hm

theorem firstAbove_eq_none {xs : List α} : firstAbove level i xs = none ↔ ∀ a ∈ xs, level a ≤ i := by
  simp [firstAbove]

theorem lastAbove_eq_none {xs : List α} : lastAbove level i xs = none ↔ ∀ a ∈ xs, level a ≤ i := by
  simp [lastAbove]

theorem lastAbove_none_iff {xs : List α} : lastAbove level i xs = none ↔ firstAbove level i xs = none :=
  lastAbove_eq_none.trans firstAbove_eq_none.symm

/-- Up to the first element above the level there is none. -/
theorem split_first {xs : List α} {a : α} (h : firstAbove level i xs = some a) :
    ∃ ys zs, xs = ys++a::zs ∧ lastAbove level i ys = none ∧ i < level a := by
  induction xs with
  | nil => simp at h
  | cons x xs ih =>
    by_cases hx : i < level x
    · have hxa : x = a := by simpa [firstAbove,hx] using h
      subst hxa
      exact ⟨[],xs,rfl,rfl,hx⟩
    · obtain ⟨ys,zs,rfl,hn,ha⟩ := ih (by simpa [firstAbove,hx] using h)
      refine ⟨x::ys,zs,rfl,?_,ha⟩
      rw [lastAbove_eq_none] at hn ⊢
      exact List.forall_mem_cons.mpr ⟨not_lt.mp hx,hn⟩

/-- An element above a level ends a part of the sequence as its last one above a lower level. -/
theorem lastAbove_lower {xs : List α} {a : α} {j : ℕ} (h : lastAbove level i xs = some a) (hj : j ≤ i) :
    ∃ ys zs, xs = ys++zs ∧ lastAbove level j ys = some a := by
  obtain ⟨hm,ha⟩ := mem_of_lastAbove h
  obtain ⟨ys,zs,rfl⟩ := List.append_of_mem hm
  refine ⟨ys++[a],zs,by simp,?_⟩
  rw [lastAbove_append,lastAbove_singleton,if_pos (by omega)]
  rfl

theorem firstAbove_eq_head {xs : List α} (h : ∀ a ∈ xs, i < level a) : firstAbove level i xs = xs.head? := by
  have hf : xs.filter (fun a => i < level a) = xs := List.filter_eq_self.mpr fun a ha => by simpa using h a ha
  rw [firstAbove,hf]

end Foundations.LevelChain
