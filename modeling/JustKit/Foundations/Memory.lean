import Mathlib

/-! Memory as a partial map from addresses to records. A null pointer is `none`, and an access to
an address that holds no record has no result. -/
namespace Foundations

/-- Allocated records by address. -/
abbrev Mem (ρ : Type*) := ℕ → Option ρ

namespace Mem
variable {ρ : Type*}

/-- Update a record in place; it must be allocated. -/
def modify (m : Mem ρ) (a : ℕ) (f : ρ → ρ) : Option (Mem ρ) :=
  (m a).map fun x => Function.update m a (some (f x))

/-- Allocate, or overwrite, a whole record. -/
def put (m : Mem ρ) (a : ℕ) (x : ρ) : Mem ρ := Function.update m a (some x)

/-- Release a record. -/
def free (m : Mem ρ) (a : ℕ) : Mem ρ := Function.update m a none

theorem modify_eq {m : Mem ρ} {a : ℕ} {x : ρ} (h : m a = some x) (f : ρ → ρ) :
    m.modify a f = some (m.put a (f x)) := by simp [modify,put,h]

@[simp] theorem put_same (m : Mem ρ) (a : ℕ) (x : ρ) : m.put a x a = some x := by simp [put]
@[simp] theorem put_of_ne {a b : ℕ} (h : b ≠ a) (m : Mem ρ) (x : ρ) : m.put a x b = m b := by
  simp [put,h]
@[simp] theorem free_same (m : Mem ρ) (a : ℕ) : m.free a a = none := by simp [free]
@[simp] theorem free_of_ne {a b : ℕ} (h : b ≠ a) (m : Mem ρ) : m.free a b = m b := by simp [free,h]

@[simp] theorem put_put (m : Mem ρ) (a : ℕ) (x y : ρ) : (m.put a x).put a y = m.put a y := by
  simp [put]
theorem put_comm {a b : ℕ} (h : a ≠ b) (m : Mem ρ) (x y : ρ) :
    (m.put a x).put b y = (m.put b y).put a x := Function.update_comm h _ _ m

/-- An update keeps what it does not change in its record. -/
theorem modify_map {β : Type*} {m m' : Mem ρ} {a : ℕ} {f : ρ → ρ} {g : ρ → β} (hg : ∀ x, g (f x) = g x)
    (h : m.modify a f = some m') (b : ℕ) : (m' b).map g = (m b).map g := by
  obtain ⟨x,hx,rfl⟩ := Option.map_eq_some_iff.mp h
  by_cases hb : b = a
  · simp [hb,hx,hg]
  · rw [Function.update_of_ne hb]

end Mem
end Foundations
