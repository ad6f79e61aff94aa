import Mathlib

/-! Computations that leave a log and may fail. What has been logged before a failure stays. -/
namespace Foundations

/-- A computation with a log. -/
abbrev Traced (τ β : Type) := OptionT (Writer (List τ)) β

namespace Traced
variable {τ β γ : Type}

/-- The result of a computation, if it does not fail. -/
def result (m : Traced τ β) : Option β := m.run.run.1

/-- What a computation has logged. -/
def log (m : Traced τ β) : List τ := m.run.run.2

/-- Log `t`, then go on if there is a result. -/
def step (t : τ) (r : Option β) : Traced τ β := OptionT.mk (WriterT.mk (r,[t]))

@[simp] theorem result_pure (b : β) : result (pure b : Traced τ β) = some b := rfl
@[simp] theorem log_pure (b : β) : log (pure b : Traced τ β) = [] := rfl
@[simp] theorem result_step (t : τ) (r : Option β) : result (step t r) = r := rfl
@[simp] theorem log_step (t : τ) (r : Option β) : log (step t r) = [t] := rfl

@[simp] theorem result_bind (m : Traced τ β) (f : β → Traced τ γ) :
    result (m >>= f) = (result m).bind fun b => result (f b) := by
  obtain ⟨r,l⟩ := m
  cases r <;> rfl

theorem log_bind {m : Traced τ β} {b : β} (h : result m = some b) (f : β → Traced τ γ) :
    log (m >>= f) = log m++log (f b) := by
  obtain ⟨r,l⟩ := m
  obtain rfl : r = some b := h
  rfl

/-- After a failure nothing is logged. -/
theorem log_bind_none {m : Traced τ β} (h : result m = none) (f : β → Traced τ γ) :
    log (m >>= f) = log m := by
  obtain ⟨r,l⟩ := m
  obtain rfl : r = none := h
  exact List.append_nil l

@[simp] theorem log_bind_pure (m : Traced τ β) (f : β → γ) : log (m >>= fun b => pure (f b)) = log m := by
  cases h : result m with
  | none => exact log_bind_none h _
  | some b => rw [log_bind h,log_pure,List.append_nil]

theorem log_subset_bind (m : Traced τ β) (f : β → Traced τ γ) : log m ⊆ log (m >>= f) := by
  cases h : result m with
  | none => exact (log_bind_none h f).symm ▸ List.Subset.refl _
  | some b =>
    rw [log_bind h]
    exact List.subset_append_left ..

/-- A loop whose passes do not fail, and log what depends on the item only. -/
theorem foldlM_eq {α : Type*} {f : β → α → Traced τ β} {g : β → α → β} {l : α → List τ}
    (hf : ∀ b a, result (f b a) = some (g b a) ∧ log (f b a) = l a) (as : List α) (b : β) :
    result (as.foldlM f b) = some (as.foldl g b) ∧ log (as.foldlM f b) = as.flatMap l := by
  induction as generalizing b with
  | nil => exact ⟨rfl,rfl⟩
  | cons a as ih =>
    obtain ⟨hr,hl⟩ := hf b a
    rw [List.foldlM_cons,result_bind,log_bind hr,hr,hl,Option.bind_some,List.foldl_cons,List.flatMap_cons]
    exact ⟨(ih _).1,congrArg (l a++·) (ih _).2⟩

end Traced

end Foundations
