import Mathlib

/-! Multimaps whose entries of one key form a stack: a new entry hides the older ones, and the newest
one goes first. -/
namespace Foundations

/-- The entries, newest first. -/
abbrev Multimap (κ δ : Type*) := List (κ × δ)

namespace Multimap
variable {κ δ : Type*} [DecidableEq κ] {k : κ} {v : δ} {m ls rs : Multimap κ δ}

def insert (m : Multimap κ δ) (k : κ) (v : δ) : Multimap κ δ := (k,v)::m

/-- The newest value of the key. -/
def find (m : Multimap κ δ) (k : κ) : Option δ := (m.find? fun e => e.1 = k).map Prod.snd

/-- Remove the newest entry of the key. -/
def delete (m : Multimap κ δ) (k : κ) : Multimap κ δ := m.eraseP fun e => e.1 = k

/-- All values of the key, newest first. -/
def stack (m : Multimap κ δ) (k : κ) : List δ := (m.filter fun e => e.1 = k).map Prod.snd

theorem stack_append (m m' : Multimap κ δ) (k : κ) : stack (m++m') k = m.stack k++stack m' k := by
  simp [stack]

theorem stack_cons_self (m : Multimap κ δ) (k : κ) (v : δ) : stack ((k,v)::m) k = v::m.stack k := by
  simp [stack]

theorem stack_cons_of_ne (m : Multimap κ δ) {k k' : κ} (h : k ≠ k') (v : δ) :
    stack ((k,v)::m) k' = m.stack k' := by
  simp [stack,h]

theorem stack_eq_nil : m.stack k = [] ↔ ∀ e ∈ m, e.1 ≠ k := by simp [stack]

theorem find_eq_head (m : Multimap κ δ) (k : κ) : find m k = (m.stack k).head? := by
  simp [find,stack]

theorem stack_delete_self (m : Multimap κ δ) (k : κ) : stack (delete m k) k = (m.stack k).tail := by
  induction m with
  | nil => rfl
  | cons e m ih =>
    by_cases h : e.1 = k
    · simp [delete,stack,h]
    · simpa [delete,stack,h] using ih

theorem stack_delete_of_ne (m : Multimap κ δ) {k k' : κ} (h : k ≠ k') : stack (delete m k) k' = m.stack k' := by
  induction m with
  | nil => rfl
  | cons e m ih =>
    by_cases he : e.1 = k
    · simp [delete,stack,he,h]
    · by_cases he' : e.1 = k' <;> simpa [delete,stack,he,he',h.symm] using ih

theorem length_delete (h : m.stack k ≠ []) : (delete m k).length = m.length-1 := by
  have hm : ∃ e ∈ m, e.1 = k := by
    by_contra hc
    push Not at hc
    exact h (stack_eq_nil.mpr hc)
  obtain ⟨e,he,hk⟩ := hm
  exact List.length_eraseP_of_mem he (by simpa using hk)

/-- The same entries in an order that no key can tell apart. -/
structure Same (m m' : Multimap κ δ) : Prop where
  length : m.length = m'.length
  values : ∀ k, m.stack k = stack m' k

/-- An entry inserted behind entries of other keys is the newest one of its key. -/
theorem Same.insert (h : Same (ls++rs) m) (hl : ∀ e ∈ ls, e.1 ≠ k) (v : δ) :
    Same (ls++(k,v)::rs) (insert m k v) := by
  constructor
  · have hlen := h.length
    simp only [List.length_append,List.length_cons,Multimap.insert] at hlen ⊢
    omega
  · intro k'
    have hs := h.values k'
    rw [Multimap.insert,stack_append] at *
    by_cases hk : k = k'
    · subst hk
      rw [stack_cons_self,stack_cons_self,← hs,stack_eq_nil.mpr hl]
      rfl
    · rw [stack_cons_of_ne _ hk,stack_cons_of_ne _ hk,hs]

theorem Same.delete (h : Same (ls++(k,v)::rs) m) (hl : ∀ e ∈ ls, e.1 ≠ k) :
    Same (ls++rs) (delete m k) ∧ Multimap.find m k = some v := by
  have hself : m.stack k = v::stack rs k := by
    rw [← h.values,stack_append,stack_cons_self,stack_eq_nil.mpr hl]
    rfl
  refine ⟨⟨?_,fun k' => ?_⟩,by rw [find_eq_head,hself]; rfl⟩
  · rw [length_delete (by simp [hself]),← h.length]
    simp
  · by_cases hk : k = k'
    · subst hk
      rw [stack_delete_self,hself,stack_append,stack_eq_nil.mpr hl]
      rfl
    · rw [stack_delete_of_ne _ hk,← h.values,stack_append,stack_append,stack_cons_of_ne _ hk]

/-- No entry of the key before, and none after. -/
theorem Same.find_none {m' : Multimap κ δ} (h : Same m m') (hm : ∀ e ∈ m, e.1 ≠ k) :
    Multimap.find m' k = none := by
  rw [find_eq_head,← h.values,stack_eq_nil.mpr hm]
  rfl

end Multimap
end Foundations
