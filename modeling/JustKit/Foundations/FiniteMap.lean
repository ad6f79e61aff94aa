import Mathlib

/-! The bindings of a finite map under insertion and removal. -/
namespace Foundations
variable {α : Type*} {β : α → Type*}

theorem card_keys (m : Finmap β) : m.keys.card = Multiset.card m.entries := by
  rw [Finset.card_def]
  exact Multiset.card_map _ _

theorem mem_of_mem_entries {m : Finmap β} {a : α} {b : β a} (h : ⟨a,b⟩ ∈ m.entries) : a ∈ m :=
  Finmap.mem_def.mpr (Multiset.mem_map_of_mem Sigma.fst h)

variable [DecidableEq α]

theorem erase_entries {a : α} {m : Finmap β} {b : β a} {rest : Multiset (Sigma β)}
    (h : m.entries = ⟨a,b⟩ ::ₘ rest) : (m.erase a).entries = rest := by
  induction m using Finmap.induction_on with
  | _ s =>
    induction rest using Quotient.inductionOn with
    | _ r =>
      have hp : s.entries.Perm (⟨a,b⟩::r) := Multiset.coe_eq_coe.mp h
      have he := List.Perm.kerase (a := a) s.nodupKeys hp
      rw [List.kerase_cons_eq (s := ⟨a,b⟩) rfl] at he
      exact Multiset.coe_eq_coe.mpr he

theorem insert_entries (a : α) (b : β a) (m : Finmap β) :
    (m.insert a b).entries = ⟨a,b⟩ ::ₘ (m.erase a).entries := by
  induction m using Finmap.induction_on with
  | _ s => rfl

end Foundations
