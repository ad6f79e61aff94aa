import JustKit.Hash.Filed

/-! Tables whose keys have no NUL: the keys that a table cannot tell apart are equal, so an entry that a
search can find is the only one with its key. -/
namespace JustKit.Hash
open Foundations
variable {δ : Type}

/-- A filed table whose keys have no NUL. -/
structure Table.Sound (T : Table δ) : Prop where
  filed : T.Filed
  nulFree : ∀ {e}, e ∈ T.entries → NulFree e.key

section Sound
variable {T : Table δ} (h : T.Sound) {key : Key}
include h

lemma Table.Sound.absent (habsent : ∀ e ∈ T.entries, Same T.hash e.key key → 2^31 ≤ T.hash key) :
    ∀ e ∈ T.entries, e.key = key → 2^31 ≤ T.hash key :=
  fun e he hkey => habsent e he ((h.nulFree he).same_iff.mpr hkey)

/-- `jk_hash_find` returns the data of the entry with the key. -/
theorem Table.Sound.find (h0 : 0 ≤ T.hash key) :
    (∃ e ∈ T.entries, e.key = key ∧ T.hash key < 2^31 ∧ hashFind T key = some (.ok,some e.data)) ∨
    ((∀ e ∈ T.entries, e.key = key → 2^31 ≤ T.hash key) ∧ hashFind T key = some (.err,none)) := by
  rcases h.filed.find h0 with ⟨e,he,hs,hint,hf⟩ | ⟨habsent,hf⟩
  · exact Or.inl ⟨e,he,(h.nulFree he).same_iff.mp hs,hint,hf⟩
  · exact Or.inr ⟨h.absent habsent,hf⟩

end Sound
end JustKit.Hash
