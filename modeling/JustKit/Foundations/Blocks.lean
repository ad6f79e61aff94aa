import JustKit.Foundations.Memory

/-! Objects that own blocks of one memory. What is done to one object is done beside the rest of the memory, and the
other objects do not notice it. -/
namespace Foundations
variable {ρ τ : Type*} {rest m m' : Mem ρ} {B B' : List ℕ} {a : ℕ}

/-- The memory is `rest`, and beside it there are the blocks `B` at most. -/
structure Beside (rest m : Mem ρ) (B : List ℕ) : Prop where
  frame : ∀ a ∉ B, m a = rest a
  apart : ∀ a ∈ B, rest a = none

namespace Beside

theorem nil (m : Mem ρ) : Beside m m [] := ⟨fun _ _ => rfl,fun _ ha => absurd ha List.not_mem_nil⟩

theorem congr (h : Beside rest m B) (hout : ∀ a ∉ B, m' a = m a) : Beside rest m' B :=
  ⟨fun a ha => (hout a ha).trans (h.frame a ha),h.apart⟩

/-- The order of the blocks does not matter. -/
theorem of_mem_iff (h : Beside rest m B) (hmem : ∀ a, a ∈ B' ↔ a ∈ B) : Beside rest m B' :=
  ⟨fun a ha => h.frame a fun hb => ha ((hmem a).mpr hb),fun a ha => h.apart a ((hmem a).mp ha)⟩

/-- A write to one of the blocks. -/
theorem put (h : Beside rest m B) (ha : a ∈ B) (x : ρ) : Beside rest (m.put a x) B :=
  h.congr fun b hb => Mem.put_of_ne (fun he : b = a => hb (he ▸ ha)) m x

/-- A new block. -/
theorem alloc (h : Beside rest m B) (ha : m a = none) (x : ρ) : Beside rest (m.put a x) (a::B) := by
  constructor
  · intro b hb
    obtain ⟨hne,hb⟩ := not_or.mp fun hc => hb (List.mem_cons.mpr hc)
    rw [Mem.put_of_ne hne]
    exact h.frame b hb
  · intro b hb
    rcases List.mem_cons.mp hb with rfl | hb
    · by_cases hin : b ∈ B
      · exact h.apart b hin
      · exact (h.frame b hin).symm.trans ha
    · exact h.apart b hb

/-- A block is released. -/
theorem free (h : Beside rest m (a::B)) : Beside rest (m.free a) B := by
  constructor
  · intro b hb
    by_cases hba : b = a
    · subst hba
      rw [Mem.free_same,h.apart b List.mem_cons_self]
    · rw [Mem.free_of_ne hba]
      exact h.frame b fun hc => (List.mem_cons.mp hc).elim hba hb
  · exact fun b hb => h.apart b (List.mem_cons_of_mem a hb)

theorem eq_rest (h : Beside rest m []) : m = rest := funext fun a => h.frame a List.not_mem_nil

end Beside

theorem Mem.put_free (m : Mem ρ) (a : ℕ) (x : ρ) :
    Mem.put (m.free a) a x = m.put a x := by simp [Mem.put,Mem.free]

/-- The memory without some blocks. -/
def Mem.without (m : Mem ρ) (B : List ℕ) : Mem ρ := fun a => if a ∈ B then none else m a

theorem beside_without (m : Mem ρ) (B : List ℕ) : Beside (m.without B) m B :=
  ⟨fun _ ha => (if_neg ha).symm,fun _ ha => if_pos ha⟩

/-- Every object has its blocks, none has two owners, and there are no others. `Holds m o t B` says that the
blocks `B` make up the object `t` at `o`. -/
structure Owners (Holds : Mem ρ → ℕ → τ → List ℕ → Prop) (m : Mem ρ) (S : Mem τ)
    (B : ℕ → List ℕ) : Prop where
  holds : ∀ o t, S o = some t → Holds m o t (B o)
  disjoint : ∀ o o', S o ≠ none → S o' ≠ none → o ≠ o' → ∀ a ∈ B o, a ∉ B o'
  covers : ∀ a, m a ≠ none → ∃ o, S o ≠ none ∧ a ∈ B o

section Owners
variable {Holds : Mem ρ → ℕ → τ → List ℕ → Prop} {S : Mem τ} {Bs : ℕ → List ℕ}
  {o : ℕ} {t : τ} (hlocal : ∀ {m m' o t B}, Holds m o t B → (∀ a ∈ B, m' a = m a) → Holds m' o t B)
  (halloc : ∀ {m o t B}, Holds m o t B → ∀ a ∈ B, m a ≠ none)

theorem owners_empty : Owners Holds (fun _ => none) (fun _ => none) Bs :=
  ⟨fun _ _ ht => (nomatch ht),fun _ _ hn => absurd rfl hn,fun _ hn => absurd rfl hn⟩

include hlocal in
/-- Without the blocks of one object, the memory is that of the others. -/
theorem Owners.take (h : Owners Holds m S Bs) (ht : S o ≠ none) :
    Owners Holds (m.without (Bs o)) (S.free o) Bs := by
  have hother : ∀ o', S.free o o' ≠ none → o' ≠ o ∧ S o' ≠ none := by
    intro o' ho'
    have hne : o' ≠ o := fun he => ho' (he ▸ Mem.free_same S o)
    rw [Mem.free_of_ne hne] at ho'
    exact ⟨hne,ho'⟩
  refine ⟨?_,?_,?_⟩
  · intro o' t' ht'
    obtain ⟨hne,hn⟩ := hother o' (by simp [ht'])
    rw [Mem.free_of_ne hne] at ht'
    exact hlocal (h.holds o' t' ht') fun a ha => if_neg (h.disjoint o' o hn ht hne a ha)
  · exact fun o₁ o₂ h₁ h₂ => h.disjoint o₁ o₂ (hother o₁ h₁).2 (hother o₂ h₂).2
  · intro a ha
    by_cases hin : a ∈ Bs o
    · exact absurd (if_pos hin) ha
    · rw [Mem.without,if_neg hin] at ha
      obtain ⟨o',ho',hmem⟩ := h.covers a ha
      have hne : o' ≠ o := fun he => hin (he ▸ hmem)
      exact ⟨o',by rwa [Mem.free_of_ne hne],hmem⟩

include hlocal halloc in
/-- An object is put beside the others. -/
theorem Owners.give (h : Owners Holds rest S Bs) (ho : S o = none) (hb : Beside rest m B) (ht : Holds m o t B) :
    Owners Holds m (S.put o t) (Function.update Bs o B) := by
  have hout : ∀ o' t', S o' = some t' → ∀ a ∈ Bs o', a ∉ B := fun o' t' ht' a ha hin =>
    halloc (h.holds o' t' ht') a ha (hb.apart a hin)
  have hother : ∀ o', S.put o t o' ≠ none → o' ≠ o → S o' ≠ none :=
    fun o' ho' hne => by rwa [Mem.put_of_ne hne] at ho'
  refine ⟨?_,?_,?_⟩
  · intro o' t' ht'
    by_cases hne : o' = o
    · subst hne
      rw [Mem.put_same] at ht'
      rw [Function.update_self,← Option.some.inj ht']
      exact ht
    · rw [Mem.put_of_ne hne] at ht'
      rw [Function.update_of_ne hne]
      exact hlocal (h.holds o' t' ht') fun a ha => hb.frame a (hout o' t' ht' a ha)
  · intro o₁ o₂ h₁ h₂ hne a ha
    by_cases he₁ : o₁ = o
    · subst he₁
      obtain ⟨t₂,ht₂⟩ := Option.ne_none_iff_exists'.mp (hother o₂ h₂ (Ne.symm hne))
      rw [Function.update_self] at ha
      rw [Function.update_of_ne (Ne.symm hne)]
      exact fun ha₂ => hout o₂ t₂ ht₂ a ha₂ ha
    · obtain ⟨t₁,ht₁⟩ := Option.ne_none_iff_exists'.mp (hother o₁ h₁ he₁)
      rw [Function.update_of_ne he₁] at ha
      by_cases he₂ : o₂ = o
      · subst he₂
        rw [Function.update_self]
        exact hout o₁ t₁ ht₁ a ha
      · rw [Function.update_of_ne he₂]
        exact h.disjoint o₁ o₂ (hother o₁ h₁ he₁) (hother o₂ h₂ he₂) hne a ha
  · intro a ha
    by_cases hin : a ∈ B
    · exact ⟨o,by simp,by rwa [Function.update_self]⟩
    · rw [hb.frame a hin] at ha
      obtain ⟨o',ho',hmem⟩ := h.covers a ha
      have hne : o' ≠ o := fun he => ho' (he ▸ ho)
      exact ⟨o',by rwa [Mem.put_of_ne hne],by rwa [Function.update_of_ne hne]⟩

end Owners
/-- Every block has one holder, and there are no other blocks. -/
structure Held {ι : Type*} (m : Mem ρ) (B : ι → List ℕ) : Prop where
  nodup : ∀ i, (B i).Nodup
  alone : ∀ i k a, a ∈ B i → a ∈ B k → i = k
  covers : ∀ a, m a ≠ none ↔ ∃ i, a ∈ B i

namespace Held
variable {ι : Type*} {B B' : ι → List ℕ} {i k : ι}

theorem nothing (h : ∀ i, B i = []) : Held (fun _ => none : Mem ρ) B :=
  ⟨fun i => by simp [h i],fun i _ a ha => by simp [h i] at ha,fun a => by simp [h]⟩

theorem congr (h : Held m B) (hB : ∀ i, B' i = B i) : Held m B' := by
  obtain rfl : B' = B := funext hB
  exact h

/-- A write to a block. -/
theorem put (h : Held m B) (ha : a ∈ B i) (x : ρ) : Held (m.put a x) B := by
  refine ⟨h.nodup,h.alone,fun b => ?_⟩
  by_cases hb : b = a
  · subst hb
    exact iff_of_true (by simp) ⟨i,ha⟩
  · rw [Mem.put_of_ne hb]
    exact h.covers b

/-- A new block. -/
theorem alloc (h : Held m B) (ha : m a = none) (x : ρ) (hi : B' i = a::B i)
    (hrest : ∀ k, k ≠ i → B' k = B k) :
    Held (m.put a x) B' := by
  have hnew : ∀ k, a ∉ B k := fun k hk => (h.covers a).mpr ⟨k,hk⟩ ha
  have hmem : ∀ k b, b ∈ B' k ↔ k = i ∧ b = a ∨ b ∈ B k := by
    intro k b
    by_cases hk : k = i
    · rw [hk,hi,List.mem_cons]
      simp
    · rw [hrest k hk]
      simp [hk]
  refine ⟨fun k => ?_,fun k l b hk hl => ?_,fun b => ?_⟩
  · by_cases hk : k = i
    · rw [hk,hi]
      exact List.nodup_cons.mpr ⟨hnew i,h.nodup i⟩
    · rw [hrest k hk]
      exact h.nodup k
  · rcases (hmem k b).mp hk with ⟨rfl,rfl⟩ | hk <;> rcases (hmem l b).mp hl with ⟨rfl,hb⟩ | hl
    · rfl
    · exact absurd hl (hnew l)
    · exact absurd (hb ▸ hk) (hnew k)
    · exact h.alone k l b hk hl
  · simp only [hmem]
    by_cases hb : b = a
    · subst hb
      exact iff_of_true (by simp) ⟨i,Or.inl ⟨rfl,rfl⟩⟩
    · rw [Mem.put_of_ne hb]
      simpa [hb] using h.covers b

/-- A block is released. -/
theorem free (h : Held m B) (hi : B i = a::B' i) (hrest : ∀ k, k ≠ i → B' k = B k) : Held (m.free a) B' := by
  have hin : a ∈ B i := by
    rw [hi]
    exact List.mem_cons_self
  have hmem : ∀ k b, b ∈ B' k ↔ b ∈ B k ∧ b ≠ a := by
    intro k b
    by_cases hk : k = i
    · rw [hk,hi,List.mem_cons]
      have hn := h.nodup i
      rw [hi,List.nodup_cons] at hn
      constructor
      · exact fun hb => ⟨Or.inr hb,fun hba => hn.1 (hba ▸ hb)⟩
      · exact fun hb => hb.1.resolve_left hb.2
    · rw [hrest k hk]
      exact ⟨fun hb => ⟨hb,fun hba => hk (h.alone k i a (hba ▸ hb) hin)⟩,And.left⟩
  refine ⟨fun k => ?_,fun k l b hk hl => h.alone k l b ((hmem k b).mp hk).1 ((hmem l b).mp hl).1,fun b => ?_⟩
  · by_cases hk : k = i
    · have hn := h.nodup i
      rw [hi] at hn
      exact hk ▸ hn.of_cons
    · rw [hrest k hk]
      exact h.nodup k
  · simp only [hmem]
    by_cases hb : b = a
    · simp [hb]
    · rw [Mem.free_of_ne hb]
      simpa [hb] using h.covers b

/-- A block changes its holder. -/
theorem move (h : Held m B) (hne : k ≠ i) (hi : B i = a::B' i) (hk : B' k = a::B k)
    (hrest : ∀ l, l ≠ i → l ≠ k → B' l = B l) : Held m B' := by
  classical
  have hin : a ∈ B i := by
    rw [hi]
    exact List.mem_cons_self
  obtain ⟨x,hx⟩ := Option.ne_none_iff_exists'.mp ((h.covers a).mpr ⟨i,hin⟩)
  -- The block is released by one holder and allocated by the other, with its contents.
  have hfree : Held (m.free a) (Function.update B i (B' i)) :=
    h.free (by rw [Function.update_self,hi]) fun l hl => Function.update_of_ne hl _ _
  have hnew : B' k = a::Function.update B i (B' i) k := by rw [Function.update_of_ne hne,hk]
  have halloc := hfree.alloc (Mem.free_same m a) x hnew ?_
  · have hm : (m.free a).put a x = m := by
      rw [Mem.put_free]
      funext b
      by_cases hb : b = a
      · rw [hb,Mem.put_same,hx]
      · rw [Mem.put_of_ne hb]
    rwa [hm] at halloc
  · intro l hl
    by_cases hli : l = i
    · rw [hli,Function.update_self]
    · rw [Function.update_of_ne hli]
      exact hrest l hli hl

end Held

end Foundations
