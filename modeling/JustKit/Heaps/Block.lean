import JustKit.Foundations.HeapOrder
import JustKit.Heaps.Model

/-! The block of slots as a sequence, and the two loops as the sifts of that sequence. -/
namespace JustKit.Heaps
open Foundations Foundations.HeapOrder
variable {α : Type}

/-- The first `n` slots hold the sequence `f`. -/
def Slots (tree : List (Option α)) (n : ℕ) (f : ℕ → α) : Prop := ∀ i < n, tree[i]? = some (some (f i))

lemma Slots.le_length {tree : List (Option α)} {n : ℕ} {f : ℕ → α}
    (h : Slots tree n f) : n ≤ tree.length := by
  by_contra hn
  have hlast := h tree.length (not_le.mp hn)
  simp at hlast

lemma Slots.set {tree : List (Option α)} {n i : ℕ} {f : ℕ → α} (h : Slots tree n f) (hi : i < tree.length)
    (x : α) : Slots (tree.set i (some x)) n (Function.update f i x) := by
  intro j hj
  by_cases hij : j = i
  · subst hij
    simp [hi]
  · rw [List.getElem?_set_ne (Ne.symm hij),Function.update_of_ne hij]
    exact h j hj

/-- Storing behind the last element. -/
lemma Slots.push {tree : List (Option α)} {n : ℕ} {f : ℕ → α} (h : Slots tree n f) (hn : n < tree.length)
    (x : α) : Slots (tree.set n (some x)) (n+1) (Function.update f n x) := by
  intro j hj
  by_cases hij : j = n
  · subst hij
    simp [hn]
  · rw [List.getElem?_set_ne (Ne.symm hij),Function.update_of_ne hij]
    exact h j (by omega)

lemma Slots.mono {tree : List (Option α)} {m n : ℕ} {f : ℕ → α} (h : Slots tree n f) (hm : m ≤ n) :
    Slots tree m f := fun i hi => h i (hi.trans_le hm)

lemma Slots.resize {heap : Heap α} {n : ℕ} {f : ℕ → α} (h : Slots heap.tree n f) {nsize : ℤ}
    (hn : n ≤ nsize) :
    Slots (heap.resize nsize).tree n f := by
  intro i hi
  have hlen := h.le_length
  have hl : i < (heap.tree.take nsize.toNat).length := by
    rw [List.length_take]
    omega
  rw [Heap.resize,List.getElem?_append_left hl,List.getElem?_take_of_lt (by omega)]
  exact h i hi

lemma resize_length (heap : Heap α) (nsize : ℤ) : (heap.resize nsize).tree.length = nsize.toNat := by
  simp only [Heap.resize,List.length_append,List.length_take,List.length_replicate]
  omega

lemma Slots.get {heap : Heap α} {n i : ℕ} {f : ℕ → α} (h : Slots heap.tree n f) (hi : i < n) :
    heap.get (i : ℤ) = some (f i) := by
  rw [Heap.get,if_pos (by omega),Int.toNat_natCast,h i hi]
  rfl

lemma heap_set {heap : Heap α} {i : ℕ} (hi : i < heap.tree.length) (x : α) :
    heap.set (i : ℤ) x = some { heap with tree := heap.tree.set i (some x) } := by
  rw [Heap.set,if_pos ⟨by omega,by omega⟩,Int.toNat_natCast]

/-- A heap that differs in the contents of its slots only, which hold `f`. -/
structure Rearranged (heap heap' : Heap α) (n : ℕ) (f : ℕ → α) : Prop where
  used : heap'.used = heap.used
  size : heap'.size = heap.size
  length : heap'.tree.length = heap.tree.length
  slots : Slots heap'.tree n f

/-- The two assignments of an exchange. -/
lemma Slots.exchange {heap : Heap α} {n i j : ℕ} {f : ℕ → α} (h : Slots heap.tree n f) (hi : i < n)
    (hj : j < n) :
    ∃ h₁ h₂, heap.set (i : ℤ) (f j) = some h₁ ∧ h₁.set (j : ℤ) (f i) = some h₂ ∧
      Rearranged heap h₂ n (exchange f i j) := by
  have hlen := h.le_length
  have hi' : i < heap.tree.length := by omega
  have hj' : j < ({ heap with tree := heap.tree.set i (some (f j)) } : Heap α).tree.length := by
    simp only [List.length_set]
    omega
  refine ⟨_,_,heap_set hi' _,heap_set hj' _,rfl,rfl,by simp,?_⟩
  rw [exchange_eq_update]
  exact (h.set hi' _).set (by simp only [List.length_set]; omega) _

lemma heapParent_eq {i : ℕ} (hi : i < 2^31) : heapParent (i : ℤ) = (parent i : ℕ) := by
  have hw : wrap 32 ((i : ℤ)-1) = i-1 := wrap_of_range (w := 31) (by omega) (by omega)
  rw [heapParent,hw,parent]
  by_cases h0 : i = 0
  · subst h0
    decide
  · rw [Int.tdiv_eq_ediv_of_nonneg (by omega)]
    omega

lemma heapLeft_eq {i : ℕ} (hi : i < 2^30) : heapLeft (i : ℤ) = (2*i+1 : ℕ) := by
  have hw : wrap 32 ((i : ℤ)*2) = i*2 := wrap_of_range (w := 31) (by omega) (by omega)
  rw [heapLeft,hw,wrap_of_range (w := 31) (by omega) (by omega)]
  omega

lemma heapRight_eq {i : ℕ} (hi : i+1 < 2^30) : heapRight (i : ℤ) = (2*i+2 : ℕ) := by
  have hw : wrap 32 ((i : ℤ)*2) = i*2 := wrap_of_range (w := 31) (by omega) (by omega)
  rw [heapRight,hw,wrap_of_range (w := 31) (by omega) (by omega)]
  omega

/-- The loop of `jk_heap_insert` sifts up. -/
theorem siftUp_refines (comp : α → α → ℤ) {heap : Heap α} {n i fuel : ℕ} {f : ℕ → α}
    (h : Slots heap.tree n f) (hi : i < n) (hn : n ≤ 2^31) (hfuel : i < fuel) :
    ∃ heap', siftUp comp fuel heap i (heapParent i) = some heap' ∧
      Rearranged heap heap' n (HeapOrder.siftUp comp f i) := by
  induction fuel generalizing heap i f with
  | zero => omega
  | succ fuel ih =>
    rw [HeapOrder.siftUp,heapParent_eq (by omega),siftUp]
    by_cases h0 : 0 < i
    · have hp := parent_lt h0
      rw [if_pos (by omega),h.get (hp.trans hi),h.get hi]
      simp only [Option.bind_eq_bind,Option.bind_some]
      by_cases hlt : comp (f (parent i)) (f i) < 0
      · obtain ⟨h₁,h₂,e1,e2,hr⟩ := h.exchange hi (hp.trans hi)
        obtain ⟨h₃,e3,hr'⟩ := ih hr.slots (hp.trans hi) (by omega)
        rw [if_pos hlt,if_pos ⟨h0,hlt⟩,e1]
        simp only [Option.bind_some,e2]
        exact ⟨h₃,e3,hr'.used.trans hr.used,hr'.size.trans hr.size,hr'.length.trans hr.length,hr'.slots⟩
      · rw [if_neg hlt,if_neg fun hc => hlt hc.2]
        exact ⟨heap,rfl,rfl,rfl,rfl,h⟩
    · rw [if_neg (by omega),if_neg fun hc => h0 hc.1]
      exact ⟨heap,rfl,rfl,rfl,rfl,h⟩

lemma betterPos_eq (comp : α → α → ℤ) {heap : Heap α} {n j m : ℕ} {f : ℕ → α}
    (h : Slots heap.tree n f) (hused : heap.used = n) (hm : m < n) :
    betterPos comp heap (j : ℤ) (m : ℤ) = some ((better comp n f j m : ℕ) : ℤ) := by
  rw [betterPos,better,hused]
  by_cases hj : j < n
  · rw [if_pos (by omega),h.get hj,h.get hm]
    simp only [Option.bind_eq_bind,Option.bind_some,hj,true_and]
    split_ifs <;> rfl
  · rw [if_neg (by omega),if_neg fun hc => hj hc.1]

/-- The loop of `jk_heap_extract` sifts down. -/
theorem siftDown_refines (comp : α → α → ℤ) {heap : Heap α} {n i fuel : ℕ} {f : ℕ → α}
    (h : Slots heap.tree n f) (hused : heap.used = n) (hi : i < n) (hn : n < 2^30) (hfuel : n-i ≤ fuel) :
    ∃ heap', siftDown comp fuel heap i = some heap' ∧
      Rearranged heap heap' n (HeapOrder.siftDown comp n f i) := by
  induction fuel generalizing heap i f with
  | zero => omega
  | succ fuel ih =>
    have hm1 : better comp n f (2*i+1) i < n := by
      rw [better]
      split_ifs <;> omega
    rw [HeapOrder.siftDown,siftDown,heapLeft_eq (by omega),heapRight_eq (by omega),betterPos_eq comp h hused hi]
    simp only [Option.bind_eq_bind,Option.bind_some]
    rw [betterPos_eq comp h hused hm1]
    simp only [Option.bind_some,Int.natCast_inj]
    change ∃ heap', (if highest comp n f i = i then _ else _) = _ ∧ _
    by_cases hs : highest comp n f i = i
    · rw [if_pos hs,if_pos hs]
      exact ⟨heap,rfl,rfl,rfl,rfl,h⟩
    · obtain ⟨hlt,hmn,_⟩ := (highest_cases comp n f i).resolve_left hs
      obtain ⟨h₁,h₂,e1,e2,hr⟩ := h.exchange hmn hi
      obtain ⟨h₃,e3,hr'⟩ := ih hr.slots (hr.used.trans hused) hmn (by omega)
      rw [if_neg hs,if_neg hs,← HeapOrder.exchange_comm]
      refine ⟨h₃,?_,hr'.used.trans hr.used,hr'.size.trans hr.size,hr'.length.trans hr.length,hr'.slots⟩
      change ((heap.get ((highest comp n f i : ℕ) : ℤ)).bind fun m => _) = _
      rw [h.get hmn]
      simp only [Option.bind_some,h.get hi]
      change ((heap.set ((highest comp n f i : ℕ) : ℤ) (f i)).bind fun m => _) = _
      rw [e1]
      simp only [Option.bind_some,e2]
      exact e3

end JustKit.Heaps
