import JustKit.Heaps.Capacity

/-! Whatever the comparison, elements are neither lost nor duplicated, down to `jk_heap_destroy`. -/
namespace JustKit.Heaps
open Foundations Foundations.HeapOrder
variable {α : Type} {heap : Heap α} {n : ℕ} {f : ℕ → α}

/-- The slots in use, one after the other. -/
lemma Slots.take (h : Slots heap.tree n f) : heap.tree.take n = (contents n f).map some := by
  apply List.ext_getElem?
  intro i
  rw [List.getElem?_take,contents,List.map_map,List.getElem?_map]
  by_cases hi : i < n
  · rw [if_pos hi,h i hi,List.getElem?_range hi]
    rfl
  · rw [if_neg hi,List.getElem?_eq_none (by rw [List.length_range]; omega)]
    rfl

/-- From position `i` on the loop passes the elements that are left, in their order. -/
lemma Holds.destroyLoop {i fuel : ℕ} (h : Holds heap n f) (hn : n < 2^30) (hi : i ≤ n) (hfuel : n-i < fuel) :
    destroyLoop heap fuel i = some ((List.range' i (n-i)).map f) := by
  induction fuel generalizing i with
  | zero => omega
  | succ fuel ih =>
    rw [Heaps.destroyLoop,h.used]
    by_cases hlt : i < n
    · have hnext : wrap 32 ((i : ℤ)+1) = (i+1 : ℕ) := wrap_of_range (w := 31) (by omega) (by omega)
      have hrest := ih (i := i+1) (by omega) (by omega)
      rw [if_pos (by omega),h.slots.get hlt,hnext,hrest,show n-i = (n-(i+1))+1 by omega,List.range'_succ]
      rfl
    · rw [if_neg (by omega),show n-i = 0 by omega]
      rfl

/-- `jk_heap_destroy` passes every element to the callback. -/
theorem Holds.destroy (h : Holds heap n f) (hn : n < 2^30) : heapDestroy heap true = some (contents n f) := by
  have hloop := h.destroyLoop (i := 0) hn (Nat.zero_le n) (show n-0 < n+1 by omega)
  rw [heapDestroy,if_pos rfl,h.used,Int.toNat_natCast,contents,List.range_eq_range']
  exact hloop

/-- Whatever the comparison and the answers of the allocator, every call of a run that keeps fewer than 2^30 elements
returns. After it the slots in use hold the elements that were inserted and not extracted, each as often, and
`jk_heap_destroy` passes exactly these to the callback. -/
theorem heap_conserves [Inhabited α] (comp : α → α → ℤ) (ops : List (Op α))
    (hb : KeepsBelow comp heapInit ops) :
    ∃ heap rs xs, run comp heapInit ops = some (heap,rs) ∧ heap.used = xs.length ∧
      heap.tree.take xs.length = xs.map some ∧
      (xs++rs.filterMap Outcome.taken).Perm (rs.filterMap Outcome.added) ∧ heapDestroy heap true = some xs := by
  obtain ⟨heap,rs,n,f,hrun,h,hperm,_⟩ := run_holds (holds_init fun _ => default) hb
  have hlen : (contents n f).length = n := by rw [contents,List.length_map,List.length_range]
  have hn : n < 2^30 := by
    have hlast := hb.last hrun
    rw [h.used] at hlast
    omega
  refine ⟨heap,rs,contents n f,hrun,?_,?_,?_,h.destroy hn⟩
  · rw [hlen]
    exact h.used
  · rw [hlen]
    exact h.slots.take
  · simpa [contents] using hperm

theorem heap_conserves_restless : ∃ heap rs xs, run (fun _ _ => 1) heapInit restlessRun = some (heap,rs) ∧
    heap.used = xs.length ∧ heap.tree.take xs.length = xs.map some ∧
    (xs++rs.filterMap Outcome.taken).Perm (rs.filterMap Outcome.added) ∧ heapDestroy heap true = some xs :=
  heap_conserves (fun _ _ => 1) restlessRun ((holds_init fun _ => 0).keepsBelow (by decide))

end JustKit.Heaps
