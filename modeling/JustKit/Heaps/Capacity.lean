import JustKit.Heaps.Runs

/-! The block is never left, whatever the comparison: a read or an assignment outside of it would end the run. -/
namespace JustKit.Heaps
open Foundations
variable {α : Type} {comp : α → α → ℤ} {heap heap' : Heap α}

/-- The extraction of the last element leaves the heap as it is after the attempt to resize it. -/
lemma Holds.extract_last {f : ℕ → α} (h : Holds heap 1 f) (comp : α → α → ℤ) (realloc : Bool) :
    heapExtract comp heap realloc = some (heapShrink { heap with used := 0 } realloc,0,some (f 0)) := by
  have htop : heap.get 0 = some (f 0) := h.slots.get (show 0 < 1 by omega)
  have hdec : wrap 32 (heap.used-1) = 0 := by
    rw [h.used]
    decide
  have hused : (heapShrink { heap with used := 0 } realloc).used = 0 := by
    unfold heapShrink
    split <;> rfl
  rw [heapExtract,if_neg (by rw [h.used]; decide),htop]
  simp only [Option.bind_eq_bind,Option.bind_some,hdec]
  change ((heap.get 0).bind fun save => _) = _
  rw [htop,Option.bind_some,if_pos hused]
  rfl

lemma heapShrink_size_pos (h : 1 ≤ heap.size) (realloc : Bool) :
    1 ≤ (heapShrink { heap with used := 0 } realloc).size := by
  unfold heapShrink extractSize
  rw [if_pos rfl]
  split
  · change (1 : ℤ) ≤ heapInitSize
    decide
  · exact h

/-- No call makes the block empty. -/
lemma Holds.exec_size_pos {n : ℕ} {f : ℕ → α} (h : Holds heap n f) (hn : n < 2^30) (hpos : 1 ≤ heap.size)
    {op : Op α} {r : Outcome α} (hexec : op.exec comp heap = some (heap',r)) : 1 ≤ heap'.size := by
  have hfilled : ∀ {g : Heap α} {m : ℕ} {f : ℕ → α}, Holds g (m+1) f → 1 ≤ g.size := by
    intro g m f hg
    have hle := hg.slots.le_length
    rw [hg.size]
    omega
  cases op with
  | insert data realloc =>
    obtain ⟨⟨g,ret⟩,hinsert,hres⟩ := Option.map_eq_some_iff.mp hexec
    obtain ⟨rfl,_⟩ := Prod.mk.inj hres
    by_cases hroom : heap.used < heap.size ∨ realloc = true
    · obtain ⟨g',heq,hg'⟩ := h.insert hn comp data hroom
      rw [heq] at hinsert
      cases hinsert
      exact hfilled hg'
    · rw [heapInsert_full hroom comp data] at hinsert
      cases hinsert
      exact hpos
  | extract realloc =>
    obtain ⟨⟨g,ret⟩,hextract,hres⟩ := Option.map_eq_some_iff.mp hexec
    obtain ⟨rfl,_⟩ := Prod.mk.inj hres
    match n with
    | 0 =>
      rw [h.extract_empty comp realloc] at hextract
      cases hextract
      exact hpos
    | 1 =>
      rw [h.extract_last comp realloc] at hextract
      cases hextract
      exact heapShrink_size_pos hpos realloc
    | n+2 =>
      obtain ⟨g',heq,hg'⟩ := h.extract (by omega) comp realloc
      rw [heq] at hextract
      cases hextract
      exact hfilled hg'

lemma run_size_pos {n : ℕ} {f : ℕ → α} {ops : List (Op α)} {rs : List (Outcome α)} (h : Holds heap n f)
    (hpos : 1 ≤ heap.size) (hb : KeepsBelow comp heap ops) (hrun : run comp heap ops = some (heap',rs)) :
    1 ≤ heap'.size := by
  induction ops generalizing heap n f rs with
  | nil =>
    cases hrun
    exact hpos
  | cons op ops ih =>
    have hn : n < 2^30 := by
      have hu := hb.1
      rw [h.used] at hu
      omega
    obtain ⟨⟨g,r⟩,hexec,hrest⟩ := Option.bind_eq_some_iff.mp hrun
    obtain ⟨⟨g',rs'⟩,hrun',hres⟩ := Option.bind_eq_some_iff.mp hrest
    cases hres
    obtain ⟨_,_,_,_,hexec',hg,_⟩ := h.exec hn comp op
    rw [hexec] at hexec'
    cases hexec'
    exact ih hg (h.exec_size_pos hn hpos hexec) (hb.2 g r hexec) hrun'

/-- Whatever the comparison and the answers of the allocator, no call of a run that keeps fewer than 2^30 elements
reads or writes outside of the block that it has at that time: the run does not end. After it the block is
as large as recorded, is not empty, and holds the elements. -/
theorem heap_in_bounds [Inhabited α] (comp : α → α → ℤ) (ops : List (Op α))
    (hb : KeepsBelow comp heapInit ops) :
    ∃ heap rs, run comp heapInit ops = some (heap,rs) ∧ 0 ≤ heap.used ∧ heap.used ≤ heap.size ∧
      1 ≤ heap.size ∧ heap.size = heap.tree.length := by
  obtain ⟨heap,rs,n,f,hrun,h,_⟩ := run_holds (holds_init fun _ => default) hb
  have hle := h.slots.le_length
  have hinit : (1 : ℤ) ≤ heapInitSize := by decide
  refine ⟨heap,rs,hrun,?_,?_,run_size_pos (holds_init fun _ => default) hinit hb hrun,h.size⟩
  · rw [h.used]
    omega
  · rw [h.used,h.size]
    omega

/-- A comparison that prefers whatever it is asked about. The block shrinks to 1 slot, and grows again. -/
def restlessRun : List (Op ℕ) :=
  [.insert 3 true,.insert 1 true,.insert 2 true,.extract true,.extract true,.insert 4 false,.insert 5 true,
    .extract false,.extract true,.extract true]

theorem heap_in_bounds_restless : ∃ heap rs, run (fun _ _ => 1) heapInit restlessRun = some (heap,rs) ∧
    0 ≤ heap.used ∧ heap.used ≤ heap.size ∧ 1 ≤ heap.size ∧ heap.size = heap.tree.length :=
  heap_in_bounds (fun _ _ => 1) restlessRun ((holds_init fun _ => 0).keepsBelow (by decide))

end JustKit.Heaps
