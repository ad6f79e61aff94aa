import JustKit.Heaps.Block

/-! Runs of insertions and extractions: the heap is a priority queue for every comparison that is a
total preorder. -/
namespace JustKit.Heaps
open Foundations Foundations.HeapOrder
variable {α : Type}

/-- The heap holds the first `n` elements of `f`, in a block of the recorded size. -/
structure Holds (heap : Heap α) (n : ℕ) (f : ℕ → α) : Prop where
  used : heap.used = n
  size : heap.size = heap.tree.length
  small : heap.tree.length < 2^30+10
  slots : Slots heap.tree n f

lemma holds_init (f : ℕ → α) : Holds heapInit 0 f :=
  ⟨rfl,rfl,by simp [heapInit,heapInitSize],fun _ hi => absurd hi (Nat.not_lt_zero _)⟩

/-- An insertion that does not return 0 changes nothing. -/
theorem heapInsert_refused {comp : α → α → ℤ} {heap heap' : Heap α} {data : α} {realloc : Bool} {r : ℤ}
    (h : heapInsert comp heap data realloc = some (heap',r)) (hr : r ≠ 0) : heap' = heap := by
  rw [heapInsert] at h
  split at h
  · cases h
    rfl
  · simp only [Option.bind_eq_bind,Option.bind_eq_some_iff] at h
    obtain ⟨h₁,_,h₂,_,h3⟩ := h
    cases h3
    exact absurd rfl hr

/-- A block that is not full, or can grow, has room for one more element. -/
lemma Holds.expand {heap : Heap α} {n : ℕ} {f : ℕ → α} (h : Holds heap n f) (hn : n < 2^30) {realloc : Bool}
    (hroom : heap.used < heap.size ∨ realloc = true) :
    ∃ heap', heapExpand heap realloc = some heap' ∧ Holds heap' n f ∧ n < heap'.tree.length := by
  have hused := h.used
  have hsize := h.size
  have hle := h.slots.le_length
  rw [heapExpand]
  by_cases hfull : heap.size ≤ heap.used
  · have hw : wrap 32 (heap.size+heapIncrSize) = heap.size+10 :=
      wrap_of_range (w := 31) (by rw [heapIncrSize]; omega) (by rw [heapIncrSize]; omega)
    have hlen := resize_length heap (heap.size+10)
    obtain rfl : realloc = true := hroom.resolve_left (not_lt.mpr hfull)
    rw [if_pos hfull,hw,if_pos rfl]
    refine ⟨_,rfl,⟨hused,?_,by omega,h.slots.resize (by omega)⟩,by omega⟩
    rw [hlen]
    simp only [Heap.resize]
    omega
  · rw [if_neg hfull]
    exact ⟨heap,rfl,h,by omega⟩

lemma heapExpand_refused {heap : Heap α} {realloc : Bool} (hroom : ¬(heap.used < heap.size ∨ realloc = true)) :
    heapExpand heap realloc = none := by
  obtain ⟨hfull,hno⟩ := not_or.mp hroom
  rw [heapExpand,if_pos (not_lt.mp hfull),if_neg hno]

/-- `jk_heap_insert` sifts the new element up where there is room for it. -/
theorem Holds.insert {heap : Heap α} {n : ℕ} {f : ℕ → α} (h : Holds heap n f) (hn : n < 2^30)
    (comp : α → α → ℤ) (data : α) {realloc : Bool} (hroom : heap.used < heap.size ∨ realloc = true) :
    ∃ heap', heapInsert comp heap data realloc = some (heap',0) ∧
      Holds heap' (n+1) (HeapOrder.siftUp comp (Function.update f n data) n) := by
  obtain ⟨g,he,hg,hgn⟩ := h.expand hn hroom
  have hslots : Slots ({ g with tree := g.tree.set n (some data) } : Heap α).tree (n+1)
      (Function.update f n data) :=
    hg.slots.push hgn data
  obtain ⟨g',e1,hr⟩ := siftUp_refines comp hslots (show n < n+1 by omega) (by omega) (show n < n+1 by omega)
  have hlen : g'.tree.length = g.tree.length := hr.length.trans (by simp)
  refine ⟨{ g' with used := wrap 32 (g'.used+1) },?_,?_,?_,?_,hr.slots⟩
  · simp only [hg.used] at e1
    rw [heapInsert,he]
    simp only [Option.bind_eq_bind,hg.used,heap_set hgn,Option.bind_some,Int.toNat_natCast,e1]
    rfl
  · have hu : g'.used = n := hr.used.trans hg.used
    rw [hu,wrap_of_range (w := 31) (by omega) (by omega)]
    push_cast
    rfl
  · exact hr.size.trans (hg.size.trans (by rw [hlen]))
  · exact hlen ▸ hg.small

/-- It refuses the element where there is none. -/
lemma heapInsert_full {heap : Heap α} {realloc : Bool} (hroom : ¬(heap.used < heap.size ∨ realloc = true))
    (comp : α → α → ℤ) (data : α) : heapInsert comp heap data realloc = some (heap,-1) := by
  rw [heapInsert,heapExpand_refused hroom]

/-- The contents after a successful insertion, and their order. -/
lemma inserted_spec (comp : α → α → ℤ) (n : ℕ) (f : ℕ → α) (data : α) :
    (contents (n+1) (HeapOrder.siftUp comp (Function.update f n data) n)).Perm (contents n f++[data]) ∧
      (IsPreorder comp → HeapOrder.Ordered comp n f →
        HeapOrder.Ordered comp (n+1) (HeapOrder.siftUp comp (Function.update f n data) n)) := by
  have hp := siftUp_perm comp (Function.update f n data) (show n < n+1 by omega)
  rw [contents_append] at hp
  exact ⟨hp,fun hc ho => siftUp_ordered hc (ho.append data) (by omega)⟩

/-- The block stays large enough for its elements, whether it is resized or not. -/
lemma heapShrink_slots (heap : Heap α) {n : ℕ} {f : ℕ → α} (h : Slots heap.tree n f) (hused : heap.used = n)
    (hsize : heap.size = heap.tree.length) (realloc : Bool) : (heapShrink heap realloc).used = n ∧
      (heapShrink heap realloc).size = (heapShrink heap realloc).tree.length ∧
      Slots (heapShrink heap realloc).tree n f := by
  have hle := h.le_length
  have hext : n ≤ extractSize heap := by
    rw [extractSize,heapInitSize]
    split_ifs <;> omega
  have hlen := resize_length heap (extractSize heap)
  rw [heapShrink]
  split_ifs
  · refine ⟨hused,?_,h.resize hext⟩
    rw [hlen]
    simp only [Heap.resize]
    omega
  · exact ⟨hused,hsize,h⟩

lemma Holds.shrink {heap : Heap α} {n : ℕ} {f : ℕ → α} (h : Holds heap n f) (realloc : Bool) :
    Holds (heapShrink heap realloc) n f := by
  obtain ⟨hused,hsize,hslots⟩ := heapShrink_slots heap h.slots h.used h.size realloc
  refine ⟨hused,hsize,?_,hslots⟩
  have hu := h.used
  have hs := h.size
  have hsmall := h.small
  have hlen := resize_length heap (extractSize heap)
  have hext : extractSize heap < 2^30+10 := by
    rw [extractSize,heapInitSize]
    split_ifs <;> omega
  rw [heapShrink]
  split_ifs
  · omega
  · exact hsmall

lemma Holds.extract_empty {heap : Heap α} {f : ℕ → α} (h : Holds heap 0 f) (comp : α → α → ℤ)
    (realloc : Bool) :
    heapExtract comp heap realloc = some (heap,-1,none) := by
  rw [heapExtract,h.used]
  rfl

/-- `jk_heap_extract` hands out the top and sifts the last element down from there. -/
theorem Holds.extract {heap : Heap α} {n : ℕ} {f : ℕ → α} (h : Holds heap (n+1) f) (hn : n < 2^30)
    (comp : α → α → ℤ) (realloc : Bool) :
    ∃ heap', heapExtract comp heap realloc = some (heap',0,some (f 0)) ∧
      Holds heap' n (HeapOrder.siftDown comp n (Function.update f 0 (f n)) 0) := by
  have hused := h.used
  have hdec : wrap 32 (heap.used-1) = n := by
    rw [hused,wrap_of_range (w := 31) (by omega) (by omega)]
    omega
  have htop : heap.get 0 = some (f 0) := h.slots.get (show 0 < n+1 by omega)
  have hsave : ({ heap with used := (n : ℤ) } : Heap α).get n = some (f n) :=
    h.slots.get (show n < n+1 by omega)
  have hdrop : Holds ({ heap with used := (n : ℤ) } : Heap α) n f :=
    ⟨rfl,h.size,h.small,h.slots.mono (by omega)⟩
  have hg := hdrop.shrink realloc
  have hrun : heapExtract comp heap realloc =
      if (heapShrink { heap with used := (n : ℤ) } realloc).used = 0 then
        some (heapShrink { heap with used := (n : ℤ) } realloc,0,some (f 0))
      else ((heapShrink { heap with used := (n : ℤ) } realloc).set 0 (f n)).bind fun heap =>
        (siftDown comp heap.used.toNat heap 0).bind fun heap => some (heap,0,some (f 0)) := by
    rw [heapExtract,if_neg (by omega),htop]
    simp only [Option.bind_eq_bind,Option.bind_some,hdec,hsave]
    rfl
  rw [hrun]
  generalize heapShrink { heap with used := (n : ℤ) } realloc = g at hg
  by_cases h0 : n = 0
  · subst h0
    rw [if_pos (show g.used = 0 from hg.used)]
    exact ⟨g,rfl,hg.used,hg.size,hg.small,fun _ hi => absurd hi (Nat.not_lt_zero _)⟩
  · have hpos : 0 < g.tree.length := by have := hg.slots.le_length; omega
    have hset : g.set 0 (f n) = some { g with tree := g.tree.set 0 (some (f n)) } := heap_set hpos _
    have hslots : Slots ({ g with tree := g.tree.set 0 (some (f n)) } : Heap α).tree n
      (Function.update f 0 (f n)) := hg.slots.set hpos (f n)
    obtain ⟨g',e1,hr⟩ := siftDown_refines comp hslots hg.used (show 0 < n by omega) hn le_rfl
    rw [if_neg (by rw [hg.used]; omega),hset]
    simp only [Option.bind_some,hg.used,Int.toNat_natCast]
    simp only [hg.used,Nat.sub_zero] at e1
    refine ⟨g',?_,hr.used.trans hg.used,?_,?_,hr.slots⟩
    · change (siftDown comp n _ ((0 : ℕ) : ℤ)).bind _ = _
      rw [e1]
      rfl
    · exact hr.size.trans (hg.size.trans (by rw [hr.length]; simp))
    · rw [hr.length]
      simpa using hg.small

/-- One call, with the answer of the allocator. -/
inductive Op (α : Type) where
  | insert (data : α) (realloc : Bool)
  | extract (realloc : Bool)

/-- What a call has done. -/
inductive Outcome (α : Type) where
  | inserted (data : α)
  | refused (data : α)
  | extracted (data : α)
  | empty
  deriving Repr, DecidableEq

def Outcome.added : Outcome α → Option α
  | .inserted data => some data
  | _ => none

def Outcome.taken : Outcome α → Option α
  | .extracted data => some data
  | _ => none

def Op.exec (comp : α → α → ℤ) (heap : Heap α) : Op α → Option (Heap α × Outcome α)
  | .insert data realloc => (heapInsert comp heap data realloc).map fun r =>
    (r.1,if r.2 = 0 then .inserted data else .refused data)
  | .extract realloc => (heapExtract comp heap realloc).map fun r =>
    (r.1,match r.2.2 with | some data => .extracted data | none => .empty)

def run (comp : α → α → ℤ) (heap : Heap α) : List (Op α) → Option (Heap α × List (Outcome α))
  | [] => some (heap,[])
  | op::ops => do
    let (heap,r) ← op.exec comp heap
    let (heap,rs) ← run comp heap ops
    return (heap,r::rs)

/-- Fewer than 2^30 elements before and after every call. -/
def KeepsBelow (comp : α → α → ℤ) (heap : Heap α) : List (Op α) → Prop
  | [] => heap.used < 2^30
  | op::ops => heap.used < 2^30 ∧ ∀ heap' r, op.exec comp heap = some (heap',r) → KeepsBelow comp heap' ops

lemma KeepsBelow.head {comp : α → α → ℤ} {heap : Heap α} {ops : List (Op α)}
    (h : KeepsBelow comp heap ops) : heap.used < 2^30 := by
  cases ops with
  | nil => exact h
  | cons op ops => exact h.1

lemma KeepsBelow.of_prefix {comp : α → α → ℤ} {heap : Heap α} {pre ops : List (Op α)}
    (h : KeepsBelow comp heap ops) (hp : pre <+: ops) : KeepsBelow comp heap pre := by
  induction pre generalizing heap ops with
  | nil => exact h.head
  | cons op pre ih =>
    obtain ⟨rest,rfl⟩ := hp
    exact ⟨h.1,fun heap' r hr => ih (h.2 heap' r hr) ⟨rest,rfl⟩⟩

lemma KeepsBelow.last {comp : α → α → ℤ} {heap heap' : Heap α} {ops : List (Op α)} {rs : List (Outcome α)}
    (h : KeepsBelow comp heap ops) (hrun : run comp heap ops = some (heap',rs)) : heap'.used < 2^30 := by
  induction ops generalizing heap rs with
  | nil =>
    cases hrun
    exact h
  | cons op ops ih =>
    simp only [run,Option.bind_eq_bind,Option.bind_eq_some_iff] at hrun
    obtain ⟨⟨h₁,r⟩,e1,⟨h₂,rs'⟩,e2,e3⟩ := hrun
    cases e3
    exact ih (h.2 h₁ r e1) e2

/-- One call keeps the heap and moves elements between it and the caller only. -/
theorem Holds.exec {heap : Heap α} {n : ℕ} {f : ℕ → α} (h : Holds heap n f) (hn : n < 2^30)
    (comp : α → α → ℤ) (op : Op α) :
    ∃ heap' r m g, op.exec comp heap = some (heap',r) ∧ Holds heap' m g ∧
      (contents m g++r.taken.toList).Perm (contents n f++r.added.toList) ∧
      (IsPreorder comp → HeapOrder.Ordered comp n f → HeapOrder.Ordered comp m g) := by
  cases op with
  | insert data realloc =>
    by_cases hroom : heap.used < heap.size ∨ realloc = true
    · obtain ⟨heap',he,hh⟩ := h.insert hn comp data hroom
      obtain ⟨hp,hord⟩ := inserted_spec comp n f data
      refine ⟨heap',.inserted data,n+1,_,by simp [Op.exec,he],hh,?_,hord⟩
      simpa [Outcome.taken,Outcome.added] using hp
    · have he := heapInsert_full hroom comp data
      exact ⟨heap,.refused data,n,f,by simp [Op.exec,he],h,List.Perm.refl _,fun _ ho => ho⟩
  | extract realloc =>
    cases n with
    | zero =>
      exact ⟨heap,.empty,0,f,by simp [Op.exec,h.extract_empty comp realloc],h,List.Perm.refl _,fun _ ho => ho⟩
    | succ n =>
      obtain ⟨heap',he,hh⟩ := h.extract (by omega) comp realloc
      refine ⟨heap',.extracted (f 0),n,_,by simp [Op.exec,he],hh,?_,fun hc ho => ?_⟩
      · simp only [Outcome.taken,Outcome.added,Option.toList_some,Option.toList_none,List.append_nil]
        refine (List.perm_append_singleton _ _).trans ?_
        cases n with
        | zero => simp [contents]
        | succ n =>
          have hp := siftDown_perm comp (Function.update f 0 (f (n+1))) (show 0 < n+1 by omega)
          exact (hp.cons _).trans (contents_replaceTop (by omega) f).symm
      · exact siftDown_ordered hc (ho.replaceTop (f n))

/-- Fewer than 2^30 calls keep fewer than 2^30 elements. -/
lemma Holds.keepsBelow {comp : α → α → ℤ} {heap : Heap α} {n : ℕ} {f : ℕ → α} {ops : List (Op α)}
    (h : Holds heap n f) (hlen : n+ops.length < 2^30) : KeepsBelow comp heap ops := by
  have hused := h.used
  induction ops generalizing heap n f with
  | nil =>
    rw [List.length_nil] at hlen
    rw [KeepsBelow]
    omega
  | cons op ops ih =>
    rw [List.length_cons] at hlen
    refine ⟨by omega,fun heap' r hexec => ?_⟩
    obtain ⟨_,_,m,g,hexec',hg,hperm,_⟩ := h.exec (by omega) comp op
    rw [hexec] at hexec'
    cases hexec'
    have hcount := hperm.length_eq
    have hadded : r.added.toList.length ≤ 1 := Option.length_toList_le
    simp only [contents,List.length_append,List.length_map,List.length_range] at hcount
    exact ih hg (by omega) hg.used

theorem run_holds {comp : α → α → ℤ} {heap : Heap α} {n : ℕ} {f : ℕ → α} {ops : List (Op α)}
    (h : Holds heap n f) (hb : KeepsBelow comp heap ops) :
    ∃ heap' rs m g, run comp heap ops = some (heap',rs) ∧ Holds heap' m g ∧
      (contents m g++rs.filterMap Outcome.taken).Perm (contents n f++rs.filterMap Outcome.added) ∧
      (IsPreorder comp → HeapOrder.Ordered comp n f → HeapOrder.Ordered comp m g) := by
  induction ops generalizing heap n f with
  | nil => exact ⟨heap,[],n,f,rfl,h,List.Perm.refl _,fun _ ho => ho⟩
  | cons op ops ih =>
    have hn : n < 2^30 := by
      have hu := hb.1
      rw [h.used] at hu
      omega
    obtain ⟨h₁,r,m₁,g₁,e1,hh1,hp1,ho1⟩ := h.exec hn comp op
    obtain ⟨h₂,rs,m₂,g₂,e2,hh2,hp2,ho2⟩ := ih hh1 (hb.2 h₁ r e1)
    refine ⟨h₂,r::rs,m₂,g₂,by simp [run,e1,e2],hh2,?_,fun hc ho => ho2 hc (ho1 hc ho)⟩
    have hcons (p : Outcome α → Option α) : (r::rs).filterMap p = (p r).toList++rs.filterMap p := by
      cases hr : p r <;> simp [hr]
    rw [hcons,hcons]
    refine (List.perm_append_comm_assoc _ _ _).trans ((hp2.append_left _).trans ?_)
    refine (List.perm_append_comm_assoc _ _ _).trans ?_
    rw [← List.append_assoc,← List.append_assoc]
    exact hp1.append_right _

/-- Draining the heap hands out its contents, the highest first. -/
theorem Holds.drain {comp : α → α → ℤ} (hc : IsPreorder comp) {heap : Heap α} {n : ℕ} {f : ℕ → α}
    (h : Holds heap n f) (ho : HeapOrder.Ordered comp n f) (hn : n < 2^30) (reallocs : List Bool)
    (hlen : reallocs.length = n) :
    ∃ (heap' : Heap α) (ys : List α), run comp heap (reallocs.map Op.extract) =
      some (heap',ys.map Outcome.extracted) ∧ heap'.used = 0 ∧ ys.Perm (contents n f) ∧
      ys.Pairwise fun a b => 0 ≤ comp a b := by
  induction reallocs generalizing heap n f with
  | nil =>
    subst hlen
    exact ⟨heap,[],rfl,h.used,List.Perm.refl _,List.Pairwise.nil⟩
  | cons realloc reallocs ih =>
    obtain ⟨n,rfl⟩ : ∃ m, n = m+1 := ⟨n-1,by simp at hlen; omega⟩
    obtain ⟨h₁,e1,hh1⟩ := h.extract (by omega) comp realloc
    have hexec : (Op.extract realloc).exec comp heap = some (h₁,.extracted (f 0)) := by simp [Op.exec,e1]
    obtain ⟨h₁',r,m,g,e1',hh1',hp,hord⟩ := h.exec hn comp (Op.extract realloc)
    obtain ⟨rfl,rfl⟩ : h₁' = h₁ ∧ r = .extracted (f 0) := by
      rw [hexec] at e1'
      cases e1'
      exact ⟨rfl,rfl⟩
    have hm : m = n := by
      have hu := hh1'.used.symm.trans hh1.used
      omega
    subst hm
    have hp' : (contents m g++[f 0]).Perm (contents (m+1) f) := by
      simpa [Outcome.taken,Outcome.added] using hp
    obtain ⟨h₂,ys,e2,hu,hys,hs⟩ := ih hh1' (hord hc ho) (by omega) (by simpa using hlen)
    refine ⟨h₂,f 0::ys,by simp [run,hexec,e2],hu,?_,List.pairwise_cons.mpr ⟨?_,hs⟩⟩
    · exact (hys.cons _).trans ((List.perm_append_singleton _ _).symm.trans hp')
    · intro y hy
      have hmem : y ∈ contents (m+1) f := hp'.mem_iff.mp (List.mem_append_left _ (hys.mem_iff.mp hy))
      obtain ⟨i,hi,rfl⟩ := List.mem_map.mp hmem
      exact ho.top hc (List.mem_range.mp hi)

/-- The heap is a priority queue. After every call of a run that keeps fewer than 2^30 elements the heap is
ordered and holds what was inserted and not extracted. An insertion returns 0 and adds its element where the block
has room or can grow, and else it returns -1 and changes nothing; an extraction hands out an element not below any
that is left, and draining yields a sorted sequence. -/
theorem heap_priority_queue [Inhabited α] {comp : α → α → ℤ} (hc : IsPreorder comp) (ops pre : List (Op α))
    (hb : KeepsBelow comp heapInit ops) (hp : pre <+: ops) :
    ∃ heap rs n f, run comp heapInit pre = some (heap,rs) ∧ Holds heap n f ∧ HeapOrder.Ordered comp n f ∧
      (contents n f++rs.filterMap Outcome.taken).Perm (rs.filterMap Outcome.added) ∧
      (∀ data realloc, heap.used < heap.size ∨ realloc = true → ∃ heap' g,
        heapInsert comp heap data realloc = some (heap',0) ∧ Holds heap' (n+1) g ∧
        HeapOrder.Ordered comp (n+1) g ∧ (contents (n+1) g).Perm (contents n f++[data])) ∧
      (∀ data realloc, ¬(heap.used < heap.size ∨ realloc = true) →
        heapInsert comp heap data realloc = some (heap,-1)) ∧
      (∀ data realloc heap', heapInsert comp heap data realloc = some (heap',-1) → heap' = heap) ∧
      (∀ realloc heap' x, heapExtract comp heap realloc = some (heap',0,some x) →
        ∃ m g, Holds heap' m g ∧ (x::contents m g).Perm (contents n f) ∧
        ∀ y ∈ contents m g, 0 ≤ comp x y) ∧
      ∀ reallocs : List Bool, reallocs.length = n → ∃ (heap' : Heap α) (ys : List α),
        run comp heap (reallocs.map Op.extract) = some (heap',ys.map Outcome.extracted) ∧ heap'.used = 0 ∧
          ys.Perm (contents n f) ∧ ys.Pairwise fun a b => 0 ≤ comp a b := by
  have hbelow := hb.of_prefix hp
  obtain ⟨heap,rs,n,f,e1,hh,hperm,hord⟩ := run_holds (holds_init fun _ => default) hbelow
  have ho := hord hc fun i _ hi => absurd hi (Nat.not_lt_zero _)
  have hn : n < 2^30 := by
    have hu := hbelow.last e1
    rw [hh.used] at hu
    omega
  refine ⟨heap,rs,n,f,e1,hh,ho,by simpa [contents] using hperm,?_,?_,?_,?_,fun reallocs =>
    hh.drain hc ho hn reallocs⟩
  · intro data realloc hroom
    obtain ⟨heap',he,hh'⟩ := hh.insert hn comp data hroom
    obtain ⟨hcontents,hordered⟩ := inserted_spec comp n f data
    exact ⟨heap',_,he,hh',hordered hc ho,hcontents⟩
  · intro data realloc hroom
    exact heapInsert_full hroom comp data
  · intro data realloc heap' he
    exact heapInsert_refused he (by decide)
  · intro realloc heap' x he
    cases n with
    | zero =>
      rw [hh.extract_empty comp realloc] at he
      cases he
    | succ n =>
      obtain ⟨h₁,r,m,g,e2,hh1,hp1,_⟩ := hh.exec hn comp (Op.extract realloc)
      obtain ⟨h₂,e3,_⟩ := hh.extract (by omega) comp realloc
      rw [he] at e3
      simp only [Op.exec,he,Option.map_some,Option.some.injEq,Prod.mk.injEq] at e2
      obtain ⟨rfl,rfl⟩ := e2
      obtain ⟨rfl,rfl⟩ : h₂ = heap' ∧ x = f 0 := by
        cases e3
        exact ⟨rfl,rfl⟩
      have hp2 : (f 0::contents m g).Perm (contents (n+1) f) := by
        refine (List.perm_append_singleton _ _).symm.trans ?_
        simpa [Outcome.taken,Outcome.added] using hp1
      refine ⟨m,g,hh1,hp2,fun y hy => ?_⟩
      obtain ⟨i,hi,rfl⟩ := List.mem_map.mp (hp2.mem_iff.mp (List.mem_cons_of_mem _ hy))
      exact ho.top hc (List.mem_range.mp hi)

/-- Numbers with the greatest first. -/
def compareNat (a b : ℕ) : ℤ := a-b

lemma compareNat_isPreorder : IsPreorder compareNat := by
  constructor
  · intro a b
    rw [compareNat,compareNat,← Int.sign_neg]
    congr 1
    omega
  · intro a b c h1 h2
    simp only [compareNat] at *
    omega

/-- Ten insertions fill the block. The next one is refused and the one after it is not, and the greatest element
comes out. -/
def fullRun : List (Op ℕ) :=
  List.replicate 10 (.insert 3 false)++[.insert 4 false,.insert 5 true,.extract false]

theorem heap_priority_queue_full :
    ∃ heap rs n f, run compareNat heapInit fullRun = some (heap,rs) ∧
      rs = List.replicate 10 (.inserted 3)++[.refused 4,.inserted 5,.extracted 5] ∧ n = 10 ∧ Holds heap n f ∧
      HeapOrder.Ordered compareNat n f ∧
      (contents n f++rs.filterMap Outcome.taken).Perm (rs.filterMap Outcome.added) ∧
      (∀ data realloc, heap.used < heap.size ∨ realloc = true → ∃ heap' g,
        heapInsert compareNat heap data realloc = some (heap',0) ∧ Holds heap' (n+1) g ∧
          HeapOrder.Ordered compareNat (n+1) g ∧ (contents (n+1) g).Perm (contents n f++[data])) ∧
      (∀ data realloc, ¬(heap.used < heap.size ∨ realloc = true) →
        heapInsert compareNat heap data realloc = some (heap,-1)) ∧
      (∀ data realloc heap', heapInsert compareNat heap data realloc = some (heap',-1) → heap' = heap) ∧
      (∀ realloc heap' x, heapExtract compareNat heap realloc = some (heap',0,some x) →
        ∃ m g, Holds heap' m g ∧ (x::contents m g).Perm (contents n f) ∧
        ∀ y ∈ contents m g, 0 ≤ compareNat x y) ∧
      ∀ reallocs : List Bool, reallocs.length = n → ∃ (heap' : Heap ℕ) (ys : List ℕ),
        run compareNat heap (reallocs.map Op.extract) = some (heap',ys.map Outcome.extracted) ∧ heap'.used = 0 ∧
          ys.Perm (contents n f) ∧ ys.Pairwise fun a b => 0 ≤ compareNat a b := by
  obtain ⟨heap,rs,n,f,hrun,hholds,hrest⟩ := heap_priority_queue compareNat_isPreorder fullRun fullRun
    ((holds_init fun _ => 0).keepsBelow (by decide)) List.prefix_rfl
  have houtcome : (run compareNat heapInit fullRun).map (fun r => (r.1.used,r.2)) =
      some (10,List.replicate 10 (.inserted 3)++[.refused 4,.inserted 5,.extracted 5]) := by decide +kernel
  rw [hrun] at houtcome
  obtain ⟨hused,hrs⟩ := Prod.mk.inj (Option.some.inj houtcome)
  have hn : n = 10 := by
    have hheap : (n : ℤ) = 10 := hholds.used.symm.trans hused
    omega
  exact ⟨heap,rs,n,f,hrun,hrs,hn,hholds,hrest⟩

end JustKit.Heaps
