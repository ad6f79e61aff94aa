import JustKit.Heaps.Indices

/-! How many slots the calls read and write: for every comparison function, and whatever the elements are, a number
that grows with the logarithm of that of the elements. -/
namespace JustKit.Heaps
open Foundations Foundations.HeapOrder Foundations.Traced
variable {α : Type}

def Event.isAccess : Event → Bool
  | .child _ _ => false
  | .access _ => true

/-- The accesses to slots in a log. Every call of the comparison function comes after two of them. -/
def accesses (events : List Event) : ℕ := events.countP Event.isAccess

@[simp] lemma accesses_nil : accesses [] = 0 := rfl
@[simp] lemma accesses_append (xs ys : List Event) : accesses (xs++ys) = accesses xs+accesses ys :=
  List.countP_append
@[simp] lemma accesses_access (index : ℤ) (xs : List Event) : accesses (.access index::xs) = accesses xs+1 :=
  List.countP_cons_of_pos rfl
@[simp] lemma accesses_child (index value : ℤ) (xs : List Event) :
    accesses (.child index value::xs) = accesses xs :=
  List.countP_cons_of_neg Bool.false_ne_true

lemma log_parent {i : ℕ} (hi : 0 < i) : Nat.log 2 (parent i+1)+1 = Nat.log 2 (i+1) := by
  have hhalf : parent i+1 = (i+1)/2 := by
    unfold parent
    omega
  have hone : 1 ≤ Nat.log 2 (i+1) := Nat.le_log_of_pow_le Nat.one_lt_two (by omega)
  rw [hhalf,Nat.log_div_base]
  omega

section Passes
variable (comp : α → α → ℤ) {heap : Heap α} {n i : ℕ} {f : ℕ → α}

lemma exchangeTraced_accesses {j : ℕ} (h : Slots heap.tree n f) (hi : i < n) (hj : j < n) :
    ∃ heap', result (exchangeTraced heap j i) = some heap' ∧ Rearranged heap heap' n (exchange f i j) ∧
      accesses (log (exchangeTraced heap j i)) = 4 := by
  obtain ⟨heap',hresult,hr,_⟩ := exchangeTraced_exact h hi hj (Int.le.intro 1 rfl : (n : ℤ) ≤ n+1)
  obtain ⟨h₁,_,e1,_⟩ := h.exchange hj hi
  refine ⟨heap',hresult,hr,?_⟩
  rw [exchangeTraced,log_bind (h.read hj),log_bind (h.read hi),
    log_bind (show result (heap.write j (f i)) = some h₁ from e1)]
  simp

/-- Each pass but the last goes one level up. -/
theorem siftUpTraced_accesses {fuel : ℕ} (h : Slots heap.tree n f) (hi : i < n) (hn : n ≤ 2^31) :
    accesses (log (siftUpTraced comp fuel heap i (heapParent i))) ≤ 6*Nat.log 2 (i+1) := by
  induction fuel generalizing heap i f with
  | zero => exact Nat.zero_le _
  | succ fuel ih =>
    rw [heapParent_eq (by omega),siftUpTraced]
    by_cases h0 : 0 < i
    · have hp := parent_lt h0
      have hlevel := log_parent h0
      rw [if_pos (by omega),log_bind (h.read (hp.trans hi)),log_bind (h.read hi)]
      by_cases hlt : comp (f (parent i)) (f i) < 0
      · obtain ⟨heap',hresult,hr,hfour⟩ := exchangeTraced_accesses h (hp.trans hi) hi
        have hrest := ih hr.slots (hp.trans hi)
        rw [if_pos hlt,log_bind hresult]
        simp only [log_read,accesses_append,accesses_access,accesses_nil,hfour]
        omega
      · rw [if_neg hlt]
        simp only [log_read,log_pure,accesses_append,accesses_access,accesses_nil]
        omega
    · rw [if_neg (by omega)]
      exact Nat.zero_le _

lemma betterPosTraced_accesses {j m : ℕ} (h : Slots heap.tree n f) (hused : heap.used = n) (hm : m < n) :
    accesses (log (betterPosTraced comp heap j m)) ≤ 2 := by
  rw [betterPosTraced,hused]
  by_cases hj : j < n
  · rw [if_pos (by omega),log_bind (h.read hj),log_bind (h.read hm)]
    simp
  · rw [if_neg (by omega)]
    exact Nat.zero_le _

/-- Each pass but the last goes one level down. -/
theorem siftDownTraced_accesses {fuel : ℕ} (h : Slots heap.tree n f) (hused : heap.used = n) (hi : i < n)
    (hn : n < 2^30) : accesses (log (siftDownTraced comp fuel heap i))+8*Nat.log 2 (i+1) ≤ 4+8*Nat.log 2 n := by
  induction fuel generalizing heap i f with
  | zero =>
    have hlevel : Nat.log 2 (i+1) ≤ Nat.log 2 n := Nat.log_mono_right hi
    have hnone : accesses (log (siftDownTraced comp 0 heap i)) = 0 := rfl
    omega
  | succ fuel ih =>
    have hm : better comp n f (2*i+1) i < n := by
      rw [better]
      split_ifs <;> omega
    have hlevel : Nat.log 2 (i+1) ≤ Nat.log 2 n := Nat.log_mono_right hi
    have hleft : result (leftOf i) = some ((2*i+1 : ℕ) : ℤ) := congrArg some (heapLeft_eq (by omega))
    have hright : result (rightOf i) = some ((2*i+2 : ℕ) : ℤ) := congrArg some (heapRight_eq (by omega))
    have hl := betterPosTraced_accesses comp (j := 2*i+1) h hused hi
    have hr := betterPosTraced_accesses comp (j := 2*i+2) h hused hm
    rw [siftDownTraced,log_bind hleft,log_bind hright,log_bind (betterPosTraced_eq comp h hused hi),
      log_bind (betterPosTraced_eq comp h hused hm)]
    simp only [log_leftOf,log_rightOf,accesses_append,accesses_child,accesses_nil]
    rw [show better comp n f (2*i+2) (better comp n f (2*i+1) i) = highest comp n f i from rfl]
    by_cases hs : highest comp n f i = i
    · rw [if_pos (by omega),log_pure,accesses_nil]
      omega
    · obtain ⟨_,hmn,hparent⟩ := (highest_cases comp n f i).resolve_left hs
      have hdown := log_parent (i := highest comp n f i) (by omega)
      rw [hparent] at hdown
      obtain ⟨heap',hresult,hre,hfour⟩ := exchangeTraced_accesses h hi hmn
      have hrest := ih hre.slots (hre.used.trans hused) hmn
      rw [if_neg (by omega),log_bind hresult,accesses_append,hfour]
      omega

end Passes

namespace Holds
variable {comp : α → α → ℤ} {heap : Heap α} {n : ℕ} {f : ℕ → α}

theorem insert_accesses (h : Holds heap n f) (hn : n < 2^30) (data : α) (realloc : Bool) :
    accesses (log (heapInsertTraced comp heap data realloc)) ≤ 1+6*Nat.log 2 (n+1) := by
  rw [heapInsertTraced]
  by_cases hroom : heap.used < heap.size ∨ realloc = true
  · obtain ⟨g,hexpand,hg,hin⟩ := h.expand hn hroom
    have hpush := hg.slots.push hin data
    have hwrite : result (g.write n data) = some _ := heap_set hin data
    rw [hexpand]
    simp only [hg.used]
    rw [log_bind hwrite,log_bind_pure,log_write,accesses_append,accesses_access,accesses_nil]
    let g' : Heap α := { g with tree := g.tree.set n (some data) }
    have hup : accesses (log (siftUpTraced comp ((n : ℤ).toNat+1) g' n (heapParent n))) ≤ _ :=
      siftUpTraced_accesses comp hpush (Nat.lt_succ_self n) (by omega)
    have heq : g' = ⟨g.tree.set n (some data),g.size,n⟩ := by rw [← hg.used]
    rw [heq] at hup
    simp only [hg.used]
    omega
  · rw [heapExpand_refused hroom]
    exact Nat.zero_le _

theorem extract_accesses (h : Holds heap n f) (hn : n < 2^30) (realloc : Bool) :
    accesses (log (heapExtractTraced comp heap realloc)) ≤ 7+8*Nat.log 2 n := by
  have hused := h.used
  rw [heapExtractTraced]
  cases n with
  | zero =>
    rw [if_pos (by omega)]
    exact Nat.zero_le _
  | succ n =>
    have hdec : wrap 32 (heap.used-1) = n := by
      rw [hused,wrap_of_range (w := 31) (by omega) (by omega)]
      omega
    have htop : result (heap.read 0) = some (f 0) := h.slots.read (show 0 < n+1 by omega)
    have hsave : result (({ heap with used := (n : ℤ) } : Heap α).read n) = some (f n) :=
      h.slots.get (show n < n+1 by omega)
    have hdrop : Holds ({ heap with used := (n : ℤ) } : Heap α) n f :=
      ⟨rfl,h.size,h.small,h.slots.mono (by omega)⟩
    have hg := hdrop.shrink realloc
    rw [if_neg (by omega),log_bind htop]
    simp only [hdec]
    rw [log_bind hsave]
    generalize heapShrink { heap with used := (n : ℤ) } realloc = g at hg
    have hreads : accesses (log (heap.read 0))+
        accesses (log (({ heap with used := (n : ℤ) } : Heap α).read n)) = 2 := by
      simp
    rw [accesses_append,accesses_append]
    by_cases h0 : n = 0
    · rw [if_pos (show g.used = 0 by rw [hg.used]; omega),log_pure,accesses_nil]
      omega
    · have hpos : 0 < g.tree.length := by
        have := hg.slots.le_length
        omega
      have hwrite : result (g.write 0 (f n)) = some { g with tree := g.tree.set 0 (some (f n)) } := heap_set hpos _
      let g' : Heap α := { g with tree := g.tree.set 0 (some (f n)) }
      have hdown : accesses (log (siftDownTraced comp n g' (0 : ℕ)))+_ ≤ _ :=
        siftDownTraced_accesses comp (hg.slots.set hpos (f n)) hg.used (Nat.pos_of_ne_zero h0) (by omega)
      have heq : g' = ⟨g.tree.set 0 (some (f n)),g.size,n⟩ := by rw [← hg.used]
      have hlevel : Nat.log 2 n ≤ Nat.log 2 (n+1) := Nat.log_mono_right (Nat.le_succ n)
      rw [if_neg (show g.used ≠ 0 by rw [hg.used]; omega),log_bind hwrite,log_bind_pure,accesses_append,log_write,
        accesses_access,accesses_nil]
      simp only [hg.used,Int.toNat_natCast]
      rw [heq,Nat.cast_zero] at hdown
      omega

end Holds

/-- In every run that keeps below 2^30 elements, with every comparison function, an insertion accesses at most
1+6 log (n+1) slots of a heap with `n` elements, and an extraction at most 7+8 log n. -/
theorem heap_log_accesses [Inhabited α] (comp : α → α → ℤ) (ops pre : List (Op α))
    (hb : KeepsBelow comp heapInit ops) (hp : pre <+: ops) :
    ∃ heap rs n, run comp heapInit pre = some (heap,rs) ∧ heap.used = (n : ℕ) ∧
      ∀ data realloc, accesses (log (heapInsertTraced comp heap data realloc)) ≤ 1+6*Nat.log 2 (n+1) ∧
        accesses (log (heapExtractTraced comp heap realloc)) ≤ 7+8*Nat.log 2 n := by
  have hpre := hb.of_prefix hp
  obtain ⟨heap,rs,n,f,hrun,hheap,_⟩ := run_holds (holds_init fun _ => default) hpre
  have hn : n < 2^30 := by
    have hlast := hpre.last hrun
    have hused := hheap.used
    omega
  exact ⟨heap,rs,n,hrun,hheap.used,fun data realloc => ⟨hheap.insert_accesses hn data realloc,
    hheap.extract_accesses hn realloc⟩⟩

/-- Three insertions with equal elements, and an extraction. -/
def smallRun : List (Op ℕ) := [.insert 2 true,.insert 5 true,.insert 5 false,.extract false]

theorem heap_log_accesses_small : ∃ heap rs n, run compareNat heapInit smallRun = some (heap,rs) ∧
    heap.used = (n : ℕ) ∧ ∀ data realloc,
      accesses (log (heapInsertTraced compareNat heap data realloc)) ≤ 1+6*Nat.log 2 (n+1) ∧
      accesses (log (heapExtractTraced compareNat heap realloc)) ≤ 7+8*Nat.log 2 n :=
  heap_log_accesses compareNat smallRun smallRun ((holds_init fun _ => 0).keepsBelow (by decide)) List.prefix_rfl

end JustKit.Heaps
