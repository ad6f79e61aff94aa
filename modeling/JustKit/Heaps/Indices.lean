import JustKit.Foundations.Traced
import JustKit.Heaps.Runs

/-! The indices that an insertion and an extraction compute and use. The two functions are those of the model with
a log of each child index and of each slot that is read or written. -/
namespace JustKit.Heaps
open Foundations Foundations.HeapOrder Foundations.Traced
variable {α : Type}

/-- What is logged: a child index with the value that it has without overflow, and an access to a slot. -/
inductive Event where
  | child (index value : ℤ)
  | access (index : ℤ)
  deriving Repr, DecidableEq

/-- Read `heap->tree[pos]`. -/
def Heap.read (heap : Heap α) (pos : ℤ) : Traced Event α := step (.access pos) (heap.get pos)

/-- Assign to `heap->tree[pos]`. -/
def Heap.write (heap : Heap α) (pos : ℤ) (x : α) : Traced Event (Heap α) := step (.access pos) (heap.set pos x)

/-- `lpos = jk_heap_left(ipos)`. -/
def leftOf (ipos : ℤ) : Traced Event ℤ := step (.child (heapLeft ipos) (2*ipos+1)) (some (heapLeft ipos))

/-- `rpos = jk_heap_right(ipos)`. -/
def rightOf (ipos : ℤ) : Traced Event ℤ := step (.child (heapRight ipos) (2*ipos+2)) (some (heapRight ipos))

/-- The exchange in `jk_heap_insert` and in `jk_heap_extract`, where `temp` keeps the element at `pos`. -/
def exchangeTraced (heap : Heap α) (pos pos' : ℤ) : Traced Event (Heap α) := do
  let temp ← heap.read pos
  let x ← heap.read pos'
  let heap ← heap.write pos x
  heap.write pos' temp

/-- The loop of `jk_heap_insert`. -/
def siftUpTraced (comp : α → α → ℤ) : ℕ → Heap α → ℤ → ℤ → Traced Event (Heap α)
  | 0,_,_,_ => failure
  | fuel+1,heap,ipos,ppos =>
    if 0 < ipos then do
      let p ← heap.read ppos
      let c ← heap.read ipos
      if comp p c < 0 then
        let heap ← exchangeTraced heap ipos ppos
        siftUpTraced comp fuel heap ppos (heapParent ppos)
      else return heap
    else return heap

/-- `jk_heap_insert`. -/
def heapInsertTraced (comp : α → α → ℤ) (heap : Heap α) (data : α) (realloc : Bool) :
    Traced Event (Heap α × ℤ) :=
  match heapExpand heap realloc with
  | none => return (heap,-1)
  | some heap => do
    let heap ← heap.write heap.used data
    let heap ← siftUpTraced comp (heap.used.toNat+1) heap heap.used (heapParent heap.used)
    return ({ heap with used := wrap 32 (heap.used+1) },0)

/-- The choice between a position and the position `mpos` found so far. -/
def betterPosTraced (comp : α → α → ℤ) (heap : Heap α) (pos mpos : ℤ) : Traced Event ℤ :=
  if pos < heap.used then do
    let x ← heap.read pos
    let m ← heap.read mpos
    return if 0 < comp x m then pos else mpos
  else return mpos

/-- The loop of `jk_heap_extract`. -/
def siftDownTraced (comp : α → α → ℤ) : ℕ → Heap α → ℤ → Traced Event (Heap α)
  | 0,_,_ => failure
  | fuel+1,heap,ipos => do
    let lpos ← leftOf ipos
    let rpos ← rightOf ipos
    let mpos ← betterPosTraced comp heap lpos ipos
    let mpos ← betterPosTraced comp heap rpos mpos
    if mpos = ipos then return heap
    else
      let heap ← exchangeTraced heap mpos ipos
      siftDownTraced comp fuel heap mpos

/-- `jk_heap_extract` with a place for the result. -/
def heapExtractTraced (comp : α → α → ℤ) (heap : Heap α) (realloc : Bool) :
    Traced Event (Heap α × ℤ × Option α) :=
  if heap.used = 0 then return (heap,-1,none)
  else do
    let top ← heap.read 0
    let heap := { heap with used := wrap 32 (heap.used-1) }
    let save ← heap.read heap.used
    let heap := heapShrink heap realloc
    if heap.used = 0 then return (heap,0,some top)
    else
      let heap ← heap.write 0 save
      let heap ← siftDownTraced comp heap.used.toNat heap 0
      return (heap,0,some top)

/-! ### Without the log -/

section Results
variable (comp : α → α → ℤ)

@[simp] lemma result_read (heap : Heap α) (pos : ℤ) : result (heap.read pos) = heap.get pos := result_step ..
@[simp] lemma result_write (heap : Heap α) (pos : ℤ) (x : α) : result (heap.write pos x) = heap.set pos x :=
  result_step ..
@[simp] lemma result_leftOf (ipos : ℤ) : result (leftOf ipos) = some (heapLeft ipos) := result_step ..
@[simp] lemma result_rightOf (ipos : ℤ) : result (rightOf ipos) = some (heapRight ipos) := result_step ..

lemma exchangeTraced_result {heap : Heap α} {pos pos' : ℤ} {temp x : α} (h : heap.get pos = some temp)
    (h' : heap.get pos' = some x) :
    result (exchangeTraced heap pos pos') = (heap.set pos x).bind fun heap => heap.set pos' temp := by
  simp only [exchangeTraced,result_bind,result_read,result_write,h,h',Option.bind_some]

lemma siftUpTraced_result (fuel : ℕ) (heap : Heap α) (ipos ppos : ℤ) :
    result (siftUpTraced comp fuel heap ipos ppos) = siftUp comp fuel heap ipos ppos := by
  induction fuel generalizing heap ipos ppos with
  | zero => rfl
  | succ fuel ih =>
    simp only [siftUpTraced,siftUp,apply_ite result,result_bind,result_read,result_pure,ih]
    cases hp : heap.get ppos with
    | none => rfl
    | some p =>
      cases hc : heap.get ipos with
      | none => rfl
      | some c => simp only [exchangeTraced_result hc hp,Option.bind_eq_bind,Option.bind_some,Option.bind_assoc]; rfl

lemma betterPosTraced_result (heap : Heap α) (pos mpos : ℤ) :
    result (betterPosTraced comp heap pos mpos) = betterPos comp heap pos mpos := by
  simp only [betterPosTraced,betterPos,apply_ite result,result_bind,result_read,result_pure]
  rfl

lemma siftDownTraced_result (fuel : ℕ) (heap : Heap α) (ipos : ℤ) :
    result (siftDownTraced comp fuel heap ipos) = siftDown comp fuel heap ipos := by
  induction fuel generalizing heap ipos with
  | zero => rfl
  | succ fuel ih =>
    simp only [siftDownTraced,siftDown,exchangeTraced,apply_ite result,result_bind,result_read,
      result_write,result_pure,result_leftOf,result_rightOf,betterPosTraced_result,Option.bind_some,
      Option.bind_assoc,ih]
    rfl

theorem heapInsertTraced_result (heap : Heap α) (data : α) (realloc : Bool) :
    result (heapInsertTraced comp heap data realloc) = heapInsert comp heap data realloc := by
  rw [heapInsertTraced,heapInsert]
  cases heapExpand heap realloc with
  | none => rfl
  | some heap =>
    simp only [result_bind,result_write,result_pure,siftUpTraced_result]
    rfl

theorem heapExtractTraced_result (heap : Heap α) (realloc : Bool) :
    result (heapExtractTraced comp heap realloc) = heapExtract comp heap realloc := by
  simp only [heapExtractTraced,heapExtract,apply_ite result,result_bind,result_read,result_write,result_pure,
    siftDownTraced_result]
  rfl

end Results

/-! ### Exact events -/

/-- A child index has its value, and an access stays within the first slots. -/
def Exact (used : ℤ) : Event → Prop
  | .child index value => index = value
  | .access index => 0 ≤ index ∧ index ≤ used

/-- What is asked of a call on a heap of `used` elements: a child index without its value is not used for an access,
and every access stays within the first slots. -/
def InRange (used : ℤ) (events : List Event) : Prop :=
  (∀ index value, Event.child index value ∈ events → index = value ∨ Event.access index ∉ events) ∧
    ∀ index, Event.access index ∈ events → 0 ≤ index ∧ index ≤ used

lemma inRange_of_exact {used : ℤ} {events : List Event} (h : ∀ e ∈ events, Exact used e) :
    InRange used events := by
  constructor
  · intro index value he
    exact Or.inl (h _ he)
  · intro index he
    exact h _ he

section Passes
variable (comp : α → α → ℤ) {heap : Heap α} {n i : ℕ} {f : ℕ → α} {used : ℤ}

@[simp] lemma log_read (heap : Heap α) (pos : ℤ) : log (heap.read pos) = [.access pos] := log_step ..
@[simp] lemma log_write (heap : Heap α) (pos : ℤ) (x : α) : log (heap.write pos x) = [.access pos] := log_step ..
@[simp] lemma log_leftOf (ipos : ℤ) : log (leftOf ipos) = [.child (heapLeft ipos) (2*ipos+1)] := log_step ..
@[simp] lemma log_rightOf (ipos : ℤ) : log (rightOf ipos) = [.child (heapRight ipos) (2*ipos+2)] := log_step ..

lemma Slots.read (h : Slots heap.tree n f) (hi : i < n) : result (heap.read (i : ℤ)) = some (f i) := h.get hi

lemma exchangeTraced_exact {j : ℕ} (h : Slots heap.tree n f) (hi : i < n) (hj : j < n) (hn : n ≤ used+1) :
    ∃ heap', result (exchangeTraced heap j i) = some heap' ∧ Rearranged heap heap' n (exchange f i j) ∧
      ∀ e ∈ log (exchangeTraced heap j i), Exact used e := by
  obtain ⟨h₁,h₂,e1,e2,hr⟩ := h.exchange hj hi
  have hwrite : result (heap.write j (f i)) = some h₁ := e1
  have hwrite' : result (h₁.write i (f j)) = some h₂ := e2
  have hposi : Exact used (.access i) := ⟨by omega,by omega⟩
  have hposj : Exact used (.access j) := ⟨by omega,by omega⟩
  refine ⟨h₂,?_,HeapOrder.exchange_comm f j i ▸ hr,?_⟩
  · simp only [exchangeTraced,result_bind,h.read hi,h.read hj,hwrite,hwrite',Option.bind_some]
  · rw [exchangeTraced,log_bind (h.read hj),log_bind (h.read hi),log_bind hwrite]
    simp only [log_read,log_write,List.forall_mem_append,List.forall_mem_singleton]
    exact ⟨hposj,hposi,hposj,hposi⟩

/-- The passes of an insertion stay above the new element. -/
theorem siftUpTraced_exact {fuel : ℕ} (h : Slots heap.tree n f) (hi : i < n) (hn : n ≤ 2^31)
    (hused : n ≤ used+1) :
    ∀ e ∈ log (siftUpTraced comp fuel heap i (heapParent i)), Exact used e := by
  induction fuel generalizing heap i f with
  | zero => exact List.forall_mem_nil _
  | succ fuel ih =>
    rw [heapParent_eq (by omega),siftUpTraced]
    by_cases h0 : 0 < i
    · have hp := parent_lt h0
      have hpos : Exact used (.access i) := ⟨by omega,by omega⟩
      have hparent : Exact used (.access (parent i : ℕ)) := ⟨by omega,by omega⟩
      rw [if_pos (by omega),log_bind (h.read (hp.trans hi)),log_bind (h.read hi)]
      by_cases hlt : comp (f (parent i)) (f i) < 0
      · obtain ⟨heap',hresult,hr,hexchange⟩ := exchangeTraced_exact h (hp.trans hi) hi hused
        have hrest := ih hr.slots (hp.trans hi)
        rw [if_pos hlt,log_bind hresult]
        simp only [log_read,List.forall_mem_append,List.forall_mem_singleton]
        exact ⟨hparent,hpos,hexchange,hrest⟩
      · rw [if_neg hlt]
        simp only [log_read,log_pure,List.forall_mem_append,List.forall_mem_singleton]
        exact ⟨hparent,hpos,List.forall_mem_nil _⟩
    · rw [if_neg (by omega)]
      exact List.forall_mem_nil _

lemma betterPosTraced_eq {j m : ℕ} (h : Slots heap.tree n f) (hused : heap.used = n) (hm : m < n) :
    result (betterPosTraced comp heap j m) = some ((better comp n f j m : ℕ) : ℤ) :=
  (betterPosTraced_result comp heap j m).trans (betterPos_eq comp h hused hm)

lemma betterPosTraced_exact {j m : ℕ} (h : Slots heap.tree n f) (hused : heap.used = n) (hm : m < n)
    (hn : n ≤ used) :
    ∀ e ∈ log (betterPosTraced comp heap j m), Exact used e := by
  rw [betterPosTraced,hused]
  by_cases hj : j < n
  · rw [if_pos (by omega),log_bind (h.read hj),log_bind (h.read hm)]
    simp only [log_read,log_pure,List.forall_mem_append,List.forall_mem_singleton]
    exact ⟨⟨by omega,by omega⟩,⟨by omega,by omega⟩,List.forall_mem_nil _⟩
  · rw [if_neg (by omega)]
    exact List.forall_mem_nil _

/-- The choice of a pass at a position whose children have an index, and what comes after it. -/
lemma siftDownTraced_choice (fuel : ℕ) (h : Slots heap.tree n f) (hused : heap.used = n) (hi : i < n)
    (hsmall : i+1 < 2^30) (hn : n ≤ used) : ∃ events, (∀ e ∈ events, Exact used e) ∧
      log (siftDownTraced comp (fuel+1) heap i) = events++log (do
        if (highest comp n f i : ℤ) = i then return heap
        else
          let heap ← exchangeTraced heap (highest comp n f i : ℕ) i
          siftDownTraced comp fuel heap (highest comp n f i : ℕ)) := by
  have hm : better comp n f (2*i+1) i < n := by
    rw [better]
    split_ifs <;> omega
  have hleft : result (leftOf i) = some ((2*i+1 : ℕ) : ℤ) := congrArg some (heapLeft_eq (by omega))
  have hright : result (rightOf i) = some ((2*i+2 : ℕ) : ℤ) := congrArg some (heapRight_eq hsmall)
  refine ⟨log (leftOf i)++log (rightOf i)++log (betterPosTraced comp heap ((2*i+1 : ℕ) : ℤ) i)++
    log (betterPosTraced comp heap ((2*i+2 : ℕ) : ℤ) (better comp n f (2*i+1) i : ℕ)),?_,?_⟩
  · simp only [List.forall_mem_append]
    refine ⟨⟨⟨?_,?_⟩,betterPosTraced_exact comp h hused hi hn⟩,betterPosTraced_exact comp h hused hm hn⟩
    · rw [log_leftOf,List.forall_mem_singleton,Exact,heapLeft_eq (by omega)]
      omega
    · rw [log_rightOf,List.forall_mem_singleton,Exact,heapRight_eq hsmall]
      omega
  · rw [siftDownTraced,log_bind hleft,log_bind hright,log_bind (betterPosTraced_eq comp h hused hi),
      log_bind (betterPosTraced_eq comp h hused hm)]
    simp only [List.append_assoc]
    rfl

/-- A pass of an extraction at a position whose children have an index. -/
lemma siftDownTraced_succ (fuel : ℕ) (h : Slots heap.tree n f) (hused : heap.used = n) (hi : i < n)
    (hsmall : i+1 < 2^30) (hn : n ≤ used) : ∃ events, (∀ e ∈ events, Exact used e) ∧
      if highest comp n f i = i then log (siftDownTraced comp (fuel+1) heap i) = events
      else ∃ heap', Rearranged heap heap' n (exchange f i (highest comp n f i)) ∧
        log (siftDownTraced comp (fuel+1) heap i) =
          events++log (siftDownTraced comp fuel heap' (highest comp n f i : ℕ)) := by
  obtain ⟨events,hexact,hlog⟩ := siftDownTraced_choice comp fuel h hused hi hsmall hn
  by_cases hs : highest comp n f i = i
  · rw [if_pos (by omega),log_pure,List.append_nil] at hlog
    simp only [if_pos hs]
    exact ⟨events,hexact,hlog⟩
  · obtain ⟨_,hmn,_⟩ := (highest_cases comp n f i).resolve_left hs
    obtain ⟨heap',hresult,hr,hexchange⟩ := exchangeTraced_exact h hi hmn (hn.trans (Int.le.intro 1 rfl))
    rw [if_neg (by omega),log_bind hresult,← List.append_assoc] at hlog
    simp only [if_neg hs]
    exact ⟨_,List.forall_mem_append.mpr ⟨hexact,hexchange⟩,heap',hr,hlog⟩

/-- An index of 2^31 or more is negative as an `int`. -/
lemma wrap_neg {x : ℤ} (hl : 2^31 ≤ x) (hu : x < 2^32) : wrap 32 x < 0 := by
  have hrange : -2^31 ≤ wrap 32 x ∧ wrap 32 x < 2^31 := wrap_range 31 x
  have hwrap : wrap 32 x = x-2^32*Int.bdiv x (2^32) := by
    exact_mod_cast Int.bmod_eq_self_sub_mul_bdiv x (2^32)
  omega

/-- A negative index passes the comparison with `used`. -/
lemma betterPosTraced_wrapped {pos m : ℤ} (hpos : pos < 0) (hused : 0 ≤ heap.used) :
    .access pos ∈ log (betterPosTraced comp heap pos m) := by
  rw [betterPosTraced,if_pos (hpos.trans_le hused)]
  exact log_subset_bind _ _ (List.mem_singleton_self _)

/-- A pass of an extraction at a position whose right child has no index. -/
lemma siftDownTraced_wrapped (fuel : ℕ) (hused : heap.used = n) (hi : i < n) (hlarge : 2^30 ≤ i+1)
    (hn : n < 2^31) :
    ∃ index < 0, .access index ∈ log (siftDownTraced comp (fuel+1) heap i) := by
  have hright : heapRight i < 0 := by
    rw [heapRight,wrap_wrap_add]
    exact wrap_neg (by omega) (by omega)
  rw [siftDownTraced,log_bind (result_leftOf i),log_bind (result_rightOf i)]
  by_cases hlast : i < 2^30
  · -- the left child has an index, but there is no element at it
    have hstay : result (betterPosTraced comp heap (heapLeft i) i) = some (i : ℤ) := by
      rw [betterPosTraced,heapLeft_eq hlast,if_neg (by omega)]
      rfl
    have hin := betterPosTraced_wrapped comp (m := i) hright (show 0 ≤ heap.used by omega)
    refine ⟨heapRight i,hright,?_⟩
    rw [log_bind hstay]
    exact List.mem_append_right _ (List.mem_append_right _ (List.mem_append_right _ (log_subset_bind _ _ hin)))
  · have hleft : heapLeft i < 0 := by
      rw [heapLeft,wrap_wrap_add]
      exact wrap_neg (by omega) (by omega)
    have hin := betterPosTraced_wrapped comp (m := i) hleft (show 0 ≤ heap.used by omega)
    exact ⟨heapLeft i,hleft,List.mem_append_right _ (List.mem_append_right _ (log_subset_bind _ _ hin))⟩

end Passes

/-! ### Calls -/

/-- With `n` elements left, the last element goes down from the top along the greater children for 30 levels or
more. -/
def Sinks (comp : α → α → ℤ) (n : ℕ) (f : ℕ → α) : Prop :=
  greaterPath comp n f 30 < n ∧ 0 < comp (f (greaterPath comp n f 30)) (f n)

section Calls
variable {comp : α → α → ℤ} {heap : Heap α} {n : ℕ} {f g : ℕ → α}

/-- An element that sinks passes every level above. -/
lemma Sinks.reach (hc : IsPreorder comp) (hord : Ordered comp (n+1) f) (h : Sinks comp n f) {k : ℕ}
    (hk : k ≤ 30) :
    greaterPath comp n f k < n ∧ 0 < comp (f (greaterPath comp n f k)) (f n) := by
  have hle := (greaterPath_strictMono comp n f).monotone hk
  have hdesc := hord.path hc (n := n) hk (h.1.trans (Nat.lt_succ_self n))
  exact ⟨hle.trans_lt h.1,hc.pos_of_le_of_pos hdesc h.2⟩

/-- The loop of an extraction from level `k` of the path on, where the last element has arrived. Below it nothing
has changed. -/
theorem siftDownTraced_path (hc : IsPreorder comp) (hord : Ordered comp (n+1) f) (hn : n+1 < 2^31) {k fuel : ℕ}
    (hk : k ≤ 30) (h : Slots heap.tree n g) (hused : heap.used = n) (hi : greaterPath comp n f k < n)
    (hbelow : ∀ j, greaterPath comp n f k < j → j < n → g j = f j) (hitem : g (greaterPath comp n f k) = f n)
    (hreach : 0 < k → 0 < comp (f (greaterPath comp n f k)) (f n)) (hfuel : n-greaterPath comp n f k ≤ fuel) :
    (Sinks comp n f →
        ∃ index < 0, .access index ∈ log (siftDownTraced comp fuel heap (greaterPath comp n f k : ℕ))) ∧
      (¬Sinks comp n f →
        ∀ e ∈ log (siftDownTraced comp fuel heap (greaterPath comp n f k : ℕ)), Exact (n+1 : ℕ) e) := by
  induction hd : 30-k generalizing k fuel heap g with
  | zero =>
    obtain rfl : k = 30 := by omega
    obtain ⟨fuel,rfl⟩ := Nat.exists_eq_succ_of_ne_zero (show fuel ≠ 0 by omega)
    have hlow := (greaterPath_level comp n f 30).1
    have hsinks : Sinks comp n f := ⟨hi,hreach (by decide)⟩
    exact ⟨fun _ => siftDownTraced_wrapped comp fuel hused hi hlow (by omega),fun hnot => absurd hsinks hnot⟩
  | succ d ih =>
    obtain ⟨fuel,rfl⟩ := Nat.exists_eq_succ_of_ne_zero (show fuel ≠ 0 by omega)
    have hhigh := (greaterPath_level comp n f k).2
    have hpow : 2^(k+1) ≤ 2^30 := Nat.pow_le_pow_right (by decide) (by omega)
    have hlt : greaterPath comp n f k < greaterPath comp n f (k+1) :=
      greaterPath_strictMono comp n f (Nat.lt_succ_self k)
    have hle : (n : ℤ) ≤ (n+1 : ℕ) := by omega
    obtain ⟨events,hexact,hlog⟩ := siftDownTraced_succ comp fuel h hused hi (by omega) hle
    rw [highest_path hc hbelow,hitem] at hlog
    by_cases hgo : greaterPath comp n f (k+1) < n ∧ 0 < comp (f (greaterPath comp n f (k+1))) (f n)
    · rw [if_pos hgo,if_neg (by omega)] at hlog
      obtain ⟨heap',hr,hlog⟩ := hlog
      have hbelow' : ∀ j, greaterPath comp n f (k+1) < j → j < n →
          exchange g (greaterPath comp n f k) (greaterPath comp n f (k+1)) j = f j := by
        intro j hj hjn
        rw [exchange_other g (by omega) (by omega)]
        exact hbelow j (by omega) hjn
      have hitem' := (exchange_right g (greaterPath comp n f k) (greaterPath comp n f (k+1))).trans hitem
      have hrest := ih (by omega) hr.slots (hr.used.trans hused) hgo.1 hbelow' hitem' (fun _ => hgo.2)
        (show n-greaterPath comp n f (k+1) ≤ fuel by omega) (by omega)
      rw [hlog]
      constructor
      · intro hsinks
        obtain ⟨index,hneg,hin⟩ := hrest.1 hsinks
        exact ⟨index,hneg,List.mem_append_right _ hin⟩
      · intro hnot
        rw [List.forall_mem_append]
        exact ⟨hexact,hrest.2 hnot⟩
    · have hstop : ¬Sinks comp n f := fun hsinks => hgo (hsinks.reach hc hord (by omega))
      rw [if_neg hgo,if_pos rfl] at hlog
      rw [hlog]
      exact ⟨fun hsinks => absurd hsinks hstop,fun _ => hexact⟩

/-- A heap of `n` elements in order, in a block of the recorded size. -/
structure InOrder (comp : α → α → ℤ) (heap : Heap α) (n : ℕ) (f : ℕ → α) : Prop where
  used : heap.used = n
  size : heap.size = heap.tree.length
  int : heap.size ≤ 2^31-1
  slots : Slots heap.tree n f
  ordered : Ordered comp n f

/-- A block that has been extended, or has wrapped to no slot at all. -/
lemma heapExpand_slots {heap' : Heap α} {realloc : Bool} (h : Slots heap.tree n f)
    (hexpand : heapExpand heap realloc = some heap') :
    heap'.used = heap.used ∧ (n < heap'.tree.length → Slots heap'.tree n f) := by
  rw [heapExpand] at hexpand
  split_ifs at hexpand with hfull hyes
  · obtain rfl := Option.some.inj hexpand
    refine ⟨rfl,?_⟩
    intro hn
    rw [resize_length] at hn
    exact h.resize (by omega)
  · obtain rfl := Option.some.inj hexpand
    exact ⟨rfl,fun _ => h⟩

theorem InOrder.insert_exact (h : InOrder comp heap n f) (data : α) (realloc : Bool) :
    ∀ e ∈ log (heapInsertTraced comp heap data realloc), Exact n e := by
  have hle := h.slots.le_length
  have hsize := h.size
  have hint := h.int
  have hlast : ∀ e ∈ [Event.access n], Exact n e := by
    rw [List.forall_mem_singleton]
    exact ⟨by omega,le_rfl⟩
  rw [heapInsertTraced]
  cases hexpand : heapExpand heap realloc with
  | none => exact List.forall_mem_nil _
  | some g =>
    obtain ⟨hused,hslots⟩ := heapExpand_slots h.slots hexpand
    have hn : g.used = n := hused.trans h.used
    simp only [hn]
    by_cases hin : n < g.tree.length
    · have hpush := (hslots hin).push hin data
      rw [log_bind (show result (g.write n data) = some _ from heap_set hin data),log_bind_pure,log_write,
        List.forall_mem_append]
      simp only [hn]
      exact ⟨hlast,siftUpTraced_exact comp hpush (Nat.lt_succ_self n) (by omega) (by omega)⟩
    · have hrefused : result (g.write n data) = none := by
        rw [result_write,Heap.set,if_neg (by omega)]
      rw [log_bind_none hrefused,log_write]
      exact hlast

/-- An extraction reads the first and the last element, and sifts the last one down from the top. -/
lemma InOrder.extract_log (h : InOrder comp heap (n+1) f) (realloc : Bool) :
    if n = 0 then log (heapExtractTraced comp heap realloc) = [.access 0,.access n]
    else ∃ heap' : Heap α, Slots heap'.tree n (Function.update f 0 (f n)) ∧ heap'.used = n ∧
      log (heapExtractTraced comp heap realloc) =
        .access 0::.access n::.access 0::log (siftDownTraced comp n heap' 0) := by
  have hused := h.used
  have hint := h.int
  have hsize := h.size
  have hle := h.slots.le_length
  have hdec : wrap 32 (heap.used-1) = n := by
    rw [hused,wrap_of_range (w := 31) (by omega) (by omega)]
    omega
  have htop : result (heap.read 0) = some (f 0) := h.slots.read (show 0 < n+1 by omega)
  have hsave : result (({ heap with used := (n : ℤ) } : Heap α).read n) = some (f n) :=
    h.slots.get (show n < n+1 by omega)
  obtain ⟨hused',_,hslots⟩ := heapShrink_slots { heap with used := (n : ℤ) } (h.slots.mono (Nat.le_succ n)) rfl
    hsize realloc
  rw [heapExtractTraced,if_neg (show heap.used ≠ 0 by omega),log_bind htop]
  simp only [hdec]
  rw [log_bind hsave]
  generalize heapShrink { heap with used := (n : ℤ) } realloc = g at hused' hslots
  by_cases h0 : n = 0
  · rw [if_pos h0,if_pos (show g.used = 0 by omega)]
    rfl
  · have hpos : 0 < g.tree.length := by
      have := hslots.le_length
      omega
    have hwrite : result (g.write 0 (f n)) = some { g with tree := g.tree.set 0 (some (f n)) } := heap_set hpos _
    have hfuel : n = ({ g with tree := g.tree.set 0 (some (f n)) } : Heap α).used.toNat :=
      (congrArg Int.toNat hused').symm
    rw [if_neg h0,if_neg (show g.used ≠ 0 by omega),log_bind hwrite,log_bind_pure,← hfuel]
    exact ⟨{ g with tree := g.tree.set 0 (some (f n)) },hslots.set hpos (f n),hused',rfl⟩

/-- An extraction is exact unless the last element sinks. -/
theorem InOrder.extract_inRange_iff (hc : IsPreorder comp) (h : InOrder comp heap (n+1) f) (realloc : Bool) :
    InRange heap.used (log (heapExtractTraced comp heap realloc)) ↔ ¬Sinks comp n f := by
  have hle := h.slots.le_length
  have hint := h.int
  have hsize := h.size
  have hlog := h.extract_log realloc
  have hfirst : Exact (n+1 : ℕ) (.access 0) := ⟨le_rfl,by omega⟩
  have hlast : Exact (n+1 : ℕ) (.access n) := ⟨by omega,by omega⟩
  rw [h.used]
  by_cases h0 : n = 0
  · rw [if_pos h0] at hlog
    have hends : InRange (n+1 : ℕ) [.access 0,.access n] := by
      apply inRange_of_exact
      simpa using ⟨hfirst,hlast⟩
    have hempty : ¬Sinks comp n f := fun hsinks => absurd hsinks.1 (by omega)
    rw [hlog]
    exact iff_of_true hends hempty
  · rw [if_neg h0] at hlog
    obtain ⟨heap',hslots,hused',hlog⟩ := hlog
    have hbelow : ∀ j, greaterPath comp n f 0 < j → j < n → Function.update f 0 (f n) j = f j := by
      intro j hj _
      exact Function.update_of_ne (Nat.ne_of_gt hj) ..
    obtain ⟨hwrapped,hexact⟩ :=
      siftDownTraced_path (k := 0) hc h.ordered (by omega) (Nat.zero_le 30) hslots hused'
      (Nat.pos_of_ne_zero h0) hbelow (Function.update_self ..) (fun h0 => absurd h0 (lt_irrefl 0)) (Nat.sub_le n 0)
    rw [hlog]
    constructor
    · intro hrange hsinks
      obtain ⟨index,hneg,hin⟩ := hwrapped hsinks
      have hnonneg := hrange.2 index (List.mem_cons_of_mem _ (List.mem_cons_of_mem _ (List.mem_cons_of_mem _ hin)))
      omega
    · intro hnot
      apply inRange_of_exact
      simp only [List.forall_mem_cons]
      exact ⟨hfirst,hlast,hfirst,hexact hnot⟩

lemma sinks_large (h : Sinks comp n f) : 2^30 ≤ n := by
  have hlevel := (greaterPath_level comp n f 30).1
  have hpath := h.1
  omega

/-- In a call on a heap in order, every child index has its value without overflow or is not used for an access, and
every access stays within the elements and the slot after them: always in an insertion, and in an extraction exactly
if the last element does not sink for 30 levels. -/
theorem heap_indices_iff (hc : IsPreorder comp) (h : InOrder comp heap (n+1) f) (realloc : Bool) :
    (∀ data, InRange heap.used (log (heapInsertTraced comp heap data realloc))) ∧
      (InRange heap.used (log (heapExtractTraced comp heap realloc)) ↔ ¬Sinks comp n f) := by
  constructor
  · intro data
    rw [h.used]
    exact inRange_of_exact (h.insert_exact data realloc)
  · exact h.extract_inRange_iff hc realloc

def threeHeap : Heap ℕ := ⟨[some 5,some 2,some 4,none],4,3⟩

theorem heap_indices_three : (∀ data, InRange 3 (log (heapInsertTraced compareNat threeHeap data true))) ∧
    InRange 3 (log (heapExtractTraced compareNat threeHeap true)) := by
  have hin : InOrder compareNat threeHeap 3 fun i => [5,2,4].getD i 0 := by
    refine ⟨rfl,rfl,by decide,?_,?_⟩
    · intro i hi
      interval_cases i <;> rfl
    · intro i hpos hi
      interval_cases i <;> decide
  obtain ⟨hinsert,hextract⟩ := heap_indices_iff compareNat_isPreorder hin true
  refine ⟨hinsert,hextract.mpr ?_⟩
  intro hsinks
  have hlarge := sinks_large hsinks
  omega

/-- A heap with 2^30+1 elements, of which the last one is the least and all others are equal. -/
def levelHeap : Heap ℕ := ⟨List.replicate (2^30) (some 1)++[some 0],2^30+1,2^30+1⟩

def levelElements (i : ℕ) : ℕ := if i < 2^30 then 1 else 0

lemma levelHeap_inOrder : InOrder compareNat levelHeap (2^30+1) levelElements := by
  have hlength : (List.replicate (2^30) (some 1)).length = 2^30 := List.length_replicate
  have hslots : Slots (List.replicate (2^30) (some 1)++[some 0]) (2^30+1) levelElements := by
    intro i hi
    by_cases hlt : i < 2^30
    · rw [levelElements,if_pos hlt,List.getElem?_append_left (by rwa [hlength]),List.getElem?_replicate_of_lt hlt]
    · obtain rfl : i = 2^30 := by omega
      rw [levelElements,if_neg hlt,List.getElem?_append_right hlength.le,hlength,Nat.sub_self]
      rfl
  have hordered : Ordered compareNat (2^30+1) levelElements := by
    intro i hpos hi
    have hp : parent i < 2^30 := by
      have := parent_lt hpos
      omega
    rw [levelElements,levelElements,if_pos hp,compareNat]
    split_ifs <;> decide
  have hsize : ((List.replicate (2^30) (some 1)++[some 0]).length : ℤ) = 2^30+1 := by
    rw [List.length_append,hlength,List.length_singleton]
    norm_num
  exact ⟨by norm_num [levelHeap],hsize.symm,by norm_num [levelHeap],hslots,hordered⟩

/-- Among equals the path goes to the left. -/
lemma levelElements_path (k : ℕ) (hk : 2^k ≤ 2^30) : greaterPath compareNat (2^30) levelElements k+1 = 2^k := by
  induction k with
  | zero => rfl
  | succ k ih =>
    have hpow : 2^(k+1) = 2*2^k := by ring
    have hpath := ih (by omega)
    have hleft : ¬(2*greaterPath compareNat (2^30) levelElements k+2 < 2^30 ∧
        0 < compareNat (levelElements (2*greaterPath compareNat (2^30) levelElements k+2))
          (levelElements (2*greaterPath compareNat (2^30) levelElements k+1))) := by
      rintro ⟨hin,hpos⟩
      rw [levelElements,levelElements,if_pos hin,if_pos (by omega)] at hpos
      exact absurd hpos (by decide)
    rw [greaterPath,greaterChild,better,if_neg hleft]
    omega

/-- The first element has gone down the left side, and the index of the next right child is negative. -/
theorem heap_indices_wrapped : IsPreorder compareNat ∧ InOrder compareNat levelHeap (2^30+1) levelElements ∧
    ¬InRange levelHeap.used (log (heapExtractTraced compareNat levelHeap true)) := by
  refine ⟨compareNat_isPreorder,levelHeap_inOrder,?_⟩
  rw [levelHeap_inOrder.extract_inRange_iff compareNat_isPreorder true,not_not]
  have hpath := levelElements_path 30 le_rfl
  have hlt : greaterPath compareNat (2^30) levelElements 30 < 2^30 := by omega
  refine ⟨hlt,?_⟩
  rw [levelElements,levelElements,if_pos hlt,if_neg (lt_irrefl _)]
  decide

end Calls

end JustKit.Heaps
