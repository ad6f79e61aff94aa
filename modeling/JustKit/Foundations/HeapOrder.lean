import Mathlib

/-! Binary heaps as sequences: the heap order under a three-way comparison, and the two sifts. -/
namespace Foundations.HeapOrder
variable {α : Type*}

/-- A comparison whose sign is that of a total preorder. -/
structure IsPreorder (comp : α → α → ℤ) : Prop where
  sign_swap : ∀ a b, (comp a b).sign = -(comp b a).sign
  trans : ∀ a b c, 0 ≤ comp a b → 0 ≤ comp b c → 0 ≤ comp a c

def parent (i : ℕ) : ℕ := (i-1)/2

/-- No element is above its parent. -/
def Ordered (comp : α → α → ℤ) (n : ℕ) (f : ℕ → α) : Prop :=
  ∀ i, 0 < i → i < n → 0 ≤ comp (f (parent i)) (f i)

/-- The first `n` elements. -/
def contents (n : ℕ) (f : ℕ → α) : List α := (List.range n).map f

/-- Exchange two elements. -/
def exchange (f : ℕ → α) (i j : ℕ) : ℕ → α := f ∘ Equiv.swap i j

/-- Exchange an element with its parent as long as it is above it. -/
def siftUp (comp : α → α → ℤ) (f : ℕ → α) (i : ℕ) : ℕ → α :=
  if 0 < i ∧ comp (f (parent i)) (f i) < 0 then siftUp comp (exchange f i (parent i)) (parent i) else f
termination_by i
decreasing_by simp only [parent]; omega

/-- The position `j` if it is below `n` and its element is above that at `m`, else `m`. -/
def better (comp : α → α → ℤ) (n : ℕ) (f : ℕ → α) (j m : ℕ) : ℕ :=
  if j < n ∧ 0 < comp (f j) (f m) then j else m

/-- The position of the highest of an element and its children. -/
def highest (comp : α → α → ℤ) (n : ℕ) (f : ℕ → α) (i : ℕ) : ℕ :=
  better comp n f (2*i+2) (better comp n f (2*i+1) i)

lemma highest_cases (comp : α → α → ℤ) (n : ℕ) (f : ℕ → α) (i : ℕ) :
    highest comp n f i = i ∨
      (i < highest comp n f i ∧ highest comp n f i < n ∧ parent (highest comp n f i) = i) := by
  simp only [highest,better,parent]
  split_ifs <;> omega

/-- Exchange an element with the higher child as long as this is above it. -/
def siftDown (comp : α → α → ℤ) (n : ℕ) (f : ℕ → α) (i : ℕ) : ℕ → α :=
  if highest comp n f i = i then f
  else siftDown comp n (exchange f i (highest comp n f i)) (highest comp n f i)
termination_by n-i
decreasing_by
  have := highest_cases comp n f i
  omega

lemma parent_lt {i : ℕ} (hi : 0 < i) : parent i < i := by
  simp only [parent]
  omega

@[simp] lemma exchange_left (f : ℕ → α) (i j : ℕ) : exchange f i j i = f j := by simp [exchange]
@[simp] lemma exchange_right (f : ℕ → α) (i j : ℕ) : exchange f i j j = f i := by simp [exchange]
lemma exchange_other (f : ℕ → α) {i j k : ℕ} (hi : k ≠ i) (hj : k ≠ j) : exchange f i j k = f k := by
  simp [exchange,Equiv.swap_apply_of_ne_of_ne hi hj]

lemma exchange_comm (f : ℕ → α) (i j : ℕ) : exchange f i j = exchange f j i := by
  rw [exchange,exchange,Equiv.swap_comm]

/-- An exchange as two assignments. -/
lemma exchange_eq_update (f : ℕ → α) (i j : ℕ) :
    exchange f i j = Function.update (Function.update f i (f j)) j (f i) := by
  funext k
  by_cases hj : k = j
  · subst hj
    simp
  · by_cases hi : k = i
    · subst hi
      simp [Function.update_of_ne hj]
    · rw [exchange_other f hi hj,Function.update_of_ne hj,Function.update_of_ne hi]

theorem exchange_perm (f : ℕ → α) {n i j : ℕ} (hi : i < n) (hj : j < n) :
    (contents n (exchange f i j)).Perm (contents n f) := by
  have hp : ((List.range n).map (Equiv.swap i j)).Perm (List.range n) := by
    rw [List.perm_ext_iff_of_nodup (List.nodup_range.map (Equiv.swap i j).injective) List.nodup_range]
    intro k
    rw [List.mem_map,List.mem_range]
    constructor
    · rintro ⟨m,hm,rfl⟩
      rw [List.mem_range] at hm
      rw [Equiv.swap_apply_def]
      split_ifs <;> assumption
    · intro hk
      refine ⟨Equiv.swap i j k,?_,Equiv.swap_apply_self i j k⟩
      rw [List.mem_range,Equiv.swap_apply_def]
      split_ifs <;> assumption
  simpa [contents,exchange,List.map_map] using hp.map f

theorem siftUp_perm (comp : α → α → ℤ) (f : ℕ → α) {n i : ℕ} (hi : i < n) :
    (contents n (siftUp comp f i)).Perm (contents n f) := by
  induction i using Nat.strong_induction_on generalizing f with
  | _ i ih =>
    rw [siftUp]
    split_ifs with h
    · have hp := parent_lt h.1
      exact (ih _ hp _ (hp.trans hi)).trans (exchange_perm f hi (hp.trans hi))
    · rfl

theorem siftDown_perm (comp : α → α → ℤ) (f : ℕ → α) {n i : ℕ} (hi : i < n) :
    (contents n (siftDown comp n f i)).Perm (contents n f) := by
  induction hk : n-i using Nat.strong_induction_on generalizing f i with
  | _ k ih =>
    rw [siftDown]
    split_ifs with h
    · rfl
    · obtain ⟨hlt,hn,_⟩ := (highest_cases comp n f i).resolve_left h
      exact (ih _ (by omega) _ hn rfl).trans (exchange_perm f hi hn)

section Order
variable {comp : α → α → ℤ} (hc : IsPreorder comp)
include hc

lemma IsPreorder.le_of_lt {a b : α} (h : comp a b < 0) : 0 ≤ comp b a := by
  have hs := hc.sign_swap a b
  rw [Int.sign_eq_neg_one_of_neg h] at hs
  exact (Int.sign_eq_one_iff_pos.mp (by omega)).le

lemma IsPreorder.le_of_not_lt {a b : α} (h : ¬ 0 < comp a b) : 0 ≤ comp b a := by
  rcases lt_or_eq_of_le (not_lt.mp h) with h | h
  · exact hc.le_of_lt h
  · have hs := hc.sign_swap a b
    rw [h,Int.sign_zero] at hs
    exact (Int.sign_eq_zero_iff_zero.mp (by omega)).ge

/-- The order holds except between position `i` and its parent, and it would hold without `i`. -/
def UpTo (comp : α → α → ℤ) (n : ℕ) (f : ℕ → α) (i : ℕ) : Prop :=
  (∀ j, 0 < j → j < n → j ≠ i → 0 ≤ comp (f (parent j)) (f j)) ∧
    ∀ j, 0 < i → 0 < j → j < n → parent j = i → 0 ≤ comp (f (parent i)) (f j)

/-- The order holds except between position `i` and its children, and it would hold without `i`. -/
def DownTo (comp : α → α → ℤ) (n : ℕ) (f : ℕ → α) (i : ℕ) : Prop :=
  (∀ j, 0 < j → j < n → parent j ≠ i → 0 ≤ comp (f (parent j)) (f j)) ∧
    ∀ j, 0 < i → 0 < j → j < n → parent j = i → 0 ≤ comp (f (parent i)) (f j)

lemma UpTo.exchange {n i : ℕ} {f : ℕ → α} (h : UpTo comp n f i) (hi : 0 < i) (hin : i < n)
    (hlt : comp (f (parent i)) (f i) < 0) : UpTo comp n (exchange f i (parent i)) (parent i) := by
  have hp := parent_lt hi
  have habove := hc.le_of_lt hlt
  constructor
  · intro j hj hjn hjp
    by_cases hji : j = i
    · subst hji
      simpa using habove
    · rw [exchange_other f hji hjp]
      by_cases hpi : parent j = i
      · rw [hpi,exchange_left]
        exact h.2 j hi hj hjn hpi
      · by_cases hpp : parent j = parent i
        · rw [hpp,exchange_right]
          exact hc.trans _ _ _ habove (hpp ▸ h.1 j hj hjn hji)
        · rw [exchange_other f hpi hpp]
          exact h.1 j hj hjn hji
  · intro j hp0 hj hjn hjp
    have hpp := parent_lt hp0
    have hup := h.1 (parent i) hp0 (by omega) (by omega)
    rw [exchange_other f (by omega) (by omega)]
    by_cases hji : j = i
    · subst hji
      simpa using hup
    · rw [exchange_other f hji (by have := parent_lt hj; omega)]
      exact hc.trans _ _ _ hup (hjp ▸ h.1 j hj hjn hji)

theorem siftUp_ordered {n i : ℕ} {f : ℕ → α} (h : UpTo comp n f i) (hin : i < n) :
    Ordered comp n (siftUp comp f i) := by
  induction i using Nat.strong_induction_on generalizing f with
  | _ i ih =>
    rw [siftUp]
    split_ifs with hs
    · have hp := parent_lt hs.1
      exact ih _ hp (h.exchange hc hs.1 hin hs.2) (by omega)
    · intro j hj hjn
      by_cases hji : j = i
      · subst hji
        exact not_lt.mp fun hlt => hs ⟨hj,hlt⟩
      · exact h.1 j hj hjn hji

lemma IsPreorder.refl (a : α) : 0 ≤ comp a a := by
  by_contra h
  exact h (hc.le_of_lt (not_le.mp h))

lemma better_above {n j m : ℕ} (f : ℕ → α) : 0 ≤ comp (f (better comp n f j m)) (f m) ∧
    (j < n → 0 ≤ comp (f (better comp n f j m)) (f j)) := by
  rw [better]
  split_ifs with h
  · exact ⟨h.2.le,fun _ => hc.refl _⟩
  · exact ⟨hc.refl _,fun hj => hc.le_of_not_lt fun hlt => h ⟨hj,hlt⟩⟩

/-- The highest of an element and its children is above all of them. -/
lemma highest_above {n i : ℕ} (f : ℕ → α) : 0 ≤ comp (f (highest comp n f i)) (f i) ∧
    ∀ j, 0 < j → j < n → parent j = i → 0 ≤ comp (f (highest comp n f i)) (f j) := by
  obtain ⟨h1,h2⟩ := better_above hc (n := n) (j := 2*i+1) (m := i) f
  obtain ⟨h3,h4⟩ := better_above hc (n := n) (j := 2*i+2) (m := better comp n f (2*i+1) i) f
  refine ⟨hc.trans _ _ _ h3 h1,?_⟩
  intro j hj hjn hp
  have hji : j = 2*i+1 ∨ j = 2*i+2 := by
    simp only [parent] at hp
    omega
  rcases hji with rfl | rfl
  · exact hc.trans _ _ _ h3 (h2 hjn)
  · exact h4 hjn

omit hc in
lemma DownTo.exchange {n i m : ℕ} {f : ℕ → α} (h : DownTo comp n f i) (hm : 0 < m) (hmn : m < n)
    (hmi : parent m = i) (habove : 0 ≤ comp (f m) (f i))
    (hall : ∀ j, 0 < j → j < n → parent j = i → 0 ≤ comp (f m) (f j)) :
    DownTo comp n (exchange f i m) m := by
  have him : i < m := hmi ▸ parent_lt hm
  constructor
  · intro j hj hjn hjp
    have hpj := parent_lt hj
    by_cases hjm : j = m
    · rw [hjm,hmi]
      simpa using habove
    · by_cases hji : j = i
      · subst hji
        rw [exchange_left,exchange_other f hpj.ne hjp]
        exact h.2 m hj hm hmn hmi
      · rw [exchange_other f hji hjm]
        by_cases hpi : parent j = i
        · rw [hpi,exchange_left]
          exact hall j hj hjn hpi
        · rw [exchange_other f hpi hjp]
          exact h.1 j hj hjn hpi
  · intro j _ hj hjn hjp
    have hpj := parent_lt hj
    rw [hmi,exchange_left,exchange_other f (by omega) (by omega)]
    have hup := h.1 j hj hjn (by omega)
    rwa [hjp] at hup

theorem siftDown_ordered {n i : ℕ} {f : ℕ → α} (h : DownTo comp n f i) :
    Ordered comp n (siftDown comp n f i) := by
  induction hk : n-i using Nat.strong_induction_on generalizing f i with
  | _ k ih =>
    obtain ⟨habove,hall⟩ := highest_above hc (n := n) (i := i) f
    rw [siftDown]
    split_ifs with hs
    · intro j hj hjn
      by_cases hpi : parent j = i
      · rw [hs] at hall
        rw [hpi]
        exact hall j hj hjn hpi
      · exact h.1 j hj hjn hpi
    · obtain ⟨hlt,hmn,hmi⟩ := (highest_cases comp n f i).resolve_left hs
      exact ih _ (by omega) (h.exchange (by omega) hmn hmi habove hall) rfl

/-- The first element is above all others. -/
theorem Ordered.top {n : ℕ} {f : ℕ → α} (h : Ordered comp n f) {i : ℕ} (hi : i < n) :
    0 ≤ comp (f 0) (f i) := by
  induction i using Nat.strong_induction_on with
  | _ i ih =>
    by_cases h0 : i = 0
    · subst h0
      exact hc.refl _
    · have hp := parent_lt (Nat.pos_of_ne_zero h0)
      exact hc.trans _ _ _ (ih _ hp (by omega)) (h i (Nat.pos_of_ne_zero h0) hi)

end Order

/-! ### The path of greater children -/

/-- The child whose element is above that of the other one. -/
def greaterChild (comp : α → α → ℤ) (n : ℕ) (f : ℕ → α) (i : ℕ) : ℕ :=
  better comp n f (2*i+2) (2*i+1)

/-- The positions reached from the top in that many steps to the greater child. -/
def greaterPath (comp : α → α → ℤ) (n : ℕ) (f : ℕ → α) : ℕ → ℕ
  | 0 => 0
  | k+1 => greaterChild comp n f (greaterPath comp n f k)

section Path
variable {comp : α → α → ℤ} {n : ℕ} {f g : ℕ → α}

lemma greaterChild_cases (comp : α → α → ℤ) (n : ℕ) (f : ℕ → α) (i : ℕ) :
    greaterChild comp n f i = 2*i+1 ∨ greaterChild comp n f i = 2*i+2 := by
  rw [greaterChild,better]
  split_ifs
  · exact Or.inr rfl
  · exact Or.inl rfl

lemma greaterChild_congr {i : ℕ} (h : ∀ j, i < j → j < n → g j = f j) (hi : 2*i+1 < n) :
    greaterChild comp n g i = greaterChild comp n f i := by
  rw [greaterChild,greaterChild,better,better]
  by_cases hr : 2*i+2 < n
  · rw [h (2*i+2) (by omega) hr,h (2*i+1) (by omega) hi]
  · rw [if_neg fun hc => hr hc.1,if_neg fun hc => hr hc.1]

/-- A position of the path is in the level of its number. -/
lemma greaterPath_level (comp : α → α → ℤ) (n : ℕ) (f : ℕ → α) (k : ℕ) :
    2^k ≤ greaterPath comp n f k+1 ∧ greaterPath comp n f k+2 ≤ 2^(k+1) := by
  induction k with
  | zero => simp [greaterPath]
  | succ k ih =>
    have hchild := greaterChild_cases comp n f (greaterPath comp n f k)
    rw [greaterPath]
    have h1 : 2^(k+1) = 2*2^k := by ring
    have h2 : 2^(k+1+1) = 2*2^(k+1) := by ring
    omega

lemma greaterPath_strictMono (comp : α → α → ℤ) (n : ℕ) (f : ℕ → α) :
    StrictMono (greaterPath comp n f) := by
  apply strictMono_nat_of_lt_succ
  intro k
  have hchild := greaterChild_cases comp n f (greaterPath comp n f k)
  rw [greaterPath]
  omega

variable (hc : IsPreorder comp)
include hc

lemma IsPreorder.pos_of_le_of_pos {a b c : α} (hab : 0 ≤ comp a b) (hbc : 0 < comp b c) : 0 < comp a c := by
  by_contra h
  have hcb := hc.trans c a b (hc.le_of_not_lt h) hab
  have hs := hc.sign_swap b c
  rw [Int.sign_eq_one_of_pos hbc] at hs
  have hneg := Int.sign_eq_neg_one_iff_neg.mp (show (comp c b).sign = -1 by omega)
  omega

/-- An element is exchanged with the greater child or with none. -/
lemma highest_eq (i : ℕ) : highest comp n f i =
    if greaterChild comp n f i < n ∧ 0 < comp (f (greaterChild comp n f i)) (f i) then greaterChild comp n f i
    else i := by
  -- two of the three comparisons decide the third
  have hright : 0 < comp (f (2*i+2)) (f (2*i+1)) → 0 < comp (f (2*i+1)) (f i) → 0 < comp (f (2*i+2)) (f i) :=
    fun h h' => hc.pos_of_le_of_pos h.le h'
  have hleft : ¬0 < comp (f (2*i+2)) (f (2*i+1)) → 0 < comp (f (2*i+2)) (f i) → 0 < comp (f (2*i+1)) (f i) :=
    fun h h' => hc.pos_of_le_of_pos (hc.le_of_not_lt h) h'
  simp only [highest,greaterChild,better]
  split_ifs <;> grind

/-- An element on the path, below which nothing has changed, stays or goes on along the path. -/
lemma highest_path {k : ℕ} (hbelow : ∀ j, greaterPath comp n f k < j → j < n → g j = f j) :
    highest comp n g (greaterPath comp n f k) =
      if greaterPath comp n f (k+1) < n ∧
      0 < comp (f (greaterPath comp n f (k+1))) (g (greaterPath comp n f k)) then
        greaterPath comp n f (k+1)
      else greaterPath comp n f k := by
  have hchild := greaterChild_cases comp n f (greaterPath comp n f k)
  have hchild' := greaterChild_cases comp n g (greaterPath comp n f k)
  rw [highest_eq hc,greaterPath]
  by_cases hin : 2*greaterPath comp n f k+1 < n
  · rw [greaterChild_congr hbelow hin]
    by_cases hlt : greaterChild comp n f (greaterPath comp n f k) < n
    · rw [hbelow _ (by omega) hlt]
    · rw [if_neg fun h => hlt h.1,if_neg fun h => hlt h.1]
  · have hout : ¬greaterChild comp n f (greaterPath comp n f k) < n := by omega
    have hout' : ¬greaterChild comp n g (greaterPath comp n f k) < n := by omega
    rw [if_neg fun h => hout' h.1,if_neg fun h => hout h.1]

/-- Along the path of a heap the elements descend. -/
lemma Ordered.path {m : ℕ} (h : Ordered comp m f) {k l : ℕ} (hkl : k ≤ l) (hl : greaterPath comp n f l < m) :
    0 ≤ comp (f (greaterPath comp n f k)) (f (greaterPath comp n f l)) := by
  induction l, hkl using Nat.le_induction with
  | base => exact hc.refl _
  | succ l hkl ih =>
    have hlt : greaterPath comp n f l < greaterPath comp n f (l+1) :=
      greaterPath_strictMono comp n f (Nat.lt_succ_self l)
    have hchild := greaterChild_cases comp n f (greaterPath comp n f l)
    have hparent : parent (greaterPath comp n f (l+1)) = greaterPath comp n f l := by
      rw [greaterPath,parent]
      omega
    have hstep := h (greaterPath comp n f (l+1)) (by omega) hl
    rw [hparent] at hstep
    exact hc.trans _ _ _ (ih (by omega)) hstep

end Path

/-! ### The element added and the element taken out -/

/-- Only the new last element can be out of order. -/
lemma Ordered.append {comp : α → α → ℤ} {n : ℕ} {f : ℕ → α} (h : Ordered comp n f) (x : α) :
    UpTo comp (n+1) (Function.update f n x) n := by
  constructor
  · intro j hj hjn hne
    have hp := parent_lt hj
    rw [Function.update_of_ne (by omega),Function.update_of_ne (by omega)]
    exact h j hj (by omega)
  · intro j _ hj hjn hp
    have := parent_lt hj
    omega

/-- Only the new first element can be out of order. -/
lemma Ordered.replaceTop {comp : α → α → ℤ} {n : ℕ} {f : ℕ → α} (h : Ordered comp (n+1) f) (x : α) :
    DownTo comp n (Function.update f 0 x) 0 := by
  constructor
  · intro j hj hjn hp
    rw [Function.update_of_ne hp,Function.update_of_ne (by omega)]
    exact h j hj (by omega)
  · intro j h0
    omega

lemma contents_append (n : ℕ) (f : ℕ → α) (x : α) :
    contents (n+1) (Function.update f n x) = contents n f++[x] := by
  have hrest : contents n (Function.update f n x) = contents n f :=
    List.map_congr_left fun j hj => Function.update_of_ne (by simp at hj; omega) _ _
  simp only [contents,List.range_succ,List.map_append,List.map_cons,List.map_nil,Function.update_self]
  exact congrArg (· ++ [x]) hrest

lemma contents_replaceTop {n : ℕ} (hn : 0 < n) (f : ℕ → α) :
    (contents (n+1) f).Perm (f 0::contents n (Function.update f 0 (f n))) := by
  obtain ⟨m,rfl⟩ : ∃ m, n = m+1 := ⟨n-1,by omega⟩
  have hlast : contents (m+1+1) f = contents (m+1) f++[f (m+1)] := by
    simp [contents,List.range_succ]
  have hfirst (g : ℕ → α) : contents (m+1) g = g 0::(List.range m).map (fun j => g (j+1)) := by
    simp [contents,List.range_succ_eq_map]
  rw [hlast,hfirst f,hfirst (Function.update f 0 (f (m+1)))]
  simp only [Function.update_self,Function.update_of_ne (Nat.succ_ne_zero _)]
  exact (List.perm_append_singleton _ _).trans (List.Perm.swap _ _ _)

end Foundations.HeapOrder
