import JustKit.Skip.Chains

/-! The loops that assign forward pointers, as one change of the pointers they assign to, and what such a
change does to the chains. -/
namespace JustKit.Skip
open Foundations Foundations.LevelChain
variable {δ : Type}

/-- The same header, counters, nodes, keys, values and levels. -/
structure SameShape (list list' : SkipList δ) : Prop where
  header : list'.header = list.header
  length : list'.length = list.length
  level : list'.level = list.level
  shape : ∀ b, (list'.mem b).map SkipNode.shape = (list.mem b).map SkipNode.shape

theorem SameShape.refl (list : SkipList δ) : SameShape list list := ⟨rfl,rfl,rfl,fun _ => rfl⟩

theorem SameShape.trans {l₁ l₂ l₃ : SkipList δ} (h : SameShape l₁ l₂)
    (h' : SameShape l₂ l₃) : SameShape l₁ l₃ :=
  ⟨h'.header.trans h.header,h'.length.trans h.length,h'.level.trans h.level,fun b => (h'.shape b).trans
    (h.shape b)⟩

/-- A pointer that can be read can be assigned to. -/
theorem setForward_spec {list : SkipList δ} {a : Addr} {i : ℕ} {q : Option Addr} (h : list.forward a i = some q)
    (p : Option Addr) : ∃ list', list.setForward a i p = some list' ∧ SameShape list list' ∧
      ∀ b j, list'.forward b j = if b = a ∧ j = i then some p else list.forward b j := by
  obtain ⟨n,hn,hq⟩ := Option.bind_eq_some_iff.mp h
  obtain ⟨hi,_⟩ := List.getElem?_eq_some_iff.mp hq
  refine ⟨{ list with mem := list.mem.put a { n with forward := n.forward.set i p } },
    by simp [SkipList.setForward,hn,hi],⟨rfl,rfl,rfl,fun b => ?_⟩,fun b j => ?_⟩
  · by_cases hb : b = a
    · subst hb
      simp [hn,SkipNode.shape]
    · simp [hb]
  · by_cases hb : b = a
    · subst hb
      by_cases hj : j = i
      · subst hj
        simp [SkipList.forward,hi]
      · simp [SkipList.forward,hn,hj,Ne.symm hj]
    · simp [SkipList.forward,hb]

/-- The loop of `jk_skip_insert` puts node `n` between `u j` and its successor on every level `j`. -/
theorem link_spec {list : SkipList δ} {n : Addr} (u : ℕ → Addr) (i m : ℕ) (hu : ∀ j, u j ≠ n)
    (hn : ∀ j, i ≤ j → j < i+m → (list.forward n j).isSome ∧ (list.forward (u j) j).isSome) :
    ∃ list', link list n i ((List.range' i m).map u) = some list' ∧ SameShape list list' ∧
      ∀ b j, list'.forward b j = if i ≤ j ∧ j < i+m then
        if b = n then list.forward (u j) j else if b = u j then some (some n) else list.forward b j
        else list.forward b j := by
  induction m generalizing list i with
  | zero => exact ⟨list,rfl,SameShape.refl list,fun b j => by rw [if_neg (by omega)]⟩
  | succ m ih =>
    obtain ⟨q,hq⟩ := Option.isSome_iff_exists.mp (hn i le_rfl (by omega)).1
    obtain ⟨next,hnext⟩ := Option.isSome_iff_exists.mp (hn i le_rfl (by omega)).2
    obtain ⟨l₁,e1,s1,f1⟩ := setForward_spec hq next
    have hui : l₁.forward (u i) i = some next := by
      rw [f1,if_neg fun hc => hu i hc.1,hnext]
    obtain ⟨l₂,e2,s2,f2⟩ := setForward_spec hui (some n)
    have hrest : ∀ b j, j ≠ i → l₂.forward b j = list.forward b j := fun b j hj => by
      rw [f2,if_neg fun hc => hj hc.2,f1,if_neg fun hc => hj hc.2]
    have hn2 : ∀ j, i+1 ≤ j → j < i+1+m → (l₂.forward n j).isSome ∧ (l₂.forward (u j) j).isSome := by
      intro j hj hj'
      rw [hrest _ _ (by omega),hrest _ _ (by omega)]
      exact hn j (by omega) (by omega)
    obtain ⟨l₃,e3,s3,f3⟩ := ih (i+1) hn2
    refine ⟨l₃,by simp [List.range'_succ,link,hnext,e1,e2,e3],s1.trans (s2.trans s3),fun b j => ?_⟩
    rw [f3]
    by_cases hji : j = i
    · subst hji
      rw [if_neg (by omega),if_pos (by omega),f2,f1]
      by_cases hb : b = n
      · subst hb
        simp [Ne.symm (hu j),hnext]
      · simp [hb]
    · by_cases hj : i+1 ≤ j ∧ j < i+1+m
      · rw [if_pos hj,if_pos (show i ≤ j ∧ j < i+(m+1) by omega)]
        simp only [hrest _ _ hji]
      · rw [if_neg hj,if_neg (by omega),hrest _ _ hji]

/-- The loop of `jk_skip_delete` takes node `n` out of the chains that it belongs to, those below
level `h`, and stops at the first other one. -/
theorem unlink_spec {list : SkipList δ} {n : Addr} (u : ℕ → Addr) (i m h : ℕ)
    (hn : ∀ j, i ≤ j → j < i+m → (list.forward (u j) j).isSome ∧
      (list.forward (u j) j = some (some n) ↔ j < h) ∧ (j < h → (list.forward n j).isSome)) :
    ∃ list', unlink list n i ((List.range' i m).map u) = some list' ∧ SameShape list list' ∧
      ∀ b j, list'.forward b j = if i ≤ j ∧ j < i+m ∧ j < h ∧ b = u j then list.forward n j
        else list.forward b j := by
  induction m generalizing list i with
  | zero => exact ⟨list,rfl,SameShape.refl list,fun b j => by rw [if_neg (by omega)]⟩
  | succ m ih =>
    obtain ⟨hsome,hiff,hnext⟩ := hn i le_rfl (by omega)
    obtain ⟨q,hq⟩ := Option.isSome_iff_exists.mp hsome
    by_cases hi : i < h
    · obtain ⟨next,hnext⟩ := Option.isSome_iff_exists.mp (hnext hi)
      have hqn : q = some n := Option.some.inj (hq.symm.trans (hiff.mpr hi))
      obtain ⟨l₁,e1,s1,f1⟩ := setForward_spec hq next
      have hrest : ∀ b j, j ≠ i → l₁.forward b j = list.forward b j := fun b j hj => by
        rw [f1,if_neg fun hc => hj hc.2]
      have hn1 : ∀ j, i+1 ≤ j → j < i+1+m → (l₁.forward (u j) j).isSome ∧
          (l₁.forward (u j) j = some (some n) ↔ j < h) ∧ (j < h → (l₁.forward n j).isSome) := by
        intro j hj hj'
        rw [hrest _ _ (by omega),hrest _ _ (by omega)]
        exact hn j (by omega) (by omega)
      obtain ⟨l₂,e2,s2,f2⟩ := ih (i+1) hn1
      refine ⟨l₂,by simp [List.range'_succ,unlink,hq,hqn,hnext,e1,e2],s1.trans s2,fun b j => ?_⟩
      rw [f2]
      by_cases hji : j = i
      · subst hji
        rw [if_neg (by omega),f1]
        by_cases hb : b = u j
        · subst hb
          simp [hi,hnext]
        · simp [hb]
      · by_cases hj : i+1 ≤ j ∧ j < i+1+m ∧ j < h ∧ b = u j
        · rw [if_pos hj,if_pos ⟨by omega,by omega,hj.2.2⟩,hrest _ _ hji]
        · rw [if_neg hj,if_neg fun hc => hj ⟨by omega,by omega,hc.2.2⟩,hrest _ _ hji]
    · have hqn : q ≠ some n := fun hc => hi (hiff.mp (hq.trans (congrArg some hc)))
      refine ⟨list,by simp [List.range'_succ,unlink,hq,hqn],SameShape.refl list,fun b j => ?_⟩
      rw [if_neg (by omega)]

/-- The level falls to the highest one whose chain is not empty, but not below one. -/
theorem lowerLevel_spec {list : SkipList δ} {xs : List (Entry δ)} {level : ℕ}
    (hf : ∀ i < level, list.forward list.header i = some (succ i xs)) (h1 : 1 ≤ level)
    (hx : ∀ x ∈ xs, x.level ≤ level) :
    ∃ level', lowerLevel list level = some level' ∧ 1 ≤ level' ∧ level' ≤ level ∧
      (∀ x ∈ xs, x.level ≤ level') ∧ (level' = 1 ∨ ∃ x ∈ xs, x.level = level') := by
  induction level with
  | zero => omega
  | succ level ih =>
    rw [lowerLevel,hf level (by omega)]
    simp only [Option.bind_eq_bind,Option.bind_some]
    by_cases hc : 0 < level ∧ succ level xs = none
    · rw [if_pos hc]
      have hle : ∀ x ∈ xs, x.level ≤ level := firstAbove_eq_none.mp (Option.map_eq_none_iff.mp hc.2)
      obtain ⟨l,e,h1',h2,h3⟩ := ih (fun i hi => hf i (by omega)) hc.1 hle
      exact ⟨l,e,h1',by omega,h3⟩
    · rw [if_neg hc]
      refine ⟨level+1,rfl,h1,le_rfl,hx,?_⟩
      cases hfirst : firstAbove Entry.level level xs with
      | none => exact Or.inl (by simp [succ,hfirst] at hc; omega)
      | some x =>
        obtain ⟨hmem,hlt⟩ := mem_of_firstAbove hfirst
        exact Or.inr ⟨x,hmem,le_antisymm (hx x hmem) hlt⟩

section Linked
variable {f f' : Addr → ℕ → Option (Option Addr)} {header : Addr} {ls rs : List (Entry δ)} {x : Entry δ}

lemma nodup_middle : (header::(ls++x::rs).map Entry.addr).Nodup ↔
    (x.addr::header::(ls++rs).map Entry.addr).Nodup := by
  simp only [List.map_append,List.map_cons,← List.cons_append]
  exact List.nodup_middle

/-- The new entry is not the last one of any chain. -/
lemma pred_ne_new (hn : (header::(ls++x::rs).map Entry.addr).Nodup) {as : List (Entry δ)} (ha : as ⊆ ls++rs)
    (i : ℕ) : pred header i as ≠ x.addr := by
  intro he
  apply (nodup_middle.mp hn).notMem
  exact List.cons_subset_cons header (List.map_subset Entry.addr ha) (he ▸ pred_mem header i as)

section Insert
variable (h : Linked f header (ls++rs)) (hn : (header::(ls++x::rs).map Entry.addr).Nodup)
  (hf : ∀ b j, (b = x.addr → j < x.level) → f' b j = if j < x.level then
    if b = x.addr then f (pred header j ls) j else if b = pred header j ls then some (some x.addr) else f b j
    else f b j)
include h hn hf

lemma insert_before {as cs : List (Entry δ)} (hs : ls = as++cs) {i : ℕ} (hi : i < skipMaxLevel) :
    f' (pred header i as) i = some (succ i (cs++x::rs)) := by
  have hlink := h as (cs++rs) i (by rw [hs,List.append_assoc]) hi
  have hnx := pred_ne_new hn (show as ⊆ ls++rs by simp [hs]) i
  rw [hf _ _ fun e => absurd e hnx,if_neg hnx,hlink,succ_append,succ_append,succ_cons]
  by_cases hc : firstAbove Entry.level i cs = none
  · have hp : pred header i as = pred header i ls := by
      rw [hs,pred_append_none as (lastAbove_none_iff.mpr hc)]
    rw [if_pos hp,if_pos hc,if_pos hc]
    split <;> rfl
  · have hl : lastAbove Entry.level i cs ≠ none := fun e => hc (lastAbove_none_iff.mp e)
    have hp : pred header i as ≠ pred header i ls := by
      rw [hs,pred_append_some as hl]
      rw [hs,List.append_assoc] at hn
      exact (pred_ne hn i hl).symm
    rw [if_neg hp,if_neg hc,if_neg hc,ite_self]

lemma insert_after {cs bs : List (Entry δ)} (hs : rs = cs++bs) {i : ℕ} (hi : i < skipMaxLevel) :
    f' (pred header i (ls++x::cs)) i = some (succ i bs) := by
  have hlink := h (ls++cs) bs i (by rw [hs,List.append_assoc]) hi
  rw [List.append_cons]
  by_cases hc : lastAbove Entry.level i cs = none
  · rw [pred_append_none _ hc] at hlink ⊢
    rw [pred_concat]
    by_cases hx : i < x.level
    · rw [if_pos hx,hf _ _ fun _ => hx,if_pos hx,if_pos rfl,hlink]
    · rw [if_neg hx,hf _ _ fun e => ?_,if_neg hx,hlink]
      exact absurd e (pred_ne_new hn (List.subset_append_left ls rs) i)
  · rw [pred_append_some _ hc] at hlink ⊢
    have hl : pred header i cs ≠ pred header i ls := by
      have hrest := (nodup_middle.mp hn).of_cons
      rw [hs] at hrest
      exact pred_ne hrest i hc
    have hnx := pred_ne_new hn (show cs ⊆ ls++rs by simp [hs]) i
    rw [hf _ _ fun e => absurd e hnx,if_neg hnx,if_neg hl,hlink,ite_self]

/-- On every chain below its level the new entry comes between the last entry before it and the next. -/
theorem Linked.insert : Linked f' header (ls++x::rs) := by
  intro as bs i hs hi
  rcases List.append_eq_append_iff.mp hs with ⟨c,rfl,hc⟩ | ⟨c,hc,rfl⟩
  · cases c with
    | nil =>
      rw [List.append_nil]
      obtain rfl : x::rs = bs := hc
      exact insert_before h hn hf (List.append_nil ls).symm hi
    | cons y c =>
      obtain ⟨rfl,hrs⟩ := List.cons.inj hc
      exact insert_after h hn hf hrs hi
  · exact insert_before h hn hf hc hi

end Insert

section Delete
variable (h : Linked f header (ls++x::rs)) (hn : (header::(ls++x::rs).map Entry.addr).Nodup)
  (hf : ∀ b j, b ≠ x.addr → f' b j = if j < x.level ∧ b = pred header j ls then f x.addr j else f b j)
include h hn hf

lemma delete_before {as cs : List (Entry δ)} (hs : ls = as++cs) {i : ℕ} (hi : i < skipMaxLevel) :
    f' (pred header i as) i = some (succ i (cs++rs)) := by
  have hlink := h as (cs++x::rs) i (by rw [hs,List.append_assoc]) hi
  rw [succ_append,succ_cons] at hlink
  rw [hf _ _ (pred_ne_new hn (show as ⊆ ls++rs by simp [hs]) i),succ_append]
  by_cases hc : firstAbove Entry.level i cs = none
  · have hp : pred header i as = pred header i ls := by
      rw [hs,pred_append_none as (lastAbove_none_iff.mpr hc)]
    rw [if_pos hc] at hlink ⊢
    by_cases hx : i < x.level
    · have hnext := h (ls++[x]) rs i (by simp) hi
      rw [pred_concat,if_pos hx] at hnext
      rw [if_pos ⟨hx,hp⟩,hnext]
    · rw [if_neg fun e => hx e.1,hlink,if_neg hx]
  · have hl : lastAbove Entry.level i cs ≠ none := fun e => hc (lastAbove_none_iff.mp e)
    have hp : pred header i as ≠ pred header i ls := by
      rw [hs,pred_append_some as hl]
      rw [hs,List.append_assoc] at hn
      exact (pred_ne hn i hl).symm
    rw [if_neg fun e => hp e.2,hlink,if_neg hc,if_neg hc]

lemma delete_after {cs bs : List (Entry δ)} (hs : rs = cs++bs) {i : ℕ} (hi : i < skipMaxLevel) :
    f' (pred header i (ls++cs)) i = some (succ i bs) := by
  have hlink := h (ls++x::cs) bs i (by simp [hs]) hi
  rw [hf _ _ (pred_ne_new hn (show ls++cs ⊆ ls++rs by simp [hs]) i)]
  rw [List.append_cons] at hlink
  by_cases hc : lastAbove Entry.level i cs = none
  · rw [pred_append_none _ hc,pred_concat] at hlink
    rw [pred_append_none _ hc]
    by_cases hx : i < x.level
    · rw [if_pos ⟨hx,rfl⟩,← hlink,if_pos hx]
    · rw [if_neg fun e => hx e.1,← hlink,if_neg hx]
  · have hl : pred header i cs ≠ pred header i ls := by
      have hrest := (nodup_middle.mp hn).of_cons
      rw [hs] at hrest
      exact pred_ne hrest i hc
    rw [pred_append_some _ hc] at hlink ⊢
    rw [if_neg fun e => hl e.2,hlink]

/-- The entry is gone from every chain below its level. -/
theorem Linked.delete : Linked f' header (ls++rs) := by
  intro as bs i hs hi
  rcases List.append_eq_append_iff.mp hs with ⟨c,rfl,hc⟩ | ⟨c,hc,rfl⟩
  · exact delete_after h hn hf hc hi
  · exact delete_before h hn hf hc hi

end Delete

end Linked

end JustKit.Skip
