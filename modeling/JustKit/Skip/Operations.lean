import JustKit.Skip.Updates

/-! What insert, delete and find do to the sequence that a list represents. -/
namespace JustKit.Skip
open Foundations Foundations.LevelChain
variable {δ : Type}

/-! ### Insert -/

lemma Represents.allocated {list : SkipList δ} {xs : List (Entry δ)} (h : Represents list xs) {b : Addr}
    (hb : b ∈ list.header::xs.map Entry.addr) : list.mem b ≠ none := by
  intro hnone
  rcases List.mem_cons.mp hb with rfl | hb
  · simpa [hnone] using h.header
  · obtain ⟨x,hx,rfl⟩ := List.mem_map.mp hb
    simpa [hnone] using h.nodes x hx

/-- The header keeps its room for all levels. -/
lemma Represents.header_shape {list list' : SkipList δ} {xs : List (Entry δ)} (h : Represents list xs)
    (hheader : list'.header = list.header)
    (hs : (list'.mem list.header).map SkipNode.shape = (list.mem list.header).map SkipNode.shape) :
    (list'.mem list'.header).map (fun n => n.forward.length) = some skipMaxLevel := by
  obtain ⟨n,hn,hlen⟩ := Option.map_eq_some_iff.mp h.header
  rw [hn] at hs
  obtain ⟨n',hn',hs⟩ := Option.map_eq_some_iff.mp hs
  rw [hheader,hn']
  exact congrArg some ((congrArg (fun t : UInt64 × δ × ℕ => t.2.2) hs).trans hlen)

/-- The part of `update` that the new node uses, with the header above the level of the list. -/
lemma take_update (u : ℕ → Addr) {header : Addr} {i level : ℕ} (hu : ∀ j, i ≤ j → u j = header) :
    ((List.range i).map u++List.replicate (level-i) header).take level = (List.range' 0 level).map u := by
  apply List.ext_getElem
  · simp
    omega
  · intro j h1 h2
    have hj : j < level := by simpa using h2
    rw [List.getElem_take,List.getElem_map,List.getElem_range']
    by_cases hji : j < i
    · rw [List.getElem_append_left (by simpa using hji)]
      simp
    · rw [List.getElem_append_right (by simpa using hji),List.getElem_replicate,hu _ (by omega)]

/-- A list with the shape of `list` and a new entry in the chains. -/
lemma Represents.inserted {list list' : SkipList δ} {ls rs : List (Entry δ)} (h : Represents list (ls++rs))
    {x : Entry δ} (ha : list.mem x.addr = none) (hl : ∀ y ∈ ls, y.key ≤ x.key)
    (hr : ∀ y ∈ rs, x.key ≤ y.key) (h1 : 1 ≤ x.level) (h2 : x.level ≤ skipMaxLevel)
    (hheader : list'.header = list.header) (hlevel : list'.level = max list.level x.level)
    (hlength : list'.length = list.length+1)
    (hnew : (list'.mem x.addr).map SkipNode.shape = some (x.key,x.value,x.level))
    (hold : ∀ b, b ≠ x.addr → (list'.mem b).map SkipNode.shape = (list.mem b).map SkipNode.shape)
    (hlinks : Linked list'.forward list.header (ls++x::rs)) : Represents list' (ls++x::rs) := by
  have hne : ∀ b ∈ list.header::(ls++rs).map Entry.addr, b ≠ x.addr := fun b hb e => h.allocated hb (e ▸ ha)
  have hmem : ∀ y ∈ ls++x::rs, y = x ∨ y ∈ ls++rs := fun y hy => by
    simp only [List.mem_append,List.mem_cons] at hy ⊢
    tauto
  have hsub : (ls++rs).Sublist (ls++x::rs) := (List.sublist_cons_self x rs).append_left ls
  constructor
  · exact h.header_shape hheader (hold _ (hne _ List.mem_cons_self))
  · intro y hy
    rcases hmem y hy with rfl | hy
    · exact hnew
    · rw [hold _ (hne _ (List.mem_cons_of_mem _ (List.mem_map_of_mem hy)))]
      exact h.nodes y hy
  · intro b hb
    rw [hheader]
    by_cases hbx : b = x.addr
    · simp [hbx]
    · have hm := h.only b fun e => hb (Option.map_eq_none_iff.mp (by rw [hold b hbx,e]; rfl))
      exact List.cons_subset_cons _ (List.map_subset _ hsub.subset) hm
  · rw [hheader]
    exact nodup_middle.mpr (List.nodup_cons.mpr ⟨fun hm => hne _ hm rfl,h.nodup⟩)
  · rw [hheader]
    exact hlinks
  · have hsorted := h.sorted
    rw [List.pairwise_append] at hsorted ⊢
    refine ⟨hsorted.1,List.pairwise_cons.mpr ⟨hr,hsorted.2.1⟩,fun y hy z hz => ?_⟩
    rcases List.mem_cons.mp hz with rfl | hz
    · exact hl y hy
    · exact hsorted.2.2 y hy z hz
  · intro y hy
    rw [hlevel]
    rcases hmem y hy with rfl | hy
    · exact ⟨h1,le_max_right _ _⟩
    · exact ⟨(h.levels y hy).1,(h.levels y hy).2.trans (le_max_left _ _)⟩
  · rw [hlevel]
    exact h.level_pos.trans (le_max_left _ _)
  · rw [hlevel]
    exact max_le h.level_le h2
  · rw [hlength,h.length]
    simp only [List.length_append,List.length_cons,← Nat.add_assoc,UInt64.ofNat_add]
    rfl

section Insert
variable {list : SkipList δ} {ls rs : List (Entry δ)} (h : Represents list (ls++rs)) {key : UInt64}
  (hl : ∀ x ∈ ls, x.key < key) (hr : ∀ x ∈ rs, key ≤ x.key) {fuel : ℕ} (hfuel : ls.length ≤ fuel)
  {level : ℕ} (h2 : level ≤ skipMaxLevel)
include h hl hr hfuel h2

/-- A failed insertion only raises the level of the list. -/
theorem skipInsert_failed (value : δ) : skipInsert fuel list key value level none =
    some ({ list with level := max list.level level },-1) := by
  have hle := h.level_le
  simp only [skipInsert,search_header h hl hr hfuel,Option.bind_eq_bind,Option.bind_some]
  rw [if_neg]
  · rfl
  · simp
    omega

theorem skipInsert_spec (h1 : 1 ≤ level) (value : δ) {a : Addr} (ha : list.mem a = none) :
    ∃ list', skipInsert fuel list key value level (some a) = some (list',0) ∧
      list'.header = list.header ∧ list'.level = max list.level level ∧
      Represents list' (ls++⟨a,key,value,level⟩::rs) := by
  have hle := h.level_le
  have hp : ∀ j, list.level ≤ j → pred list.header j ls = list.header := fun j hj =>
    pred_of_levels_le fun x hx => (h.levels x (List.mem_append_left _ hx)).2.trans hj
  have hu : ∀ j, pred list.header j ls ≠ a := fun j e =>
    h.allocated (List.cons_subset_cons _ (by simp) (pred_mem list.header j ls)) (e ▸ ha)
  let list₀ : SkipList δ :=
    { list with level := max list.level level, mem := list.mem.put a ⟨key,value,List.replicate level none⟩ }
  have hnew : ∀ j < level, list₀.forward a j = some none := fun j hj => by simp [SkipList.forward,list₀,hj]
  have hold : ∀ b j, b ≠ a → list₀.forward b j = list.forward b j := fun b j hb => by
    simp [SkipList.forward,list₀,hb]
  have hsome : ∀ j, 0 ≤ j → j < 0+level →
      (list₀.forward a j).isSome ∧ (list₀.forward (pred list.header j ls) j).isSome := fun j _ hj => by
    rw [hnew j (by omega),hold _ _ (hu j),h.links ls rs j rfl (by omega)]
    exact ⟨rfl,rfl⟩
  obtain ⟨l₁,e1,s1,f1⟩ := link_spec (fun j => pred list.header j ls) 0 level hu hsome
  refine ⟨{ l₁ with length := l₁.length+1 },?_,s1.header,s1.level,?_⟩
  · simp only [skipInsert,search_header h hl hr hfuel,Option.bind_eq_bind,Option.bind_some]
    rw [if_neg,take_update _ hp,e1]
    · rfl
    · simp
      omega
  · apply h.inserted (x := ⟨a,key,value,level⟩) ha (fun y hy => (hl y hy).le) hr h1 h2
    · exact s1.header
    · exact s1.level
    · exact congrArg (·+1) s1.length
    · refine (s1.shape a).trans ?_
      simp [list₀,SkipNode.shape]
    · intro b hb
      refine (s1.shape b).trans ?_
      simp [list₀,show b ≠ a from hb]
    · apply h.links.insert (nodup_middle.mpr (List.nodup_cons.mpr ⟨fun hm => h.allocated hm ha,h.nodup⟩))
      intro b j hb
      refine (f1 b j).trans ?_
      by_cases hj : j < level
      · rw [if_pos ⟨Nat.zero_le j,by omega⟩,if_pos hj,hold _ _ (hu j)]
        by_cases hba : b = a
        · rw [if_pos hba,if_pos hba]
        · rw [if_neg hba,if_neg hba,hold _ _ hba]
      · rw [if_neg (by omega),if_neg hj,hold _ _ fun e => hj (hb e)]

end Insert

/-- Only the level of the list has grown. -/
lemma Represents.raise {list : SkipList δ} {xs : List (Entry δ)} (h : Represents list xs) {level : ℕ}
    (hlevel : level ≤ skipMaxLevel) : Represents { list with level := max list.level level } xs :=
  ⟨h.header,h.nodes,h.only,h.nodup,h.links,h.sorted,
    fun x hx => ⟨(h.levels x hx).1,(h.levels x hx).2.trans (le_max_left _ _)⟩,
    h.level_pos.trans (le_max_left _ _),max_le h.level_le hlevel,h.length⟩

/-! ### Delete and find -/

/-- A list with the shape of `list` and an entry less. -/
lemma Represents.removed {list list' : SkipList δ} {ls rs : List (Entry δ)} {x : Entry δ}
    (h : Represents list (ls++x::rs)) (hheader : list'.header = list.header) (hpos : 1 ≤ list'.level)
    (hle : list'.level ≤ list.level) (hlevels : ∀ y ∈ ls++rs, y.level ≤ list'.level)
    (hlength : list'.length = list.length-1) (hfree : list'.mem x.addr = none)
    (hold : ∀ b, b ≠ x.addr → (list'.mem b).map SkipNode.shape = (list.mem b).map SkipNode.shape)
    (hlinks : Linked list'.forward list.header (ls++rs)) : Represents list' (ls++rs) := by
  have hnodup := nodup_middle.mp h.nodup
  have hne : ∀ b ∈ list.header::(ls++rs).map Entry.addr, b ≠ x.addr := fun b hb e => hnodup.notMem (e ▸ hb)
  have hsub : (ls++rs).Sublist (ls++x::rs) := (List.sublist_cons_self x rs).append_left ls
  constructor
  · exact h.header_shape hheader (hold _ (hne _ List.mem_cons_self))
  · intro y hy
    rw [hold _ (hne _ (List.mem_cons_of_mem _ (List.mem_map_of_mem hy)))]
    exact h.nodes y (hsub.subset hy)
  · intro b hb
    have hbx : b ≠ x.addr := fun e => hb (e ▸ hfree)
    have hm := h.only b fun e => hb (Option.map_eq_none_iff.mp (by rw [hold b hbx,e]; rfl))
    rw [hheader]
    simp only [List.map_append,List.map_cons,List.mem_cons,List.mem_append] at hm ⊢
    tauto
  · rw [hheader]
    exact hnodup.of_cons
  · rw [hheader]
    exact hlinks
  · exact h.sorted.sublist hsub
  · exact fun y hy => ⟨(h.levels y (hsub.subset hy)).1,hlevels y hy⟩
  · exact hpos
  · exact hle.trans h.level_le
  · rw [hlength,h.length]
    simp only [List.length_append,List.length_cons,← Nat.add_assoc,UInt64.ofNat_add]
    exact UInt64.add_sub_cancel _ 1

section Delete
variable {list : SkipList δ} {ls rs : List (Entry δ)}

/-- The lowest chain leads to the next entry. -/
lemma Represents.next (h : Represents list (ls++rs)) :
    list.forward (pred list.header 0 ls) 0 = some (rs.head?.map Entry.addr) := by
  rw [h.links ls rs 0 rfl (by decide),succ,firstAbove_eq_head]
  exact fun x hx => (h.levels x (List.mem_append_right _ hx)).1

lemma Represents.key {x : Entry δ} {xs : List (Entry δ)} (h : Represents list xs) (hx : x ∈ xs) :
    ∃ n, list.mem x.addr = some n ∧ n.key = x.key ∧ n.value = x.value := by
  obtain ⟨n,hn,hs⟩ := Option.map_eq_some_iff.mp (h.nodes x hx)
  obtain ⟨hk,hs⟩ := Prod.mk.inj hs
  exact ⟨n,hn,hk,(Prod.mk.inj hs).1⟩

/-- No entry has the key: the first entry not before it comes after it. -/
theorem skipDelete_absent (h : Represents list (ls++rs)) {key : UInt64} (hl : ∀ x ∈ ls, x.key < key)
    (hr : ∀ x ∈ rs, key < x.key) {fuel : ℕ} (hfuel : ls.length ≤ fuel) :
    skipDelete fuel list key = some (list,-1) := by
  simp only [skipDelete,search_header h hl (fun x hx => (hr x hx).le) hfuel,Option.bind_eq_bind,
    Option.bind_some,h.next]
  cases rs with
  | nil => rfl
  | cons x rs =>
    obtain ⟨n,hn,hk,_⟩ := h.key (x := x) (by simp)
    simp [hn,hk,(hr x (by simp)).ne']

/-- The chains lead to the entry exactly below its level. -/
lemma Represents.points {x : Entry δ} (h : Represents list (ls++x::rs)) {j : ℕ} (hj : j < skipMaxLevel) :
    (list.forward (pred list.header j ls) j).isSome ∧
      (list.forward (pred list.header j ls) j = some (some x.addr) ↔ j < x.level) ∧
      (j < x.level → (list.forward x.addr j).isSome) := by
  rw [h.links ls (x::rs) j rfl hj,succ_cons]
  refine ⟨rfl,⟨fun he => ?_,fun hx => by rw [if_pos hx]⟩,fun hx => ?_⟩
  · by_contra hx
    rw [if_neg hx,Option.some.injEq] at he
    obtain ⟨y,hy,hya⟩ := Option.map_eq_some_iff.mp he
    have hn := (nodup_middle.mp h.nodup).notMem
    apply hn
    rw [← hya]
    exact List.mem_cons_of_mem _ (List.mem_map_of_mem (List.mem_append_right _ (mem_of_firstAbove hy).1))
  · have hlink := h.links (ls++[x]) rs j (by simp) hj
    rw [pred_concat,if_pos hx] at hlink
    rw [hlink]
    rfl

theorem skipDelete_spec {x : Entry δ} (h : Represents list (ls++x::rs)) (hl : ∀ y ∈ ls, y.key < x.key)
    {fuel : ℕ} (hfuel : ls.length ≤ fuel) :
    ∃ list', skipDelete fuel list x.key = some (list',0) ∧ Represents list' (ls++rs) ∧
      (list'.level = 1 ∨ ∃ y ∈ ls++rs, y.level = list'.level) := by
  have hr : ∀ y ∈ x::rs, x.key ≤ y.key := by
    have hs := (List.pairwise_append.mp h.sorted).2.1
    exact List.forall_mem_cons.mpr ⟨le_rfl,(List.pairwise_cons.mp hs).1⟩
  have hle := h.level_le
  have hxl := h.levels x (by simp)
  have hsub : ls++rs ⊆ ls++x::rs := ((List.sublist_cons_self x rs).append_left ls).subset
  obtain ⟨l₁,e1,s1,f1⟩ := unlink_spec (fun j => pred list.header j ls) 0 list.level x.level fun j _ hj =>
    h.points (show j < skipMaxLevel by omega)
  let l₂ : SkipList δ := { l₁ with mem := l₁.mem.free x.addr }
  have hlinks : Linked l₂.forward list.header (ls++rs) := by
    apply h.links.delete h.nodup
    intro b j hb
    have hforward : l₂.forward b j = l₁.forward b j := by simp [SkipList.forward,l₂,hb]
    rw [hforward,f1]
    by_cases hj : j < x.level
    · simp [hj,show j < list.level by omega]
    · simp [hj]
  have hhead : ∀ i < list.level, l₂.forward l₂.header i = some (succ i (ls++rs)) := fun i hi => by
    rw [show l₂.header = list.header from s1.header]
    exact hlinks [] (ls++rs) i rfl (by omega)
  obtain ⟨level',e2,hpos,hle2,hlev,hexact⟩ :=
    lowerLevel_spec hhead h.level_pos fun y hy => (h.levels y (hsub hy)).2
  obtain ⟨n,hn,hk,_⟩ := h.key (x := x) (by simp)
  refine ⟨{ l₂ with level := level', length := l₂.length-1 },?_,?_,hexact⟩
  · rw [← List.range_eq_range'] at e1
    have e2' : lowerLevel l₂ l₁.level = some level' := (congrArg (lowerLevel l₂) s1.level).trans e2
    simp only [skipDelete,search_header h hl hr hfuel,Option.bind_eq_bind,Option.bind_some,h.next,
      List.head?_cons,Option.map_some,hn,hk,if_true,e1]
    exact Option.bind_eq_some_iff.mpr ⟨level',e2',rfl⟩
  · apply h.removed
    · exact s1.header
    · exact hpos
    · exact hle2
    · exact hlev
    · exact congrArg (·-1) s1.length
    · exact Mem.free_same _ _
    · intro b hb
      rw [← s1.shape]
      simp [l₂,hb]
    · exact hlinks

theorem skipFindNode_eq (h : Represents list (ls++rs)) {key : Int64} (hl : ∀ x ∈ ls, x.key < key.toUInt64)
    (hr : ∀ x ∈ rs, key.toUInt64 ≤ x.key) {fuel : ℕ} (hfuel : ls.length ≤ fuel) :
    skipFindNode fuel list key =
      some ((rs.head?.filter fun x => x.key = key.toUInt64).map Entry.addr) := by
  have hsearch : findSearch fuel list key.toUInt64 list.level list.header = some (pred list.header 0 ls) := by
    rw [findSearch_eq fuel list key.toUInt64 list.level list.header [],search_header h hl hr hfuel]
    rfl
  simp only [skipFindNode,hsearch,Option.bind_eq_bind,Option.bind_some,h.next]
  cases rs with
  | nil => rfl
  | cons x rs =>
    obtain ⟨n,hn,hk,_⟩ := h.key (x := x) (by simp)
    by_cases hx : x.key = key.toUInt64 <;> simp [hn,hk,hx]

/-- `jk_skip_find` gives the value of the first entry not before the key, if it has the key. -/
theorem skipFind_eq (h : Represents list (ls++rs)) {key : Int64} (hl : ∀ x ∈ ls, x.key < key.toUInt64)
    (hr : ∀ x ∈ rs, key.toUInt64 ≤ x.key) {fuel : ℕ} (hfuel : ls.length ≤ fuel) :
    skipFind fuel list key = some (match rs.head?.filter fun x => x.key = key.toUInt64 with
      | some x => (0,some x.value)
      | none => (-1,none)) := by
  simp only [skipFind,skipFindNode_eq h hl hr hfuel,Option.bind_eq_bind,Option.bind_some]
  cases hx : rs.head?.filter fun x => x.key = key.toUInt64 with
  | none => rfl
  | some x =>
    have hm : x ∈ rs := List.mem_of_head? (Option.filter_eq_some_iff.mp hx).1
    obtain ⟨n,hn,_,hv⟩ := h.key (List.mem_append_right ls hm)
    simp [hn,hv]

end Delete

end JustKit.Skip
