import JustKit.Skip.Refinement

/-! The chains of the list after every call: each is the subsequence of the nodes that were drawn with a higher
level, and the level of the list is the highest of them. -/
namespace JustKit.Skip
open Foundations Foundations.LevelChain
variable {δ : Type}

/-- The nodes of the chain of level `i` behind the node `a`. The first argument bounds their number. -/
def chain (list : SkipList δ) (i : ℕ) : ℕ → Addr → Option (List Addr)
  | 0,_ => none
  | fuel+1,a => do
    match ← list.forward a i with
    | none => return []
    | some b => return b::(← chain list i fuel b)

/-- What a call does to the sequence of entries, each with the level drawn for it: an insertion goes before all
entries with its key, a deletion takes the first of them. -/
def Op.entries (xs : List (Entry δ)) : Op δ → List (Entry δ)
  | .insert key value level (some a) =>
    xs.takeWhile (fun x => x.key < key)++⟨a,key,value,level⟩::xs.dropWhile fun x => x.key < key
  | .insert _ _ _ none => xs
  | .delete key => xs.eraseP fun x => x.key = key
  | .find _ => xs

/-- The larger of 1 and the highest level. -/
def topLevel (xs : List (Entry δ)) : ℕ := xs.foldr (fun x top => max x.level top) 1

/-- No allocation fails. -/
def Op.allocates : Op δ → Bool
  | .insert _ _ _ alloc => alloc.isSome
  | _ => true

lemma topLevel_le {xs : List (Entry δ)} {n : ℕ} : topLevel xs ≤ n ↔ 1 ≤ n ∧
    ∀ x ∈ xs, x.level ≤ n := by
  induction xs with
  | nil => simp [topLevel]
  | cons x xs ih =>
    rw [List.forall_mem_cons]
    change max x.level (topLevel xs) ≤ n ↔ _
    rw [max_le_iff,ih]
    tauto

lemma topLevel_middle (ls rs : List (Entry δ)) (x : Entry δ) :
    topLevel (ls++x::rs) = max (topLevel (ls++rs)) x.level := by
  apply eq_of_forall_ge_iff
  intro n
  rw [max_le_iff,topLevel_le,topLevel_le]
  simp only [List.mem_append,List.mem_cons]
  constructor
  · intro ⟨h1,h⟩
    exact ⟨⟨h1,fun y hy => h y (by tauto)⟩,h x (by tauto)⟩
  · intro ⟨⟨h1,h⟩,hx⟩
    refine ⟨h1,fun y hy => ?_⟩
    rcases hy with hy | rfl | hy
    · exact h y (Or.inl hy)
    · exact hx
    · exact h y (Or.inr hy)

lemma topLevel_eq {xs : List (Entry δ)} {n : ℕ} (h1 : 1 ≤ n) (hle : ∀ x ∈ xs, x.level ≤ n)
    (hexact : n = 1 ∨ ∃ x ∈ xs, x.level = n) : topLevel xs = n := by
  apply le_antisymm (topLevel_le.mpr ⟨h1,hle⟩)
  obtain ⟨htop1,htop⟩ := topLevel_le.mp (le_refl (topLevel xs))
  cases hexact with
  | inl h => exact h ▸ htop1
  | inr h =>
    obtain ⟨x,hx,rfl⟩ := h
    exact htop x hx

/-- The list represents the entries, at addresses, and its level is not higher than needed. -/
structure Exact (list : SkipList δ) (xs : List (Entry δ)) : Prop where
  represents : Represents list xs
  addrs : ∀ x ∈ xs, 0 < x.addr ∧ x.addr < 2^64
  level : list.level = topLevel xs

section Steps
variable {list : SkipList δ} {xs : List (Entry δ)} {fuel : ℕ}

/-- The part of a sorted sequence before a key, and the rest. -/
lemma takeWhile_parts {ls rs : List (Entry δ)} {key : UInt64} (hl : ∀ x ∈ ls, x.key < key)
    (hr : ∀ x ∈ rs, key ≤ x.key) : (ls++rs).takeWhile (fun x => x.key < key) = ls ∧
    (ls++rs).dropWhile (fun x => x.key < key) = rs := by
  have hstop : rs.takeWhile (fun x => x.key < key) = [] ∧ rs.dropWhile (fun x => x.key < key) = rs := by
    cases rs with
    | nil => exact ⟨rfl,rfl⟩
    | cons x rs =>
      have hx : ¬x.key < key := not_lt.mpr (hr x List.mem_cons_self)
      simp [hx]
  constructor
  · rw [List.takeWhile_append_of_pos (by simpa using hl),hstop.1,List.append_nil]
  · rw [List.dropWhile_append_of_pos (by simpa using hl),hstop.2]

theorem Exact.insert (h : Exact list xs) (hfuel : xs.length ≤ fuel) {key : UInt64} {value : δ}
    {level : ℕ} {a : Addr} (ha : (Op.insert key value level (some a)).allowed list = true) :
    ∃ list' r, (Op.insert key value level (some a)).exec fuel list = some (list',r) ∧
      Exact list' ((Op.insert key value level (some a)).entries xs) := by
  obtain ⟨ls,rs,rfl,hl,hr,hls⟩ := exists_parts h.represents hfuel key
  simp only [Op.allowed,Bool.and_eq_true,decide_eq_true_eq,Option.all_some,Option.isNone_iff_eq_none] at ha
  obtain ⟨⟨h1,h2⟩,ha0,hnew⟩ := ha
  obtain ⟨list',he,_,hlevel,hrep⟩ := skipInsert_spec h.represents hl hr hls h2 h1 value hnew
  obtain ⟨htake,hdrop⟩ := takeWhile_parts hl hr
  have hentries : (Op.insert key value level (some a)).entries (ls++rs) = ls++⟨a,key,value,level⟩::rs := by
    rw [Op.entries,htake,hdrop]
  rw [hentries]
  refine ⟨list',_,by rw [Op.exec,he]; rfl,hrep,?_,?_⟩
  · intro x hx
    rw [List.mem_append,List.mem_cons] at hx
    rcases hx with hx | rfl | hx
    · exact h.addrs x (List.mem_append_left rs hx)
    · exact ha0
    · exact h.addrs x (List.mem_append_right ls hx)
  · rw [hlevel,h.level,topLevel_middle]

theorem Exact.delete (h : Exact list xs) (hfuel : xs.length ≤ fuel) (key : UInt64) :
    ∃ list' r, (Op.delete key : Op δ).exec fuel list = some (list',r) ∧
      Exact list' ((Op.delete key : Op δ).entries xs) := by
  obtain ⟨ls,rs,rfl,hl,hr,hls⟩ := exists_parts h.represents hfuel key
  have hskip : (ls++rs).eraseP (fun x => x.key = key) = ls++rs.eraseP fun x => x.key = key := by
    apply List.eraseP_append_right
    intro x hx
    simpa using (hl x hx).ne
  rw [Op.entries,hskip]
  have habsent : (∀ x ∈ rs, key < x.key) → ∃ list' r, (Op.delete key : Op δ).exec fuel list =
    some (list',r) ∧
      Exact list' (ls++rs.eraseP fun x => x.key = key) := by
    intro hlt
    rw [List.eraseP_of_forall_not fun x hx => by simpa using (hlt x hx).ne']
    exact ⟨list,_,by rw [Op.exec,skipDelete_absent h.represents hl hlt hls]; rfl,h⟩
  cases rs with
  | nil => exact habsent (by simp)
  | cons x rs =>
    by_cases hx : x.key = key
    · subst hx
      obtain ⟨list',he,hrep,hexact⟩ := skipDelete_spec h.represents hl hls
      rw [List.eraseP_cons_of_pos (by simp)]
      refine ⟨list',_,by rw [Op.exec,he]; rfl,hrep,?_,?_⟩
      · intro y hy
        apply h.addrs y
        simp only [List.mem_append,List.mem_cons] at hy ⊢
        tauto
      · exact (topLevel_eq hrep.level_pos (fun y hy => (hrep.levels y hy).2) hexact).symm
    · have hlt : key < x.key := lt_of_le_of_ne (hr x List.mem_cons_self) (Ne.symm hx)
      have hsorted := (List.pairwise_append.mp h.represents.sorted).2.1
      exact habsent
        (List.forall_mem_cons.mpr ⟨hlt,fun y hy => hlt.trans_le ((List.pairwise_cons.mp hsorted).1 y hy)⟩)

theorem Exact.exec (h : Exact list xs) (hfuel : xs.length ≤ fuel) {op : Op δ} (ha : op.allowed list = true)
    (halloc : op.allocates = true) : ∃ list' r, op.exec fuel list = some (list',r) ∧
    Exact list' (op.entries xs) := by
  cases op with
  | insert key value level alloc =>
    obtain ⟨a,rfl⟩ := Option.isSome_iff_exists.mp halloc
    exact h.insert hfuel ha
  | delete key => exact h.delete hfuel key
  | find key =>
    obtain ⟨ls,rs,rfl,hl,hr,hls⟩ := exists_parts h.represents hfuel key
    have he : skipFind fuel list key.toInt64 = _ :=
      skipFind_eq h.represents (by simpa using hl) (by simpa using hr) hls
    exact ⟨list,_,by rw [Op.exec,he]; rfl,h⟩

lemma entries_length (op : Op δ) (xs : List (Entry δ)) : (op.entries xs).length ≤ xs.length+1 := by
  cases op with
  | insert key value level alloc =>
    cases alloc with
    | none => exact Nat.le_succ _
    | some a =>
      have hlen :=
        congrArg List.length (List.takeWhile_append_dropWhile (p := fun x => decide (x.key < key)) (l := xs))
      rw [List.length_append] at hlen
      rw [Op.entries,List.length_append,List.length_cons]
      omega
  | delete key => exact List.length_eraseP_le.trans (Nat.le_succ _)
  | find key => exact Nat.le_succ _

/-- Every call of a run succeeds, and the list follows the entries. -/
theorem run_exact {ops : List (Op δ)} (h : Exact list xs) (ha : allowedRun fuel list ops = true)
    (halloc : ∀ op ∈ ops, op.allocates = true) (hfuel : xs.length+ops.length ≤ fuel) :
    ∃ list' rs, run fuel list ops = some (list',rs) ∧ Exact list' (ops.foldl Op.entries xs) := by
  induction ops generalizing list xs with
  | nil => exact ⟨list,[],rfl,h⟩
  | cons op ops ih =>
    rw [allowedRun,Bool.and_eq_true] at ha
    rw [List.length_cons] at hfuel
    obtain ⟨list₁,r,h1,h2⟩ := h.exec (show xs.length ≤ fuel by omega) ha.1 (halloc op List.mem_cons_self)
    have hlen := entries_length op xs
    obtain ⟨list₂,rs,h3,h4⟩ :=
      ih h2 (by simpa [h1] using ha.2) (fun op' hop => halloc op' (List.mem_cons_of_mem op hop))
      (by omega)
    exact ⟨list₂,r::rs,by simp [run,h1,h3],h4⟩

end Steps

section Chains
variable {list : SkipList δ} {xs : List (Entry δ)}

/-- From the last node of a prefix the chain goes through the entries of the rest that are above its level. -/
lemma chain_eq {as bs : List (Entry δ)} (h : Represents list (as++bs)) {i : ℕ}
    (hi : i < skipMaxLevel) {fuel : ℕ} (hfuel : bs.length < fuel) :
    chain list i fuel (pred list.header i as) = some ((bs.filter fun x => i < x.level).map Entry.addr) := by
  induction bs generalizing as fuel with
  | nil =>
    obtain ⟨fuel,rfl⟩ := Nat.exists_eq_succ_of_ne_zero (Nat.ne_of_gt hfuel)
    simp [chain,h.links as [] i rfl hi,succ]
  | cons b bs ih =>
    have hlink := h.links as (b::bs) i rfl hi
    have hrest := @ih (as++[b])
    rw [List.append_assoc,pred_concat] at hrest
    rw [List.length_cons] at hfuel
    rw [succ_cons] at hlink
    by_cases hb : i < b.level
    · obtain ⟨fuel,rfl⟩ := Nat.exists_eq_succ_of_ne_zero (Nat.ne_of_gt (Nat.zero_lt_of_lt hfuel))
      rw [if_pos hb] at hlink hrest
      simp [chain,hlink,hb,hrest h (Nat.lt_of_succ_lt_succ hfuel)]
    · rw [if_neg hb] at hrest
      rw [hrest h (Nat.lt_of_succ_lt hfuel),List.filter_cons_of_neg (by simpa using hb)]

lemma Represents.chain (h : Represents list xs) {i : ℕ} (hi : i < skipMaxLevel) {fuel : ℕ}
    (hfuel : xs.length < fuel) :
    chain list i fuel list.header = some ((xs.filter fun x => i < x.level).map Entry.addr) :=
  @chain_eq _ _ [] xs h i hi fuel hfuel

end Chains

/-- After any calls without a failed allocation: the lowest chain has the nodes of all entries, in the order of
their keys, and as many as recorded; the chain of level `i` has those of them that were drawn with a level above
`i`, and a node has as many forward pointers as its level, so that no call has used another one; and the level of
the list is the highest of its nodes, above which the header leads nowhere. -/
theorem skip_structure (header : Addr) (null : δ) (fuel : ℕ) (ops : List (Op δ)) (hfuel : ops.length ≤ fuel)
    (ha : allowedRun fuel (skipNew header null) ops = true) (halloc : ∀ op ∈ ops, op.allocates = true)
    (xs : List (Entry δ)) (hxs : ops.foldl Op.entries [] = xs) :
    ∃ list rs, run fuel (skipNew header null) ops = some (list,rs) ∧
      (∀ bound, xs.length < bound → chain list 0 bound list.header = some (xs.map Entry.addr) ∧
        ∀ i < skipMaxLevel, chain list i bound list.header =
        some ((xs.filter fun x => i < x.level).map Entry.addr)) ∧
      (∀ x ∈ xs, ∃ n, list.mem x.addr = some n ∧ n.key = x.key ∧ n.value = x.value ∧
      n.forward.length = x.level) ∧ xs.Pairwise (fun x y => x.key ≤ y.key) ∧
      list.length.toNat = xs.length ∧ list.level = topLevel xs ∧
      ∀ i, list.level ≤ i → i < skipMaxLevel → list.forward list.header i = some none := by
  have hnew : Exact (skipNew header null) [] := ⟨skipNew_represents header null,by simp,rfl⟩
  obtain ⟨list,rs,hrun,h⟩ := run_exact hnew ha halloc (by simpa using hfuel)
  rw [hxs] at h
  have hrep := h.represents
  refine ⟨list,rs,hrun,?_,?_,hrep.sorted,hrep.length_toNat h.addrs,h.level,?_⟩
  · intro bound hbound
    have hall : xs.filter (fun x => 0 < x.level) = xs := by
      apply List.filter_eq_self.mpr
      intro x hx
      exact decide_eq_true (hrep.levels x hx).1
    refine ⟨?_,fun i hi => hrep.chain hi hbound⟩
    rw [hrep.chain (by decide) hbound,hall]
  · intro x hx
    obtain ⟨n,hn,hshape⟩ := Option.map_eq_some_iff.mp (hrep.nodes x hx)
    obtain ⟨hkey,hshape⟩ := Prod.mk.inj hshape
    obtain ⟨hvalue,hlevel⟩ := Prod.mk.inj hshape
    exact ⟨n,hn,hkey,hvalue,hlevel⟩
  · intro i hlevel hi
    have hnone : succ i xs = none := by
      rw [succ,firstAbove_eq_none.mpr fun x hx => (hrep.levels x hx).2.trans hlevel]
      rfl
    rw [← hnone]
    exact hrep.links [] xs i rfl hi

/-- Equal keys on different levels; the deletions lower the level of the list from 32 to 3 and to 2. -/
def tallRun : List (Op ℕ) :=
  [.insert 5 10 2 (some 1),.insert 7 20 1 (some 2),.insert 5 11 3 (some 3),.insert 7 21 32 (some 4),
    .find 5,.delete 7,.delete 5,.delete 8]

theorem skip_structure_tall : ∃ list rs, run 8 (skipNew 9 0) tallRun = some (list,rs) ∧
    (∀ bound, 2 < bound → chain list 0 bound list.header = some [1,2] ∧
      ∀ i < skipMaxLevel, chain list i bound list.header =
        some (([⟨1,5,10,2⟩,⟨2,7,20,1⟩] : List (Entry ℕ)).filter
        (fun x => i < x.level) |>.map Entry.addr)) ∧
    (∀ x ∈ ([⟨1,5,10,2⟩,⟨2,7,20,1⟩] : List (Entry ℕ)), ∃ n, list.mem x.addr = some n ∧
    n.key = x.key ∧ n.value = x.value ∧
      n.forward.length = x.level) ∧
    ([⟨1,5,10,2⟩,⟨2,7,20,1⟩] : List (Entry ℕ)).Pairwise (fun x y => x.key ≤ y.key) ∧
    list.length.toNat = 2 ∧ list.level = topLevel [⟨1,5,10,2⟩,⟨2,7,20,1⟩] ∧
    ∀ i, list.level ≤ i → i < skipMaxLevel → list.forward list.header i = some none :=
  skip_structure 9 0 8 tallRun (by simp [tallRun]) (by decide +kernel) (by decide) [⟨1,5,10,2⟩,⟨2,7,20,1⟩]
    (by decide +kernel)

/-! ### Failed insertions -/

lemma Refines.insert_failed {list : SkipList δ} {m : Multimap UInt64 δ} (h : Refines list m) {fuel : ℕ}
    (hfuel : m.length ≤ fuel) (key : UInt64) (value : δ) {level : ℕ} (hlevel : level ≤ skipMaxLevel) :
    skipInsert fuel list key value level none = some ({ list with level := max list.level level },-1) := by
  obtain ⟨xs,hrep,hsame,_⟩ := h
  have hlen : xs.length ≤ fuel := by simpa using hsame.length.trans_le hfuel
  obtain ⟨ls,rs,rfl,hl,hr,hls⟩ := exists_parts hrep hlen key
  exact skipInsert_failed hrep hl hr hls hlevel value

/-- For every list that calls lead to: an insertion whose node cannot be allocated leaves the list as it was if and
only if the level drawn is not above that of the list. -/
theorem skip_failed_insert_iff (header : Addr) (null : δ) (fuel : ℕ) (ops : List (Op δ))
    (hfuel : ops.length ≤ fuel) (ha : allowedRun fuel (skipNew header null) ops = true) :
    ∃ list rs, run fuel (skipNew header null) ops = some (list,rs) ∧
      ∀ (key : UInt64) (value : δ) (level : ℕ), 1 ≤ level → level ≤ skipMaxLevel →
        ∃ list', skipInsert fuel list key value level none = some (list',-1) ∧
        (list' = list ↔ level ≤ list.level) := by
  obtain ⟨list,hrun,h,hlen⟩ := run_new hfuel ha
  refine ⟨list,_,hrun,fun key value level _ hle => ⟨_,h.insert_failed hlen key value hle,?_⟩⟩
  constructor
  · intro hsame
    exact max_eq_left_iff.mp (congrArg SkipList.level hsame)
  · intro hlevel
    rw [max_eq_left hlevel]

theorem skip_failed_insert_iff_tall : ∃ list rs, run 8 (skipNew 9 0) tallRun = some (list,rs) ∧
    ∀ (key : UInt64) (value : ℕ) (level : ℕ), 1 ≤ level → level ≤ skipMaxLevel →
      ∃ list', skipInsert 8 list key value level none = some (list',-1) ∧
      (list' = list ↔ level ≤ list.level) :=
  skip_failed_insert_iff 9 0 8 tallRun (by simp [tallRun]) (by decide +kernel)

/-- The first insertion into a new list draws level 3 and fails, and the empty list has level 3. -/
theorem failed_insert_raises : ∃ list', skipInsert 0 (skipNew 9 0) 5 10 3 none = some (list',-1) ∧
    list'.level = 3 ∧ (skipNew 9 0).level = 1 := ⟨_,rfl,rfl,rfl⟩

end JustKit.Skip
