import JustKit.Foundations.Multimap
import JustKit.Skip.Operations

/-! The skip list refines a multimap in which the newest entry of a key goes first, over whole runs. -/
namespace JustKit.Skip
open Foundations
variable {δ : Type}

/-- One call, with the level drawn and the answer of the allocator. -/
inductive Op (δ : Type) where
  | insert (key : UInt64) (value : δ) (level : ℕ) (alloc : Option Addr)
  | delete (key : UInt64)
  | find (key : UInt64)

/-- What the call does and answers. `jk_skip_find` is passed the signed key with the same bits. -/
def Op.exec (fuel : ℕ) (list : SkipList δ) : Op δ → Option (SkipList δ × ℤ × Option δ)
  | .insert key value level alloc => (skipInsert fuel list key value level alloc).map fun r => (r.1,r.2,none)
  | .delete key => (skipDelete fuel list key).map fun r => (r.1,r.2,none)
  | .find key => (skipFind fuel list key.toInt64).map fun r => (list,r)

def run (fuel : ℕ) (list : SkipList δ) : List (Op δ) → Option (SkipList δ × List (ℤ × Option δ))
  | [] => some (list,[])
  | op::ops => do
    let (list,r) ← op.exec fuel list
    let (list,rs) ← run fuel list ops
    return (list,r::rs)

/-- The level is within the array of the header, and the allocator gives out 64-bit addresses that are
not null and not in use. -/
def Op.allowed (list : SkipList δ) : Op δ → Bool
  | .insert _ _ level alloc => 1 ≤ level && level ≤ skipMaxLevel &&
    alloc.all fun a => 0 < a && a < 2^64 && (list.mem a).isNone
  | _ => true

/-- Every call of the run is allowed in the state it starts from. -/
def allowedRun (fuel : ℕ) (list : SkipList δ) : List (Op δ) → Bool
  | [] => true
  | op::ops => op.allowed list && (op.exec fuel list).all fun r => allowedRun fuel r.1 ops

/-- What the multimap does and answers. -/
def Op.spec (m : Multimap UInt64 δ) : Op δ → Multimap UInt64 δ × ℤ × Option δ
  | .insert key value _ alloc => if alloc.isSome then (m.insert key value,0,none) else (m,-1,none)
  | .delete key => if (m.find key).isSome then (m.delete key,0,none) else (m,-1,none)
  | .find key =>
    match m.find key with
    | some value => (m,0,some value)
    | none => (m,-1,none)

def specRun (m : Multimap UInt64 δ) : List (Op δ) → Multimap UInt64 δ × List (ℤ × Option δ)
  | [] => (m,[])
  | op::ops => ((specRun (op.spec m).1 ops).1,(op.spec m).2::(specRun (op.spec m).1 ops).2)

def Entry.binding (x : Entry δ) : UInt64 × δ := (x.key,x.value)

/-- The list represents a sequence of entries that no key can tell from the multimap, at addresses. -/
def Refines (list : SkipList δ) (m : Multimap UInt64 δ) : Prop :=
  ∃ xs, Represents list xs ∧ Multimap.Same (xs.map Entry.binding) m ∧
    ∀ x ∈ xs, 0 < x.addr ∧ x.addr < 2^64

section Refines
variable {list : SkipList δ} {m : Multimap UInt64 δ} {fuel : ℕ}

lemma exists_parts {xs : List (Entry δ)} (h : Represents list xs) (hfuel : xs.length ≤ fuel) (key : UInt64) :
    ∃ ls rs, xs = ls++rs ∧ (∀ x ∈ ls, x.key < key) ∧ (∀ x ∈ rs, key ≤ x.key) ∧
      ls.length ≤ fuel := by
  obtain ⟨ls,rs,rfl,hl,hr⟩ := exists_split h.sorted key
  refine ⟨ls,rs,rfl,hl,hr,?_⟩
  rw [List.length_append] at hfuel
  omega

lemma bindings_ne {ls : List (Entry δ)} {key : UInt64} (hl : ∀ x ∈ ls, x.key ≠ key) :
    ∀ e ∈ ls.map Entry.binding, e.1 ≠ key := by
  intro e he
  obtain ⟨x,hx,rfl⟩ := List.mem_map.mp he
  exact hl x hx

theorem Refines.insert (h : Refines list m) (hfuel : m.length ≤ fuel) {key : UInt64} {value : δ}
    {level : ℕ} {alloc : Option Addr} (ha : (Op.insert key value level alloc).allowed list = true) :
    ∃ list', (Op.insert key value level alloc).exec fuel list =
        some (list',((Op.insert key value level alloc).spec m).2) ∧
      Refines list' ((Op.insert key value level alloc).spec m).1 := by
  obtain ⟨xs,hrep,hsame,haddr⟩ := h
  have hlen : xs.length ≤ fuel := by simpa using hsame.length.trans_le hfuel
  obtain ⟨ls,rs,rfl,hl,hr,hls⟩ := exists_parts hrep hlen key
  simp only [Op.allowed,Bool.and_eq_true,decide_eq_true_eq] at ha
  obtain ⟨⟨h1,h2⟩,ha⟩ := ha
  cases alloc with
  | none =>
    exact ⟨_,by simp [Op.exec,Op.spec,skipInsert_failed hrep hl hr hls h2],_,hrep.raise h2,hsame,haddr⟩
  | some a =>
    simp only [Option.all_some,Bool.and_eq_true,decide_eq_true_eq,Option.isNone_iff_eq_none] at ha
    obtain ⟨list',he,_,_,hrep'⟩ := skipInsert_spec hrep hl hr hls h2 h1 value ha.2
    refine ⟨list',by simp [Op.exec,Op.spec,he],_,hrep',?_,fun x hx => ?_⟩
    · rw [List.map_append] at hsame ⊢
      exact hsame.insert (bindings_ne fun x hx => (hl x hx).ne) value
    · simp only [List.mem_append,List.mem_cons] at hx haddr
      rcases hx with hx | rfl | hx
      · exact haddr x (Or.inl hx)
      · exact ha.1
      · exact haddr x (Or.inr hx)

/-- The first entry not before the key, if it has the key, is the newest one of the key. -/
lemma Refines.newest (h : Refines list m) (hfuel : m.length ≤ fuel) (key : UInt64) :
    (∃ ls x rs, Represents list (ls++x::rs) ∧ Multimap.Same ((ls++x::rs).map Entry.binding) m ∧
      (∀ y ∈ ls++x::rs, 0 < y.addr ∧ y.addr < 2^64) ∧ x.key = key ∧
      (∀ y ∈ ls, y.key < x.key) ∧ ls.length ≤ fuel ∧ m.find key = some x.value) ∨
    (∃ ls rs, Represents list (ls++rs) ∧ (∀ y ∈ ls, y.key < key) ∧ (∀ y ∈ rs, key < y.key) ∧
    ls.length ≤ fuel ∧
      m.find key = none) := by
  obtain ⟨xs,hrep,hsame,haddr⟩ := h
  have hlen : xs.length ≤ fuel := by simpa using hsame.length.trans_le hfuel
  obtain ⟨ls,rs,rfl,hl,hr,hls⟩ := exists_parts hrep hlen key
  have hsorted := (List.pairwise_append.mp hrep.sorted).2.1
  by_cases hhead : ∃ x rs', rs = x::rs' ∧ x.key = key
  · obtain ⟨x,rs',rfl,rfl⟩ := hhead
    refine Or.inl ⟨ls,x,rs',hrep,hsame,haddr,rfl,hl,hls,?_⟩
    rw [List.map_append] at hsame
    exact (hsame.delete (bindings_ne fun y hy => (hl y hy).ne)).2
  · have hr' : ∀ y ∈ rs, key < y.key := by
      cases rs with
      | nil => simp
      | cons x rs =>
        have hx : key < x.key := lt_of_le_of_ne (hr x (by simp)) fun e => hhead ⟨x,rs,rfl,e.symm⟩
        exact List.forall_mem_cons.mpr ⟨hx,fun y hy => hx.trans_le ((List.pairwise_cons.mp hsorted).1 y hy)⟩
    refine Or.inr ⟨ls,rs,hrep,hl,hr',hls,hsame.find_none (bindings_ne fun y hy => ?_)⟩
    rcases List.mem_append.mp hy with hy | hy
    · exact (hl y hy).ne
    · exact (hr' y hy).ne'

theorem Refines.delete (h : Refines list m) (hfuel : m.length ≤ fuel) (key : UInt64) :
    ∃ list', (Op.delete key : Op δ).exec fuel list = some (list',((Op.delete key : Op δ).spec m).2) ∧
      Refines list' ((Op.delete key : Op δ).spec m).1 := by
  rcases h.newest hfuel key with ⟨ls,x,rs,hrep,hsame,haddr,rfl,hl,hls,hfind⟩ | ⟨ls,rs,hrep,hl,hr,hls,hfind⟩
  · obtain ⟨list',he,hrep',_⟩ := skipDelete_spec hrep hl hls
    refine ⟨list',by simp [Op.exec,Op.spec,he,hfind],ls++rs,hrep',?_,fun y hy => ?_⟩
    · rw [List.map_append] at hsame ⊢
      simpa [Op.spec,hfind] using (hsame.delete (bindings_ne fun y hy => (hl y hy).ne)).1
    · apply haddr y
      simp only [List.mem_append,List.mem_cons] at hy ⊢
      tauto
  · refine ⟨list,by simp [Op.exec,Op.spec,skipDelete_absent hrep hl hr hls,hfind],?_⟩
    simpa [Op.spec,hfind] using h

theorem Refines.find (h : Refines list m) (hfuel : m.length ≤ fuel) (key : UInt64) :
    (Op.find key : Op δ).exec fuel list = some (list,((Op.find key : Op δ).spec m).2) ∧
      ((Op.find key : Op δ).spec m).1 = m := by
  rcases h.newest hfuel key with ⟨ls,x,rs,hrep,_,_,rfl,hl,hls,hfind⟩ | ⟨ls,rs,hrep,hl,hr,hls,hfind⟩
  · have hr : ∀ y ∈ x::rs, x.key ≤ y.key := by
      have hs := (List.pairwise_append.mp hrep.sorted).2.1
      exact List.forall_mem_cons.mpr ⟨le_rfl,(List.pairwise_cons.mp hs).1⟩
    have he := skipFind_eq hrep (show ∀ y ∈ ls, y.key < x.key.toInt64.toUInt64 by simpa using hl)
      (by simpa using hr) hls
    simp [Op.exec,Op.spec,he,hfind,Option.filter]
  · have he := skipFind_eq hrep (show ∀ y ∈ ls, y.key < key.toInt64.toUInt64 by simpa using hl)
      (by simpa using fun y hy => (hr y hy).le) hls
    have hnone : (rs.head?.filter fun x => x.key = key) = none := by
      cases rs with
      | nil => rfl
      | cons y rs => simpa using (hr y (by simp)).ne'
    simp [Op.exec,Op.spec,he,hfind,hnone]

/-- One call answers as the multimap does and keeps the refinement. -/
theorem Refines.exec (h : Refines list m) (hfuel : m.length ≤ fuel) {op : Op δ} (ha : op.allowed list = true) :
    ∃ list', op.exec fuel list = some (list',(op.spec m).2) ∧ Refines list' (op.spec m).1 := by
  cases op with
  | insert key value level alloc => exact h.insert hfuel ha
  | delete key => exact h.delete hfuel key
  | find key =>
    obtain ⟨he,hm⟩ := h.find hfuel key
    exact ⟨list,he,hm.symm ▸ h⟩

/-- There are fewer entries than addresses, so the counter has not wrapped. -/
lemma Represents.length_toNat {xs : List (Entry δ)} (h : Represents list xs)
    (haddr : ∀ x ∈ xs, 0 < x.addr ∧ x.addr < 2^64) : list.length.toNat = xs.length := by
  have hnodup : (xs.map Entry.addr).Nodup := h.nodup.of_cons
  have hsub : (xs.map Entry.addr).toFinset ⊆ Finset.Ioo 0 (2^64) := by
    intro a ha
    obtain ⟨x,hx,rfl⟩ := List.mem_map.mp (List.mem_toFinset.mp ha)
    exact Finset.mem_Ioo.mpr (haddr x hx)
  have hcard := Finset.card_le_card hsub
  rw [List.toFinset_card_of_nodup hnodup,List.length_map,Nat.card_Ioo] at hcard
  rw [h.length,UInt64.toNat_ofNat',Nat.mod_eq_of_lt (by omega)]

theorem Refines.length (h : Refines list m) : list.length.toNat = m.length := by
  obtain ⟨xs,hrep,hsame,haddr⟩ := h
  rw [hrep.length_toNat haddr,← hsame.length,List.length_map]

end Refines

/-- A call adds at most one entry. -/
lemma spec_length (m : Multimap UInt64 δ) (op : Op δ) : (op.spec m).1.length ≤ m.length+1 := by
  cases op with
  | insert key value level alloc => cases alloc <;> simp [Op.spec,Multimap.insert]
  | delete key =>
    have hle : (m.delete key).length ≤ m.length := List.length_eraseP_le
    simp only [Op.spec]
    split
    · exact hle.trans (Nat.le_succ _)
    · exact Nat.le_succ _
  | find key =>
    simp only [Op.spec]
    split <;> simp

lemma specRun_length (m : Multimap UInt64 δ) (ops : List (Op δ)) :
    (specRun m ops).1.length ≤ m.length+ops.length := by
  induction ops generalizing m with
  | nil => exact le_rfl
  | cons op ops ih =>
    have hone := spec_length m op
    have hrest := ih (op.spec m).1
    rw [List.length_cons]
    change (specRun (op.spec m).1 ops).1.length ≤ _
    omega

theorem run_refines {list : SkipList δ} {m : Multimap UInt64 δ} {fuel : ℕ} {ops : List (Op δ)}
    (h : Refines list m) (ha : allowedRun fuel list ops = true) (hfuel : m.length+ops.length ≤ fuel) :
    ∃ list', run fuel list ops = some (list',(specRun m ops).2) ∧ Refines list' (specRun m ops).1 := by
  induction ops generalizing list m with
  | nil => exact ⟨list,rfl,h⟩
  | cons op ops ih =>
    rw [allowedRun,Bool.and_eq_true] at ha
    rw [List.length_cons] at hfuel
    obtain ⟨list₁,h1,h2⟩ := h.exec (show m.length ≤ fuel by omega) ha.1
    have hlen := spec_length m op
    obtain ⟨list₂,h3,h4⟩ := ih h2 (by simpa [h1] using ha.2) (by omega)
    exact ⟨list₂,by simp [run,specRun,h1,h3],h4⟩

/-- The empty list. -/
lemma skipNew_represents (header : Addr) (null : δ) : Represents (skipNew header null) [] := by
  constructor
  · simp [skipNew,skipMaxLevel]
  · simp
  · intro b hb
    by_cases hbh : b = header
    · simp [hbh,skipNew]
    · simp [skipNew,hbh] at hb
  · simp
  · intro as bs i hs hi
    obtain ⟨rfl,rfl⟩ := List.append_eq_nil_iff.mp hs.symm
    simp [skipNew,SkipList.forward,hi,succ]
  · exact List.Pairwise.nil
  · simp
  · exact le_rfl
  · exact le_add_self (a := 1) (b := 31)
  · rfl

theorem skipNew_refines (header : Addr) (null : δ) : Refines (skipNew header null) [] :=
  ⟨[],skipNew_represents header null,⟨rfl,fun _ => rfl⟩,by simp⟩

/-- A run from a new list, with the bound that the search of a further call needs. -/
theorem run_new {header : Addr} {null : δ} {fuel : ℕ} {ops : List (Op δ)} (hfuel : ops.length ≤ fuel)
    (ha : allowedRun fuel (skipNew header null) ops = true) :
    ∃ list, run fuel (skipNew header null) ops = some (list,(specRun [] ops).2) ∧
      Refines list (specRun [] ops).1 ∧ (specRun [] ops).1.length ≤ fuel := by
  obtain ⟨list,hrun,h⟩ := run_refines (skipNew_refines header null) ha (by simpa using hfuel)
  have hlen := specRun_length ([] : Multimap UInt64 δ) ops
  rw [List.length_nil,Nat.zero_add] at hlen
  exact ⟨list,hrun,h,hlen.trans hfuel⟩

/-- The skip list behaves as a multimap in which the newest entry of a key goes first, whatever levels
are drawn and allocations fail, and its length is the number of entries. -/
theorem skip_refines_multimap (header : Addr) (null : δ) (fuel : ℕ) (ops : List (Op δ))
    (hfuel : ops.length ≤ fuel) (ha : allowedRun fuel (skipNew header null) ops = true) :
    ∃ list, run fuel (skipNew header null) ops = some (list,(specRun [] ops).2) ∧
      list.length.toNat = (specRun [] ops).1.length := by
  obtain ⟨list,hrun,h,_⟩ := run_new hfuel ha
  exact ⟨list,hrun,h.length⟩

/-- Repeated and large keys: a hidden entry comes back, and a failed insertion adds nothing. -/
def hiddenRun : List (Op ℕ) :=
  [.insert (2^63+5) 10 2 (some 1),.insert 7 20 1 (some 2),.insert (2^63+5) 11 3 (some 3),
    .insert 7 21 32 none,.find (2^63+5),.delete (2^63+5),.find (2^63+5),.find 7,.delete 8]

theorem skip_refines_multimap_hidden :
    ∃ list, run 9 (skipNew 0 0) hiddenRun = some (list,(specRun [] hiddenRun).2) ∧
      list.length.toNat = (specRun [] hiddenRun).1.length :=
  skip_refines_multimap 0 0 9 hiddenRun (by simp [hiddenRun]) (by decide +kernel)

end JustKit.Skip
