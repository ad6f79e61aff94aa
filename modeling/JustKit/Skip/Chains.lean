import JustKit.Foundations.LevelChain
import JustKit.Skip.Model

/-! How the memory represents a sequence of entries, and what a search along its chains reaches. -/
namespace JustKit.Skip
open Foundations Foundations.LevelChain
variable {δ : Type}

/-- What a node keeps for its whole life in the list. -/
structure Entry (δ : Type) where
  addr : Addr
  key : UInt64
  value : δ
  level : ℕ
  deriving Repr, DecidableEq

/-- The node of a prefix from which the chain of level `i` goes on, the header if there is no other. -/
def pred (header : Addr) (i : ℕ) (xs : List (Entry δ)) : Addr :=
  ((lastAbove Entry.level i xs).map Entry.addr).getD header

/-- The node at which the chain of level `i` enters the rest. -/
def succ (i : ℕ) (xs : List (Entry δ)) : Option Addr := (firstAbove Entry.level i xs).map Entry.addr

/-- Every chain passes through the entries above its level, in order, and ends after the last. -/
def Linked (forward : Addr → ℕ → Option (Option Addr)) (header : Addr) (xs : List (Entry δ)) : Prop :=
  ∀ as bs i, xs = as++bs → i < skipMaxLevel → forward (pred header i as) i = some (succ i bs)

/-- What no function changes in a node of the list. -/
def SkipNode.shape (n : SkipNode δ) : UInt64 × δ × ℕ := (n.key,n.value,n.forward.length)

/-- The list represents the sequence `xs`, in nodes of its own. Its level may be higher than that of all
entries. -/
structure Represents (list : SkipList δ) (xs : List (Entry δ)) : Prop where
  header : (list.mem list.header).map (fun n => n.forward.length) = some skipMaxLevel
  nodes : ∀ x ∈ xs, (list.mem x.addr).map SkipNode.shape = some (x.key,x.value,x.level)
  only : ∀ b, list.mem b ≠ none → b ∈ list.header::xs.map Entry.addr
  nodup : (list.header::xs.map Entry.addr).Nodup
  links : Linked list.forward list.header xs
  sorted : xs.Pairwise fun a b => a.key ≤ b.key
  levels : ∀ x ∈ xs, 1 ≤ x.level ∧ x.level ≤ list.level
  level_pos : 1 ≤ list.level
  level_le : list.level ≤ skipMaxLevel
  length : list.length = UInt64.ofNat xs.length

section Pred
variable (header : Addr) (i : ℕ)

@[simp] theorem pred_nil : pred header i ([] : List (Entry δ)) = header := rfl

theorem pred_append (xs ys : List (Entry δ)) :
    pred header i (xs++ys) = if lastAbove Entry.level i ys = none then pred header i xs else pred header i ys := by
  rw [pred,lastAbove_append]
  cases h : lastAbove Entry.level i ys <;> simp [pred,h]

theorem pred_concat (xs : List (Entry δ)) (x : Entry δ) :
    pred header i (xs++[x]) = if i < x.level then x.addr else pred header i xs := by
  rw [pred_append,lastAbove_singleton]
  by_cases h : i < x.level <;> simp [h,pred,lastAbove_singleton]

theorem succ_append (xs ys : List (Entry δ)) :
    succ i (xs++ys) = if firstAbove Entry.level i xs = none then succ i ys else succ i xs := by
  rw [succ,firstAbove_append]
  cases h : firstAbove Entry.level i xs <;> simp [succ,h]

theorem succ_cons (x : Entry δ) (xs : List (Entry δ)) :
    succ i (x::xs) = if i < x.level then some x.addr else succ i xs := by
  rw [← List.singleton_append,succ_append,firstAbove_singleton]
  by_cases h : i < x.level <;> simp [h,succ,firstAbove_singleton]

theorem pred_mem (xs : List (Entry δ)) : pred header i xs ∈ header::xs.map Entry.addr := by
  rw [pred]
  cases h : lastAbove Entry.level i xs with
  | none => simp
  | some a => simpa using Or.inr ⟨a,(mem_of_lastAbove h).1,rfl⟩

variable {header i}

theorem pred_append_none (xs : List (Entry δ)) {ys : List (Entry δ)} (h : lastAbove Entry.level i ys = none) :
    pred header i (xs++ys) = pred header i xs := by rw [pred_append,if_pos h]

theorem pred_append_some (xs : List (Entry δ)) {ys : List (Entry δ)} (h : lastAbove Entry.level i ys ≠ none) :
    pred header i (xs++ys) = pred header i ys := by rw [pred_append,if_neg h]

theorem pred_mem_of_some {xs : List (Entry δ)} (h : lastAbove Entry.level i xs ≠ none) :
    pred header i xs ∈ xs.map Entry.addr := by
  obtain ⟨a,ha⟩ := Option.ne_none_iff_exists'.mp h
  rw [pred,ha]
  exact List.mem_map_of_mem (mem_of_lastAbove ha).1

/-- An entry on a chain is not the last one of any chain before it. -/
theorem pred_ne {xs ys zs : List (Entry δ)} (hn : (header::(xs++(ys++zs)).map Entry.addr).Nodup) (j : ℕ)
    (h : lastAbove Entry.level i ys ≠ none) : pred header i ys ≠ pred header j xs := by
  rw [List.map_append,← List.cons_append] at hn
  intro he
  have hy : pred header i ys ∈ (ys++zs).map Entry.addr := by
    rw [List.map_append]
    exact List.mem_append_left _ (pred_mem_of_some h)
  exact (List.disjoint_of_nodup_append hn) (pred_mem header j xs) (he ▸ hy)

/-- Above all levels only the header is left. -/
theorem pred_of_levels_le {xs : List (Entry δ)} (h : ∀ x ∈ xs, x.level ≤ i) : pred header i xs = header := by
  rw [pred,lastAbove_eq_none.mpr h]
  rfl

end Pred

/-- A sorted sequence falls into the entries before a key and the rest. -/
lemma exists_split {xs : List (Entry δ)} (h : xs.Pairwise fun a b => a.key ≤ b.key) (key : UInt64) :
    ∃ ls rs, xs = ls++rs ∧ (∀ x ∈ ls, x.key < key) ∧ ∀ x ∈ rs, key ≤ x.key := by
  induction xs with
  | nil => exact ⟨[],[],rfl,by simp,by simp⟩
  | cons x xs ih =>
    obtain ⟨hx,hxs⟩ := List.pairwise_cons.mp h
    by_cases hk : x.key < key
    · obtain ⟨ls,rs,rfl,hl,hr⟩ := ih hxs
      exact ⟨x::ls,rs,rfl,List.forall_mem_cons.mpr ⟨hk,hl⟩,hr⟩
    · refine ⟨[],x::xs,rfl,by simp,List.forall_mem_cons.mpr ⟨not_lt.mp hk,fun y hy => ?_⟩⟩
      exact (not_lt.mp hk).trans (hx y hy)

section Search
variable {list : SkipList δ} {ls rs : List (Entry δ)} (h : Represents list (ls++rs)) {key : UInt64}
  (hl : ∀ x ∈ ls, x.key < key) (hr : ∀ x ∈ rs, key ≤ x.key)
include h hl hr

/-- A walk along one chain stops at the last node of the chain before the key. -/
theorem walk_refines {i : ℕ} (hi : i < skipMaxLevel) {as cs : List (Entry δ)} (hs : ls = as++cs) {fuel : ℕ}
    (hfuel : cs.length ≤ fuel) :
    walk list key i fuel (pred list.header i as) = some (pred list.header i ls) := by
  induction fuel generalizing as cs with
  | zero =>
    obtain rfl : cs = [] := List.length_eq_zero_iff.mp (by omega)
    rw [List.append_nil] at hs
    subst hs
    have hlink := h.links ls rs i rfl hi
    simp only [walk,hlink,Option.bind_eq_bind,Option.bind_some,succ]
    cases hf : firstAbove Entry.level i rs with
    | none => rfl
    | some m =>
      have hm := (mem_of_firstAbove hf).1
      obtain ⟨n,hn,hp⟩ := Option.map_eq_some_iff.mp (h.nodes m (by simp [hm]))
      have hk : n.key = m.key := congrArg Prod.fst hp
      simp [hn,hk,not_lt.mpr (hr m hm)]
  | succ fuel ih =>
    have hlink := h.links as (cs++rs) i (by rw [hs,List.append_assoc]) hi
    cases hf : firstAbove Entry.level i cs with
    | none =>
      -- The chain leaves the part before the key.
      have hpred : pred list.header i ls = pred list.header i as := by
        rw [hs,pred_append,if_pos (lastAbove_none_iff.mpr hf)]
      rw [succ_append,if_pos hf] at hlink
      simp only [walk,hlink,Option.bind_eq_bind,Option.bind_some,succ,hpred]
      cases hf' : firstAbove Entry.level i rs with
      | none => rfl
      | some m =>
        have hm := (mem_of_firstAbove hf').1
        obtain ⟨n,hn,hp⟩ := Option.map_eq_some_iff.mp (h.nodes m (by simp [hm]))
        have hk : n.key = m.key := congrArg Prod.fst hp
        simp [hn,hk,not_lt.mpr (hr m hm)]
    | some m =>
      obtain ⟨ys,zs,rfl,_,hlev⟩ := split_first hf
      rw [succ_append,if_neg (by rw [hf]; simp),succ,hf] at hlink
      have hm : m ∈ ls := by rw [hs]; simp
      obtain ⟨n,hn,hp⟩ := Option.map_eq_some_iff.mp (h.nodes m (by simp [hm]))
      have hk : n.key = m.key := congrArg Prod.fst hp
      have hnext := ih (show ls = (as++(ys++[m]))++zs by rw [hs]; simp) (by simp at hfuel; omega)
      rw [← List.append_assoc,pred_concat,if_pos hlev] at hnext
      simp only [walk,hlink,Option.bind_eq_bind,Option.bind_some,Option.map_some,hn,hk,if_pos (hl m hm)]
      exact hnext

/-- The search visits, from the top chain down, the last node of each chain before the key. -/
theorem search_refines {fuel : ℕ} (hfuel : ls.length ≤ fuel) {i : ℕ} (hi : i ≤ skipMaxLevel) {n : Addr}
    {update : List Addr} (hn : ∀ j, i = j+1 → ∃ as cs, ls = as++cs ∧ n = pred list.header j as) :
    search fuel list key i n update = some (if i = 0 then n else pred list.header 0 ls,
      (List.range i).map (fun j => pred list.header j ls)++update) := by
  induction i generalizing n update with
  | zero => rfl
  | succ i ih =>
    obtain ⟨as,cs,hs,rfl⟩ := hn i rfl
    have hlen : cs.length ≤ fuel := by
      rw [hs,List.length_append] at hfuel
      omega
    have hwalk := walk_refines h hl hr (show i < skipMaxLevel by omega) hs hlen
    have hlower : ∀ j, i = j+1 → ∃ as cs, ls = as++cs ∧ pred list.header i ls = pred list.header j as := by
      intro j hj
      cases hf : lastAbove Entry.level i ls with
      | none => exact ⟨[],ls,rfl,by simp [pred,hf]⟩
      | some a =>
        obtain ⟨ys,zs,hyz,hf'⟩ := lastAbove_lower hf (show j ≤ i by omega)
        exact ⟨ys,zs,hyz,by simp [pred,hf,hf']⟩
    simp only [search,hwalk,Option.bind_eq_bind,Option.bind_some,ih (show i ≤ skipMaxLevel by omega) hlower]
    by_cases h0 : i = 0
    · subst h0
      rfl
    · simp [h0,List.range_succ]

/-- The search from the header. -/
theorem search_header {fuel : ℕ} (hfuel : ls.length ≤ fuel) : search fuel list key list.level list.header [] =
    some (pred list.header 0 ls,(List.range list.level).map fun j => pred list.header j ls) := by
  have hpos := h.level_pos
  rw [search_refines h hl hr hfuel h.level_le (fun j _ => ⟨[],ls,rfl,rfl⟩),if_neg (by omega),
    List.append_nil]

end Search

/-- The search of `jk_skip_find_node` is the search of the other functions without the update array. -/
theorem findSearch_eq (fuel : ℕ) (list : SkipList δ) (key : UInt64) (i : ℕ) (n : Addr) (update : List Addr) :
    findSearch fuel list key i n = (search fuel list key i n update).map Prod.fst := by
  induction i generalizing n update with
  | zero => rfl
  | succ i ih =>
    simp only [findSearch,search,Option.bind_eq_bind]
    cases walk list key i fuel n with
    | none => rfl
    | some m => exact ih m (m::update)

end JustKit.Skip
