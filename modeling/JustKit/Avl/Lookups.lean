import JustKit.Avl.Stable

/-! The searches after insertions and removals with different keys: they answer for the nodes that are in the
tree, after a number of passes that is logarithmic in the number of nodes. -/
namespace JustKit.Avl
open Foundations Foundations.HTree
variable {δ : Type}

/-- `jk_avl_find`, which cannot tell a missing key from a node with a null pointer. -/
def avlFind (s : Store δ) (fuel : ℕ) (key : UInt64) : Option (Option δ) := do
  match ← avlFindNode s key fuel s.root with
  | none => return none
  | some a => return some (← s.mem a).data

/-! ### The depth of a search -/

section Depth
variable {s : Store δ} {t : HTree (Item δ)} (ht : Holds s.mem t) (hv : Valid t) {fuel : ℕ}
  (hf : t.stored ≤ fuel) (k : ℕ)
include ht hv hf

/-- A search makes no more passes than the tree is high. -/
theorem avlFindNode_depth (key : UInt64) : avlFindNode s key (fuel+k) (ptr t) = avlFindNode s key fuel (ptr t) := by
  induction t generalizing fuel with
  | nil =>
    rw [ptr_nil,avlFindNode,avlFindNode]
  | node l a h r hl hr =>
    obtain ⟨ha,hml,hmr⟩ := ht
    obtain ⟨⟨h1,h2,h3⟩,hvl,hvr⟩ := hv
    rw [stored_node] at hf
    obtain ⟨fuel,rfl⟩ : ∃ d, fuel = d+1 := ⟨fuel-1,by omega⟩
    rw [Nat.add_right_comm]
    simp only [ptr_node,avlFindNode,ha,Option.bind_eq_bind,Option.bind_some]
    rw [hl hml hvl (by omega),hr hmr hvr (by omega)]

theorem avlFindMin_depth : avlFindMin s (fuel+k) (ptr t) = avlFindMin s fuel (ptr t) := by
  induction t generalizing fuel with
  | nil =>
    rw [ptr_nil,avlFindMin,avlFindMin]
  | node l a h r hl _ =>
    obtain ⟨ha,hml,_⟩ := ht
    obtain ⟨⟨h1,h2,h3⟩,hvl,_⟩ := hv
    rw [stored_node] at hf
    obtain ⟨fuel,rfl⟩ : ∃ d, fuel = d+1 := ⟨fuel-1,by omega⟩
    rw [Nat.add_right_comm]
    simp only [ptr_node,avlFindMin,ha,Option.bind_eq_bind,Option.bind_some]
    rw [hl hml hvl (by omega)]

theorem avlFindMax_depth : avlFindMax s (fuel+k) (ptr t) = avlFindMax s fuel (ptr t) := by
  induction t generalizing fuel with
  | nil =>
    rw [ptr_nil,avlFindMax,avlFindMax]
  | node l a h r _ hr =>
    obtain ⟨ha,_,hmr⟩ := ht
    obtain ⟨⟨h1,h2,h3⟩,_,hvr⟩ := hv
    rw [stored_node] at hf
    obtain ⟨fuel,rfl⟩ : ∃ d, fuel = d+1 := ⟨fuel-1,by omega⟩
    rw [Nat.add_right_comm]
    simp only [ptr_node,avlFindMax,ha,Option.bind_eq_bind,Option.bind_some]
    rw [hr hmr hvr (by omega)]

end Depth

/-! ### The answers -/

/-- A list in key order with different keys is the stable sort of all its permutations. -/
lemma isStableSort_of_perm {xs ys : List (Item δ)} (hp : ys.Perm xs) (ho : Ordered Item.key ys)
    (hk : (xs.map Item.key).Nodup) : IsStableSort Item.key xs ys := by
  refine ⟨ho,fun k => ?_⟩
  have hperm := hp.filter fun i => i.key = k
  have hsame : ∀ i ∈ xs.filter (fun i => i.key = k), ∀ j ∈ xs.filter (fun i => i.key = k), i = j := by
    intro i hi j hj
    obtain ⟨hi,hik⟩ := List.mem_filter.mp hi
    obtain ⟨hj,hjk⟩ := List.mem_filter.mp hj
    exact List.inj_on_of_nodup_map hk hi hj ((of_decide_eq_true hik).trans (of_decide_eq_true hjk).symm)
  revert hperm hsame
  generalize xs.filter (fun i => i.key = k) = zs
  intro hperm hsame
  cases zs with
  | nil => exact hperm.eq_nil
  | cons i rest =>
    have hall : i::rest = List.replicate (rest.length+1) i :=
      List.eq_replicate_of_mem fun j hj => hsame j hj i List.mem_cons_self
    rw [hall] at hperm ⊢
    exact List.perm_replicate.mp hperm

/-- The node of a key, if it is among `items`. -/
def itemAt (items : List (Item δ)) (key : UInt64) : Option (Item δ) := items.find? fun i => i.key = key

section Tracks
variable {s : Store δ} {p : List (Item δ)} (h : Tracks s p) {fuel : ℕ} (hf : 2*Nat.log 2 (p.length+1)+1 ≤ fuel)
include h hf

lemma Tracks.looksUp : LooksUp s p fuel := by
  obtain ⟨t,ht,hp,hk,_⟩ := h
  have hdepth : t.stored ≤ fuel := by
    have hlog := ht.valid.stored_le_log
    rw [hp.length_eq] at hlog
    exact hlog.trans hf
  obtain ⟨hmin,hmax,hnode⟩ := looksUp_of_isStableSort ht (isStableSort_of_perm hp ht.ordered hk)
    (Nat.le_add_left p.length fuel)
  rw [ht.rep.root,avlFindMin_depth ht.rep.holds ht.valid hdepth] at hmin
  rw [ht.rep.root,avlFindMax_depth ht.rep.holds ht.valid hdepth] at hmax
  refine ⟨by rwa [ht.rep.root],by rwa [ht.rep.root],fun key => ?_⟩
  have hkey := hnode key
  rw [ht.rep.root,avlFindNode_depth ht.rep.holds ht.valid hdepth] at hkey
  rwa [ht.rep.root]

/-- With different keys there is only one node to find. -/
lemma Tracks.findNode_eq (key : UInt64) : avlFindNode s key fuel s.root = some ((itemAt p key).map Item.addr) := by
  obtain ⟨q,hq,hnone,hsome⟩ := (h.looksUp hf).node key
  obtain ⟨t,ht,hp,hk,_⟩ := h
  rw [hq]
  cases q with
  | none =>
    have hno := hnone.mp rfl
    have hfind : itemAt p key = none := List.find?_eq_none.mpr fun i hi => by simpa using hno i hi
    rw [hfind]
    rfl
  | some a =>
    obtain ⟨i,hi,rfl,rfl⟩ := hsome a rfl
    cases hfind : itemAt p i.key with
    | none => exact absurd (List.find?_eq_none.mp hfind i hi) (by simp)
    | some j =>
      have hjk : j.key = i.key := by simpa using List.find?_some hfind
      rw [List.inj_on_of_nodup_map hk (List.mem_of_find?_eq_some hfind) hi hjk]
      rfl

/-- The data of the node found are those it was inserted with. -/
lemma Tracks.find_eq (key : UInt64) : avlFind s fuel key = some ((itemAt p key).map Item.data) := by
  have hnode := h.findNode_eq hf key
  obtain ⟨t,ht,hp,_,_⟩ := h
  unfold avlFind
  rw [hnode]
  cases hfind : itemAt p key with
  | none => rfl
  | some i =>
    have hi : i ∈ t.toList := hp.mem_iff.mpr (List.mem_of_find?_eq_some hfind)
    obtain ⟨n,hn,hpay⟩ := Option.map_eq_some_iff.mp (ht.rep.holds.mem_payload hi)
    have hdata : n.data = i.data := congrArg Prod.snd hpay
    simp [hn,hdata]

end Tracks

/-- At every point of a legal run of insertions and removals, `jk_avl_find_node` and `jk_avl_find` answer for
each key with the node inserted under it and not removed since, and `jk_avl_find_min` and `jk_avl_find_max` with
the node of the smallest and the largest key, within a number of passes that is logarithmic in the number of
nodes. -/
theorem run_looks_up (m : Mem (Node δ)) (ops pre : List (Op δ)) (h : LegalRun [] ops) (hp : pre <+: ops) :
    ∃ s, run ⟨none,m⟩ pre = some s ∧ ∀ fuel, 2*Nat.log 2 ((present pre).length+1)+1 ≤ fuel →
      (∀ key, avlFindNode s key fuel s.root = some ((itemAt (present pre) key).map Item.addr) ∧
        avlFind s fuel key = some ((itemAt (present pre) key).map Item.data)) ∧
      (∃ q, avlFindMin s fuel s.root = some q ∧ (q = none ↔ present pre = []) ∧
        ∀ a, q = some a → ∃ i ∈ present pre, i.addr = a ∧ ∀ j ∈ present pre, i.key ≤ j.key) ∧
      ∃ q, avlFindMax s fuel s.root = some q ∧ (q = none ↔ present pre = []) ∧
        ∀ a, q = some a → ∃ i ∈ present pre, i.addr = a ∧ ∀ j ∈ present pre, j.key ≤ i.key := by
  obtain ⟨s,h1,h2⟩ := run_tracks (tracks_empty m) (h.of_prefix hp)
  refine ⟨s,h1,fun fuel hf => ⟨fun key => ⟨h2.findNode_eq hf key,h2.find_eq hf key⟩,?_,?_⟩⟩
  · obtain ⟨q,hq,hnone,hsome⟩ := (h2.looksUp hf).min
    refine ⟨q,hq,hnone,fun a ha => ?_⟩
    obtain ⟨i,hi,hfirst⟩ := hsome a ha
    exact ⟨i,hfirst.mem,hi,hfirst.le⟩
  · obtain ⟨q,hq,hnone,hsome⟩ := (h2.looksUp hf).max
    refine ⟨q,hq,hnone,fun a ha => ?_⟩
    obtain ⟨i,hi,hlast⟩ := hsome a ha
    exact ⟨i,hlast.mem,hi,hlast.le⟩

theorem run_looks_up_rotated : ∃ s, run ⟨none,fun _ => none⟩ rotatedRun = some s ∧
    ∀ fuel, 2*Nat.log 2 ((present rotatedRun).length+1)+1 ≤ fuel →
      (∀ key, avlFindNode s key fuel s.root = some ((itemAt (present rotatedRun) key).map Item.addr) ∧
        avlFind s fuel key = some ((itemAt (present rotatedRun) key).map Item.data)) ∧
      (∃ q, avlFindMin s fuel s.root = some q ∧ (q = none ↔ present rotatedRun = []) ∧
        ∀ a, q = some a → ∃ i ∈ present rotatedRun, i.addr = a ∧
        ∀ j ∈ present rotatedRun, i.key ≤ j.key) ∧
      ∃ q, avlFindMax s fuel s.root = some q ∧ (q = none ↔ present rotatedRun = []) ∧
        ∀ a, q = some a → ∃ i ∈ present rotatedRun, i.addr = a ∧
        ∀ j ∈ present rotatedRun, j.key ≤ i.key :=
  run_looks_up (fun _ => none) rotatedRun rotatedRun (by decide) List.prefix_rfl

end JustKit.Avl
