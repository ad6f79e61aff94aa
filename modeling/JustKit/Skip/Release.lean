import JustKit.Skip.Structure

/-! The end of a list: `jk_skip_free` follows the lowest chain and releases what it passes. -/
namespace JustKit.Skip
open Foundations Foundations.LevelChain
variable {δ : Type}

/-- `jk_skip_node_free`; only an allocated node may be released. -/
def skipNodeFree (mem : Mem (SkipNode δ)) (a : Addr) : Option (Mem (SkipNode δ)) := (mem a).map fun _ => mem.free a

/-- The loop of `jk_skip_free`, with the addresses that it releases. -/
def freeLoop : ℕ → Mem (SkipNode δ) → Option Addr → Option (Mem (SkipNode δ) × List Addr)
  | _,mem,none => some (mem,[])
  | 0,_,some _ => none
  | fuel+1,mem,some node => do
    let next ← (mem node).bind fun n => n.forward[0]?
    let mem ← skipNodeFree mem node
    let (mem,released) ← freeLoop fuel mem next
    return (mem,node::released)

/-- `jk_skip_free`: the memory that is left, and what has been released. -/
def skipFree (fuel : ℕ) (list : SkipList δ) : Option (Mem (SkipNode δ) × List Addr) := do
  let node ← list.forward list.header 0
  let mem ← skipNodeFree list.mem list.header
  let (mem,released) ← freeLoop fuel mem node
  return (mem,list.header::released)

/-- Each pass reads the next node before it releases the one at hand, so the rest of the chain is as it was. -/
lemma freeLoop_eq {mem : Mem (SkipNode δ)} {xs : List (Entry δ)} {fuel : ℕ} (hnodup : (xs.map Entry.addr).Nodup)
    (hlinks : ∀ as x bs, xs = as++x::bs →
    (mem x.addr).bind (fun n => n.forward[0]?) = some (bs.head?.map Entry.addr)) (hfuel : xs.length ≤ fuel) :
    ∃ mem', freeLoop fuel mem (xs.head?.map Entry.addr) = some (mem',xs.map Entry.addr) ∧
      (∀ b ∈ xs.map Entry.addr, mem' b = none) ∧ ∀ b, mem b = none → mem' b = none := by
  induction xs generalizing mem fuel with
  | nil => exact ⟨mem,by cases fuel <;> rfl,by simp,fun _ h => h⟩
  | cons x xs ih =>
    obtain ⟨fuel,rfl⟩ := Nat.exists_eq_succ_of_ne_zero (Nat.ne_of_gt (Nat.zero_lt_of_lt hfuel))
    obtain ⟨hx,hxs⟩ := List.nodup_cons.mp hnodup
    have hnext := hlinks [] x xs rfl
    obtain ⟨n,hn,_⟩ := Option.bind_eq_some_iff.mp hnext
    have hrest : ∀ as y bs, xs = as++y::bs →
        ((mem.free x.addr) y.addr).bind (fun n => n.forward[0]?) = some (bs.head?.map Entry.addr) := by
      intro as y bs hsplit
      have hne : y.addr ≠ x.addr := fun he => hx (he ▸ List.mem_map_of_mem (by simp [hsplit]))
      rw [Mem.free_of_ne hne]
      exact hlinks (x::as) y bs (by rw [hsplit]; rfl)
    obtain ⟨mem',hloop,hgone,hnone⟩ := ih hxs hrest (Nat.le_of_succ_le_succ hfuel)
    refine ⟨mem',?_,?_,?_⟩
    · have hfree : skipNodeFree mem x.addr = some (mem.free x.addr) := by simp [skipNodeFree,hn]
      simp only [List.head?_cons,Option.map_some,freeLoop,hnext,hfree,hloop,Option.bind_eq_bind,Option.bind_some]
      rfl
    · intro b hb
      rcases List.mem_cons.mp hb with rfl | hb
      · exact hnone _ (Mem.free_same ..)
      · exact hgone b hb
    · intro b hb
      apply hnone
      by_cases he : b = x.addr
      · rw [he,Mem.free_same]
      · rw [Mem.free_of_ne he,hb]

/-- On a list that represents `xs`. -/
theorem skipFree_spec {list : SkipList δ} {xs : List (Entry δ)} (h : Represents list xs) {fuel : ℕ}
    (hfuel : xs.length ≤ fuel) :
    skipFree fuel list = some (fun _ => none,list.header::xs.map Entry.addr) := by
  obtain ⟨hheader,hnodup⟩ := List.nodup_cons.mp h.nodup
  have hlinks : ∀ as x bs, xs = as++x::bs →
      ((list.mem.free list.header) x.addr).bind (fun n => n.forward[0]?) = some (bs.head?.map Entry.addr) := by
    rintro as x bs rfl
    have hne : x.addr ≠ list.header := fun he => hheader (he ▸ List.mem_map_of_mem (by simp))
    have hlevel : 0 < x.level := (h.levels x (by simp)).1
    have hpred : pred list.header 0 (as++[x]) = x.addr := by rw [pred_concat,if_pos hlevel]
    have h' : Represents list ((as++[x])++bs) := by simpa using h
    have hnext := h'.next
    rw [hpred] at hnext
    rw [Mem.free_of_ne hne]
    exact hnext
  obtain ⟨mem',hloop,hgone,hnone⟩ := freeLoop_eq hnodup hlinks hfuel
  have hmem : mem' = fun _ => none := by
    funext b
    by_cases hb : list.mem b = none
    · apply hnone
      by_cases he : b = list.header
      · rw [he,Mem.free_same]
      · rw [Mem.free_of_ne he,hb]
    · rcases List.mem_cons.mp (h.only b hb) with rfl | hb
      · exact hnone _ (Mem.free_same ..)
      · exact hgone b hb
  have hstart : list.forward list.header 0 = some (xs.head?.map Entry.addr) := @Represents.next _ list [] xs h
  obtain ⟨n,hn,_⟩ := Option.map_eq_some_iff.mp h.header
  have hfree : skipNodeFree list.mem list.header = some (list.mem.free list.header) := by simp [skipNodeFree,hn]
  simp only [skipFree,hstart,hfree,hloop,hmem,Option.bind_eq_bind,Option.bind_some]
  rfl

/-- After any calls, whatever levels were drawn and allocations failed, `jk_skip_free` releases the header and as
many nodes as the list has entries, each once, follows no released node, and leaves nothing allocated. -/
theorem skip_free_releases (header : Addr) (null : δ) (fuel : ℕ) (ops : List (Op δ))
    (hfuel : ops.length ≤ fuel) (ha : allowedRun fuel (skipNew header null) ops = true) :
    ∃ list rs released, run fuel (skipNew header null) ops = some (list,rs) ∧
      skipFree fuel list = some (fun _ => none,released) ∧ released.Nodup ∧
      released.length = list.length.toNat+1 ∧ ∀ b, (list.mem b).isSome ↔ b ∈ released := by
  obtain ⟨list,hrun,⟨xs,hrep,hsame,haddr⟩,hlen⟩ := run_new hfuel ha
  have hxs : xs.length ≤ fuel := by simpa using hsame.length.trans_le hlen
  refine ⟨list,_,_,hrun,skipFree_spec hrep hxs,hrep.nodup,?_,fun b => ?_⟩
  · rw [List.length_cons,List.length_map,hrep.length_toNat haddr]
  · rw [Option.isSome_iff_ne_none]
    exact ⟨hrep.only b,hrep.allocated⟩

theorem skip_free_releases_hidden : ∃ list rs released, run 9 (skipNew 0 0) hiddenRun = some (list,rs) ∧
    skipFree 9 list = some (fun _ => none,released) ∧ released.Nodup ∧ released.length = list.length.toNat+1 ∧
    ∀ b, (list.mem b).isSome ↔ b ∈ released :=
  skip_free_releases 0 0 9 hiddenRun (by simp [hiddenRun]) (by decide +kernel)

end JustKit.Skip
