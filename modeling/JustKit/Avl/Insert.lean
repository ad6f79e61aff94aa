import JustKit.Foundations.Word
import JustKit.Avl.Rebalance

/-! `jk_avl_insert` over memory computes `HTree.insertNode`, as long as its path fits the stack. -/
namespace JustKit.Avl
open Foundations Foundations.HTree
variable {δ : Type}

/-- What the search of `jk_avl_insert` and `jk_avl_remove` reads from the cell of a node. -/
lemma load_node {s : Store δ} {fs : List (Frame (Item δ))} {l r : HTree (Item δ)} {a : Item δ} {h : ℕ}
    (hs : Represents s (plug fs (node l a h r))) :
    s.load (place fs) = some (some a.addr) ∧ s.mem a.addr = some ⟨a.key,a.data,h,ptr l,ptr r⟩ :=
  ⟨(holds_focus hs).1,(holds_focus hs).2.1⟩

lemma load_empty {s : Store δ} {fs : List (Frame (Item δ))} (hs : Represents s (plug fs nil)) :
    s.load (place fs) = some none :=
  load_place (hs.root.trans (ptr_plug fs _)) ((holds_plug fs _).mp hs.holds).1

/-- The search reaches the cell that `HTree.descend` reaches, unless the stack overflows. -/
theorem insertSearch_refines {s : Store δ} (k : UInt64) (t : HTree (Item δ)) (fs : List (Frame (Item δ)))
    (room : ℕ) (hs : Represents s (plug fs t)) :
    insertSearch s k room (place fs) (stack fs) =
      if (descend Item.key k t fs).length ≤ fs.length+room then
        some (place (descend Item.key k t fs),stack (descend Item.key k t fs))
      else none := by
  induction t generalizing fs room with
  | nil => cases room <;> simp [insertSearch,load_empty hs,descend]
  | node l a h r hl hr =>
    obtain ⟨hload,ha⟩ := load_node hs
    have hlen : fs.length < (descend Item.key k (node l a h r) fs).length := by
      rw [descend]
      split_ifs
      · exact length_le_descend Item.key k l (.left a h r::fs)
      · exact length_le_descend Item.key k r (.right l a h::fs)
    cases room with
    | zero => simp [insertSearch,hload,hlen]
    | succ room =>
      simp only [insertSearch,hload,ha,Option.bind_eq_bind,Option.bind_some]
      by_cases hk : k < a.key
      · have hstep := hl (.left a h r::fs) room hs
        simp only [descend,hk,ite_true]
        simp only [List.length_cons] at hstep
        rw [show fs.length+(room+1) = fs.length+1+room by omega]
        exact hstep
      · have hstep := hr (.right l a h::fs) room hs
        simp only [descend,hk,ite_false]
        simp only [List.length_cons] at hstep
        rw [show fs.length+(room+1) = fs.length+1+room by omega]
        exact hstep

/-- `jk_avl_insert` up to its call of `jk_avl_rebalance`, with the stack that it passes. -/
def insertPrepare (s : Store δ) (new_node : Addr) : Option (Store δ × List Place) := do
  let n ← s.mem new_node
  let (nodeplace,stack) ← insertSearch s n.key maxHeight .root []
  let s ← s.modify new_node fun n => { n with left := none, right := none, height := 1 }
  let s ← s.save (some new_node) nodeplace
  return (s,stack)

lemma avlInsert_eq (s : Store δ) (a : Addr) :
    avlInsert s a = (insertPrepare s a).bind fun r => avlRebalance r.1 r.2 := by
  simp only [avlInsert,insertPrepare,Option.bind_eq_bind,Option.bind_assoc,Option.pure_def,Option.bind_some]

/-- A node that is not in the tree takes the empty place at the end of the search. -/
theorem insertPrepare_refines {s : Store δ} {t : HTree (Item δ)} (hs : Represents s t) {a : Item δ}
    (ha : a.addr ∉ addrs t) {n : Node δ} (hn : s.mem a.addr = some n) (hk : n.key = a.key)
    (hd : n.data = a.data) (hroom : (descend Item.key a.key t []).length ≤ maxHeight) :
    ∃ s', insertPrepare s a.addr = some (s',stack (descend Item.key a.key t [])) ∧
      Represents s' (plug (descend Item.key a.key t []) (node nil a 1 nil)) ∧ SameOff (a.addr::addrs t) s s' := by
  have hplug := plug_descend Item.key a.key t []
  rw [plug_nil] at hplug
  have hsearch := insertSearch_refines a.key t [] maxHeight hs
  simp only [List.length_nil,Nat.zero_add,hroom,ite_true] at hsearch
  have hs' : Represents s (plug (descend Item.key a.key t []) nil) := by rwa [hplug]
  have haddrs : addrs t = pathAddrs (descend Item.key a.key t []) := by
    rw [addrs,toList_eq_descend Item.key a.key t,pathAddrs]
  have hap : a.addr ∉ pathAddrs (descend Item.key a.key t []) := by rwa [← haddrs]
  obtain ⟨hpath,_⟩ := (holds_plug _ _).mp hs'.holds
  have hnodup : (addrs (plug (descend Item.key a.key t []) (node nil a 1 nil))).Nodup := by
    rw [nodup_plug]
    refine ⟨((nodup_plug _ _).mp hs'.nodup).1,by simp,fun b hb hc => ?_⟩
    simp only [addrs_node,addrs_nil,List.nil_append,List.mem_singleton] at hc
    exact hap (hc ▸ hb)
  obtain ⟨s₁,h1,h2,h3⟩ := save_place (t := node nil a 1 nil)
    (s := ⟨s.root,s.mem.put a.addr { n with left := none, right := none, height := 1 }⟩)
    (hs'.root.trans (ptr_plug _ _)) (holdsPath_put hap _ hpath)
    ⟨by simp [hk,hd],trivial,trivial⟩ hnodup
  refine ⟨s₁,?_,h2,fun b hb => ?_⟩
  · have hsave : Store.save ⟨s.root,s.mem.put a.addr { n with left := none, right := none, height := 1 }⟩
        (some a.addr) (place (descend Item.key a.key t [])) = some s₁ := h1
    have hsearch' : insertSearch s n.key maxHeight .root [] =
        some (place (descend Item.key a.key t []),stack (descend Item.key a.key t [])) := by
      rw [hk]; exact hsearch
    simp only [insertPrepare,hn,Option.bind_eq_bind,Option.bind_some,hsearch',Store.modify_eq hn,hsave]
    rfl
  · simp only [List.mem_cons,not_or] at hb
    have hb' : b ∉ pathAddrs (descend Item.key a.key t []) := by rw [← haddrs]; exact hb.2
    exact (h3 b hb').trans (Mem.put_of_ne hb.1 _ _)

/-- Inserting a node that is not in the tree. -/
theorem avlInsert_refines {s : Store δ} {t : HTree (Item δ)} (hs : Represents s t) {a : Item δ}
    (ha : a.addr ∉ addrs t) {n : Node δ} (hn : s.mem a.addr = some n) (hk : n.key = a.key)
    (hd : n.data = a.data) (hroom : (descend Item.key a.key t []).length ≤ maxHeight) :
    ∃ s', avlInsert s a.addr = some s' ∧ Represents s' (insertNode Item.key a t) ∧
      SameOff (a.addr::addrs t) s s' := by
  obtain ⟨s₁,h1,h2,h3⟩ := insertPrepare_refines hs ha hn hk hd hroom
  obtain ⟨s₂,g1,g2,g3⟩ := avlRebalance_refines h2
  refine ⟨s₂,?_,g2,fun b hb => (g3 b ?_).trans (h3 b hb)⟩
  · rw [avlInsert_eq,h1]
    exact g1
  · have hmem := toList_eq_descend Item.key a.key t
    rw [(addrs_plug_perm _ _).mem_iff,pathAddrs,← hmem]
    simp only [List.mem_cons,not_or] at hb
    simpa [addrs,hb.1] using hb.2

/-- Inserting along a path that does not fit the stack has no defined behaviour. -/
theorem avlInsert_overflow {s : Store δ} {t : HTree (Item δ)} (hs : Represents s t) {a : Item δ}
    {n : Node δ} (hn : s.mem a.addr = some n) (hk : n.key = a.key)
    (hroom : maxHeight < (descend Item.key a.key t []).length) : avlInsert s a.addr = none := by
  have hsearch : insertSearch s a.key maxHeight .root [] = none := by
    have h := insertSearch_refines a.key t [] maxHeight hs
    rwa [List.length_nil,Nat.zero_add,if_neg (not_le.mpr hroom)] at h
  simp [avlInsert,hn,hk,hsearch]

end JustKit.Avl
