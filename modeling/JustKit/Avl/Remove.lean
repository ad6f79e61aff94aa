import JustKit.Avl.Insert

/-! `jk_avl_remove` over memory. The search stops at the first node with the key of the node to
delete; the theorems are stated for whatever place that is. -/
namespace JustKit.Avl
open Foundations Foundations.HTree
variable {δ : Type}

/-- The search of `jk_avl_remove` stops where `HTree.locate` stops, unless the stack overflows. -/
theorem removeSearch_refines {s : Store δ} (k : UInt64) (t : HTree (Item δ)) (fs : List (Frame (Item δ)))
    (room : ℕ) (hs : Represents s (plug fs t)) :
    removeSearch s k room (place fs) (stack fs) =
      (locate Item.key k t fs).bind fun p =>
        if p.1.length < fs.length+room then some (place p.1,place p.1::stack p.1) else none := by
  induction t generalizing fs room with
  | nil =>
    cases room with
    | zero => simp [removeSearch,locate]
    | succ room => simp [removeSearch,locate,load_empty hs]
  | node l a h r hl hr =>
    obtain ⟨hload,ha⟩ := load_node hs
    cases room with
    | zero =>
      cases hp : locate Item.key k (node l a h r) fs with
      | none => simp [removeSearch]
      | some p => simp [removeSearch,not_lt.mpr (locate_length_le Item.key hp)]
    | succ room =>
      simp only [removeSearch,hload,ha,Option.bind_eq_bind,Option.bind_some,locate]
      by_cases he : k = a.key
      · simp [he]
      · by_cases hk : k < a.key
        · have hstep := hl (.left a h r::fs) room hs
          simp only [List.length_cons] at hstep
          simp only [he,hk,ite_true,ite_false]
          rw [show fs.length+(room+1) = fs.length+1+room by omega]
          exact hstep
        · have hstep := hr (.right l a h::fs) room hs
          simp only [List.length_cons] at hstep
          simp only [he,hk,ite_false]
          rw [show fs.length+(room+1) = fs.length+1+room by omega]
          exact hstep

/-- The search for the predecessor follows right children as `HTree.lastRight` does. -/
theorem predecessorSearch_refines {s : Store δ} (t : HTree (Item δ)) (ht : t ≠ nil)
    (fs : List (Frame (Item δ))) (room : ℕ) (hload : s.load (place fs) = some (ptr t)) (hm : Holds s.mem t) :
    ∃ pl p hp, (lastRight t fs).2 = node pl p hp nil ∧
      predecessorSearch s room (place fs) (stack fs) =
        if (lastRight t fs).1.length ≤ fs.length+room then
          some (place (lastRight t fs).1,p.addr,stack (lastRight t fs).1)
        else none := by
  fun_induction lastRight t fs generalizing room with
  | case1 fs => exact absurd rfl ht
  | case2 l a h fs =>
    refine ⟨l,a,h,rfl,?_⟩
    cases room <;> simp [predecessorSearch,hload,hm.1]
  | case3 l a h rl b k rr fs ih =>
    obtain ⟨ha,_,hr⟩ := hm
    have hlen : fs.length < (lastRight (node rl b k rr) (.right l a h::fs)).1.length := by
      have he := lastRight_append (node rl b k rr) [] (.right l a h::fs)
      rw [List.nil_append] at he
      rw [he]
      simp only [List.length_append,List.length_cons]
      omega
    have hnext : s.load (place (.right l a h::fs)) = some (ptr (node rl b k rr)) := by
      simp [place,Store.load,ha]
    cases room with
    | zero =>
      obtain ⟨pl,p,hp,h1,_⟩ := ih (by simp) 0 hnext hr
      refine ⟨pl,p,hp,h1,?_⟩
      simp [predecessorSearch,hload,ha,hlen]
    | succ room =>
      obtain ⟨pl,p,hp,h1,h2⟩ := ih (by simp) room hnext hr
      refine ⟨pl,p,hp,h1,?_⟩
      simp only [predecessorSearch,hload,ptr_node,ha,Option.bind_eq_bind,Option.bind_some]
      simp only [List.length_cons] at h2
      rw [show fs.length+(room+1) = fs.length+1+room by omega]
      exact h2

/-- Patching the entry above the removed node's own exchanges that node for its successor in the
path. -/
theorem patch_stack (sp fs : List (Frame (Item δ))) (f g : Frame (Item δ)) :
    patch (stack (sp++f::fs)) (fs.length+1) (place (g::fs)) =
      if fs.length+1 < maxHeight then some (stack (sp++g::fs)) else none := by
  have hset : (stack (sp++f::fs)).reverse.set (fs.length+1) (place (g::fs)) =
      (stack (sp++g::fs)).reverse := by
    induction sp with
    | nil => simp [stack,List.set_eq_of_length_le]
    | cons e sp ih =>
      simp only [List.cons_append,stack,List.reverse_cons]
      cases sp with
      | nil => simp [stack]
      | cons d sp =>
        have hl : fs.length+1 < (stack (d::sp++f::fs)).reverse.length := by
          simp only [List.length_reverse,stack_length,List.length_append,List.length_cons]
          omega
        rw [List.set_append_left _ _ hl,ih]
        cases d <;> rfl
  simp [patch,hset]

/-- Writing a child field does not involve the root cell. -/
lemma save_root_irrel {s s₁ : Store δ} {m : Option Addr} {x : Option Addr} {p : Place} (hp : p ≠ .root)
    (h : Store.save ⟨m,s.mem⟩ x p = some s₁) :
    ∃ s₂, s.save x p = some s₂ ∧ s₂.root = s.root ∧ s₂.mem = s₁.mem := by
  cases p with
  | root => exact absurd rfl hp
  | left a =>
    simp only [Store.save,Store.modify,Option.map_eq_some_iff] at h ⊢
    obtain ⟨m',hm,rfl⟩ := h
    exact ⟨⟨s.root,m'⟩,⟨m',hm,rfl⟩,rfl,rfl⟩
  | right a =>
    simp only [Store.save,Store.modify,Option.map_eq_some_iff] at h ⊢
    obtain ⟨m',hm,rfl⟩ := h
    exact ⟨⟨s.root,m'⟩,⟨m',hm,rfl⟩,rfl,rfl⟩

/-- The number of entries of the path stack that a removal writes. -/
def removeSlots (fs : List (Frame (Item δ))) : HTree (Item δ) → ℕ
  | nil => fs.length+1
  | node l a h r => fs.length+1+max 1 (lastRight (node l a h r) []).1.length

/-- `jk_avl_remove` up to its call of `jk_avl_rebalance`, with the stack that it passes. -/
def removePrepare (s : Store δ) (node_to_delete : Addr) : Option (Store δ × List Place) := do
  let d ← s.mem node_to_delete
  let (nodeplace_to_delete,stack) ← removeSearch s d.key maxHeight .root []
  match d.left with
  | none =>
    let s ← s.save d.right nodeplace_to_delete
    return (s,stack.tail)
  | some _ =>
    let stack_ptr_to_delete := stack.length
    let (nodeplace,pred,stack) ←
      predecessorSearch s (maxHeight-stack.length) (.left node_to_delete) stack
    let n ← s.mem pred
    let s ← s.save n.left nodeplace
    let d ← s.mem node_to_delete
    let s ← s.modify pred fun n => { n with left := d.left, right := d.right, height := d.height }
    let s ← s.save (some pred) nodeplace_to_delete
    let stack ← patch stack stack_ptr_to_delete (.left pred)
    return (s,stack)

lemma avlRemove_eq (s : Store δ) (a : Addr) :
    avlRemove s a = (removePrepare s a).bind fun r => avlRebalance r.1 r.2 := by
  unfold avlRemove removePrepare
  cases hd : s.mem a with
  | none => rfl
  | some d =>
    cases hsearch : removeSearch s d.key maxHeight .root [] with
    | none => simp [hsearch]
    | some p =>
      cases hl : d.left with
      | none =>
        simp only [hsearch,hl,Option.bind_eq_bind,Option.bind_assoc,Option.pure_def,Option.bind_some]
      | some c =>
        simp only [hsearch,hl,Option.bind_eq_bind,Option.bind_assoc,Option.pure_def,Option.bind_some]

section Remove
variable {s : Store δ} {fs : List (Frame (Item δ))} {l r : HTree (Item δ)} {d : Item δ} {h : ℕ}
  {q : Option Addr}

/-- The search stopped at the hole of `fs`, and the node to delete with its subtrees lies apart
from the path: it is, or lies below, the node found. -/
structure Found (s : Store δ) (fs : List (Frame (Item δ))) (q : Option Addr) (l : HTree (Item δ))
    (d : Item δ) (h : ℕ) (r : HTree (Item δ)) : Prop where
  root : s.root = top fs q
  path : HoldsPath s.mem fs q
  node : Holds s.mem (node l d h r)
  nodup : (addrs (plug fs (.node l d h r))).Nodup

lemma eq_plug_of_lastRight {sp : List (Frame (Item δ))} {u : HTree (Item δ)}
    (h : lastRight l [] = (sp,u)) : l = plug sp u := by
  have hplug := lastRight_plug l []
  rw [h] at hplug
  exact hplug.symm

/-- Unlinking a node takes its address from those of the tree. -/
lemma addrs_unlink_perm (sp : List (Frame (Item δ))) (pl : HTree (Item δ)) (p : Item δ) (hp : ℕ) :
    (addrs (plug sp (node pl p hp nil))).Perm (p.addr::addrs (plug sp pl)) := by
  refine (addrs_plug_perm sp _).trans (List.Perm.trans ?_ ((addrs_plug_perm sp pl).symm.cons _))
  simp only [addrs_node,addrs_nil]
  rw [← List.append_assoc]
  exact List.perm_middle.trans (by simp)

/-- The loop for the predecessor ends at the last node of the left subtree, if the path fits the stack. -/
lemma found_predecessor (hf : Found s fs q l d h r) (hl : l ≠ nil) : ∃ pl p hp,
    lastRight l [] = ((lastRight l []).1,node pl p hp nil) ∧
    predecessorSearch s (maxHeight-(fs.length+1)) (.left d.addr) (place fs::stack fs) =
      if ((lastRight l []).1++.left d h r::fs).length ≤ fs.length+1+(maxHeight-(fs.length+1)) then
        some (place ((lastRight l []).1++.left d h r::fs),p.addr,stack ((lastRight l []).1++.left d h r::fs))
      else none := by
  obtain ⟨hd,hml,_⟩ := hf.node
  have hload : s.load (place (.left d h r::fs)) = some (ptr l) := by simp [place,Store.load,hd]
  obtain ⟨pl,p,hp,he,hpred⟩ := predecessorSearch_refines l hl (.left d h r::fs) (maxHeight-(fs.length+1))
    hload hml
  have happ := lastRight_append l [] (.left d h r::fs)
  rw [List.nil_append] at happ
  rw [happ] at he hpred
  exact ⟨pl,p,hp,Prod.ext rfl he,hpred⟩

theorem removePrepare_no_left (hf : Found s fs q nil d h r)
    (hsearch : removeSearch s d.key maxHeight .root [] = some (place fs,place fs::stack fs)) :
    ∃ s', removePrepare s d.addr = some (s',stack fs) ∧ Represents s' (plug fs r) ∧
      SameOff (addrs (plug fs (node nil d h r))) s s' := by
  obtain ⟨hd,_,hr⟩ := hf.node
  obtain ⟨hpn,hnn,hdis⟩ := (nodup_plug _ _).mp hf.nodup
  obtain ⟨_,_,_,hnr,_⟩ := nodup_node.mp hnn
  have hn : (addrs (plug fs r)).Nodup :=
    (nodup_plug _ _).mpr ⟨hpn,hnr,fun b hb hc => hdis b hb (by simp [hc])⟩
  obtain ⟨s₁,h1,h2,h3⟩ := save_place hf.root hf.path hr hn
  refine ⟨s₁,?_,h2,fun b hb => h3 b ?_⟩
  · simp [removePrepare,hd,hsearch,h1]
  · exact fun hm => hb ((addrs_plug_perm fs _).mem_iff.mpr (List.mem_append_left _ hm))

/-- The predecessor leaves its place, whose cell receives its left child. -/
theorem unlink_predecessor (hf : Found s fs q l d h r) {pl : HTree (Item δ)} {p : Item δ} {hp : ℕ}
    (hlast : lastRight l [] = ((lastRight l []).1,node pl p hp nil)) :
    ∃ s', s.save (ptr pl) (place ((lastRight l []).1++.left d h r::fs)) = some s' ∧ s'.root = s.root ∧
      s'.mem d.addr = some ⟨d.key,d.data,h,ptr (plug (lastRight l []).1 pl),ptr r⟩ ∧
      Holds s'.mem (plug (lastRight l []).1 pl) ∧ Holds s'.mem r ∧
      s'.mem p.addr = some ⟨p.key,p.data,hp,ptr pl,none⟩ ∧ SameOff (addrs (node l d h r)) s s' := by
  generalize hsp : (lastRight l []).1 = sp at hlast ⊢
  have hl := eq_plug_of_lastRight hlast
  obtain ⟨_,hnn,_⟩ := (nodup_plug _ _).mp hf.nodup
  -- Below the node to delete the memory is that of a tree of its own, rooted at this node.
  have hown : Represents ⟨some d.addr,s.mem⟩ (plug (sp++[.left d h r]) (node pl p hp nil)) := by
    rw [plug_append,← hl]
    exact ⟨rfl,hf.node,hnn⟩
  obtain ⟨hpath,hpm,hpl,_⟩ := (holds_plug _ _).mp hown.holds
  obtain ⟨hpn,hfocus,hdis⟩ := (nodup_plug _ _).mp hown.nodup
  have hnodup : (addrs (plug (sp++[.left d h r]) pl)).Nodup := by
    rw [nodup_plug]
    exact ⟨hpn,(nodup_node.mp hfocus).2.2.1,fun b hb hc => hdis b hb (by simp [hc])⟩
  obtain ⟨s₁,h1,h2,h3⟩ := save_place (hown.root.trans (ptr_plug _ _)) hpath hpl hnodup
  have hplace : place (sp++[.left d h r]) = place (sp++.left d h r::fs) := by
    cases sp with
    | nil => rfl
    | cons f sp => cases f <;> rfl
  have hne : place (sp++.left d h r::fs) ≠ .root := by
    cases sp with
    | nil => simp [place]
    | cons f sp => cases f <;> simp [place]
  have hholds := h2.holds
  rw [plug_append,plug_cons,plug_nil,Frame.fill] at hholds
  obtain ⟨hd1,hl1,hr1⟩ := hholds
  rw [hplace] at h1
  obtain ⟨s₂,hs₂,hroot,hmem⟩ : ∃ s₂, s.save (ptr pl) (place (sp++.left d h r::fs)) = some s₂ ∧
      s₂.root = s.root ∧ s₂.mem = s₁.mem := save_root_irrel hne h1
  refine ⟨s₂,hs₂,hroot,?_,?_,?_,?_,fun b hb => ?_⟩
  · rw [hmem]; exact hd1
  · rw [hmem]; exact hl1
  · rw [hmem]; exact hr1
  · rw [hmem,h3 p.addr (fun hm => hdis _ hm (by simp))]
    exact hpm
  · rw [hmem,h3 b (fun hm => hb ?_)]
    have hm' := (addrs_plug_perm (sp++[.left d h r]) (node pl p hp nil)).mem_iff.mpr
      (List.mem_append_left _ hm)
    rwa [plug_append,← hl] at hm'

/-- The addresses stay different when a node is dropped and its predecessor, no longer below it, takes its place. -/
lemma nodup_predecessor {fs : List (Frame (Item δ))} {l r u : HTree (Item δ)} {d p : Item δ} {h : ℕ}
    (hn : (addrs (plug fs (node l d h r))).Nodup) (hperm : (addrs l).Perm (p.addr::addrs u)) :
    (addrs (plug fs (node u p h r))).Nodup := by
  rw [(addrs_plug_perm _ _).nodup_iff] at hn ⊢
  have hsub : (pathAddrs fs++(addrs l++addrs r)).Sublist (pathAddrs fs++addrs (node l d h r)) := by
    rw [addrs_node]
    exact (List.Sublist.refl _).append ((List.Sublist.refl _).append (List.sublist_cons_self _ _))
  have hmoved : (addrs (node u p h r)).Perm (addrs l++addrs r) := by
    rw [addrs_node]
    calc List.Perm (addrs u++p.addr::addrs r) (p.addr::(addrs u++addrs r)) := List.perm_middle
      List.Perm _ (addrs l++addrs r) := hperm.symm.append_right _
  exact (hmoved.append_left _).nodup_iff.mpr (hsub.nodup hn)

/-- Removing a node with a left child: its predecessor takes its place. -/
theorem removePrepare_left (hf : Found s fs q l d h r) (hl : l ≠ nil)
    (hsearch : removeSearch s d.key maxHeight .root [] = some (place fs,place fs::stack fs))
    (hroom : fs.length+1+max 1 (lastRight l []).1.length ≤ maxHeight) :
    ∃ s', removePrepare s d.addr = some (s',stack (unlink fs l h r).1) ∧
      Represents s' (plug (unlink fs l h r).1 (unlink fs l h r).2) ∧
      SameOff (addrs (plug fs (node l d h r))) s s' := by
  obtain ⟨hd,hml,hmr⟩ := hf.node
  obtain ⟨pl,p,hp,hlast,hpred⟩ := found_predecessor hf hl
  have hfits : ((lastRight l []).1++.left d h r::fs).length ≤ fs.length+1+(maxHeight-(fs.length+1)) := by
    simp only [List.length_append,List.length_cons]
    omega
  rw [if_pos hfits] at hpred
  obtain ⟨s₁,h1,hroot₁,hd₁,hl₁,hr₁,hp₁,hoff₁⟩ := unlink_predecessor hf hlast
  obtain ⟨_,_,hdis⟩ := (nodup_plug _ _).mp hf.nodup
  have hlp := eq_plug_of_lastRight hlast
  rw [unlink_of_lastRight hlast]
  generalize (lastRight l []).1 = sp at *
  have hperm : (addrs l).Perm (p.addr::addrs (plug sp pl)) := hlp ▸ addrs_unlink_perm sp pl p hp
  have hpl : p.addr ∈ addrs l := hperm.mem_iff.mpr List.mem_cons_self
  have hnodup : (addrs (plug fs (node (plug sp pl) p h r))).Nodup := nodup_predecessor hf.nodup hperm
  obtain ⟨_,hfocus,hdis'⟩ := (nodup_plug _ _).mp hnodup
  obtain ⟨hpu,hpr,_⟩ := nodup_node.mp hfocus
  have hpath₁ : HoldsPath s₁.mem fs q := holdsPath_congr (fun b hb => hoff₁ b (hdis b hb)) hf.path
  have hpp : p.addr ∉ pathAddrs fs := fun hm => hdis' _ hm (by simp)
  obtain ⟨s₂,g1,g2,g3⟩ := save_place (t := node (plug sp pl) p h r)
    (s := ⟨s₁.root,s₁.mem.put p.addr ⟨p.key,p.data,h,ptr (plug sp pl),ptr r⟩⟩)
    (hroot₁.trans hf.root) (holdsPath_put hpp _ hpath₁)
    ⟨Mem.put_same _ _ _,holds_put hpu _ hl₁,holds_put hpr _ hr₁⟩ hnodup
  have hpatch := patch_stack sp fs (.left d h r) (.left p h r)
  rw [if_pos (by omega)] at hpatch
  refine ⟨s₂,?_,?_,fun b hb => ?_⟩
  · obtain ⟨c,hc⟩ : ∃ c, ptr l = some c := Option.ne_none_iff_exists'.mp (mt ptr_eq_none.mp hl)
    have hpm : s.mem p.addr = some ⟨p.key,p.data,hp,ptr pl,none⟩ := by
      rw [hlp] at hml
      exact ((holds_plug _ _).mp hml).2.1
    have g1' : Store.save ⟨s₁.root,s₁.mem.put p.addr ⟨p.key,p.data,h,ptr (plug sp pl),ptr r⟩⟩
      (some p.addr)
        (place fs) = some s₂ := g1
    have hpatch' : patch (stack (sp++.left d h r::fs)) (fs.length+1) (.left p.addr) =
        some (stack (sp++.left p h r::fs)) := hpatch
    simp only [removePrepare,hd,hsearch,hc,List.length_cons,stack_length,hpred,hpm,h1,hd₁,
      Store.modify_eq hp₁,g1',hpatch',Option.bind_eq_bind,Option.bind_some]
    rfl
  · rw [plug_append]
    exact g2
  · have hb' := (addrs_plug_perm fs (node l d h r)).mem_iff.not.mp hb
    simp only [List.mem_append,addrs_node,List.mem_cons,not_or] at hb'
    obtain ⟨hbf,hbl,hbd,hbr⟩ := hb'
    have hbp : b ≠ p.addr := fun e => hbl (e ▸ hpl)
    have hb₁ : s₁.mem b = s.mem b := hoff₁ b (by simp [hbl,hbd,hbr])
    exact (g3 b hbf).trans ((Mem.put_of_ne hbp _ _).trans hb₁)

/-- A removal that writes past the path stack has no defined behaviour. -/
theorem removePrepare_left_overflow (hf : Found s fs q l d h r) (hl : l ≠ nil)
    (hsearch : removeSearch s d.key maxHeight .root [] = some (place fs,place fs::stack fs))
    (hroom : maxHeight < fs.length+1+max 1 (lastRight l []).1.length) : removePrepare s d.addr = none := by
  obtain ⟨hd,_,_⟩ := hf.node
  obtain ⟨pl,p,hp,_,hpred⟩ := found_predecessor hf hl
  obtain ⟨c,hc⟩ : ∃ c, ptr l = some c := Option.ne_none_iff_exists'.mp (mt ptr_eq_none.mp hl)
  by_cases hfits : ((lastRight l []).1++.left d h r::fs).length ≤ fs.length+1+(maxHeight-(fs.length+1))
  · -- The path fits, so it is the patched entry that lies past the end of the stack.
    have hpatch := patch_stack (lastRight l []).1 fs (.left d h r) (.left p h r)
    have hfull : ¬ fs.length+1 < maxHeight := by
      simp only [List.length_append,List.length_cons] at hfits
      omega
    rw [if_neg hfull] at hpatch
    have hpatch' : patch (stack ((lastRight l []).1++.left d h r::fs)) (fs.length+1) (.left p.addr) = none :=
      hpatch
    rw [if_pos hfits] at hpred
    simp [removePrepare,hd,hsearch,hc,hpred,hpatch']
  · rw [if_neg hfits] at hpred
    simp [removePrepare,hd,hsearch,hc,hpred]

end Remove

/-! ### Removal from a represented tree -/

/-- What is left before the rebalancing has no node that the tree did not have. -/
lemma mem_unlink_addrs {t : HTree (Item δ)} {gs cs : List (Frame (Item δ))} {l r : HTree (Item δ)}
    {d : Item δ} {h : ℕ} (hl : locate Item.key d.key t [] = some (gs,plug cs (node l d h r))) {b : Addr}
    (hb : b ∈ addrs (plug (unlink gs l h r).1 (unlink gs l h r).2)) : b ∈ addrs t := by
  have hp := congrArg toList (locate_plug Item.key hl).1
  rw [plug_nil,plug_toList,plug_toList,toList_node] at hp
  rw [addrs,unlink_toList] at hb
  rw [addrs,← hp]
  obtain ⟨i,hi,rfl⟩ := List.mem_map.mp hb
  apply List.mem_map_of_mem
  simp only [List.mem_append,List.mem_cons] at hi ⊢
  tauto

section Represented
variable {s : Store δ} {t : HTree (Item δ)} (hs : Represents s t)
include hs

/-- The search from the root, for a key that is in the ordered tree. -/
lemma removeSearch_root {k : UInt64} {gs : List (Frame (Item δ))} {u : HTree (Item δ)}
    (hl : locate Item.key k t [] = some (gs,u)) :
    removeSearch s k maxHeight .root [] =
      if gs.length < maxHeight then some (place gs,place gs::stack gs) else none := by
  have h := removeSearch_refines k t [] maxHeight hs
  rw [hl,Option.bind_some,List.length_nil,Nat.zero_add] at h
  exact h

/-- The node to delete lies in the subtree the search stops at, so the search leads to its place
or to a place above it. -/
lemma found_of_locate {gs cs : List (Frame (Item δ))} {l r : HTree (Item δ)} {d : Item δ} {h : ℕ}
    (hl : locate Item.key d.key t [] = some (gs,plug cs (node l d h r))) :
    Found s gs (ptr (plug cs (node l d h r))) l d h r := by
  have hp := (locate_plug Item.key hl).1
  rw [plug_nil] at hp
  rw [← hp] at hs
  obtain ⟨hpath,hfocus⟩ := (holds_plug _ _).mp hs.holds
  obtain ⟨hpn,hn,hdis⟩ := (nodup_plug _ _).mp hs.nodup
  refine ⟨hs.root.trans (ptr_plug _ _),hpath,((holds_plug _ _).mp hfocus).2,?_⟩
  refine (nodup_plug _ _).mpr ⟨hpn,((nodup_plug _ _).mp hn).2.1,fun b hb hc => hdis b hb ?_⟩
  exact (addrs_plug_perm _ _).mem_iff.mpr (List.mem_append_right _ hc)

/-- Everything `jk_avl_remove` does before it rebalances: if the stack suffices, the subtree found by
the key of the node to delete loses its root in favour of the subtrees of that node. -/
theorem removePrepare_refines {gs cs : List (Frame (Item δ))} {l r : HTree (Item δ)} {d : Item δ} {h : ℕ}
    (hl : locate Item.key d.key t [] = some (gs,plug cs (node l d h r))) :
    (removeSlots gs l ≤ maxHeight → ∃ s', removePrepare s d.addr = some (s',stack (unlink gs l h r).1) ∧
      Represents s' (plug (unlink gs l h r).1 (unlink gs l h r).2) ∧ SameOff (addrs t) s s') ∧
    (maxHeight < removeSlots gs l → removePrepare s d.addr = none) := by
  have hf := found_of_locate hs hl
  have hsearch := removeSearch_root hs hl
  have hsub : ∀ b ∈ addrs (plug gs (node l d h r)), b ∈ addrs t := by
    intro b hb
    have hp := (locate_plug Item.key hl).1
    rw [plug_nil] at hp
    rw [← hp,(addrs_plug_perm _ _).mem_iff,List.mem_append]
    rcases List.mem_append.mp ((addrs_plug_perm _ _).mem_iff.mp hb) with hb | hb
    · exact Or.inl hb
    · exact Or.inr ((addrs_plug_perm _ _).mem_iff.mpr (List.mem_append_right _ hb))
  by_cases hgs : gs.length < maxHeight
  · rw [if_pos hgs] at hsearch
    cases l with
    | nil =>
      refine ⟨fun _ => ?_,fun hc => absurd hc (not_lt.mpr hgs)⟩
      obtain ⟨s',h1,h2,h3⟩ := removePrepare_no_left hf hsearch
      exact ⟨s',h1,h2,fun b hb => h3 b (fun hm => hb (hsub b hm))⟩
    | node ll a k lr =>
      refine ⟨fun hroom => ?_,fun hroom => ?_⟩
      · obtain ⟨s',h1,h2,h3⟩ := removePrepare_left hf (by simp) hsearch hroom
        exact ⟨s',h1,h2,fun b hb => h3 b (fun hm => hb (hsub b hm))⟩
      · exact removePrepare_left_overflow hf (by simp) hsearch hroom
  · rw [if_neg hgs] at hsearch
    refine ⟨fun hroom => ?_,fun _ => ?_⟩
    · cases l with
      | nil => simp only [removeSlots] at hroom; omega
      | node ll a k lr => simp only [removeSlots] at hroom; omega
    · simp [removePrepare,hf.node.1,hsearch]

/-- The whole of `jk_avl_remove` on an ordered tree: the root of the subtree found is removed as
`HTree.removeRoot` does it, for the subtrees of the node to delete. -/
theorem avlRemove_refines {gs cs : List (Frame (Item δ))} {l r : HTree (Item δ)} {d : Item δ} {h : ℕ}
    (hl : locate Item.key d.key t [] = some (gs,plug cs (node l d h r))) :
    (removeSlots gs l ≤ maxHeight → ∃ s', avlRemove s d.addr = some s' ∧
      Represents s' (removeRoot gs l h r) ∧ SameOff (addrs t) s s') ∧
    (maxHeight < removeSlots gs l → avlRemove s d.addr = none) := by
  obtain ⟨hfits,hover⟩ := removePrepare_refines hs hl
  refine ⟨fun hroom => ?_,fun hroom => ?_⟩
  · obtain ⟨s₁,h1,h2,h3⟩ := hfits hroom
    obtain ⟨s₂,g1,g2,g3⟩ := avlRebalance_refines h2
    refine ⟨s₂,?_,?_,fun b hb => ?_⟩
    · rw [avlRemove_eq,h1]
      exact g1
    · rw [removeRoot_eq]
      exact g2
    · exact (g3 b fun hm => hb (mem_unlink_addrs hl hm)).trans (h3 b hb)
  · rw [avlRemove_eq,hover hroom]
    rfl

/-- The same when the node found is the node to delete. -/
theorem avlRemove_refines_self {gs : List (Frame (Item δ))} {l r : HTree (Item δ)} {d : Item δ} {h : ℕ}
    (hl : locate Item.key d.key t [] = some (gs,node l d h r)) :
    (removeSlots gs l ≤ maxHeight → ∃ s', avlRemove s d.addr = some s' ∧
      Represents s' (removeRoot gs l h r) ∧ SameOff (addrs t) s s') ∧
    (maxHeight < removeSlots gs l → avlRemove s d.addr = none) :=
  avlRemove_refines hs (show locate Item.key d.key t [] = some (gs,plug [] (node l d h r)) from hl)

end Represented
end JustKit.Avl
