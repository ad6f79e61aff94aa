import JustKit.Avl.Runs

/-! Removal when keys repeat. Insertion accepts equal keys, but removal finds its place by key, so
it is right only for a node that the search by key meets first. -/
namespace JustKit.Avl
open Foundations Foundations.HTree
variable {δ : Type}

/-- `jk_avl_find_node` returns the root of the subtree that `HTree.locate` finds, once it returns. -/
theorem avlFindNode_sound {s : Store δ} {k : UInt64} {t : HTree (Item δ)} (fs : List (Frame (Item δ)))
    (ht : Holds s.mem t) {fuel : ℕ} {p : Option Addr} (h : avlFindNode s k fuel (ptr t) = some p) :
    p = (locate Item.key k t fs).bind fun q => ptr q.2 := by
  induction t generalizing fs fuel with
  | nil =>
    have hp : some none = some p := by
      cases fuel <;> simpa [avlFindNode] using h
    simpa [locate] using hp.symm
  | node l a m r hl hr =>
    obtain ⟨ha,hml,hmr⟩ := ht
    cases fuel with
    | zero => simp [avlFindNode] at h
    | succ fuel =>
      simp only [ptr_node,avlFindNode,ha,Option.bind_eq_bind,Option.bind_some] at h
      rw [locate]
      by_cases he : k = a.key
      · simp only [he,ite_true] at h ⊢
        simpa [eq_comm] using h
      · simp only [Ne.symm he,ite_false] at h
        simp only [he,ite_false]
        by_cases hk : k < a.key
        · simp only [hk,ite_true] at h ⊢
          exact hl _ hml h
        · simp only [hk,ite_false] at h ⊢
          exact hr _ hmr h

/-- It returns within as many passes as the tree has nodes. -/
theorem avlFindNode_total {s : Store δ} (k : UInt64) {t : HTree (Item δ)} (ht : Holds s.mem t) {fuel : ℕ}
    (hf : t.toList.length ≤ fuel) : (avlFindNode s k fuel (ptr t)).isSome := by
  induction t generalizing fuel with
  | nil => cases fuel <;> rfl
  | node l a m r hl hr =>
    obtain ⟨ha,hml,hmr⟩ := ht
    simp only [toList_node,List.length_append,List.length_cons] at hf
    cases fuel with
    | zero => omega
    | succ fuel =>
      simp only [ptr_node,avlFindNode,ha,Option.bind_eq_bind,Option.bind_some]
      split_ifs
      · rfl
      · exact hl hml (by omega)
      · exact hr hmr (by omega)

/-- `jk_avl_find_node(root, d->key)` returns `d` itself. -/
def FoundFirst (s : Store δ) (d : Item δ) : Prop :=
  ∃ fuel, avlFindNode s d.key fuel s.root = some (some d.addr)

/-- The path of a search for the key of `d`, continued to the in-order predecessor of the node
found, fits the path stack. -/
def PathFits (t : HTree (Item δ)) (d : Item δ) : Prop :=
  ∀ gs l e k r, locate Item.key d.key t [] = some (gs,node l e k r) → removeSlots gs l ≤ maxHeight

section Tree
variable {s : Store δ} {t : HTree (Item δ)} (ht : IsAvl s t) {d : Item δ}
include ht

/-- The place where a search for the key of `d` stops is `d` or lies above `d`. -/
lemma locate_above (hd : d ∈ t.toList) :
    ∃ gs cs l k r, locate Item.key d.key t [] = some (gs,plug cs (node l d k r)) := by
  obtain ⟨⟨gs,u⟩,hl⟩ := Option.isSome_iff_exists.mp (locate_isSome Item.key [] ht.ordered hd rfl)
  obtain ⟨cs,l,k,r,rfl⟩ := exists_plug_of_mem (mem_of_locate Item.key hl ht.ordered hd rfl)
  exact ⟨gs,cs,l,k,r,hl⟩

lemma foundFirst_of_locate {gs : List (Frame (Item δ))} {l r : HTree (Item δ)} {k : ℕ}
    (hl : locate Item.key d.key t [] = some (gs,node l d k r)) : FoundFirst s d := by
  obtain ⟨p,hp⟩ := Option.isSome_iff_exists.mp (avlFindNode_total d.key ht.rep.holds le_rfl)
  have he := avlFindNode_sound [] ht.rep.holds hp
  rw [hl] at he
  exact ⟨t.toList.length,by rw [ht.rep.root,hp,he]; rfl⟩

lemma locate_of_foundFirst (hd : d ∈ t.toList) (h : FoundFirst s d) :
    ∃ gs l k r, locate Item.key d.key t [] = some (gs,node l d k r) := by
  obtain ⟨fuel,hf⟩ := h
  rw [ht.rep.root] at hf
  have he := avlFindNode_sound [] ht.rep.holds hf
  obtain ⟨gs,cs,l,k,r,hl⟩ := locate_above ht hd
  obtain ⟨hp,l',e,k',r',hu,hk⟩ := locate_plug Item.key hl
  rw [hu] at hl hp
  rw [hl] at he
  have hed : d.addr = e.addr := by simpa using he
  have hem : e ∈ t.toList := by
    rw [plug_nil] at hp
    rw [← hp,plug_toList]
    simp
  obtain rfl := ht.rep.eq_of_addr hd hem hed
  exact ⟨gs,l',k',r',hl⟩

/-- If another node is met first, that node is lost together with `d`. -/
lemma not_removesExactly_of_above {gs cs : List (Frame (Item δ))} {l r : HTree (Item δ)} {k : ℕ}
    (hl : locate Item.key d.key t [] = some (gs,plug cs (node l d k r))) (hcs : cs ≠ []) :
    ¬ RemovesExactly s t d := by
  rintro ⟨s',t',h1,h2,h3,_,_⟩
  obtain ⟨hfit,hover⟩ := avlRemove_refines ht.rep hl
  by_cases hroom : removeSlots gs l ≤ maxHeight
  · obtain ⟨s'',g1,g2,_⟩ := hfit hroom
    have hs : s' = s'' := Option.some.inj (h1.symm.trans g1)
    subst hs
    have htr := h2.unique g2
    have hp := (locate_plug Item.key hl).1
    rw [plug_nil] at hp
    -- The nodes of the path from the node found down to `d` disappear.
    have hlost : 0 < (before cs).length+(after cs).length := by
      cases cs with
      | nil => exact absurd rfl hcs
      | cons f cs => cases f <;> simp [Frame.before,Frame.after]
    have hlen := congrArg List.length h3
    have hlist : t.toList = (before gs++before cs++l.toList)++d::(r.toList++after cs++after gs) := by
      rw [← hp,plug_toList,plug_toList]
      simp [List.append_assoc]
    have hn := ht.rep.nodup
    rw [addrs,hlist] at hn
    rw [htr,removeRoot_toList,hlist,filter_addr hn] at hlen
    simp only [List.length_append] at hlen
    omega
  · rw [hover (by omega)] at h1
    cases h1

/-- Removal of a node from an AVL tree is exact if and only if the search by key meets that node
first and the path fits the stack. -/
theorem removesExactly_iff_of_isAvl (hd : d ∈ t.toList) :
    RemovesExactly s t d ↔ FoundFirst s d ∧ PathFits t d := by
  constructor
  · intro h
    obtain ⟨gs,cs,l,k,r,hl⟩ := locate_above ht hd
    by_cases hcs : cs = []
    · subst hcs
      rw [plug_nil] at hl
      refine ⟨foundFirst_of_locate ht hl,fun gs' l' e k' r' hl' => ?_⟩
      rw [hl] at hl'
      cases hl'
      by_contra hroom
      obtain ⟨s',t',h1,_⟩ := h
      rw [(avlRemove_refines_self ht.rep hl).2 (by omega)] at h1
      cases h1
    · exact absurd h (not_removesExactly_of_above ht hl hcs)
  · rintro ⟨hfirst,hfits⟩
    obtain ⟨gs,l,k,r,hl⟩ := locate_of_foundFirst ht hd hfirst
    exact ht.remove hl (hfits gs l d k r hl)

end Tree

/-- The calls that insert the given nodes one after the other. -/
def insertAll (nodes : List (Addr × Node δ)) : List (Op δ) := nodes.map fun p => .insert p.1 p.2

def itemsOf (nodes : List (Addr × Node δ)) : List (Item δ) := nodes.map fun p => ⟨p.1,p.2.key,p.2.data⟩

/-- Insertions build an AVL tree from any keys, as long as they are defined at all. -/
theorem insertAll_isAvl {s s' : Store δ} {t : HTree (Item δ)} {nodes : List (Addr × Node δ)}
    (ht : IsAvl s t) (hnew : (addrs t ++ nodes.map Prod.fst).Nodup)
    (hrun : run s (insertAll nodes) = some s') :
    ∃ t', IsAvl s' t' ∧ t'.toList.Perm (t.toList ++ itemsOf nodes) := by
  induction nodes generalizing s t with
  | nil =>
    obtain rfl : s = s' := by simpa [insertAll,run] using hrun
    exact ⟨t,ht,by simp [itemsOf]⟩
  | cons p nodes ih =>
    obtain ⟨a,n⟩ := p
    simp only [insertAll,List.map_cons,run,Op.exec,Option.bind_eq_bind,Option.bind_eq_some_iff] at hrun
    obtain ⟨s₁,h1,h2⟩ := hrun
    simp only [List.map_cons,List.nodup_middle,List.nodup_cons,List.mem_append,not_or] at hnew
    have g2 := ht.insert_of_some hnew.1.1 h1
    have hperm := insertNode_perm Item.key ⟨a,n.key,n.data⟩ t
    obtain ⟨t',ht',hp⟩ := ih g2 (by
      have hp' := (hperm.map Item.addr).append_right (nodes.map Prod.fst)
      rw [addrs,hp'.nodup_iff]
      simp only [List.map_cons,List.cons_append,List.nodup_cons,List.mem_append,not_or]
      exact hnew) h2
    refine ⟨t',ht',hp.trans ?_⟩
    refine (hperm.append_right _).trans ?_
    simp only [itemsOf,List.map_cons,List.cons_append]
    exact List.perm_middle.symm

/-- In a tree built by insertions with any keys, removal takes out exactly the given node if and
only if `jk_avl_find_node` with its key returns this node, and the path fits the stack. -/
theorem removesExactly_iff (m : Mem (Node δ)) (nodes : List (Addr × Node δ)) (s : Store δ)
    (hnew : (nodes.map Prod.fst).Nodup) (hrun : run ⟨none,m⟩ (insertAll nodes) = some s) :
    ∃ t, Represents s t ∧ t.toList.Perm (itemsOf nodes) ∧
      ∀ d ∈ t.toList, RemovesExactly s t d ↔ FoundFirst s d ∧ PathFits t d := by
  have hempty : IsAvl (⟨none,m⟩ : Store δ) nil := ⟨⟨rfl,trivial,by simp⟩,valid_nil,List.Pairwise.nil⟩
  obtain ⟨t,ht,hp⟩ := insertAll_isAvl hempty hnew hrun
  exact ⟨t,ht.rep,hp,fun d hd => removesExactly_iff_of_isAvl ht hd⟩

/-- Three nodes with one key: the second becomes the root and is met first. -/
def triplet : List (Addr × Node Unit) :=
  [(1,⟨5,(),0,none,none⟩),(2,⟨5,(),0,none,none⟩),(3,⟨5,(),0,none,none⟩)]

theorem removesExactly_iff_triplet : ∃ s t, run ⟨none,fun _ => none⟩ (insertAll triplet) = some s ∧
    Represents s t ∧ t.toList.Perm (itemsOf triplet) ∧
      ∀ d ∈ t.toList, RemovesExactly s t d ↔ FoundFirst s d ∧ PathFits t d := by
  obtain ⟨s,hs⟩ : ∃ s, run (⟨none,fun _ => none⟩ : Store Unit) (insertAll triplet) = some s := ⟨_,rfl⟩
  obtain ⟨t,ht⟩ := removesExactly_iff (fun _ => none) triplet s (by decide) hs
  exact ⟨s,t,hs,ht⟩

/-- Removing the first of the three nodes empties the tree. -/
theorem remove_triplet_loses : ∃ s t, run ⟨none,fun _ => none⟩ (insertAll triplet) = some s ∧
    Represents s t ∧ (⟨1,5,()⟩ : Item Unit) ∈ t.toList ∧ ¬ RemovesExactly s t ⟨1,5,()⟩ := by
  refine ⟨_,node (node nil ⟨1,5,()⟩ 1 nil) ⟨2,5,()⟩ 2 (node nil ⟨3,5,()⟩ 1 nil),rfl,
    ⟨rfl,⟨rfl,⟨rfl,trivial,trivial⟩,⟨rfl,trivial,trivial⟩⟩,by decide⟩,by simp,?_⟩
  rintro ⟨s',t',h1,h2,h3,_,_⟩
  have hroot : s'.root = none := by
    cases h1
    rfl
  have hnil : t' = nil := ptr_eq_none.mp (h2.root.symm.trans hroot)
  subst hnil
  simp at h3

end JustKit.Avl
