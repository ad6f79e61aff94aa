import JustKit.Avl.Remove

/-! What one insertion and one removal preserve: the store holds a valid AVL tree in key order. -/
namespace JustKit.Avl
open Foundations Foundations.HTree
variable {δ : Type}

/-- The store holds `t`, which is a valid AVL tree whose keys never decrease in order. -/
structure IsAvl (s : Store δ) (t : HTree (Item δ)) : Prop where
  rep : Represents s t
  valid : Valid t
  ordered : Ordered Item.key t.toList

/-- The first node of the tree has the smallest key. -/
lemma IsAvl.first_le {s : Store δ} {t : HTree (Item δ)} (h : IsAvl s t) {d : Item δ} {rest : List (Item δ)}
    (hl : t.toList = d::rest) : ∀ i ∈ t.toList, d.key ≤ i.key := by
  have ho := h.ordered
  rw [hl] at ho ⊢
  intro i hi
  rcases List.mem_cons.mp hi with rfl | hi
  · exact le_rfl
  · exact (List.pairwise_cons.mp ho).1 i hi

/-- A store represents at most one tree. -/
theorem holds_unique {m : Mem (Node δ)} {t u : HTree (Item δ)} (ht : Holds m t) (hu : Holds m u)
    (hp : ptr t = ptr u) : t = u := by
  induction t generalizing u with
  | nil => exact (ptr_eq_none.mp (hp.symm.trans ptr_nil)).symm
  | node l a h r hl hr =>
    cases u with
    | nil => simp at hp
    | node l' b k r' =>
      obtain ⟨ha,hll,hrr⟩ := ht
      obtain ⟨hb,hll',hrr'⟩ := hu
      have hab : a.addr = b.addr := by simpa using hp
      rw [hab,hb] at ha
      simp only [Option.some.injEq,Node.mk.injEq] at ha
      obtain ⟨h1,h2,h3,h4,h5⟩ := ha
      have he : b = a := by
        cases a; cases b
        simp_all
      rw [hl hll hll' h4.symm,hr hrr hrr' h5.symm,he,h3]

theorem Represents.unique {s : Store δ} {t u : HTree (Item δ)} (ht : Represents s t)
    (hu : Represents s u) : t = u := holds_unique ht.holds hu.holds (ht.root.symm.trans hu.root)

/-- Storing a record at an address outside the tree leaves the tree alone. -/
theorem Represents.put {s : Store δ} {t : HTree (Item δ)} (h : Represents s t) {a : Addr}
    (ha : a ∉ addrs t) (n : Node δ) : Represents (s.put a n) t :=
  ⟨h.root,holds_put ha n h.holds,h.nodup⟩

theorem IsAvl.put {s : Store δ} {t : HTree (Item δ)} (h : IsAvl s t) {a : Addr} (ha : a ∉ addrs t)
    (n : Node δ) : IsAvl (s.put a n) t := ⟨h.rep.put ha n,h.valid,h.ordered⟩

/-- An item of the tree is known by its address. -/
lemma Represents.eq_of_addr {s : Store δ} {t : HTree (Item δ)} (h : Represents s t) {a b : Item δ}
    (ha : a ∈ t.toList) (hb : b ∈ t.toList) (he : a.addr = b.addr) : a = b :=
  List.inj_on_of_nodup_map h.nodup ha hb he

/-- The least number of nodes of an AVL tree that is higher than the path stack. -/
def nodeLimit : ℕ := 701408732

lemma nodeLimit_fib : nodeLimit+1 = Nat.fib (maxHeight+3) := by norm_num [nodeLimit,maxHeight]

theorem stored_le_maxHeight {t : HTree (Item δ)} (hv : Valid t) (hn : t.toList.length < nodeLimit) :
    t.stored ≤ maxHeight := by
  apply hv.stored_le
  have hfib := nodeLimit_fib
  omega

theorem IsAvl.insert {s : Store δ} {t : HTree (Item δ)} (h : IsAvl s t) {a : Addr} (ha : a ∉ addrs t)
    {n : Node δ} (hn : s.mem a = some n)
    (hroom : (descend Item.key n.key t []).length ≤ maxHeight) :
    ∃ s', avlInsert s a = some s' ∧ IsAvl s' (insertNode Item.key ⟨a,n.key,n.data⟩ t) ∧
      SameOff (a::addrs t) s s' := by
  obtain ⟨s',h1,h2,h3⟩ := avlInsert_refines h.rep (a := ⟨a,n.key,n.data⟩) ha hn rfl rfl hroom
  exact ⟨s',h1,⟨h2,insertNode_valid _ _ _ h.valid,insertNode_ordered _ _ _ h.ordered⟩,h3⟩

/-- An insertion that does not overflow the stack. -/
theorem IsAvl.insert_of_some {s s' : Store δ} {t : HTree (Item δ)} (h : IsAvl s t) {a : Addr} (ha : a ∉ addrs t)
    {n : Node δ} (hs : avlInsert (s.put a n) a = some s') :
    IsAvl s' (insertNode Item.key ⟨a,n.key,n.data⟩ t) := by
  have hput := h.put ha n
  by_cases hroom : (descend Item.key n.key t []).length ≤ maxHeight
  · obtain ⟨s₁,h1,h2,_⟩ := hput.insert ha (Mem.put_same _ _ _) hroom
    rw [Option.some.inj (hs.symm.trans h1)]
    exact h2
  · have hnone : avlInsert (s.put a n) a = none :=
      avlInsert_overflow (a := ⟨a,n.key,n.data⟩) hput.rep (Mem.put_same _ _ _) rfl (not_le.mp hroom)
    cases hs.symm.trans hnone

/-- The list without the item at one address, written around that item. -/
lemma filter_addr {xs ys : List (Item δ)} {d : Item δ} (hn : ((xs++d::ys).map Item.addr).Nodup) :
    (xs++d::ys).filter (fun i => i.addr ≠ d.addr) = xs++ys := by
  rw [List.map_append,List.map_cons,List.nodup_middle,List.nodup_cons] at hn
  have hne : ∀ i ∈ xs++ys, i.addr ≠ d.addr := by
    intro i hi he
    exact hn.1 (by rw [← he,← List.map_append]; exact List.mem_map_of_mem hi)
  have hxs : xs.filter (fun i => i.addr ≠ d.addr) = xs :=
    List.filter_eq_self.mpr fun i hi => by simpa using hne i (by simp [hi])
  have hys : ys.filter (fun i => i.addr ≠ d.addr) = ys :=
    List.filter_eq_self.mpr fun i hi => by simpa using hne i (by simp [hi])
  rw [List.filter_append,List.filter_cons_of_neg (by simp),hxs,hys]

/-- The call removes exactly the node `d`: the in-order sequence loses `d` and nothing else, heights
and balance are those of a valid tree, and no node outside the tree is touched. -/
def RemovesExactly (s : Store δ) (t : HTree (Item δ)) (d : Item δ) : Prop :=
  ∃ s' t', avlRemove s d.addr = some s' ∧ Represents s' t' ∧
    t'.toList = t.toList.filter (fun i => i.addr ≠ d.addr) ∧ Valid t' ∧ SameOff (addrs t) s s'

/-- What surrounds the node found and lies below it is the tree without that node. -/
lemma Represents.filter_located {s : Store δ} {t : HTree (Item δ)} (h : Represents s t)
    {gs : List (Frame (Item δ))} {l r : HTree (Item δ)} {d : Item δ} {k : ℕ}
    (hl : locate Item.key d.key t [] = some (gs,node l d k r)) :
    before gs ++ (l.toList ++ r.toList) ++ after gs = t.toList.filter (fun i => i.addr ≠ d.addr) := by
  have hp := (locate_plug Item.key hl).1
  rw [plug_nil] at hp
  have hlist : t.toList = before gs ++ l.toList ++ d::(r.toList ++ after gs) := by
    rw [← hp,plug_toList]
    simp [List.append_assoc]
  have hn := h.nodup
  rw [addrs,hlist] at hn
  rw [hlist,filter_addr hn]
  simp [List.append_assoc]

/-- When the search by key stops at the node to delete, exactly this node is removed. -/
theorem IsAvl.remove {s : Store δ} {t : HTree (Item δ)} (h : IsAvl s t) {gs : List (Frame (Item δ))}
    {l r : HTree (Item δ)} {d : Item δ} {k : ℕ}
    (hl : locate Item.key d.key t [] = some (gs,node l d k r)) (hroom : removeSlots gs l ≤ maxHeight) :
    RemovesExactly s t d := by
  obtain ⟨s',h1,h2,h3⟩ := (avlRemove_refines_self h.rep hl).1 hroom
  have hp := (locate_plug Item.key hl).1
  rw [plug_nil] at hp
  refine ⟨s',_,h1,h2,?_,removeRoot_valid gs l d k r (by rw [hp]; exact h.valid),h3⟩
  rw [removeRoot_toList,h.rep.filter_located hl]

/-- What is left after an exact removal is again a valid tree in key order. -/
theorem RemovesExactly.isAvl {s : Store δ} {t : HTree (Item δ)} {d : Item δ} (h : RemovesExactly s t d)
    (ho : Ordered Item.key t.toList) :
    ∃ s' t', avlRemove s d.addr = some s' ∧ IsAvl s' t' ∧
      t'.toList = t.toList.filter (fun i => i.addr ≠ d.addr) ∧ SameOff (addrs t) s s' := by
  obtain ⟨s',t',h1,h2,h3,h4,h5⟩ := h
  refine ⟨s',t',h1,⟨h2,h4,?_⟩,h3,h5⟩
  rw [h3]
  exact List.Pairwise.filter _ ho

/-- A removal that does not overflow the stack. -/
theorem IsAvl.remove_of_some {s s' : Store δ} {t : HTree (Item δ)} (h : IsAvl s t) {gs : List (Frame (Item δ))}
    {l r : HTree (Item δ)} {d : Item δ} {k : ℕ} (hl : locate Item.key d.key t [] = some (gs,node l d k r))
    (hs : avlRemove s d.addr = some s') :
    ∃ t', IsAvl s' t' ∧ t'.toList = t.toList.filter (fun i => i.addr ≠ d.addr) := by
  by_cases hroom : removeSlots gs l ≤ maxHeight
  · obtain ⟨s₁,t',h1,h2,h3,_⟩ := (h.remove hl hroom).isAvl h.ordered
    rw [Option.some.inj (hs.symm.trans h1)]
    exact ⟨t',h2,h3⟩
  · have hnone : avlRemove s d.addr = none := (avlRemove_refines_self h.rep hl).2 (not_le.mp hroom)
    cases hs.symm.trans hnone

/-- A removal from a valid tree at most 41 high fits the stack. -/
theorem removeSlots_le {gs : List (Frame (Item δ))} {l r : HTree (Item δ)} {d : Item δ} {k : ℕ}
    (hv : Valid (plug gs (node l d k r))) (hh : (plug gs (node l d k r)).stored ≤ maxHeight) :
    removeSlots gs l ≤ maxHeight := by
  obtain ⟨hgs,⟨h1,h2,h3⟩,hl,_⟩ := (valid_plug _ _).mp hv
  have hlen := ValidPath.length_le gs _ hgs
  simp only [stored_node] at hlen
  cases l with
  | nil => simp only [removeSlots]; omega
  | node ll a m lr =>
    obtain ⟨pl,p,hp,he⟩ := lastRight_node (t := node ll a m lr) (by simp) []
    have hplug := lastRight_plug (node ll a m lr) []
    rw [plug_nil,he] at hplug
    rw [← hplug,valid_plug] at hl
    have hsp := ValidPath.length_le _ _ hl.1
    have hpos : 0 < hp := Valid.stored_pos hl.2
    rw [hplug] at hsp
    simp only [stored_node] at hsp h1 h2 h3
    simp only [removeSlots]
    omega

end JustKit.Avl
