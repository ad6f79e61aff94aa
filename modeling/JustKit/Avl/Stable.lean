import JustKit.Avl.EqualKeys
import JustKit.Avl.Frame

/-! Insertions with any keys. Equal keys keep the order in which they were inserted, although rotations
move them to either side of each other. -/
namespace JustKit.Avl
open Foundations Foundations.HTree
variable {δ : Type}

/-- `jk_avl_find_max` returns the last node of the in-order sequence, within as many passes as the
tree has nodes. -/
theorem avlFindMax_eq {s : Store δ} {t : HTree (Item δ)} (ht : Holds s.mem t) {fuel : ℕ}
    (hf : t.toList.length ≤ fuel) :
    avlFindMax s fuel (ptr t) = some (t.toList.getLast?.map Item.addr) := by
  induction t generalizing fuel with
  | nil => cases fuel <;> rfl
  | node l a h r _ hr =>
    obtain ⟨ha,_,hmr⟩ := ht
    simp only [toList_node,List.length_append,List.length_cons] at hf
    cases fuel with
    | zero => omega
    | succ fuel =>
      simp only [ptr_node,avlFindMax,ha,Option.bind_eq_bind,Option.bind_some]
      cases r with
      | nil => simp
      | node l' b k r' =>
        rw [if_neg (by simp),hr hmr (by omega),toList_node l]
        have hne : (node l' b k r').toList ≠ [] := by simp
        rw [List.getLast?_append_of_ne_nil _ (List.cons_ne_nil _ _),List.getLast?_cons_of_ne_nil hne]

/-- What the three searches return in a store that holds the nodes `items`, listed in the order of their
insertion. -/
structure LooksUp (s : Store δ) (items : List (Item δ)) (fuel : ℕ) : Prop where
  min : ∃ p, avlFindMin s fuel s.root = some p ∧ (p = none ↔ items = []) ∧
    ∀ a, p = some a → ∃ i, i.addr = a ∧ IsFirstMin Item.key items i
  max : ∃ p, avlFindMax s fuel s.root = some p ∧ (p = none ↔ items = []) ∧
    ∀ a, p = some a → ∃ i, i.addr = a ∧ IsLastMax Item.key items i
  node : ∀ k, ∃ p, avlFindNode s k fuel s.root = some p ∧ (p = none ↔ ∀ i ∈ items, i.key ≠ k) ∧
    ∀ a, p = some a → ∃ i ∈ items, i.addr = a ∧ i.key = k

section Sorted
variable {s : Store δ} {t : HTree (Item δ)} {items : List (Item δ)} (ht : IsAvl s t)
  (hs : IsStableSort Item.key items t.toList) {fuel : ℕ} (hf : items.length ≤ fuel)
include ht hs hf

lemma findMin_stable : ∃ p, avlFindMin s fuel s.root = some p ∧ (p = none ↔ items = []) ∧
    ∀ a, p = some a → ∃ i, i.addr = a ∧ IsFirstMin Item.key items i := by
  have hlen : t.toList.length ≤ fuel := by rw [hs.perm.length_eq]; exact hf
  refine ⟨_,by rw [ht.rep.root,avlFindMin_eq ht.rep.holds hlen],?_,fun a ha => ?_⟩
  · rw [Option.map_eq_none_iff,List.head?_eq_none_iff]
    exact ⟨fun h => List.perm_nil.mp (h ▸ hs.perm.symm),fun h => List.perm_nil.mp (h ▸ hs.perm)⟩
  · obtain ⟨i,hi,rfl⟩ := Option.map_eq_some_iff.mp ha
    obtain ⟨rest,hrest⟩ := List.head?_eq_some_iff.mp hi
    rw [hrest] at hs
    exact ⟨i,rfl,hs.head_isFirstMin⟩

lemma findMax_stable : ∃ p, avlFindMax s fuel s.root = some p ∧ (p = none ↔ items = []) ∧
    ∀ a, p = some a → ∃ i, i.addr = a ∧ IsLastMax Item.key items i := by
  have hlen : t.toList.length ≤ fuel := by rw [hs.perm.length_eq]; exact hf
  refine ⟨_,by rw [ht.rep.root,avlFindMax_eq ht.rep.holds hlen],?_,fun a ha => ?_⟩
  · rw [Option.map_eq_none_iff,List.getLast?_eq_none_iff]
    exact ⟨fun h => List.perm_nil.mp (h ▸ hs.perm.symm),fun h => List.perm_nil.mp (h ▸ hs.perm)⟩
  · obtain ⟨i,hi,rfl⟩ := Option.map_eq_some_iff.mp ha
    obtain ⟨rest,hrest⟩ := List.getLast?_eq_some_iff.mp hi
    rw [hrest] at hs
    exact ⟨i,rfl,hs.getLast_isLastMax⟩

lemma findNode_stable (k : UInt64) : ∃ p, avlFindNode s k fuel s.root = some p ∧
    (p = none ↔ ∀ i ∈ items, i.key ≠ k) ∧ ∀ a, p = some a → ∃ i ∈ items, i.addr = a ∧
    i.key = k := by
  have hlen : t.toList.length ≤ fuel := by rw [hs.perm.length_eq]; exact hf
  obtain ⟨p,hp⟩ := Option.isSome_iff_exists.mp (avlFindNode_total k ht.rep.holds hlen)
  refine ⟨p,by rw [ht.rep.root,hp],?_⟩
  have he := avlFindNode_sound [] ht.rep.holds hp
  cases hl : locate Item.key k t [] with
  | none =>
    rw [hl] at he
    have hnone : p = none := he
    refine ⟨⟨fun _ i hi hk => ?_,fun _ => hnone⟩,fun a ha => ?_⟩
    · have hsome := locate_isSome Item.key [] ht.ordered ((hs.mem_iff i).mpr hi) hk
      rw [hl] at hsome
      cases hsome
    · rw [hnone] at ha
      cases ha
  | some q =>
    obtain ⟨gs,u⟩ := q
    obtain ⟨hplug,l,i,h,r,rfl,hk⟩ := locate_plug Item.key hl
    rw [hl] at he
    have hsome : p = some i.addr := he
    have hmem : i ∈ items := by
      rw [← hs.mem_iff,← plug_nil t,← hplug,plug_toList]
      simp
    refine ⟨⟨fun hn => ?_,fun hno => absurd hk (hno i hmem)⟩,fun a ha => ⟨i,hmem,?_,hk⟩⟩
    · rw [hsome] at hn
      cases hn
    · rw [hsome] at ha
      exact Option.some.inj ha

theorem looksUp_of_isStableSort : LooksUp s items fuel :=
  ⟨findMin_stable ht hs hf,findMax_stable ht hs hf,findNode_stable ht hs hf⟩

end Sorted

/-- One insertion below the node limit continues the stable sort. -/
theorem IsAvl.insert_stable {s : Store δ} {t : HTree (Item δ)} {items : List (Item δ)} (ht : IsAvl s t)
    (hs : IsStableSort Item.key items t.toList) (hlen : items.length < nodeLimit) {a : Addr}
    (ha : a ∉ items.map Item.addr) (n : Node δ) :
    ∃ s' t', (Op.insert a n).exec s = some s' ∧ IsAvl s' t' ∧
      IsStableSort Item.key (items++[⟨a,n.key,n.data⟩]) t'.toList := by
  have ha' : a ∉ addrs t := by
    rw [addrs,(hs.perm.map Item.addr).mem_iff]
    exact ha
  have hheight : t.stored ≤ maxHeight := stored_le_maxHeight ht.valid (by rw [hs.perm.length_eq]; exact hlen)
  obtain ⟨s',h1,h2,_⟩ := (ht.put ha' n).insert ha' (Mem.put_same _ _ _)
    ((descend_length_le _ _ _ ht.valid).trans hheight)
  exact ⟨s',_,h1,h2,insertNode_isStableSort Item.key _ t hs⟩

theorem insertAll_stable {s : Store δ} {t : HTree (Item δ)} {items : List (Item δ)}
    {nodes : List (Addr × Node δ)} (ht : IsAvl s t) (hs : IsStableSort Item.key items t.toList)
    (hnew : (items.map Item.addr++nodes.map Prod.fst).Nodup) (hlen : items.length+nodes.length ≤ nodeLimit) :
    ∃ s' t', run s (insertAll nodes) = some s' ∧ IsAvl s' t' ∧
      IsStableSort Item.key (items++itemsOf nodes) t'.toList := by
  induction nodes generalizing s t items with
  | nil => exact ⟨s,t,rfl,ht,by simpa [itemsOf] using hs⟩
  | cons p nodes ih =>
    obtain ⟨a,n⟩ := p
    simp only [List.length_cons] at hlen
    have ha : a ∉ items.map Item.addr := by
      rw [List.map_cons,List.nodup_middle,List.nodup_cons,List.mem_append,not_or] at hnew
      exact hnew.1.1
    obtain ⟨s₁,t₁,h1,h2,h3⟩ := ht.insert_stable hs (by omega) ha n
    have hnew₁ : ((items++[(⟨a,n.key,n.data⟩ : Item δ)]).map Item.addr++nodes.map Prod.fst).Nodup := by
      simpa [List.append_assoc] using hnew
    obtain ⟨s₂,t₂,g1,g2,g3⟩ :=
      ih h2 h3 hnew₁ (by simp only [List.length_append,List.length_singleton]; omega)
    refine ⟨s₂,t₂,?_,g2,?_⟩
    · change ((Op.insert a n).exec s).bind (fun s => run s (insertAll nodes)) = some s₂
      rw [h1]
      exact g1
    · simpa [itemsOf,List.append_assoc] using g3

/-- Fewer insertions than the node limit, with any keys, build a valid AVL tree whose in-order sequence
is the stable sort of the nodes by key, and the searches find what this sequence says. -/
theorem insertions_stable (m : Mem (Node δ)) (nodes : List (Addr × Node δ)) (hnew : (nodes.map Prod.fst).Nodup)
    (hlen : nodes.length < nodeLimit) :
    ∃ s t, run ⟨none,m⟩ (insertAll nodes) = some s ∧ Represents s t ∧ Valid t ∧
      t.toList = (itemsOf nodes).mergeSort (fun a b => a.key ≤ b.key) ∧
      ∀ fuel, nodes.length ≤ fuel → LooksUp s (itemsOf nodes) fuel := by
  have hempty : IsAvl (⟨none,m⟩ : Store δ) nil := ⟨⟨rfl,trivial,by simp⟩,valid_nil,List.Pairwise.nil⟩
  have hnew' : (([] : List (Item δ)).map Item.addr++nodes.map Prod.fst).Nodup := hnew
  obtain ⟨s,t,h1,h2,h3⟩ := insertAll_stable hempty isStableSort_nil hnew' (by simpa using hlen.le)
  rw [List.nil_append] at h3
  refine ⟨s,t,h1,h2.rep,h2.valid,h3.eq_mergeSort,fun fuel hf => looksUp_of_isStableSort h2 h3 ?_⟩
  rw [itemsOf,List.length_map]
  exact hf

/-- The three nodes with one key come out in the order of their insertion. -/
theorem insertions_stable_triplet :
    ∃ s t, run ⟨none,fun _ => none⟩ (insertAll triplet) = some s ∧ Represents s t ∧ Valid t ∧
      t.toList = (itemsOf triplet).mergeSort (fun a b => a.key ≤ b.key) ∧
      ∀ fuel, triplet.length ≤ fuel → LooksUp s (itemsOf triplet) fuel :=
  insertions_stable (fun _ => none) triplet (by decide) (by decide)

end JustKit.Avl
