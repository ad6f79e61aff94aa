import JustKit.Avl.Represents

/-! The rebalancing loop over memory computes `HTree.rebalance` on the represented tree. -/
namespace JustKit.Avl
open Foundations Foundations.HTree
variable {δ : Type}

/-- Outside the given addresses the two stores agree. -/
def SameOff (as : List Addr) (s s' : Store δ) : Prop := ∀ b ∉ as, s'.mem b = s.mem b

theorem heightOf_ptr {s : Store δ} {t : HTree (Item δ)} (h : Holds s.mem t) :
    s.heightOf (ptr t) = some t.stored := by
  cases t with
  | nil => rfl
  | node l a k r => simp [Store.heightOf,h.1]

section Replace
variable {s : Store δ} {fs : List (Frame (Item δ))} {t u : HTree (Item δ)} {m : Mem (Node δ)}

/-- A memory that differs from the store's only at the nodes of the subtree in the hole still
holds the path, and a tree with the same nodes fits the hole. -/
lemma path_of_changed (hs : Represents s (plug fs t)) (hm : ∀ b ∉ addrs t, m b = s.mem b)
    (hl : u.toList = t.toList) :
    s.root = top fs (ptr t) ∧ HoldsPath m fs (ptr t) ∧ (addrs (plug fs u)).Nodup := by
  obtain ⟨hpn,htn,hd⟩ := (nodup_plug fs t).mp hs.nodup
  have hau : addrs u = addrs t := congrArg (List.map Item.addr) hl
  refine ⟨hs.root.trans (ptr_plug fs t),?_,?_⟩
  · exact holdsPath_congr (fun b hb => hm b (hd b hb)) ((holds_plug fs t).mp hs.holds).1
  · rw [nodup_plug,hau]; exact ⟨hpn,htn,hd⟩

/-- Rebuild the subtree in the hole from its own nodes and hang the new root into the hole. -/
theorem replace_focus (hs : Represents s (plug fs t)) (hm : ∀ b ∉ addrs t, m b = s.mem b)
    (hu : Holds m u) (hl : u.toList = t.toList) :
    ∃ s', Store.save ⟨s.root,m⟩ (ptr u) (place fs) = some s' ∧ Represents s' (plug fs u) ∧
      SameOff (addrs (plug fs t)) s s' := by
  obtain ⟨hroot,hpath,hn⟩ := path_of_changed hs hm hl
  obtain ⟨s',h1,h2,h3⟩ := save_place (s := ⟨s.root,m⟩) hroot hpath hu hn
  refine ⟨s',h1,h2,fun b hb => ?_⟩
  have hb' := (addrs_plug_perm fs t).mem_iff.not.mp hb
  simp only [List.mem_append,not_or] at hb'
  exact (h3 b hb'.1).trans (hm b hb'.2)

/-- If the root of the subtree stays, the hole need not be written. -/
theorem replace_in_place (hs : Represents s (plug fs t)) (hm : ∀ b ∉ addrs t, m b = s.mem b)
    (hu : Holds m u) (hl : u.toList = t.toList) (hp : ptr u = ptr t) :
    Represents ⟨s.root,m⟩ (plug fs u) ∧ SameOff (addrs (plug fs t)) s ⟨s.root,m⟩ := by
  obtain ⟨hroot,hpath,hn⟩ := path_of_changed hs hm hl
  refine ⟨⟨?_,?_,hn⟩,fun b hb => hm b ?_⟩
  · rw [ptr_plug,hp]; exact hroot
  · rw [holds_plug,hp]; exact ⟨hpath,hu⟩
  · have hb' := (addrs_plug_perm fs t).mem_iff.not.mp hb
    simp only [List.mem_append,not_or] at hb'
    exact hb'.2

end Replace

section Rotations
variable {s : Store δ} {n k j : Node δ} {node child grand : Addr}

theorem rotateLeftChild_eq (hn : s.mem node = some n) (hk : s.mem child = some k) (hne : node ≠ child)
    (p : Place) (q : Option Addr) (hgt : ℕ) :
    rotateLeftChild s p node child q hgt =
      Store.save ⟨s.root,(s.mem.put node { n with left := q, height := 1+hgt }).put child
        { k with right := some node, height := 1+(1+hgt) }⟩ (some child) p := by
  unfold rotateLeftChild
  rw [Store.modify_eq hn]
  simp only [Option.bind_eq_bind,Option.bind_some]
  rw [Store.modify_eq (n := k) (by simp [hne.symm,hk])]
  simp only [Option.bind_some]
  rw [Store.modify_eq (n := { n with left := q }) (by simp [hne])]
  simp only [Option.bind_some,Mem.put_same]
  rw [Store.modify_eq (n := { k with right := some node }) (by simp [hne.symm])]
  simp only [Option.bind_some]
  rw [Mem.put_comm hne.symm,Mem.put_put,Mem.put_put]

theorem rotateRightChild_eq (hn : s.mem node = some n) (hk : s.mem child = some k) (hne : node ≠ child)
    (p : Place) (q : Option Addr) (hgt : ℕ) :
    rotateRightChild s p node child q hgt =
      Store.save ⟨s.root,(s.mem.put node { n with right := q, height := 1+hgt }).put child
        { k with left := some node, height := 1+(1+hgt) }⟩ (some child) p := by
  unfold rotateRightChild
  rw [Store.modify_eq hn]
  simp only [Option.bind_eq_bind,Option.bind_some]
  rw [Store.modify_eq (n := k) (by simp [hne.symm,hk])]
  simp only [Option.bind_some]
  rw [Store.modify_eq (n := { n with right := q }) (by simp [hne])]
  simp only [Option.bind_some,Mem.put_same]
  rw [Store.modify_eq (n := { k with left := some node }) (by simp [hne.symm])]
  simp only [Option.bind_some]
  rw [Mem.put_comm hne.symm,Mem.put_put,Mem.put_put]

theorem rotateLeftGrandchild_eq (hn : s.mem node = some n) (hk : s.mem child = some k)
    (hj : s.mem grand = some j) (hnk : node ≠ child) (hnj : node ≠ grand) (hkj : child ≠ grand)
    (p : Place) (hl hlr : ℕ) :
    rotateLeftGrandchild s p node child grand hl hlr =
      Store.save ⟨s.root,((s.mem.put child { k with right := j.left, height := hlr }).put node
        { n with left := j.right, height := hlr }).put grand
        { j with left := some child, right := some node, height := hl }⟩ (some grand) p := by
  unfold rotateLeftGrandchild
  simp only [hj,Option.bind_eq_bind,Option.bind_some]
  rw [Store.modify_eq hk]
  simp only [Option.bind_some]
  rw [Store.modify_eq (n := n) (by simp [hnk,hn])]
  simp only [Option.bind_some]
  rw [Store.modify_eq (n := j) (by simp [hnj.symm,hkj.symm,hj])]
  simp only [Option.bind_some]
  rw [Store.modify_eq (n := { j with left := some child }) (by simp)]
  simp only [Option.bind_some,Mem.put_put]
  rw [Store.modify_eq (n := { n with left := j.right }) (by simp [hnj])]
  simp only [Option.bind_some]
  rw [Store.modify_eq (n := { k with right := j.left }) (by simp [hnk.symm,hkj])]
  simp only [Option.bind_some]
  rw [Store.modify_eq (n := { j with left := some child, right := some node })
    (by simp [hnj.symm,hkj.symm])]
  simp only [Option.bind_some]
  rw [Mem.put_comm hnj.symm,Mem.put_put,Mem.put_comm hkj.symm,Mem.put_put,Mem.put_comm hnk,Mem.put_put]

theorem rotateRightGrandchild_eq (hn : s.mem node = some n) (hk : s.mem child = some k)
    (hj : s.mem grand = some j) (hnk : node ≠ child) (hnj : node ≠ grand) (hkj : child ≠ grand)
    (p : Place) (hr hrl : ℕ) :
    rotateRightGrandchild s p node child grand hr hrl =
      Store.save ⟨s.root,((s.mem.put child { k with left := j.right, height := hrl }).put node
        { n with right := j.left, height := hrl }).put grand
        { j with left := some node, right := some child, height := hr }⟩ (some grand) p := by
  unfold rotateRightGrandchild
  simp only [hj,Option.bind_eq_bind,Option.bind_some]
  rw [Store.modify_eq hk]
  simp only [Option.bind_some]
  rw [Store.modify_eq (n := n) (by simp [hnk,hn])]
  simp only [Option.bind_some]
  rw [Store.modify_eq (n := j) (by simp [hnj.symm,hkj.symm,hj])]
  simp only [Option.bind_some]
  rw [Store.modify_eq (n := { j with right := some child }) (by simp)]
  simp only [Option.bind_some,Mem.put_put]
  rw [Store.modify_eq (n := { n with right := j.left }) (by simp [hnj])]
  simp only [Option.bind_some]
  rw [Store.modify_eq (n := { k with left := j.right }) (by simp [hnk.symm,hkj])]
  simp only [Option.bind_some]
  rw [Store.modify_eq (n := { j with left := some node, right := some child })
    (by simp [hnj.symm,hkj.symm])]
  simp only [Option.bind_some]
  rw [Mem.put_comm hnj.symm,Mem.put_put,Mem.put_comm hkj.symm,Mem.put_put,Mem.put_comm hnk,Mem.put_put]

end Rotations

/-- A pass at a cell with a node whose subtrees have known heights. -/
theorem rebalancePass_eq {s : Store δ} {p : Place} {a : Addr} {n : Node δ} {hl hr : ℕ}
    (hload : s.load p = some (some a)) (ha : s.mem a = some n) (hhl : s.heightOf n.left = some hl)
    (hhr : s.heightOf n.right = some hr) :
    rebalancePass s p =
      if hr+1 < hl then n.left.bind fun b => (s.mem b).bind fun k =>
        (s.heightOf k.right).bind fun hlr => (s.heightOf k.left).bind fun hll =>
          if hlr ≤ hll then (rotateLeftChild s p a b k.right hlr).map (·,false)
          else k.right.bind fun c => (rotateLeftGrandchild s p a b c hl hlr).map (·,false)
      else if hl+1 < hr then n.right.bind fun b => (s.mem b).bind fun k =>
        (s.heightOf k.left).bind fun hrl => (s.heightOf k.right).bind fun hrr =>
          if hrl ≤ hrr then (rotateRightChild s p a b k.left hrl).map (·,false)
          else k.left.bind fun c => (rotateRightGrandchild s p a b c hr hrl).map (·,false)
      else if (if hl < hr then hr else hl)+1 = n.height then some (s,true)
      else (s.modify a fun n => { n with height := (if hl < hr then hr else hl)+1 }).map (·,false) := by
  unfold rebalancePass
  rw [hload]
  dsimp only [Option.bind_eq_bind,Option.bind_some]
  rw [ha,Option.bind_some,hhl,Option.bind_some,hhr,Option.bind_some]
  simp only [Option.map_eq_bind]
  rfl

section Pass
variable {s : Store δ} {fs : List (Frame (Item δ))} {l r : HTree (Item δ)} {a : Item δ} {h : ℕ}

/-- What the loop reads first, at a cell from which a node hangs. -/
lemma holds_focus (hs : Represents s (plug fs (node l a h r))) :
    s.load (place fs) = some (some a.addr) ∧ s.mem a.addr = some ⟨a.key,a.data,h,ptr l,ptr r⟩ ∧
      Holds s.mem l ∧ Holds s.mem r ∧ (addrs (node l a h r)).Nodup := by
  obtain ⟨hpath,ha,hl,hr⟩ := (holds_plug fs _).mp hs.holds
  exact ⟨load_place (hs.root.trans (ptr_plug fs _)) hpath,ha,hl,hr,((nodup_plug fs _).mp hs.nodup).2.1⟩

/-- A pass that writes the nodes of the subtree anew and then the cell from which it hangs. -/
lemma pass_of_save {t u : HTree (Item δ)} {m : Mem (Node δ)} (hs : Represents s (plug fs t))
    (hpass : rebalancePass s (place fs) = (Store.save ⟨s.root,m⟩ (ptr u) (place fs)).map (·,false))
    (hm : ∀ b ∉ addrs t, m b = s.mem b) (hu : Holds m u) (hl : u.toList = t.toList) :
    ∃ s', rebalancePass s (place fs) = some (s',false) ∧ Represents s' (plug fs u) ∧
      SameOff (addrs (plug fs t)) s s' := by
  obtain ⟨s',hsave,hrep,hoff⟩ := replace_focus hs hm hu hl
  refine ⟨s',?_,hrep,hoff⟩
  rw [hpass,hsave]
  rfl

theorem rebalancePass_right (hs : Represents s (plug fs (node l a h r))) (hd : r.stored+1 < l.stored) :
    ∃ s', rebalancePass s (place fs) = some (s',false) ∧ Represents s' (plug fs (rotateRight l a h r)) ∧
      SameOff (addrs (plug fs (node l a h r))) s s' := by
  obtain ⟨hload,ha,hl,hr,hn⟩ := holds_focus hs
  have hhl := heightOf_ptr hl
  have hhr := heightOf_ptr hr
  obtain ⟨ll,b,k,lr,rfl⟩ := eq_nil_of_stored_pos (t := l) (by omega)
  obtain ⟨hb,hll,hlr⟩ := hl
  obtain ⟨hal,har,hnl,_,hdis⟩ := nodup_node.mp hn
  obtain ⟨hbl,hbr,_,_,_⟩ := nodup_node.mp hnl
  simp only [addrs_node,List.mem_append,List.mem_cons,not_or] at hal
  obtain ⟨hall,hab,halr⟩ := hal
  have hb_r : b.addr ∉ addrs r := fun hm => hdis (by simp) hm
  simp only [ptr_node,stored_node] at hhl ha hd
  have hpass : rebalancePass s (place fs) =
      if lr.stored ≤ ll.stored then
        (rotateLeftChild s (place fs) a.addr b.addr (ptr lr) lr.stored).map (·,false)
      else
        (ptr lr).bind fun g => (rotateLeftGrandchild s (place fs) a.addr b.addr g k lr.stored).map (·,false) := by
    rw [rebalancePass_eq hload ha hhl hhr,if_pos hd]
    simp only [hb,heightOf_ptr hll,heightOf_ptr hlr,Option.bind_some]
  by_cases hc : lr.stored ≤ ll.stored
  · rw [if_pos hc,rotateLeftChild_eq ha hb hab] at hpass
    have h := pass_of_save hs (u := node ll b (1+(1+lr.stored)) (node lr a (1+lr.stored) r)) hpass
      (by
        intro c hc'
        simp only [addrs_node,List.mem_append,List.mem_cons,not_or] at hc'
        rw [Mem.put_of_ne hc'.1.2.1,Mem.put_of_ne hc'.2.1])
      ⟨Mem.put_same _ _ _,holds_put hbl _ (holds_put hall _ hll),
        (Mem.put_of_ne hab _ _).trans (Mem.put_same _ _ _),
        holds_put hbr _ (holds_put halr _ hlr),holds_put hb_r _ (holds_put har _ hr)⟩
      (by simp)
    simpa only [rotateRight,hc,ite_true] using h
  · obtain ⟨lrl,c,j,lrr,rfl⟩ := eq_nil_of_stored_pos (t := lr) (by omega)
    obtain ⟨hcm,hlrl,hlrr⟩ := hlr
    obtain ⟨_,_,_,hnlr,hdis'⟩ := nodup_node.mp hnl
    obtain ⟨hcl,hcr,_,_,_⟩ := nodup_node.mp hnlr
    simp only [addrs_node,List.mem_append,List.mem_cons,not_or] at halr hbr
    obtain ⟨halrl,hac,halrr⟩ := halr
    obtain ⟨hblrl,hbc,hblrr⟩ := hbr
    have hc_ll : c.addr ∉ addrs ll := fun hm => hdis' hm (by simp)
    have hc_r : c.addr ∉ addrs r := fun hm => hdis (by simp) hm
    rw [if_neg hc] at hpass
    simp only [ptr_node,stored_node,Option.bind_some] at hpass hb hc
    rw [rotateLeftGrandchild_eq ha hb hcm hab hac hbc] at hpass
    have h := pass_of_save hs (u := node (node ll b j lrl) c k (node lrr a j r)) hpass
      (by
        intro d hd'
        simp only [addrs_node,List.mem_append,List.mem_cons,not_or] at hd'
        rw [Mem.put_of_ne hd'.1.2.2.2.1,Mem.put_of_ne hd'.2.1,Mem.put_of_ne hd'.1.2.1])
      ⟨Mem.put_same _ _ _,
        ⟨(Mem.put_of_ne hbc _ _).trans ((Mem.put_of_ne (Ne.symm hab) _ _).trans (Mem.put_same _ _ _)),
          holds_put hc_ll _ (holds_put hall _ (holds_put hbl _ hll)),
          holds_put hcl _ (holds_put halrl _ (holds_put hblrl _ hlrl))⟩,
        (Mem.put_of_ne hac _ _).trans (Mem.put_same _ _ _),
        holds_put hcr _ (holds_put halrr _ (holds_put hblrr _ hlrr)),
        holds_put hc_r _ (holds_put har _ (holds_put hb_r _ hr))⟩
      (by simp)
    simpa only [rotateRight,hc,ite_false,stored_node] using h

theorem rebalancePass_left (hs : Represents s (plug fs (node l a h r))) (hd : l.stored+1 < r.stored) :
    ∃ s', rebalancePass s (place fs) = some (s',false) ∧ Represents s' (plug fs (rotateLeft l a h r)) ∧
      SameOff (addrs (plug fs (node l a h r))) s s' := by
  obtain ⟨hload,ha,hl,hr,hn⟩ := holds_focus hs
  have hhl := heightOf_ptr hl
  have hhr := heightOf_ptr hr
  obtain ⟨rl,b,k,rr,rfl⟩ := eq_nil_of_stored_pos (t := r) (by omega)
  obtain ⟨hb,hrl,hrr⟩ := hr
  obtain ⟨hal,har,_,hnr,hdis⟩ := nodup_node.mp hn
  obtain ⟨hbl,hbr,_,_,_⟩ := nodup_node.mp hnr
  simp only [addrs_node,List.mem_append,List.mem_cons,not_or] at har
  obtain ⟨harl,hab,harr⟩ := har
  have hb_l : b.addr ∉ addrs l := fun hm => hdis hm (by simp)
  simp only [ptr_node,stored_node] at hhr ha hd
  have hnot : ¬ k+1 < l.stored := by omega
  have hpass : rebalancePass s (place fs) =
      if rl.stored ≤ rr.stored then
        (rotateRightChild s (place fs) a.addr b.addr (ptr rl) rl.stored).map (·,false)
      else
        (ptr rl).bind fun g => (rotateRightGrandchild s (place fs) a.addr b.addr g k rl.stored).map (·,false) := by
    rw [rebalancePass_eq hload ha hhl hhr,if_neg hnot,if_pos hd]
    simp only [hb,heightOf_ptr hrl,heightOf_ptr hrr,Option.bind_some]
  by_cases hc : rl.stored ≤ rr.stored
  · rw [if_pos hc,rotateRightChild_eq ha hb hab] at hpass
    have h := pass_of_save hs (u := node (node l a (1+rl.stored) rl) b (1+(1+rl.stored)) rr) hpass
      (by
        intro c hc'
        simp only [addrs_node,List.mem_append,List.mem_cons,not_or] at hc'
        rw [Mem.put_of_ne hc'.2.2.2.1,Mem.put_of_ne hc'.2.1])
      ⟨Mem.put_same _ _ _,⟨(Mem.put_of_ne hab _ _).trans (Mem.put_same _ _ _),
        holds_put hb_l _ (holds_put hal _ hl),holds_put hbl _ (holds_put harl _ hrl)⟩,
        holds_put hbr _ (holds_put harr _ hrr)⟩
      (by simp)
    simpa only [rotateLeft,hc,ite_true] using h
  · obtain ⟨rll,c,j,rlr,rfl⟩ := eq_nil_of_stored_pos (t := rl) (by omega)
    obtain ⟨hcm,hrll,hrlr⟩ := hrl
    obtain ⟨_,_,hnrl,_,hdis'⟩ := nodup_node.mp hnr
    obtain ⟨hcl,hcr,_,_,_⟩ := nodup_node.mp hnrl
    simp only [addrs_node,List.mem_append,List.mem_cons,not_or] at harl hbl
    obtain ⟨harll,hac,harlr⟩ := harl
    obtain ⟨hbrll,hbc,hbrlr⟩ := hbl
    have hc_rr : c.addr ∉ addrs rr := fun hm => hdis' (by simp) hm
    have hc_l : c.addr ∉ addrs l := fun hm => hdis hm (by simp)
    rw [if_neg hc] at hpass
    simp only [ptr_node,stored_node,Option.bind_some] at hpass hb hc
    rw [rotateRightGrandchild_eq ha hb hcm hab hac hbc] at hpass
    have h := pass_of_save hs (u := node (node l a j rll) c k (node rlr b j rr)) hpass
      (by
        intro d hd'
        simp only [addrs_node,List.mem_append,List.mem_cons,not_or] at hd'
        rw [Mem.put_of_ne hd'.2.2.1.2.1,Mem.put_of_ne hd'.2.1,Mem.put_of_ne hd'.2.2.2.1])
      ⟨Mem.put_same _ _ _,
        ⟨(Mem.put_of_ne hac _ _).trans (Mem.put_same _ _ _),
          holds_put hc_l _ (holds_put hal _ (holds_put hb_l _ hl)),
          holds_put hcl _ (holds_put harll _ (holds_put hbrll _ hrll))⟩,
        (Mem.put_of_ne hbc _ _).trans ((Mem.put_of_ne (Ne.symm hab) _ _).trans (Mem.put_same _ _ _)),
        holds_put hcr _ (holds_put harlr _ (holds_put hbrlr _ hrlr)),
        holds_put hc_rr _ (holds_put harr _ (holds_put hbr _ hrr))⟩
      (by simp)
    simpa only [rotateLeft,hc,ite_false,stored_node] using h

/-- A pass at a node leaves it alone and stops, or repairs it as `HTree.fix` does and goes on. -/
theorem rebalancePass_refines (hs : Represents s (plug fs (node l a h r))) :
    ∃ s', rebalancePass s (place fs) = some (s',decide (Settled l h r)) ∧
      Represents s' (plug fs (if Settled l h r then node l a h r else fix l a h r)) ∧
      SameOff (addrs (plug fs (node l a h r))) s s' := by
  by_cases hr : r.stored+1 < l.stored
  · have hns : ¬ Settled l h r := fun hc => by have := hc.1; omega
    have h := rebalancePass_right hs hr
    simpa only [hns,decide_false,ite_false,fix,hr,ite_true] using h
  by_cases hl : l.stored+1 < r.stored
  · have hns : ¬ Settled l h r := fun hc => by have := hc.2.1; omega
    have h := rebalancePass_left hs hl
    simpa only [hns,decide_false,ite_false,fix,hr,hl,ite_true] using h
  obtain ⟨hload,ha,hhl,hhr,hn⟩ := holds_focus hs
  have hmax : (if l.stored < r.stored then r.stored else l.stored)+1 = max l.stored r.stored+1 := by
    split_ifs <;> omega
  by_cases hh : max l.stored r.stored+1 = h
  · have hst : Settled l h r := ⟨by omega,by omega,hh⟩
    refine ⟨s,?_,by simpa only [hst,ite_true] using hs,fun _ _ => rfl⟩
    rw [rebalancePass_eq hload ha (heightOf_ptr hhl) (heightOf_ptr hhr),if_neg hr,if_neg hl,hmax,if_pos hh]
    simp [hst]
  · have hns : ¬ Settled l h r := fun hc => hh hc.2.2
    obtain ⟨hal,har,_,_,_⟩ := nodup_node.mp hn
    obtain ⟨h1,h2⟩ := replace_in_place hs
      (m := s.mem.put a.addr ⟨a.key,a.data,max l.stored r.stored+1,ptr l,ptr r⟩)
      (u := node l a (max l.stored r.stored+1) r)
      (by
        intro c hc
        simp only [addrs_node,List.mem_append,List.mem_cons,not_or] at hc
        rw [Mem.put_of_ne hc.2.1])
      ⟨Mem.put_same _ _ _,holds_put hal _ hhl,holds_put har _ hhr⟩ rfl rfl
    refine ⟨_,?_,?_,h2⟩
    · rw [rebalancePass_eq hload ha (heightOf_ptr hhl) (heightOf_ptr hhr),if_neg hr,if_neg hl,hmax,if_neg hh,
        Store.modify_eq ha]
      simp only [hns,decide_false]
      rfl
    · simpa only [hns,ite_false,fix,hr,hl] using h1

end Pass

/-- `jk_avl_rebalance` computes `HTree.rebalance`, early exit included. -/
theorem avlRebalance_refines {s : Store δ} {fs : List (Frame (Item δ))} {t : HTree (Item δ)}
    (hs : Represents s (plug fs t)) :
    ∃ s', avlRebalance s (stack fs) = some s' ∧ Represents s' (HTree.rebalance fs t) ∧
      SameOff (addrs (plug fs t)) s s' := by
  induction fs generalizing s t with
  | nil => exact ⟨s,rfl,hs,fun _ _ => rfl⟩
  | cons f fs ih =>
    cases ht : f.fill t with
    | nil => cases f <;> simp [Frame.fill] at ht
    | node l a h r =>
      rw [plug_cons,ht] at hs ⊢
      obtain ⟨s₁,h1,h2,h3⟩ := rebalancePass_refines hs
      by_cases hst : Settled l h r
      · simp only [hst,decide_true,ite_true] at h1 h2
        refine ⟨s₁,?_,?_,h3⟩
        · simp [stack,avlRebalance,h1]
        · simpa [HTree.rebalance,ht,hst] using h2
      · simp only [hst,decide_false,ite_false] at h1 h2
        obtain ⟨s₂,g1,g2,g3⟩ := ih h2
        refine ⟨s₂,?_,?_,fun b hb => ?_⟩
        · simp [stack,avlRebalance,h1,g1]
        · simpa [HTree.rebalance,ht,hst] using g2
        · refine (g3 b ?_).trans (h3 b hb)
          have he : addrs (plug fs (fix l a h r)) = addrs (plug fs (node l a h r)) := by
            simp [addrs,plug_toList,fix_toList]
          rwa [he]

end JustKit.Avl
