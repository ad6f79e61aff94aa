import JustKit.Avl.Runs

/-! The path stacks of `jk_avl_insert` and `jk_avl_remove` suffice below the node limit, and no
height written on the way exceeds a `short`. The tree may have been larger before. -/
namespace JustKit.Avl
open Foundations Foundations.HTree
variable {δ : Type}

/-- The largest value of a `short`, the type of the stored heights. -/
def shortMax : ℕ := 2^15-1

/-- The stores of a run of `jk_avl_rebalance`: the one it starts from and one after each pass. -/
def rebalanceStates (s : Store δ) : List Place → List (Store δ)
  | [] => [s]
  | nodeplace::stack =>
    s::match rebalancePass s nodeplace with
      | none => []
      | some (s',stop) => if stop then [s'] else rebalanceStates s' stack

/-- A call up to its `jk_avl_rebalance`. -/
def Op.prepare (s : Store δ) : Op δ → Option (Store δ × List Place)
  | .insert a n => insertPrepare (s.put a n) a
  | .remove a => removePrepare s a

/-- The stores a call goes through from the moment its node is linked or unlinked. Every height that
the call writes stands in one of them. -/
def Op.states (s : Store δ) (op : Op δ) : List (Store δ) :=
  match op.prepare s with
  | none => []
  | some r => rebalanceStates r.1 r.2

lemma Op.exec_eq (s : Store δ) (op : Op δ) :
    op.exec s = (op.prepare s).bind fun r => avlRebalance r.1 r.2 := by
  cases op with
  | insert a n => exact avlInsert_eq _ a
  | remove a => exact avlRemove_eq s a

lemma mem_rebalanceStates {s s' : Store δ} {stack : List Place} (h : avlRebalance s stack = some s') :
    s' ∈ rebalanceStates s stack := by
  induction stack generalizing s with
  | nil =>
    rw [avlRebalance] at h
    cases h
    simp [rebalanceStates]
  | cons nodeplace stack ih =>
    rw [avlRebalance,Option.bind_eq_bind] at h
    obtain ⟨⟨s₁,stop⟩,h1,h2⟩ := Option.bind_eq_some_iff.mp h
    simp only [rebalanceStates,h1,List.mem_cons]
    right
    cases stop with
    | false => exact ih h2
    | true => cases h2; simp

/-- The last of the states is the result. -/
theorem Op.exec_mem_states {s s' : Store δ} {op : Op δ} (h : op.exec s = some s') : s' ∈ op.states s := by
  rw [Op.exec_eq] at h
  obtain ⟨r,h1,h2⟩ := Option.bind_eq_some_iff.mp h
  rw [Op.states,h1]
  exact mem_rebalanceStates h2

/-- The heights stored for the nodes `p` fit the type of the field. -/
def HeightsFit (s : Store δ) (p : List (Item δ)) : Prop :=
  ∀ i ∈ p, ∃ n, s.mem i.addr = some n ∧ n.height ≤ shortMax

lemma heightsFit_of_below {s : Store δ} {t : HTree (Item δ)} {B : ℕ} (hs : Holds s.mem t) (hB : Below B t)
    (hle : B ≤ shortMax) : HeightsFit s t.toList := by
  induction t with
  | nil => intro i hi; simp at hi
  | node l a h r hl hr =>
    obtain ⟨ha,hml,hmr⟩ := hs
    obtain ⟨h1,h2,h3⟩ := hB
    intro i hi
    simp only [toList_node,List.mem_append,List.mem_cons] at hi
    rcases hi with hi | rfl | hi
    · exact hl hml h2 i hi
    · exact ⟨_,ha,h1.trans hle⟩
    · exact hr hmr h3 i hi

lemma HeightsFit.perm {s : Store δ} {p q : List (Item δ)} (h : HeightsFit s p) (hp : p.Perm q) : HeightsFit s q :=
  fun i hi => h i (hp.mem_iff.mpr hi)

/-- No pass of `jk_avl_rebalance` changes the nodes or stores a height more than one above the height
of the tree before the call. -/
theorem rebalanceStates_fit {s : Store δ} {fs : List (Frame (Item δ))} {t : HTree (Item δ)} {B : ℕ}
    (hs : Represents s (plug fs t)) (ho : OffByOne B fs t) (hle : B+1 ≤ shortMax) :
    ∀ s' ∈ rebalanceStates s (stack fs), HeightsFit s' (plug fs t).toList := by
  have hfirst : HeightsFit s (plug fs t).toList := heightsFit_of_below hs.holds ho.plug_below hle
  induction fs generalizing s t with
  | nil =>
    intro s' hs'
    simp only [stack,rebalanceStates,List.mem_singleton] at hs'
    rw [hs']
    exact hfirst
  | cons f fs ih =>
    intro s' hs'
    cases ht : f.fill t with
    | nil => cases f <;> simp [Frame.fill] at ht
    | node l a h r =>
      have hnext := ho.visit ht
      rw [plug_cons,ht] at hs hfirst ⊢
      obtain ⟨s₁,h1,h2,_⟩ := rebalancePass_refines hs
      simp only [stack,rebalanceStates,h1,List.mem_cons] at hs'
      have hlist : (plug fs (if Settled l h r then node l a h r else fix l a h r)).toList =
          (plug fs (node l a h r)).toList := by
        split_ifs
        · rfl
        · simp only [plug_toList,fix_toList,toList_node]
      have hfit₁ : HeightsFit s₁ (plug fs (if Settled l h r then node l a h r else fix l a h r)).toList :=
        heightsFit_of_below h2.holds hnext.plug_below hle
      rw [← hlist]
      rcases hs' with rfl | hs'
      · rw [hlist]; exact hfirst
      · cases hst : decide (Settled l h r) with
        | false =>
          rw [hst,if_neg Bool.false_ne_true] at hs'
          exact ih h2 hnext hfit₁ s' hs'
        | true =>
          rw [hst,if_pos rfl,List.mem_singleton] at hs'
          rw [hs']
          exact hfit₁

/-- A call with which no key repeats: the inserted node and its key are new, or the removed node is
present. The number of nodes does not matter. -/
def Op.Distinct (p : List (Item δ)) : Op δ → Prop
  | .insert a n => ∀ i ∈ p, i.addr ≠ a ∧ i.key ≠ n.key
  | .remove a => ∃ i ∈ p, i.addr = a

def DistinctRun (p : List (Item δ)) : List (Op δ) → Prop
  | [] => True
  | op::ops => op.Distinct p ∧ DistinctRun (op.after p) ops

/-- Legal calls are such calls that also respect the node limit. -/
lemma LegalRun.distinct {p : List (Item δ)} {ops : List (Op δ)} (h : LegalRun p ops) : DistinctRun p ops := by
  induction ops generalizing p with
  | nil => trivial
  | cons op ops ih =>
    refine ⟨?_,ih h.2⟩
    cases op with
    | insert a n => exact h.1.1
    | remove a => exact h.1

/-- A call that may follow: an insertion of a new node, with any key, or a removal of a present one. -/
def Op.Admissible (p : List (Item δ)) : Op δ → Prop
  | .insert a _ => ∀ i ∈ p, i.addr ≠ a
  | .remove a => ∃ i ∈ p, i.addr = a

theorem Follows.exec {s s' : Store δ} {p : List (Item δ)} {op : Op δ} (hs : Follows s p)
    (hop : op.Distinct p) (h : op.exec s = some s') : Follows s' (op.after p) := by
  cases op with
  | insert a n => exact hs.insert hop h
  | remove a => exact hs.remove hop h

theorem run_follows {s s' : Store δ} {p : List (Item δ)} {ops : List (Op δ)} (hs : Follows s p)
    (hops : DistinctRun p ops) (h : run s ops = some s') : Follows s' (ops.foldl Op.after p) := by
  induction ops generalizing s p with
  | nil => cases h; exact hs
  | cons op ops ih =>
    rw [run,Option.bind_eq_bind] at h
    obtain ⟨s₁,h1,h2⟩ := Option.bind_eq_some_iff.mp h
    exact ih (hs.exec hops.1 h1) hops.2 h2

/-- The states of a call that has left a tree with one subtree that may be too high or too low by one. -/
lemma Op.states_fit {s s₁ : Store δ} {op : Op δ} {fs : List (Frame (Item δ))} {t : HTree (Item δ)}
    {q : List (Item δ)} (hprep : op.prepare s = some (s₁,stack fs)) (hs : Represents s₁ (plug fs t))
    (ho : OffByOne maxHeight fs t) (hq : (plug fs t).toList.Perm q) :
    ∀ s' ∈ op.states s, HeightsFit s' q := by
  intro s' hs'
  rw [Op.states,hprep] at hs'
  exact (rebalanceStates_fit hs ho (by decide) s' hs').perm hq

section Further
variable {s : Store δ} {p : List (Item δ)} (hs : Follows s p) (hlen : p.length < nodeLimit)
include hs hlen

/-- Before the call the tree is at most 41 high. -/
theorem Follows.heightsFit : HeightsFit s p := by
  obtain ⟨t,ht,hp,_⟩ := hs
  have hheight : t.stored ≤ maxHeight := stored_le_maxHeight ht.valid (by rw [hp.length_eq]; exact hlen)
  exact (heightsFit_of_below ht.rep.holds (ht.valid.below.mono hheight) (by decide)).perm hp

theorem Follows.insert_states {a : Addr} (ha : ∀ i ∈ p, i.addr ≠ a) (n : Node δ) :
    ∀ s' ∈ (Op.insert a n).states s, HeightsFit s' ((Op.insert a n).after p) := by
  obtain ⟨t,ht,hp,_⟩ := hs
  have ha' : a ∉ addrs t := notMem_addrs hp ha
  have hheight : t.stored ≤ maxHeight := stored_le_maxHeight ht.valid (by rw [hp.length_eq]; exact hlen)
  obtain ⟨s₁,h1,h2,_⟩ := insertPrepare_refines (ht.put ha' n).rep (a := ⟨a,n.key,n.data⟩) ha'
    (Mem.put_same _ _ _) rfl rfl ((descend_length_le _ _ _ ht.valid).trans hheight)
  have hplug := plug_descend Item.key n.key t []
  rw [plug_nil] at hplug
  have ho : OffByOne maxHeight (descend Item.key n.key t []) (node nil (⟨a,n.key,n.data⟩ : Item δ) 1 nil) := by
    apply OffByOne.of_valid (t := nil)
    · rw [hplug]; exact ht.valid
    · rw [hplug]; exact hheight
    · simp [Settled]
    · simp
    · simp
  have hprep : (Op.insert a n).prepare s = some (s₁,stack (descend Item.key n.key t [])) := h1
  apply Op.states_fit hprep h2 ho
  rw [plug_toList]
  calc _ = (insertNode Item.key ⟨a,n.key,n.data⟩ t).toList := by simp [insertNode_toList]
    List.Perm _ (⟨a,n.key,n.data⟩::t.toList) := insertNode_perm _ _ _
    List.Perm _ (⟨a,n.key,n.data⟩::p) := hp.cons _
    List.Perm _ (p++[⟨a,n.key,n.data⟩]) := (List.perm_append_singleton _ _).symm

theorem Follows.remove_states {a : Addr} (hd : ∃ i ∈ p, i.addr = a) :
    ∀ s' ∈ (Op.remove a : Op δ).states s, HeightsFit s' ((Op.remove a : Op δ).after p) := by
  obtain ⟨t,ht,hp,hk⟩ := hs
  obtain ⟨d,hd,rfl⟩ := hd
  have hlen' : t.toList.length < nodeLimit := by rw [hp.length_eq]; exact hlen
  obtain ⟨gs,l,k,r,hl⟩ := locate_self ht.ordered (by rwa [(hp.map _).nodup_iff]) (hp.mem_iff.mpr hd)
  have hplug := (locate_plug Item.key hl).1
  rw [plug_nil] at hplug
  have hfound : locate Item.key d.key t [] = some (gs,plug [] (node l d k r)) := hl
  obtain ⟨s₁,h1,h2,_⟩ := (removePrepare_refines ht.rep hfound).1 (ht.removeSlots_le hlen' hl)
  have ho : OffByOne maxHeight (unlink gs l k r).1 (unlink gs l k r).2 := by
    apply unlink_offByOne gs l d k r
    · rw [hplug]; exact ht.valid
    · rw [hplug]; exact stored_le_maxHeight ht.valid hlen'
  have hprep : (Op.remove d.addr : Op δ).prepare s = some (s₁,stack (unlink gs l k r).1) := h1
  apply Op.states_fit hprep h2 ho
  rw [unlink_toList,ht.rep.filter_located hl]
  exact hp.filter _

/-- A call that may follow is defined. -/
theorem Follows.defined {op : Op δ} (hop : op.Admissible p) : ∃ s', op.exec s = some s' := by
  cases op with
  | insert a n => exact hs.insert_defined hlen hop n
  | remove a => exact hs.remove_defined hlen hop

theorem Follows.states {op : Op δ} (hop : op.Admissible p) :
    ∀ s' ∈ op.states s, HeightsFit s' (op.after p) := by
  cases op with
  | insert a n => exact hs.insert_states hlen hop n
  | remove a => exact hs.remove_states hlen hop

end Further

lemma follows_empty (m : Mem (Node δ)) : Follows (⟨none,m⟩ : Store δ) [] := (tracks_empty m).follows.1

/-- After any run with distinct keys that leaves fewer nodes than the limit, an insertion or a
removal never writes outside the 41 entries of its path stack (such a call is `none`), and all
heights stored before, during and after it fit a `short`. -/
theorem path_stack_suffices (m : Mem (Node δ)) (ops : List (Op δ)) (s : Store δ) (hops : DistinctRun [] ops)
    (hrun : run ⟨none,m⟩ ops = some s) (hlen : (present ops).length < nodeLimit) (op : Op δ)
    (hop : op.Admissible (present ops)) :
    (∃ s' ∈ op.states s, op.exec s = some s') ∧ HeightsFit s (present ops) ∧
      ∀ s' ∈ op.states s, HeightsFit s' (op.after (present ops)) := by
  have hs : Follows s (present ops) := run_follows (follows_empty m) hops hrun
  refine ⟨?_,hs.heightsFit hlen,hs.states hlen hop⟩
  obtain ⟨s',h⟩ := hs.defined hlen hop
  exact ⟨s',Op.exec_mem_states h,h⟩

/-- After three insertions, the removal of the node that was rotated to the root. -/
theorem path_stack_suffices_rotated :
    ∃ s, run ⟨none,fun _ => none⟩ (rotatedRun.take 3) = some s ∧
      (∃ s' ∈ (Op.remove 2).states s, (Op.remove 2).exec s = some s') ∧
      HeightsFit s (present (rotatedRun.take 3)) ∧
      ∀ s' ∈ (Op.remove 2).states s, HeightsFit s' ((Op.remove 2).after (present (rotatedRun.take 3))) := by
  have hlegal : LegalRun [] (rotatedRun.take 3) := by decide
  obtain ⟨s,hs,_⟩ := run_tracks (tracks_empty fun _ => none) hlegal
  exact ⟨s,hs,path_stack_suffices _ _ s hlegal.distinct hs (by decide) (.remove 2)
    ⟨⟨2,6,()⟩,by decide,rfl⟩⟩

end JustKit.Avl
