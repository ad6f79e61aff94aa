import JustKit.Avl.Invariant

/-! No function of `jk_avl.c` allocates or releases a node, or writes a key or a data pointer. -/
namespace JustKit.Avl
open Foundations Foundations.HTree
variable {δ : Type}

/-- What a record contributes to an item: its key and its data. -/
def Node.payload (n : Node δ) : UInt64 × δ := (n.key,n.data)

/-- The same addresses are allocated, with the same keys and data. -/
def SamePayload (s s' : Store δ) : Prop := ∀ b, (s'.mem b).map Node.payload = (s.mem b).map Node.payload

theorem SamePayload.refl (s : Store δ) : SamePayload s s := fun _ => rfl

theorem SamePayload.trans {s s' s'' : Store δ} (h : SamePayload s s') (h' : SamePayload s' s'') :
    SamePayload s s'' := fun b => (h' b).trans (h b)

/-- Every store that a computation yields has the payloads of `s`. -/
def Keeps {α : Type} (store : α → Store δ) (s : Store δ) (o : Option α) : Prop := ∀ x, o = some x →
    SamePayload s (store x)

section Keeps
variable {α β : Type} {store : α → Store δ} {s : Store δ}

lemma keeps_some {x : α} (h : SamePayload s (store x)) : Keeps store s (some x) :=
  fun _ hx => Option.some.inj hx ▸ h

/-- A read changes nothing. -/
lemma keeps_read {o : Option β} {f : β → Option α} (h : ∀ x, Keeps store s (f x)) :
    Keeps store s (o >>= f) := by
  intro y hy
  obtain ⟨x,_,hx⟩ := Option.bind_eq_some_iff.mp hy
  exact h x y hx

/-- One change after another. -/
lemma Keeps.bind {store' : β → Store δ} {o : Option β} {f : β → Option α} (h : Keeps store' s o)
    (hf : ∀ x, Keeps store (store' x) (f x)) : Keeps store s (o >>= f) := by
  intro y hy
  obtain ⟨x,hx,hxy⟩ := Option.bind_eq_some_iff.mp hy
  exact (h x hx).trans (hf x y hxy)

lemma keeps_modify (a : Addr) {f : Node δ → Node δ} (hf : ∀ n, (f n).payload = n.payload) :
    Keeps id s (s.modify a f) := by
  intro s' h
  simp only [Store.modify,Mem.modify,Option.map_map,Option.map_eq_some_iff] at h
  obtain ⟨n,hn,rfl⟩ := h
  intro b
  by_cases hb : b = a
  · subst hb
    simp [hn,hf]
  · simp [hb]

/-- An assignment to fields of a node, and what follows. -/
lemma keeps_write {a : Addr} {f : Node δ → Node δ} {g : Store δ → Option α}
    (hf : ∀ n, (f n).payload = n.payload) (hg : ∀ t, Keeps store t (g t)) :
    Keeps store s (s.modify a f >>= g) := (keeps_modify a hf).bind hg

lemma keeps_save (p : Option Addr) (q : Place) : Keeps id s (s.save p q) := by
  cases q with
  | root => exact keeps_some fun _ => rfl
  | left a => exact keeps_modify a fun _ => rfl
  | right a => exact keeps_modify a fun _ => rfl

end Keeps

section Rotations
variable (s : Store δ) (p : Place) (a b c : Addr) (q : Option Addr) (h k : ℕ)

theorem rotateLeftChild_payload : Keeps id s (rotateLeftChild s p a b q h) := by
  unfold rotateLeftChild
  refine keeps_write (fun _ => rfl) fun s => ?_
  refine keeps_write (fun _ => rfl) fun s => ?_
  refine keeps_write (fun _ => rfl) fun s => ?_
  apply keeps_read; intro n
  refine keeps_write (fun _ => rfl) fun s => ?_
  exact keeps_save _ _

theorem rotateRightChild_payload : Keeps id s (rotateRightChild s p a b q h) := by
  unfold rotateRightChild
  refine keeps_write (fun _ => rfl) fun s => ?_
  refine keeps_write (fun _ => rfl) fun s => ?_
  refine keeps_write (fun _ => rfl) fun s => ?_
  apply keeps_read; intro n
  refine keeps_write (fun _ => rfl) fun s => ?_
  exact keeps_save _ _

theorem rotateLeftGrandchild_payload : Keeps id s (rotateLeftGrandchild s p a b c h k) := by
  unfold rotateLeftGrandchild
  apply keeps_read; intro n
  iterate 7 refine keeps_write (fun _ => rfl) fun s => ?_
  exact keeps_save _ _

theorem rotateRightGrandchild_payload : Keeps id s (rotateRightGrandchild s p a b c h k) := by
  unfold rotateRightGrandchild
  apply keeps_read; intro n
  iterate 7 refine keeps_write (fun _ => rfl) fun s => ?_
  exact keeps_save _ _

theorem rebalancePass_payload : Keeps Prod.fst s (rebalancePass s p) := by
  have hgo (s : Store δ) (stop : Bool) : Keeps Prod.fst s (some (s,stop)) := keeps_some (SamePayload.refl s)
  unfold rebalancePass
  apply keeps_read; intro _
  apply keeps_read; intro node
  apply keeps_read; intro n
  apply keeps_read; intro heightleft
  apply keeps_read; intro heightright
  split
  · apply keeps_read; intro nodeleft
    apply keeps_read; intro nl
    apply keeps_read; intro _
    apply keeps_read; intro _
    split
    · exact (rotateLeftChild_payload s p _ _ _ _).bind fun s => hgo s false
    · apply keeps_read; intro nodeleftright
      exact (rotateLeftGrandchild_payload s p _ _ _ _ _).bind fun s => hgo s false
  split
  · apply keeps_read; intro noderight
    apply keeps_read; intro nr
    apply keeps_read; intro _
    apply keeps_read; intro _
    split
    · exact (rotateRightChild_payload s p _ _ _ _).bind fun s => hgo s false
    · apply keeps_read; intro noderightleft
      exact (rotateRightGrandchild_payload s p _ _ _ _ _).bind fun s => hgo s false
  generalize (if heightleft < heightright then heightright else heightleft) = height
  dsimp only
  split
  · exact hgo s true
  · exact keeps_write (fun _ => rfl) fun s => hgo s false

theorem avlRebalance_payload (stack : List Place) : Keeps id s (avlRebalance s stack) := by
  induction stack generalizing s with
  | nil => exact keeps_some (SamePayload.refl s)
  | cons p stack ih =>
    apply (rebalancePass_payload s p).bind
    intro r
    cases r with
    | mk t stop =>
      cases stop with
      | true => exact keeps_some (SamePayload.refl t)
      | false => exact ih t

end Rotations

theorem avlInsert_payload {s s' : Store δ} {a : Addr} (hs : avlInsert s a = some s') : SamePayload s s' := by
  have h : Keeps id s (avlInsert s a) := by
    apply keeps_read; intro n
    apply keeps_read; intro r
    refine keeps_write (fun _ => rfl) fun s => ?_
    apply (keeps_save _ _).bind; intro s
    exact avlRebalance_payload s r.2
  exact h s' hs

theorem avlRemove_payload {s s' : Store δ} {a : Addr} (hs : avlRemove s a = some s') : SamePayload s s' := by
  have h : Keeps id s (avlRemove s a) := by
    apply keeps_read; intro d
    apply keeps_read; intro r
    cases d.left with
    | none =>
      apply (keeps_save _ _).bind; intro s
      exact avlRebalance_payload s _
    | some b =>
      apply keeps_read; intro r'
      apply keeps_read; intro n
      apply (keeps_save _ _).bind; intro s
      apply keeps_read; intro d'
      refine keeps_write (fun _ => rfl) fun s => ?_
      apply (keeps_save _ _).bind; intro s
      apply keeps_read; intro stack
      exact avlRebalance_payload s stack
  exact h s' hs

/-! ### What a represented tree says about its memory -/

/-- `jk_avl_find_min` returns the first node of the in-order sequence, within as many passes as the
tree has nodes. -/
theorem avlFindMin_eq {s : Store δ} {t : HTree (Item δ)} (ht : Holds s.mem t) {fuel : ℕ}
    (hf : t.toList.length ≤ fuel) :
    avlFindMin s fuel (ptr t) = some (t.toList.head?.map Item.addr) := by
  induction t generalizing fuel with
  | nil => cases fuel <;> rfl
  | node l a h r hl _ =>
    obtain ⟨ha,hml,_⟩ := ht
    simp only [toList_node,List.length_append,List.length_cons] at hf
    cases fuel with
    | zero => omega
    | succ fuel =>
      simp only [ptr_node,avlFindMin,ha,Option.bind_eq_bind,Option.bind_some]
      cases l with
      | nil => simp
      | node l' b k r' =>
        rw [if_neg (by simp),hl hml (by omega)]
        cases hh : (node l' b k r').toList with
        | nil => simp at hh
        | cons c cs => simp [hh]

theorem Holds.mem_payload {m : Mem (Node δ)} {t : HTree (Item δ)} (h : Holds m t) {i : Item δ}
    (hi : i ∈ t.toList) : (m i.addr).map Node.payload = some (i.key,i.data) := by
  induction t with
  | nil => simp at hi
  | node l a k r hl hr =>
    simp only [toList_node,List.mem_append,List.mem_cons] at hi
    rcases hi with hi | rfl | hi
    · exact hl h.2.1 hi
    · simp [h.1,Node.payload]
    · exact hr h.2.2 hi

/-- The tree depends on the root cell and on the records of its own nodes only. -/
theorem IsAvl.congr {s s' : Store δ} {t : HTree (Item δ)} (h : IsAvl s t) (hr : s'.root = s.root)
    (hm : ∀ a ∈ addrs t, s'.mem a = s.mem a) : IsAvl s' t :=
  ⟨⟨hr.trans h.rep.root,holds_congr hm h.rep.holds,h.rep.nodup⟩,h.valid,h.ordered⟩

/-- Taking out the item at one address. -/
lemma cons_filter_addr_perm {xs : List (Item δ)} {d : Item δ} (hn : (xs.map Item.addr).Nodup) (hd : d ∈ xs) :
    (d::xs.filter (fun i => i.addr ≠ d.addr)).Perm xs := by
  obtain ⟨ys,zs,rfl⟩ := List.append_of_mem hd
  rw [filter_addr hn]
  exact List.perm_middle.symm

end JustKit.Avl
