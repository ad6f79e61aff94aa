import JustKit.Avl.Invariant

/-! Whole runs of insertions and removals with different keys, from the empty tree. -/
namespace JustKit.Avl
open Foundations Foundations.HTree
variable {δ : Type}

/-- One call: the owner of a node stores it and inserts it, or a node is removed. -/
inductive Op (δ : Type) where
  | insert (a : Addr) (n : Node δ)
  | remove (a : Addr)

def Op.exec (s : Store δ) : Op δ → Option (Store δ)
  | .insert a n => avlInsert (s.put a n) a
  | .remove a => avlRemove s a

def run (s : Store δ) : List (Op δ) → Option (Store δ)
  | [] => some s
  | op::ops => do run (← op.exec s) ops

/-- The nodes inserted and not yet removed, after a call. -/
def Op.after (p : List (Item δ)) : Op δ → List (Item δ)
  | .insert a n => p++[⟨a,n.key,n.data⟩]
  | .remove a => p.filter (fun i => i.addr ≠ a)

def present (ops : List (Op δ)) : List (Item δ) := ops.foldl Op.after []

/-- A call is legal when the inserted node is new, its key differs from all keys present and the
tree stays below the node limit, or when the removed node is present. -/
def Op.Legal (p : List (Item δ)) : Op δ → Prop
  | .insert a n => (∀ i ∈ p, i.addr ≠ a ∧ i.key ≠ n.key) ∧ p.length+1 < nodeLimit
  | .remove a => ∃ i ∈ p, i.addr = a

def LegalRun (p : List (Item δ)) : List (Op δ) → Prop
  | [] => True
  | op::ops => op.Legal p ∧ LegalRun (op.after p) ops

instance (p : List (Item δ)) : (op : Op δ) → Decidable (op.Legal p)
  | .insert a n => inferInstanceAs (Decidable ((∀ i ∈ p, i.addr ≠ a ∧ i.key ≠ n.key) ∧ _ < _))
  | .remove a => inferInstanceAs (Decidable (∃ i ∈ p, i.addr = a))

instance decLegalRun : (p : List (Item δ)) → (ops : List (Op δ)) → Decidable (LegalRun p ops)
  | _,[] => .isTrue trivial
  | p,op::ops =>
    have := decLegalRun (op.after p) ops
    inferInstanceAs (Decidable (op.Legal p ∧ LegalRun (op.after p) ops))

/-- The store holds a valid AVL tree of exactly the nodes `p`, whose keys all differ and whose number is below the
node limit. -/
def Tracks (s : Store δ) (p : List (Item δ)) : Prop :=
  ∃ t, IsAvl s t ∧ t.toList.Perm p ∧ (p.map Item.key).Nodup ∧ p.length < nodeLimit

/-- With different keys the search by key stops at the node itself. -/
lemma locate_self {t : HTree (Item δ)} (ho : Ordered Item.key t.toList)
    (hk : (t.toList.map Item.key).Nodup) {d : Item δ} (hd : d ∈ t.toList) :
    ∃ gs l k r, locate Item.key d.key t [] = some (gs,node l d k r) := by
  obtain ⟨⟨gs,u⟩,hl⟩ := Option.isSome_iff_exists.mp (locate_isSome Item.key [] ho hd rfl)
  obtain ⟨hp,l,e,k,r,rfl,he⟩ := locate_plug Item.key hl
  have hmem : e ∈ t.toList := by
    rw [plug_nil] at hp
    rw [← hp,plug_toList]
    simp
  obtain rfl := List.inj_on_of_nodup_map hk hmem hd he
  exact ⟨gs,l,k,r,hl⟩

/-- The same without the node limit. -/
def Follows (s : Store δ) (p : List (Item δ)) : Prop :=
  ∃ t, IsAvl s t ∧ t.toList.Perm p ∧ (p.map Item.key).Nodup

lemma Tracks.follows {s : Store δ} {p : List (Item δ)} (h : Tracks s p) : Follows s p ∧
    p.length < nodeLimit := by
  obtain ⟨t,ht,hp,hk,hlen⟩ := h
  exact ⟨⟨t,ht,hp,hk⟩,hlen⟩

lemma Follows.tracks {s : Store δ} {p : List (Item δ)} (h : Follows s p) (hlen : p.length < nodeLimit) :
    Tracks s p := by
  obtain ⟨t,ht,hp,hk⟩ := h
  exact ⟨t,ht,hp,hk,hlen⟩

lemma notMem_addrs {t : HTree (Item δ)} {p : List (Item δ)} (hp : t.toList.Perm p) {a : Addr}
    (ha : ∀ i ∈ p, i.addr ≠ a) : a ∉ addrs t := by
  intro hm
  obtain ⟨i,hi,rfl⟩ := List.mem_map.mp hm
  exact ha i (hp.mem_iff.mp hi) rfl

/-- Whatever the size of the tree, an insertion that does not overflow the stack is right. -/
theorem Follows.insert {s s' : Store δ} {p : List (Item δ)} (hs : Follows s p) {a : Addr} {n : Node δ}
    (hnew : ∀ i ∈ p, i.addr ≠ a ∧ i.key ≠ n.key) (h : (Op.insert a n).exec s = some s') :
    Follows s' ((Op.insert a n).after p) := by
  obtain ⟨t,ht,hp,hk⟩ := hs
  refine ⟨_,ht.insert_of_some (notMem_addrs hp fun i hi => (hnew i hi).1) h,?_,?_⟩
  · exact (insertNode_perm _ _ _).trans ((hp.cons _).trans (List.perm_append_singleton _ _).symm)
  · rw [Op.after,List.map_append,List.nodup_append']
    refine ⟨hk,by simp,?_⟩
    intro k hkm hk'
    simp only [List.map_cons,List.map_nil,List.mem_singleton] at hk'
    obtain ⟨i,hi,rfl⟩ := List.mem_map.mp hkm
    exact (hnew i hi).2 hk'

/-- The same for a removal. -/
theorem Follows.remove {s s' : Store δ} {p : List (Item δ)} (hs : Follows s p) {a : Addr}
    (hd : ∃ i ∈ p, i.addr = a) (h : (Op.remove a : Op δ).exec s = some s') :
    Follows s' ((Op.remove a : Op δ).after p) := by
  obtain ⟨t,ht,hp,hk⟩ := hs
  obtain ⟨d,hd,rfl⟩ := hd
  obtain ⟨gs,l,k,r,hl⟩ := locate_self ht.ordered (by rwa [(hp.map _).nodup_iff]) (hp.mem_iff.mpr hd)
  obtain ⟨t',h1,h2⟩ := ht.remove_of_some hl h
  refine ⟨t',h1,?_,hk.sublist (List.filter_sublist.map _)⟩
  rw [h2]
  exact hp.filter _

/-- Below the node limit no insertion of a new node overflows the stack. -/
theorem Follows.insert_defined {s : Store δ} {p : List (Item δ)} (hs : Follows s p)
    (hlen : p.length < nodeLimit) {a : Addr} (ha : ∀ i ∈ p, i.addr ≠ a) (n : Node δ) :
    ∃ s', (Op.insert a n).exec s = some s' := by
  obtain ⟨t,ht,hp,hk⟩ := hs
  have ha' : a ∉ addrs t := notMem_addrs hp ha
  have hheight : t.stored ≤ maxHeight := stored_le_maxHeight ht.valid (by rw [hp.length_eq]; exact hlen)
  obtain ⟨s',h,_⟩ := (ht.put ha' n).insert ha' (Mem.put_same _ _ _)
    ((descend_length_le _ _ _ ht.valid).trans hheight)
  exact ⟨s',h⟩

lemma IsAvl.removeSlots_le {s : Store δ} {t : HTree (Item δ)} (h : IsAvl s t)
    (hlen : t.toList.length < nodeLimit) {gs : List (Frame (Item δ))} {l r : HTree (Item δ)}
    {d : Item δ} {k : ℕ} (hl : locate Item.key d.key t [] = some (gs,node l d k r)) :
    removeSlots gs l ≤ maxHeight := by
  have hplug := (locate_plug Item.key hl).1
  rw [plug_nil] at hplug
  apply Avl.removeSlots_le
  · rw [hplug]; exact h.valid
  · rw [hplug]; exact stored_le_maxHeight h.valid hlen

/-- Below the node limit no removal of a present node overflows the stack. -/
theorem Follows.remove_defined {s : Store δ} {p : List (Item δ)} (hs : Follows s p)
    (hlen : p.length < nodeLimit) {a : Addr} (hd : ∃ i ∈ p, i.addr = a) :
    ∃ s', (Op.remove a : Op δ).exec s = some s' := by
  obtain ⟨t,ht,hp,hk⟩ := hs
  obtain ⟨d,hd,rfl⟩ := hd
  obtain ⟨gs,l,k,r,hl⟩ := locate_self ht.ordered (by rwa [(hp.map _).nodup_iff]) (hp.mem_iff.mpr hd)
  obtain ⟨s',t',h,_⟩ := ht.remove hl (ht.removeSlots_le (by rw [hp.length_eq]; exact hlen) hl)
  exact ⟨s',h⟩

/-- A legal call is defined and keeps the store in step with the set of nodes. -/
theorem Op.Legal.exec {s : Store δ} {p : List (Item δ)} {op : Op δ} (hs : Tracks s p) (h : op.Legal p) :
    ∃ s', op.exec s = some s' ∧ Tracks s' (op.after p) := by
  obtain ⟨hf,hlen⟩ := hs.follows
  cases op with
  | insert a n =>
    obtain ⟨s',h1⟩ := hf.insert_defined hlen (fun i hi => (h.1 i hi).1) n
    exact ⟨s',h1,(hf.insert h.1 h1).tracks (by simpa [Op.after] using h.2)⟩
  | remove a =>
    obtain ⟨s',h1⟩ := hf.remove_defined hlen h
    exact ⟨s',h1,(hf.remove h h1).tracks ((List.length_filter_le _ _).trans_lt hlen)⟩

theorem run_tracks {s : Store δ} {p : List (Item δ)} {ops : List (Op δ)} (hs : Tracks s p)
    (h : LegalRun p ops) : ∃ s', run s ops = some s' ∧ Tracks s' (ops.foldl Op.after p) := by
  induction ops generalizing s p with
  | nil => exact ⟨s,rfl,hs⟩
  | cons op ops ih =>
    obtain ⟨s₁,h1,h2⟩ := h.1.exec hs
    obtain ⟨s₂,h3,h4⟩ := ih h2 h.2
    exact ⟨s₂,by simp [run,h1,h3],h4⟩

theorem LegalRun.of_prefix {p : List (Item δ)} {pre ops : List (Op δ)} (h : LegalRun p ops)
    (hp : pre <+: ops) : LegalRun p pre := by
  induction pre generalizing p ops with
  | nil => trivial
  | cons op pre ih =>
    obtain ⟨rest,rfl⟩ := hp
    exact ⟨h.1,ih h.2 ⟨rest,rfl⟩⟩

lemma tracks_empty (m : Mem (Node δ)) : Tracks (⟨none,m⟩ : Store δ) [] :=
  ⟨nil,⟨⟨rfl,trivial,by simp⟩,valid_nil,List.Pairwise.nil⟩,by simp,by simp,by simp [nodeLimit]⟩

/-- After every call of a legal run the stored heights are exact, the tree is balanced, its in-order
sequence is strictly increasing in key and consists of the nodes inserted and not removed. -/
theorem avl_run_invariant (m : Mem (Node δ)) (ops pre : List (Op δ)) (h : LegalRun [] ops)
    (hp : pre <+: ops) :
    ∃ s t, run ⟨none,m⟩ pre = some s ∧ Represents s t ∧ Valid t ∧
      t.toList.Pairwise (fun a b => a.key < b.key) ∧ t.toList.Perm (present pre) := by
  obtain ⟨s,h1,t,ht,hperm,hk,_⟩ := run_tracks (tracks_empty m) (h.of_prefix hp)
  refine ⟨s,t,h1,ht.rep,ht.valid,?_,hperm⟩
  have hne : t.toList.Pairwise (fun a b => a.key ≠ b.key) :=
    List.pairwise_map.mp (show (t.toList.map Item.key).Nodup by rwa [(hperm.map _).nodup_iff])
  exact (ht.ordered.and hne).imp fun hab => lt_of_le_of_ne hab.1 hab.2

/-- Three insertions that rotate, and the removal of the new root. -/
def rotatedRun : List (Op Unit) :=
  [.insert 1 ⟨5,(),0,none,none⟩,.insert 2 ⟨6,(),0,none,none⟩,.insert 3 ⟨7,(),0,none,none⟩,.remove 2]

theorem avl_run_invariant_rotated :
    ∃ s t, run ⟨none,fun _ => none⟩ rotatedRun = some s ∧ Represents s t ∧ Valid t ∧
      t.toList.Pairwise (fun a b => a.key < b.key) ∧ t.toList.Perm (present rotatedRun) :=
  avl_run_invariant (fun _ => none) rotatedRun rotatedRun (by decide) List.prefix_rfl

end JustKit.Avl
