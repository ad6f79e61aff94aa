import JustKit.Lists.WellFormed

/-! The safe loops with a body that deletes nodes. The loop has read the next node before the body runs, and the
body changes nothing of that node but its link back, so that the loop goes on as in the original list. -/
namespace JustKit.Lists
open Foundations Foundations.LinkRing

/-- A body that deletes the nodes with `p`. Of a deleted node it may overwrite the links. -/
def deleting (p : Addr → Bool) (links : Memory → Addr → Option ListNode) (m : Memory)
    (node : Addr) : Option Memory :=
  if p node then do
    let m ← listDel m node
    match links m node with
    | none => return m
    | some garbage => return m.put node garbage
  else some m

/-! ### One pass -/

section Body
variable {m : Memory} {head node : Addr} {as bs : List Addr} {p : Addr → Bool}
  {links : Memory → Addr → Option ListNode}

/-- A cell outside the ring may be overwritten. -/
lemma ring_put (h : Ring (nextOf m) (prevOf m) head as) (hnode : node ∉ head::as) (garbage : ListNode) :
    Ring (nextOf (m.put node garbage)) (prevOf (m.put node garbage)) head as := by
  have hne : ∀ a ∈ head::as, a ≠ node := fun a ha heq => hnode (heq ▸ ha)
  apply h.congr
  · intro a ha
    rw [nextOf,Mem.put_of_ne (hne a ha)]
    rfl
  · intro a ha
    rw [prevOf,Mem.put_of_ne (hne a ha)]
    rfl

/-- The body takes the node out of the list, or keeps it, and touches nothing outside the list. -/
lemma deleting_ring (h : Ring (nextOf m) (prevOf m) head (as++node::bs)) :
    ∃ m', deleting p links m node = some m' ∧
    Ring (nextOf m') (prevOf m') head (as++[node].filter (!p ·)++bs) ∧
    ∀ b ∉ head::(as++node::bs), m' b = m b := by
  by_cases hp : p node
  · obtain ⟨m₁,heq,_,hring,hframe⟩ := listDel_ring h
    have hout : node ∉ head::(as++bs) := by
      have hnodup := List.perm_middle.nodup_iff.mp (show ((head::as)++node::bs).Nodup from h.nodup)
      exact (List.nodup_cons.mp hnodup).1
    rw [List.filter_cons_of_neg (by simp [hp]),List.filter_nil,List.append_nil]
    cases hlinks : links m₁ node with
    | none => exact ⟨m₁,by simp [deleting,hp,heq,hlinks],hring,hframe⟩
    | some garbage =>
      refine ⟨m₁.put node garbage,by simp [deleting,hp,heq,hlinks],ring_put hring hout garbage,?_⟩
      intro b hb
      have hne : b ≠ node := fun heq => hb (by simp [heq])
      rw [Mem.put_of_ne hne]
      exact hframe b hb
  · refine ⟨m,by simp [deleting,hp],?_,fun _ _ => rfl⟩
    rw [List.filter_cons_of_pos (by simp [hp]),List.filter_nil,List.append_assoc]
    exact h

end Body

/-! ### The loop -/

section Loop
variable {link : Memory → Option Addr → Option (Option Addr)} {fwd bwd : Memory → Addr → Option Addr}
  {body : Memory → Addr → Option Memory} {keep : Addr → Bool} {head : Addr}

/-- The loop follows one of the links, and its body takes from every list exactly the node it is at, or nothing. -/
structure Safe (link : Memory → Option Addr → Option (Option Addr)) (fwd bwd : Memory → Addr → Option Addr)
    (body : Memory → Addr → Option Memory) (keep : Addr → Bool) (head : Addr) : Prop where
  reads : ∀ {m a b}, fwd m a = some b → link m (some a) = some (some b)
  pass : ∀ {m node as bs}, Ring (fwd m) (bwd m) head (as++node::bs) → ∃ m', body m node = some m' ∧
    Ring (fwd m') (bwd m') head (as++[node].filter keep++bs) ∧ ∀ b ∉ head::(as++node::bs), m' b = m b

lemma safePasses_succ {m m₁ : Memory} {node : Addr} (hne : node ≠ head) (hbody : body m node = some m₁)
    (fuel : ℕ) (n : Option Addr) : safePasses link head body (fuel+1) m node n =
      ((link m₁ n).bind (safePasses link head body fuel m₁ n)).map fun r => (r.1,node::r.2) := by
  rw [safePasses,if_neg fun heq => hne (Option.some.inj heq)]
  cases hlink : link m₁ n with
  | none => simp [hbody,hlink]
  | some n' => simp [hbody,hlink,Option.map_eq_bind]

/-- The loop from a node of the list on: the nodes before it are `as`, of which none is reached again. -/
lemma Safe.passes (hsafe : Safe link fwd bwd body keep head) {m : Memory} (as bs : List Addr)
    (h : Ring (fwd m) (bwd m) head (as++bs)) : ∃ m',
      (∀ fuel, bs.length < fuel →
        (link m (bs.headD head)).bind (safePasses link head body fuel m (bs.headD head)) = some (m',bs)) ∧
      Ring (fwd m') (bwd m') head (as++bs.filter keep) ∧ ∀ b ∉ head::(as++bs), m' b = m b := by
  induction bs generalizing m as with
  | nil =>
    refine ⟨m,?_,h,fun _ _ => rfl⟩
    intro fuel hfuel
    obtain ⟨fuel,rfl⟩ := Nat.exists_eq_succ_of_ne_zero (Nat.ne_of_gt hfuel)
    rw [List.headD_nil,hsafe.reads h.links.first]
    simp [safePasses]
  | cons node bs ih =>
    obtain ⟨m₁,hbody,hring,hframe⟩ := hsafe.pass h
    obtain ⟨m',hloop,hring',hframe'⟩ := ih _ hring
    refine ⟨m',?_,?_,?_⟩
    · intro fuel hfuel
      obtain ⟨fuel,rfl⟩ := Nat.exists_eq_succ_of_ne_zero (Nat.ne_of_gt (Nat.zero_lt_of_lt hfuel))
      have hne : node ≠ head := by
        intro heq
        exact (List.nodup_cons.mp h.nodup).1 (by simp [heq])
      have hahead := hsafe.reads (segment_append.mp h.links).2.first
      have hrest := hloop fuel (Nat.lt_of_succ_lt_succ hfuel)
      rw [List.headD_cons,hahead,Option.bind_some,safePasses_succ hne hbody,hrest]
      rfl
    · rw [← List.singleton_append,List.filter_append,← List.append_assoc]
      exact hring'
    · intro b hb
      have hkept : b ∉ head::(as++[node].filter keep++bs) := by
        intro hin
        have hsub : head::(as++[node].filter keep++bs) ⊆ head::(as++[node]++bs) :=
          (((List.filter_sublist.append_left as).append_right bs).cons_cons head).subset
        exact hb (by simpa using hsub hin)
      exact (hframe' b hkept).trans (hframe b hb)

end Loop

/-! ### Both directions -/

section Directions
variable (head : Addr) (p : Addr → Bool) (links : Memory → Addr → Option ListNode)

lemma safe_next : Safe readNext nextOf prevOf (deleting p links) (!p ·) head where
  reads := by
    intro m a b hnext
    rw [(view_self m).readNext ((view_self m).cell_of_next hnext),hnext]
  pass := deleting_ring

/-- In reverse the same body does the same to the ring. -/
lemma safe_prev : Safe readPrev prevOf nextOf (deleting p links) (!p ·) head where
  reads := by
    intro m a b hprev
    have hcell : cells m a := by
      obtain ⟨n,hn,_⟩ := Option.bind_eq_some_iff.mp hprev
      rw [cells,hn]
      rfl
    rw [(view_self m).readPrev hcell,hprev]
  pass := by
    intro m node as bs h
    have hrev := h.reverse
    rw [List.reverse_append,List.reverse_cons,List.append_assoc,List.singleton_append] at hrev
    obtain ⟨m',hbody,hring,hframe⟩ := deleting_ring (p := p) hrev
    refine ⟨m',hbody,?_,?_⟩
    · have hback := hring.reverse
      rw [List.reverse_append,List.reverse_append,List.reverse_reverse,List.reverse_reverse,← List.filter_reverse,
        List.reverse_singleton,← List.append_assoc] at hback
      exact hback
    · intro b hb
      apply hframe b
      simp only [List.mem_cons,List.mem_append,List.mem_reverse] at hb ⊢
      tauto

/-- A safe loop over any well-formed list, whose body deletes any of the nodes and then overwrites their links or
not, runs once for each node of the list, in order, and ends. It leaves the other nodes as a well-formed list in
their order, and no cell outside the list has been touched. In reverse the nodes come in reverse order. -/
theorem safe_loops_delete {m : Memory} {nodes : List Addr} (h : Ring (nextOf m) (prevOf m) head nodes) :
    (∃ m', (∀ fuel, nodes.length < fuel → listForEachSafe m fuel head (deleting p links) = some (m',nodes)) ∧
      Ring (nextOf m') (prevOf m') head (nodes.filter (!p ·)) ∧ ∀ b ∉ head::nodes, m' b = m b) ∧
    ∃ m', (∀ fuel, nodes.length < fuel →
        listForEach2Safe m fuel head (deleting p links) = some (m',nodes.reverse)) ∧
      Ring (nextOf m') (prevOf m') head (nodes.filter (!p ·)) ∧ ∀ b ∉ head::nodes, m' b = m b := by
  constructor
  · obtain ⟨m',hloop,hring,hframe⟩ := (safe_next head p links).passes [] nodes h
    refine ⟨m',?_,hring,hframe⟩
    intro fuel hfuel
    rw [listForEachSafe,(safe_next head p links).reads h.links.first]
    exact hloop fuel hfuel
  · obtain ⟨m',hloop,hring,hframe⟩ := (safe_prev head p links).passes [] nodes.reverse h.reverse
    refine ⟨m',?_,?_,?_⟩
    · intro fuel hfuel
      rw [listForEach2Safe,(safe_prev head p links).reads h.reverse.links.first]
      exact hloop fuel (by rwa [List.length_reverse])
    · simpa [List.filter_reverse] using hring.reverse
    · intro b hb
      exact hframe b (by simpa using hb)

/-- Three nodes in a ring. The body deletes two that follow each other and clears their links. -/
def threeNodes : Memory := fun a => if a < 4 then some ⟨some ((a+3)%4),some ((a+1)%4)⟩ else none

theorem safe_loops_delete_three :
    (∃ m', (∀ fuel, 3 < fuel →
        listForEachSafe threeNodes fuel 0 (deleting (1 < ·) fun _ _ => some ⟨none,none⟩) =
        some (m',[1,2,3])) ∧
      Ring (nextOf m') (prevOf m') 0 [1] ∧ ∀ b ∉ [0,1,2,3], m' b = threeNodes b) ∧
    ∃ m', (∀ fuel, 3 < fuel →
        listForEach2Safe threeNodes fuel 0 (deleting (1 < ·) fun _ _ => some ⟨none,none⟩) =
        some (m',[3,2,1])) ∧
      Ring (nextOf m') (prevOf m') 0 [1] ∧ ∀ b ∉ [0,1,2,3], m' b = threeNodes b :=
  safe_loops_delete 0 (1 < ·) (fun _ _ => some ⟨none,none⟩)
    (show Ring (nextOf threeNodes) (prevOf threeNodes) 0 [1,2,3] from
      ⟨⟨rfl,rfl,rfl,rfl,rfl,rfl,rfl,rfl⟩,by decide⟩)

end Directions

end JustKit.Lists
