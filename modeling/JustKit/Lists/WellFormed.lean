import JustKit.Foundations.LinkRing
import JustKit.Foundations.Transition
import JustKit.Lists.Model

/-! Many lists in one memory. After every operation each of them is a ring of its nodes, and the others have
not been touched. -/
namespace JustKit.Lists
open Foundations Foundations.LinkRing

/-! ### What the lists are for -/

/-- The lists, each with its head and its nodes in the order in which they were added. -/
abbrev Registry := List (Addr × List Addr)

/-- All heads and nodes. -/
def allNodes (lists : Registry) : List Addr := lists.flatMap fun l => l.1::l.2

/-- An operation on the lists, in a memory of these cells: only a free cell becomes a head or is added to a list,
and only a node of a list is deleted. -/
def specStep (cells : Addr → Bool) (lists : Registry) : Op → Option Registry
  | .init head => if cells head ∧ head ∉ allNodes lists then some ((head,[])::lists) else none
  | .add head node =>
    if head ∈ lists.map Prod.fst ∧ cells node ∧ node ∉ allNodes lists then
      some (lists.map fun l => if l.1 = head then (l.1,l.2++[node]) else l)
    else none
  | .del node =>
    if node ∈ lists.flatMap Prod.snd then some (lists.map fun l => (l.1,l.2.erase node)) else none

/-- The list that an operation works on. -/
def Op.On : Op → Addr × List Addr → Prop
  | .init _,_ => False
  | .add head _,l => l.1 = head
  | .del node,l => node ∈ l.2

/-! ### The memory as functions -/

/-- The cells of the memory. -/
def cells (m : Memory) (a : Addr) : Bool := (m a).isSome

def nextOf (m : Memory) (a : Addr) : Option Addr := (m a).bind ListNode.next
def prevOf (m : Memory) (a : Addr) : Option Addr := (m a).bind ListNode.prev

/-- A memory of these cells with these links. -/
structure View (m : Memory) (cs : Addr → Bool) (next prev : Addr → Option Addr) : Prop where
  cells : cells m = cs
  next : nextOf m = next
  prev : prevOf m = prev

section View
variable {m m' : Memory} {cs : Addr → Bool} {next prev : Addr → Option Addr} {a l r head node : Addr}

lemma View.alloc (h : View m cs next prev) (ha : cs a) : ∃ n, m a = some n ∧ n.next = next a ∧
    n.prev = prev a := by
  rw [← h.cells] at ha
  obtain ⟨n,hn⟩ := Option.isSome_iff_exists.mp ha
  refine ⟨n,hn,?_,?_⟩
  · rw [← h.next,nextOf,hn]
    rfl
  · rw [← h.prev,prevOf,hn]
    rfl

lemma View.cell_of_next (h : View m cs next prev) (ha : next a = some r) : cs a := by
  rw [← h.next,nextOf] at ha
  obtain ⟨n,hn,_⟩ := Option.bind_eq_some_iff.mp ha
  rw [← h.cells,Lists.cells,hn]
  rfl

lemma View.readNext (h : View m cs next prev) (ha : cs a) : readNext m a = some (next a) := by
  obtain ⟨n,hn,hnext,_⟩ := h.alloc ha
  simp [Lists.readNext,hn,hnext]

lemma View.readPrev (h : View m cs next prev) (ha : cs a) : readPrev m a = some (prev a) := by
  obtain ⟨n,hn,_,hprev⟩ := h.alloc ha
  simp [Lists.readPrev,hn,hprev]

/-- An assignment to a link updates one of the functions. -/
lemma View.put (h : View m cs next prev) (ha : cs a) (n : ListNode) :
    View (m.put a n) cs (Function.update next a n.next) (Function.update prev a n.prev) := by
  constructor
  · funext b
    by_cases hb : b = a
    · rw [hb,Lists.cells,Mem.put_same,ha]
      rfl
    · rw [Lists.cells,Mem.put_of_ne hb,← h.cells]
      rfl
  · funext b
    by_cases hb : b = a
    · rw [hb,nextOf,Mem.put_same,Function.update_self]
      rfl
    · rw [nextOf,Mem.put_of_ne hb,Function.update_of_ne hb,← h.next]
      rfl
  · funext b
    by_cases hb : b = a
    · rw [hb,prevOf,Mem.put_same,Function.update_self]
      rfl
    · rw [prevOf,Mem.put_of_ne hb,Function.update_of_ne hb,← h.prev]
      rfl

lemma View.setNext (h : View m cs next prev) (ha : cs a) (q : Option Addr) :
    ∃ m', setNext m a q = some m' ∧ View m' cs (Function.update next a q) prev := by
  obtain ⟨n,hn,_,hprev⟩ := h.alloc ha
  refine ⟨m.put a { n with next := q },Mem.modify_eq hn _,?_⟩
  have hsame : Function.update prev a n.prev = prev := by rw [hprev,Function.update_eq_self]
  exact hsame ▸ h.put ha { n with next := q }

lemma View.setPrev (h : View m cs next prev) (ha : cs a) (q : Option Addr) :
    ∃ m', setPrev m a q = some m' ∧ View m' cs next (Function.update prev a q) := by
  obtain ⟨n,hn,hnext,_⟩ := h.alloc ha
  refine ⟨m.put a { n with prev := q },Mem.modify_eq hn _,?_⟩
  have hsame : Function.update next a n.next = next := by rw [hnext,Function.update_eq_self]
  exact hsame ▸ h.put ha { n with prev := q }

lemma View.listInit (h : View m cs next prev) (hhead : cs head) : ∃ m', listInit m head = some m' ∧
    View m' cs (Function.update next head (some head)) (Function.update prev head (some head)) := by
  obtain ⟨m₁,heq₁,h₁⟩ := h.setNext hhead (some head)
  obtain ⟨m₂,heq₂,h₂⟩ := h₁.setPrev hhead (some head)
  exact ⟨m₂,by simp [Lists.listInit,heq₁,heq₂],h₂⟩

/-- The four assignments of `jk_list_add`. -/
lemma View.listAdd (h : View m cs next prev) (hhead : cs head) (hnode : cs node) (hne : head ≠ node)
    (hlast : prev head = some l) (hl : cs l) : ∃ m', listAdd m head node = some m' ∧
      View m' cs (Function.update (Function.update next node (some head)) l (some node))
        (Function.update (Function.update prev node (some l)) head (some node)) := by
  obtain ⟨m₁,heq₁,h₁⟩ := h.setPrev hnode (some l)
  obtain ⟨m₂,heq₂,h₂⟩ := h₁.setNext hnode (some head)
  obtain ⟨m₃,heq₃,h₃⟩ := h₂.setNext hl (some node)
  obtain ⟨m₄,heq₄,h₄⟩ := h₃.setPrev hhead (some node)
  have hread := h.readPrev hhead
  have hread₂ := h₂.readPrev hhead
  rw [Function.update_of_ne hne] at hread₂
  refine ⟨m₄,?_,h₄⟩
  simp [Lists.listAdd,hread,hread₂,hlast,heq₁,heq₂,heq₃,heq₄]

/-- The two assignments of `jk_list_del`. -/
lemma View.listDel (h : View m cs next prev) (hnode : cs node) (hprev : prev node = some l)
    (hnext : next node = some r) (hl : cs l) (hr : cs r) (hne : node ≠ l) : ∃ m', listDel m node = some m' ∧
      View m' cs (Function.update next l (some r)) (Function.update prev r (some l)) := by
  obtain ⟨m₁,heq₁,h₁⟩ := h.setNext hl (some r)
  obtain ⟨m₂,heq₂,h₂⟩ := h₁.setPrev hr (some l)
  have hread := h₁.readNext hnode
  rw [Function.update_of_ne hne] at hread
  refine ⟨m₂,?_,h₂⟩
  simp [Lists.listDel,h.readPrev hnode,h.readNext hnode,h₁.readPrev hnode,hread,hprev,hnext,heq₁,heq₂]

/-- A cell whose links are the same is the same. -/
lemma View.same {next' prev' : Addr → Option Addr} (h : View m cs next prev) (h' : View m' cs next' prev')
    (hnext : next' a = next a) (hprev : prev' a = prev a) : m' a = m a := by
  by_cases ha : cs a
  · obtain ⟨n,hn,hnnext,hnprev⟩ := h.alloc ha
    obtain ⟨n',hn',hnnext',hnprev'⟩ := h'.alloc ha
    cases n
    cases n'
    simp_all
  · have hnone : ∀ {m next prev}, View m cs next prev → m a = none := by
      intro m next prev hv
      rw [← hv.cells] at ha
      exact Option.not_isSome_iff_eq_none.mp ha
    rw [hnone h,hnone h']

end View

/-! ### One ring -/

section Ring
variable {m : Memory} {head node a : Addr} {as bs : List Addr}

lemma view_self (m : Memory) : View m (cells m) (nextOf m) (prevOf m) := ⟨rfl,rfl,rfl⟩

lemma cells_of_ring (h : Ring (nextOf m) (prevOf m) head as) (ha : a ∈ head::as) : cells m a := by
  obtain ⟨b,_,hb,_⟩ := h.next_prev ha
  exact (view_self m).cell_of_next hb

/-- `jk_list_del` takes a node out of its ring and changes nothing outside of it. -/
lemma listDel_ring (h : Ring (nextOf m) (prevOf m) head (as++node::bs)) : ∃ m', listDel m node = some m' ∧
    cells m' = cells m ∧ Ring (nextOf m') (prevOf m') head (as++bs) ∧
    ∀ b ∉ head::(as++node::bs), m' b = m b := by
  obtain ⟨hbefore,hafter⟩ := segment_append.mp h.links
  obtain ⟨_,_,hdisj⟩ := List.nodup_append.mp (show ((head::as)++node::bs).Nodup from h.nodup)
  have hl := getLastD_mem head as
  have hr := headD_mem bs head
  have hin : ∀ a, a ∈ head::as ∨ a ∈ head::bs → a ∈ head::(as++node::bs) := by
    intro a ha
    simp only [List.mem_cons,List.mem_append] at ha ⊢
    tauto
  obtain ⟨m',heq,hv⟩ := (view_self m).listDel (cells_of_ring h (by simp)) hbefore.last hafter.first
    (cells_of_ring h (hin _ (Or.inl hl))) (cells_of_ring h (hin _ (Or.inr hr)))
    (hdisj _ hl node List.mem_cons_self).symm
  refine ⟨m',heq,hv.cells,?_,?_⟩
  · rw [hv.next,hv.prev]
    exact h.remove
  · intro b hb
    have hbl : b ≠ as.getLastD head := fun heq => hb (heq ▸ hin _ (Or.inl hl))
    have hbr : b ≠ bs.headD head := fun heq => hb (heq ▸ hin _ (Or.inr hr))
    exact (view_self m).same hv (Function.update_of_ne hbl ..) (Function.update_of_ne hbr ..)

end Ring

/-! ### One operation -/

/-- Each list is a ring, and no two lists have a cell in common. -/
structure Represents (m : Memory) (lists : Registry) : Prop where
  rings : ∀ l ∈ lists, Ring (nextOf m) (prevOf m) l.1 l.2
  apart : ∀ l ∈ lists, ∀ l' ∈ lists, ∀ a, a ∈ l.1::l.2 → a ∈ l'.1::l'.2 → l = l'

/-- After an operation the lists are these, in the same cells, and no other list has been touched. -/
structure Steps (m m' : Memory) (lists lists' : Registry) (op : Op) : Prop where
  represents : Represents m' lists'
  cells : cells m' = cells m
  others : ∀ l ∈ lists, ¬op.On l → l ∈ lists' ∧ ∀ a ∈ l.1::l.2, m' a = m a

section Steps
variable {m : Memory} {lists lists' : Registry}

lemma mem_allNodes {a : Addr} : a ∈ allNodes lists ↔ ∃ l ∈ lists, a ∈ l.1::l.2 := List.mem_flatMap

lemma Represents.cell (h : Represents m lists) {l : Addr × List Addr} (hl : l ∈ lists) {a : Addr}
    (ha : a ∈ l.1::l.2) :
    cells m a := cells_of_ring (h.rings l hl) ha

/-- What an operation has to show: the other lists keep their links, and the one it works on is a ring. -/
lemma Represents.steps (h : Represents m lists) {m' : Memory} {next' prev' : Addr → Option Addr} {op : Op}
    (hv : View m' (cells m) next' prev') (hkeep : ∀ l ∈ lists, ¬op.On l → l ∈ lists')
    (hothers : ∀ l ∈ lists, ¬op.On l → ∀ a ∈ l.1::l.2, next' a = nextOf m a ∧ prev' a = prevOf m a)
    (hrings : ∀ l ∈ lists', (l ∈ lists ∧ ¬op.On l) ∨ Ring next' prev' l.1 l.2)
    (hapart : ∀ l ∈ lists', ∀ l' ∈ lists', ∀ a, a ∈ l.1::l.2 → a ∈ l'.1::l'.2 → l = l') :
    Steps m m' lists lists' op := by
  refine ⟨⟨?_,hapart⟩,hv.cells,?_⟩
  · intro l hl
    rw [hv.next,hv.prev]
    cases hrings l hl with
    | inl hold =>
      apply (h.rings l hold.1).congr
      · intro a ha
        exact (hothers l hold.1 hold.2 a ha).1
      · intro a ha
        exact (hothers l hold.1 hold.2 a ha).2
    | inr hring => exact hring
  · intro l hl hon
    refine ⟨hkeep l hl hon,?_⟩
    intro a ha
    obtain ⟨hnext,hprev⟩ := hothers l hl hon a ha
    exact (view_self m).same hv hnext hprev

theorem Represents.init (h : Represents m lists) {head : Addr} (hcell : cells m head)
    (hfree : head ∉ allNodes lists) :
    ∃ m', listInit m head = some m' ∧ Steps m m' lists ((head,[])::lists) (.init head) := by
  obtain ⟨m',heq,hv⟩ := (view_self m).listInit hcell
  have hne : ∀ l ∈ lists, ∀ a ∈ l.1::l.2, a ≠ head := by
    intro l hl a ha hah
    exact hfree (mem_allNodes.mpr ⟨l,hl,hah ▸ ha⟩)
  refine ⟨m',heq,h.steps hv ?_ ?_ ?_ ?_⟩
  · intro l hl _
    exact List.mem_cons_of_mem _ hl
  · intro l hl _ a ha
    rw [Function.update_of_ne (hne l hl a ha),Function.update_of_ne (hne l hl a ha)]
    exact ⟨rfl,rfl⟩
  · intro l hl
    cases hl with
    | head => exact Or.inr (ring_single (Function.update_self ..) (Function.update_self ..))
    | tail _ hl => exact Or.inl ⟨hl,id⟩
  · intro l hl l' hl' a ha ha'
    cases hl with
    | head =>
      cases hl' with
      | head => rfl
      | tail _ hl' => exact absurd (List.mem_singleton.mp ha) (hne l' hl' a ha')
    | tail _ hl =>
      cases hl' with
      | head => exact absurd (List.mem_singleton.mp ha') (hne l hl a ha)
      | tail _ hl' => exact h.apart l hl l' hl' a ha ha'

/-- A list to which something may have been added. -/
lemma mem_added {l : Addr × List Addr} {head node a : Addr}
    (ha : a ∈ (if l.1 = head then (l.1,l.2++[node]) else l).1::(if l.1 = head then (l.1,l.2++[node]) else l).2) :
    a ∈ l.1::l.2 ∨ (a = node ∧ l.1 = head) := by
  by_cases hl : l.1 = head
  · rw [if_pos hl,← List.cons_append,List.mem_append,List.mem_singleton] at ha
    exact ha.imp id fun ha => ⟨ha,hl⟩
  · rw [if_neg hl] at ha
    exact Or.inl ha

theorem Represents.add (h : Represents m lists) {head node : Addr} (hhead : head ∈ lists.map Prod.fst)
    (hcell : cells m node) (hfree : node ∉ allNodes lists) : ∃ m', listAdd m head node = some m' ∧
      Steps m m' lists (lists.map fun l => if l.1 = head then (l.1,l.2++[node]) else l) (.add head node) := by
  obtain ⟨⟨head',as⟩,hl₀,hhead'⟩ := List.mem_map.mp hhead
  obtain rfl : head' = head := hhead'
  have hring := h.rings _ hl₀
  have hlast := getLastD_mem head' as
  have hne : ∀ l ∈ lists, ∀ a ∈ l.1::l.2, a ≠ node := by
    intro l hl a ha han
    exact hfree (mem_allNodes.mpr ⟨l,hl,han ▸ ha⟩)
  have honly : ∀ l ∈ lists, l.1 = head' → l = (head',as) := by
    intro l hl hhead
    exact h.apart l hl _ hl₀ head' (hhead ▸ List.mem_cons_self) List.mem_cons_self
  obtain ⟨m',heq,hv⟩ :=
    (view_self m).listAdd (h.cell hl₀ List.mem_cons_self) hcell (hne _ hl₀ _ List.mem_cons_self)
    hring.links.last (h.cell hl₀ hlast)
  refine ⟨m',heq,h.steps hv ?_ ?_ ?_ ?_⟩
  · intro l hl hon
    exact List.mem_map.mpr ⟨l,hl,if_neg hon⟩
  · intro l hl hon a ha
    have hout : a ∉ head'::as := fun ha' => hon (congrArg Prod.fst (h.apart l hl _ hl₀ a ha ha'))
    have hlast' : a ≠ as.getLastD head' := fun heq => hout (heq ▸ hlast)
    have hhead' : a ≠ head' := fun heq => hout (heq ▸ List.mem_cons_self)
    have hnode := hne l hl a ha
    rw [Function.update_of_ne hlast',Function.update_of_ne hnode,Function.update_of_ne hhead',
      Function.update_of_ne hnode]
    exact ⟨rfl,rfl⟩
  · intro l' hl'
    obtain ⟨l,hl,rfl⟩ := List.mem_map.mp hl'
    by_cases hhead : l.1 = head'
    · rw [if_pos hhead,honly l hl hhead]
      exact Or.inr (hring.push fun hmem => hne _ hl₀ node hmem rfl)
    · rw [if_neg hhead]
      exact Or.inl ⟨hl,hhead⟩
  · intro l₁' hl₁' l₂' hl₂' a ha₁ ha₂
    obtain ⟨l₁,hl₁,rfl⟩ := List.mem_map.mp hl₁'
    obtain ⟨l₂,hl₂,rfl⟩ := List.mem_map.mp hl₂'
    have hsame : l₁ = l₂ := by
      cases mem_added ha₁ with
      | inl h₁ =>
        cases mem_added ha₂ with
        | inl h₂ => exact h.apart l₁ hl₁ l₂ hl₂ a h₁ h₂
        | inr h₂ => exact absurd h₂.1 (hne l₁ hl₁ a h₁)
      | inr h₁ =>
        cases mem_added ha₂ with
        | inl h₂ => exact absurd h₁.1 (hne l₂ hl₂ a h₂)
        | inr h₂ => exact (honly l₁ hl₁ h₁.2).trans (honly l₂ hl₂ h₂.2).symm
    rw [hsame]

theorem Represents.del (h : Represents m lists) {node : Addr} (hnode : node ∈ lists.flatMap Prod.snd) :
    ∃ m', listDel m node = some m' ∧ Steps m m' lists (lists.map fun l => (l.1,l.2.erase node)) (.del node) := by
  obtain ⟨⟨head,nodes⟩,hl₀,hmem⟩ := List.mem_flatMap.mp hnode
  obtain ⟨as,bs,hsplit⟩ := List.append_of_mem hmem
  obtain rfl : nodes = as++node::bs := hsplit
  have hring := h.rings _ hl₀
  obtain ⟨_,_,hdisj⟩ := List.nodup_append.mp (show ((head::as)++node::bs).Nodup from hring.nodup)
  have hnotin : node ∉ as := fun hin => hdisj node (List.mem_cons_of_mem head hin) node List.mem_cons_self rfl
  have honly : ∀ l ∈ lists, node ∈ l.2 → l = (head,as++node::bs) := by
    intro l hl hon
    exact h.apart l hl _ hl₀ node (List.mem_cons_of_mem l.1 hon) (List.mem_cons_of_mem head hmem)
  obtain ⟨m',heq,hcells,hring',hframe⟩ := listDel_ring hring
  refine ⟨m',heq,h.steps ⟨hcells,rfl,rfl⟩ ?_ ?_ ?_ ?_⟩
  · intro l hl hon
    apply List.mem_map.mpr
    refine ⟨l,hl,?_⟩
    rw [List.erase_of_not_mem hon]
  · intro l hl hon a ha
    have hout : a ∉ head::(as++node::bs) := by
      intro ha'
      rw [h.apart l hl _ hl₀ a ha ha'] at hon
      exact hon hmem
    rw [nextOf,prevOf,hframe a hout]
    exact ⟨rfl,rfl⟩
  · intro l' hl'
    obtain ⟨l,hl,rfl⟩ := List.mem_map.mp hl'
    by_cases hon : node ∈ l.2
    · rw [honly l hl hon,List.erase_append_right _ hnotin,List.erase_cons_head]
      exact Or.inr hring'
    · rw [List.erase_of_not_mem hon]
      exact Or.inl ⟨hl,hon⟩
  · intro l₁' hl₁' l₂' hl₂' a ha₁ ha₂
    obtain ⟨l₁,hl₁,rfl⟩ := List.mem_map.mp hl₁'
    obtain ⟨l₂,hl₂,rfl⟩ := List.mem_map.mp hl₂'
    have hsub (l : Addr × List Addr) : l.1::l.2.erase node ⊆ l.1::l.2 :=
      List.cons_subset_cons l.1 List.erase_subset
    rw [h.apart l₁ hl₁ l₂ hl₂ a (hsub l₁ ha₁) (hsub l₂ ha₂)]

end Steps

/-! ### Runs -/

section Runs
variable {m : Memory} {lists lists' : Registry}

/-- An operation that makes sense succeeds, and does what it should. -/
theorem Represents.exec (h : Represents m lists) {op : Op} (hspec : specStep (cells m) lists op = some lists') :
    ∃ m', op.exec m = some m' ∧ Steps m m' lists lists' op := by
  cases op with
  | init head =>
    obtain ⟨hok,hlists⟩ := Option.ite_none_right_eq_some.mp hspec
    obtain rfl := Option.some.inj hlists
    exact h.init hok.1 hok.2
  | add head node =>
    obtain ⟨hok,hlists⟩ := Option.ite_none_right_eq_some.mp hspec
    obtain rfl := Option.some.inj hlists
    exact h.add hok.1 hok.2.1 hok.2.2
  | del node =>
    obtain ⟨hok,hlists⟩ := Option.ite_none_right_eq_some.mp hspec
    obtain rfl := Option.some.inj hlists
    exact h.del hok

theorem Represents.run (h : Represents m lists) {ops : List Op}
    (hspec : Transition.run (specStep (cells m)) lists ops = some lists') :
    ∃ m', Transition.run Op.exec m ops = some m' ∧ Represents m' lists' ∧ cells m' = cells m := by
  induction ops generalizing m lists with
  | nil => exact ⟨m,rfl,Option.some.inj hspec ▸ h,rfl⟩
  | cons op ops ih =>
    obtain ⟨lists₁,hstep,hrest⟩ := Option.bind_eq_some_iff.mp hspec
    obtain ⟨m₁,hexec,hsteps⟩ := h.exec hstep
    rw [← hsteps.cells] at hrest
    obtain ⟨m',hrun,hm',hcells⟩ := ih hsteps.represents hrest
    refine ⟨m',?_,hm',hcells.trans hsteps.cells⟩
    rw [Transition.run,hexec]
    exact hrun

/-- A loop along one link runs for the nodes of the ring. -/
lemma passes_eq {link : Option Addr → Option (Option Addr)} {next prev : Addr → Option Addr} {x head : Addr}
    {as : List Addr} (h : Segment next prev x as head) (hlink : ∀ a ∈ as, link a = some (next a))
    (hhead : head ∉ as) {fuel : ℕ} (hfuel : as.length < fuel) : passes link head fuel (next x) = some as := by
  induction as generalizing x fuel with
  | nil =>
    obtain ⟨fuel,rfl⟩ := Nat.exists_eq_succ_of_ne_zero (Nat.ne_of_gt hfuel)
    rw [h.1,passes,if_pos rfl]
  | cons a as ih =>
    obtain ⟨fuel,rfl⟩ := Nat.exists_eq_succ_of_ne_zero (Nat.ne_of_gt (Nat.zero_lt_of_lt hfuel))
    obtain ⟨hne,hrest⟩ := not_or.mp (List.mem_cons.not.mp hhead)
    have hpasses := ih h.2.2 (fun b hb => hlink b (List.mem_cons_of_mem a hb)) hrest (Nat.lt_of_succ_lt_succ hfuel)
    have hlinked := hlink a List.mem_cons_self
    rw [h.1,passes,if_neg fun heq => hne (Option.some.inj heq).symm]
    simp [hlinked,hpasses]

theorem Represents.forEach (h : Represents m lists) {l : Addr × List Addr} (hl : l ∈ lists) {fuel : ℕ}
    (hfuel : l.2.length < fuel) : listForEach m fuel l.1 = some l.2 ∧
    listForEach2 m fuel l.1 = some l.2.reverse := by
  have hring := h.rings l hl
  have hcells : ∀ a ∈ l.1::l.2, cells m a := fun a ha => h.cell hl ha
  have hhead := (List.nodup_cons.mp hring.nodup).1
  constructor
  · unfold listForEach
    rw [(view_self m).readNext (hcells _ List.mem_cons_self)]
    apply passes_eq hring.links _ hhead hfuel
    intro a ha
    exact (view_self m).readNext (hcells a (List.mem_cons_of_mem l.1 ha))
  · unfold listForEach2
    rw [(view_self m).readPrev (hcells _ List.mem_cons_self)]
    apply passes_eq hring.reverse.links _ _ (by rwa [List.length_reverse])
    · intro a ha
      exact (view_self m).readPrev (hcells a (List.mem_cons_of_mem l.1 (List.mem_reverse.mp ha)))
    · exact fun hin => hhead (List.mem_reverse.mp hin)

/-- The neighbours of a node point back to it. -/
theorem Represents.neighbours (h : Represents m lists) {l : Addr × List Addr} (hl : l ∈ lists) {a : Addr}
    (ha : a ∈ l.1::l.2) : (readNext m a).bind (readPrev m) = some (some a) ∧
      (readPrev m a).bind (readNext m) = some (some a) := by
  have hring := h.rings l hl
  obtain ⟨b,hb,hnext,hback⟩ := hring.next_prev ha
  have ha' : a ∈ l.1::l.2.reverse := by simpa using ha
  obtain ⟨c,hc,hprev,hforth⟩ := hring.reverse.next_prev ha'
  have hc' : c ∈ l.1::l.2 := by simpa using hc
  constructor
  · rw [(view_self m).readNext (h.cell hl ha),hnext,Option.bind_some,(view_self m).readPrev (h.cell hl hb),hback]
  · rw [(view_self m).readPrev (h.cell hl ha),hprev,Option.bind_some,(view_self m).readNext (h.cell hl hc'),hforth]

/-- After any operations in a memory, each of which makes sense for the lists so far: the loops visit the nodes
of each list in the order in which they were added, and in reverse; the neighbours of every node and head point
back to it; and a further operation leaves the lists alone on which it does not work. -/
theorem lists_well_formed (m : Memory) (ops : List Op) (lists : Registry)
    (hspec : Transition.run (specStep (cells m)) [] ops = some lists) :
    ∃ m', Transition.run Op.exec m ops = some m' ∧
      (∀ l ∈ lists,
        (∀ fuel, l.2.length < fuel → listForEach m' fuel l.1 = some l.2 ∧
        listForEach2 m' fuel l.1 = some l.2.reverse) ∧
        ∀ a ∈ l.1::l.2, (readNext m' a).bind (readPrev m') = some (some a) ∧
          (readPrev m' a).bind (readNext m') = some (some a)) ∧
      ∀ op lists', specStep (cells m) lists op = some lists' → ∃ m'', op.exec m' = some m'' ∧
        ∀ l ∈ lists, ¬op.On l → l ∈ lists' ∧ ∀ a ∈ l.1::l.2, m'' a = m' a := by
  have hempty : Represents m [] := ⟨fun l hl => by simp at hl,fun l hl => by simp at hl⟩
  obtain ⟨m',hrun,hm',hcells⟩ := hempty.run hspec
  refine ⟨m',hrun,?_,?_⟩
  · intro l hl
    constructor
    · intro fuel hfuel
      exact hm'.forEach hl hfuel
    · intro a ha
      exact hm'.neighbours hl ha
  · intro op lists' hstep
    obtain ⟨m'',hexec,hsteps⟩ := hm'.exec (hcells ▸ hstep)
    exact ⟨m'',hexec,hsteps.others⟩

/-- Ten cells of which two become heads. -/
def tenCells : Memory := fun a => if a < 10 then some ⟨none,none⟩ else none

def twoLists : List Op := [.init 0,.init 1,.add 0 2,.add 1 3,.add 0 4,.add 0 5,.del 2,.add 1 2,.del 3,.del 5]

theorem lists_well_formed_two : ∃ m', Transition.run Op.exec tenCells twoLists = some m' ∧
    (∀ l ∈ ([(1,[2]),(0,[4])] : Registry),
      (∀ fuel, l.2.length < fuel → listForEach m' fuel l.1 = some l.2 ∧
      listForEach2 m' fuel l.1 = some l.2.reverse) ∧
      ∀ a ∈ l.1::l.2, (readNext m' a).bind (readPrev m') = some (some a) ∧
        (readPrev m' a).bind (readNext m') = some (some a)) ∧
    ∀ op lists', specStep (cells tenCells) [(1,[2]),(0,[4])] op = some lists' →
    ∃ m'', op.exec m' = some m'' ∧
      ∀ l ∈ ([(1,[2]),(0,[4])] : Registry), ¬op.On l → l ∈ lists' ∧ ∀ a ∈ l.1::l.2, m'' a = m' a :=
  lists_well_formed tenCells twoLists [(1,[2]),(0,[4])] (by decide)

end Runs

end JustKit.Lists
