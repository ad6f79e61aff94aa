import JustKit.Avl.EqualKeys
import JustKit.Avl.Frame
import JustKit.Timers.Model

/-! Where the pushed timers are: every one is a node of the tree or has been released. -/
namespace JustKit.Timers
open Foundations Foundations.HTree JustKit.Avl

/-- The pending timers, in the order of the tree. -/
def pending (T : Timer) (t : HTree (Item Addr)) : List (Option TimerNode) :=
  t.toList.map fun i => T.nodes i.addr

/-- The tree `t` below `timer->root` and the released timers make up the pushed timers, which have
different serial numbers, and every release has called the free callback once, if there is one. -/
structure Accounted (T : Timer) (t : HTree (Item Addr)) : Prop where
  rep : Represents T.tree t
  once : (pending T t ++ T.released.map some).Perm (T.pushed.map some)
  serials : T.pushed.map TimerNode.serial = List.range T.pushed.length
  freed : T.freeCalls = T.released.filterMap TimerNode.freeCall

/-- The tree is a valid AVL tree, and the data pointer of a tree node leads back to its timer. -/
structure Kept (T : Timer) (t : HTree (Item Addr)) : Prop extends Accounted T t where
  avl : IsAvl T.tree t
  self : ∀ i ∈ t.toList, i.data = i.addr

/-- The path of an insertion fits the path stack. -/
def InsertFits (t : HTree (Item Addr)) (key : UInt64) : Prop :=
  (descend Item.key key t []).length ≤ maxHeight

instance (t : HTree (Item Addr)) (key : UInt64) : Decidable (InsertFits t key) :=
  inferInstanceAs (Decidable ((descend Item.key key t []).length ≤ maxHeight))

/-- The same after the removal of the node found by a search for the key of `d`. -/
def ReinsertFits (t : HTree (Item Addr)) (d : Item Addr) (key : UInt64) : Prop :=
  ∀ gs l e k r, locate Item.key d.key t [] = some (gs,node l e k r) → InsertFits (removeRoot gs l k r) key

/-- If the first timer is due, the search for its key meets no other timer, and the paths fit. -/
def Tick.Safe (T : Timer) (tick : Tick) : Prop :=
  ∀ t d rest, Represents T.tree t → t.toList = d::rest → d.key ≤ tick.current →
    FoundFirst T.tree d ∧ PathFits t d ∧ (0 < tick.retval → ReinsertFits t d tick.newKey)

/-! ### Every pushed timer in one place -/

section Once
variable {T : Timer} {xs : List (Option TimerNode)} (honce : xs.Perm (T.pushed.map some))
include honce

lemma exists_of_once {r : Option TimerNode} (hr : r ∈ xs) : ∃ n, r = some n := by
  obtain ⟨n,_,hn⟩ := List.mem_map.mp (honce.mem_iff.mp hr)
  exact ⟨n,hn.symm⟩

/-- The serial numbers tell the timers apart. -/
lemma nodup_of_once (hserials : T.pushed.map TimerNode.serial = List.range T.pushed.length) : xs.Nodup := by
  have hdiffer : (T.pushed.map TimerNode.serial).Nodup := by
    rw [hserials]
    exact List.nodup_range
  exact honce.nodup_iff.mpr ((List.Nodup.of_map _ hdiffer).map (Option.some_injective _))

end Once

lemma notMem_addrs {T : Timer} {t : HTree (Item Addr)} {a : Addr} (ha : T.nodes a = none)
    (h : ∀ i ∈ t.toList, ∃ n, T.nodes i.addr = some n) : a ∉ addrs t := by
  intro hm
  obtain ⟨i,hi,rfl⟩ := List.mem_map.mp hm
  obtain ⟨n,hn⟩ := h i hi
  cases ha.symm.trans hn

/-- The data pointers of an insertion lead back to the timers if those before did. -/
lemma self_insert {t : HTree (Item Addr)} {i : Item Addr} (hi : i.data = i.addr)
    (h : ∀ j ∈ t.toList, j.data = j.addr) : ∀ j ∈ (insertNode Item.key i t).toList, j.data = j.addr := by
  intro j hj
  rcases List.mem_cons.mp ((insertNode_perm Item.key i t).mem_iff.mp hj) with rfl | hj
  · exact hi
  · exact h j hj

lemma pending_insert (T : Timer) (t : HTree (Item Addr)) (i : Item Addr) :
    (pending T (insertNode Item.key i t)).Perm (T.nodes i.addr::pending T t) :=
  (insertNode_perm Item.key i t).map fun j : Item Addr => T.nodes j.addr

lemma Kept.allocated {T : Timer} {t : HTree (Item Addr)} (h : Kept T t) {i : Item Addr} (hi : i ∈ t.toList) :
    ∃ n, T.nodes i.addr = some n :=
  exists_of_once h.once (List.mem_append_left _ (List.mem_map.mpr ⟨i,hi,rfl⟩))

lemma Kept.length_le {T : Timer} {t : HTree (Item Addr)} (h : Kept T t) : t.toList.length ≤ T.pushed.length := by
  have hl := h.once.length_eq
  simp only [pending,List.length_append,List.length_map] at hl
  omega

lemma Kept.notMem_addrs {T : Timer} {t : HTree (Item Addr)} (h : Kept T t) {a : Addr} (ha : T.nodes a = none) :
    a ∉ addrs t := Timers.notMem_addrs ha fun _ hi => h.allocated hi

lemma timerMinNode_eq {T : Timer} {t : HTree (Item Addr)} (h : IsAvl T.tree t)
    (hself : ∀ i ∈ t.toList, i.data = i.addr) (hlen : t.toList.length ≤ T.pushed.length) :
    timerMinNode T = some (t.toList.head?.map Item.addr) := by
  rw [timerMinNode,h.rep.root,avlFindMin_eq h.rep.holds hlen]
  cases hl : t.toList with
  | nil => rfl
  | cons d rest =>
    have hd : d ∈ t.toList := by simp [hl]
    have hm := h.rep.holds.mem_payload hd
    obtain ⟨n,hn,hp⟩ := Option.map_eq_some_iff.mp hm
    simp only [Node.payload,Prod.mk.injEq] at hp
    simp [hn,hp.2,hself d hd]

lemma Kept.minNode {T : Timer} {t : HTree (Item Addr)} (h : Kept T t) :
    timerMinNode T = some (t.toList.head?.map Item.addr) := timerMinNode_eq h.avl h.self h.length_le

/-- Pending timers depend on the node memory at the addresses of the tree only. -/
lemma pending_congr {T T' : Timer} {t : HTree (Item Addr)} (h : ∀ a ∈ addrs t, T'.nodes a = T.nodes a) :
    pending T' t = pending T t :=
  List.map_congr_left fun _ hi => h _ (List.mem_map_of_mem hi)

/-! ### Pushing a timer -/

theorem Kept.push {T : Timer} {t : HTree (Item Addr)} (h : Kept T t) (timeout now : UInt64) (cb data : ℕ)
    (free : Option ℕ) {a : Addr} (ha : T.nodes a = none) (hfit : InsertFits t (timeout+now)) :
    ∃ T' t', timerPush T timeout cb free data (some a) now = some (T',0) ∧ Kept T' t' := by
  have hnew : a ∉ addrs t := h.notMem_addrs ha
  obtain ⟨s,h1,h2,_⟩ := (h.avl.put hnew ⟨timeout+now,a,0,none,none⟩).insert hnew (Mem.put_same _ _ _) hfit
  let n : TimerNode := ⟨cb,free,data,T.pushed.length⟩
  let T' : Timer := { T with tree := s, nodes := T.nodes.put a n, pushed := T.pushed++[n] }
  have hpend : pending T' t = pending T t := by
    apply pending_congr
    intro b hb
    exact Mem.put_of_ne (fun he : b = a => hnew (he ▸ hb)) _ _
  refine ⟨T',_,by simp [timerPush,h1,T',n],⟨⟨h2.rep,?_,?_,h.freed⟩,h2,?_⟩⟩
  · have hp := pending_insert T' t ⟨a,timeout+now,a⟩
    have hn : T'.nodes a = some n := Mem.put_same _ _ _
    rw [hpend,hn] at hp
    simp only [T',List.map_append,List.map_cons,List.map_nil]
    exact (hp.append_right _).trans ((h.once.cons _).trans (List.perm_append_singleton _ _).symm)
  · simp [T',n,h.serials,List.range_succ]
  · exact self_insert rfl h.self

/-! ### Processing the first timer -/

/-- The pending timers with their deadlines, in the order of the tree. -/
def agenda (T : Timer) (t : HTree (Item Addr)) : List (UInt64 × Option TimerNode) :=
  t.toList.map fun i => (i.key,T.nodes i.addr)

lemma agenda_snd (T : Timer) (t : HTree (Item Addr)) : (agenda T t).map Prod.snd = pending T t := by
  simp [agenda,pending,Function.comp_def]

lemma agenda_congr {T T' : Timer} {t : HTree (Item Addr)} (h : ∀ a ∈ addrs t, T'.nodes a = T.nodes a) :
    agenda T' t = agenda T t :=
  List.map_congr_left fun i hi => by rw [h _ (List.mem_map_of_mem hi)]

/-- What one pass does to the pending and the released timers: it ends the loop, or it calls a timer that
is due and has the smallest deadline, and schedules it anew or releases it. -/
inductive Passed (T : Timer) (t : HTree (Item Addr)) (tick : Tick) :
    Timer → HTree (Item Addr) → Option TimerNode → Prop
  | ended (h : ∀ q ∈ agenda T t, tick.current < q.1) : Passed T t tick T t none
  | rescheduled {T' : Timer} {t' : HTree (Item Addr)} {k : UInt64} {n : TimerNode}
      {rest : List (UInt64 × Option TimerNode)} (first : (agenda T t).Perm ((k,some n)::rest))
      (least : ∀ q ∈ rest, k ≤ q.1) (due : k ≤ tick.current) (again : 0 < tick.retval)
      (others : T'.released = T.released) (next : (agenda T' t').Perm ((tick.newKey,some n)::rest)) :
      Passed T t tick T' t' (some n)
  | released {T' : Timer} {t' : HTree (Item Addr)} {k : UInt64} {n : TimerNode}
      {rest : List (UInt64 × Option TimerNode)} (first : (agenda T t).Perm ((k,some n)::rest))
      (least : ∀ q ∈ rest, k ≤ q.1) (due : k ≤ tick.current) (done : ¬ 0 < tick.retval)
      (last : T'.released = T.released++[n]) (next : (agenda T' t').Perm rest) :
      Passed T t tick T' t' (some n)

/-- The node `d`, which belongs to the timer `n`, has been taken out of the tree. -/
structure Taken (T : Timer) (t : HTree (Item Addr)) (d : Item Addr) (n : TimerNode) (s : Store Addr)
    (u : HTree (Item Addr)) : Prop where
  avl : IsAvl s u
  node : T.nodes d.addr = some n
  perm : (d::u.toList).Perm t.toList
  payload : (s.mem d.addr).map Node.payload = some (d.key,d.addr)

/-- What the removal of the first timer leaves. -/
lemma Kept.removeFirst {T : Timer} {t : HTree (Item Addr)} (h : Kept T t) {d : Item Addr}
    (hd : d ∈ t.toList) (hfirst : FoundFirst T.tree d) (hfits : PathFits t d) :
    ∃ s u n, avlRemove T.tree d.addr = some s ∧ Taken T t d n s u ∧ ∀ key, ReinsertFits t d key →
      InsertFits u key := by
  obtain ⟨gs,l,k,r,hl⟩ := locate_of_foundFirst h.avl hd hfirst
  have hroom := hfits gs l d k r hl
  obtain ⟨s,u,h1,h2,h3,_⟩ := (h.avl.remove hl hroom).isAvl h.avl.ordered
  obtain ⟨s',g1,g2,_⟩ := (avlRemove_refines_self h.avl.rep hl).1 hroom
  obtain rfl : s = s' := Option.some.inj (h1.symm.trans g1)
  obtain ⟨n,hn⟩ := h.allocated hd
  refine ⟨s,u,n,h1,⟨h2,hn,?_,?_⟩,?_⟩
  · rw [h3]
    exact cons_filter_addr_perm h.avl.rep.nodup hd
  · rw [avlRemove_payload h1,h.avl.rep.holds.mem_payload hd,h.self d hd]
  · intro key hk
    have hu : u = removeRoot gs l k r := h2.rep.unique g2
    rw [hu]
    exact hk gs l d k r hl

namespace Taken
variable {T : Timer} {t u : HTree (Item Addr)} {d : Item Addr} {n : TimerNode} {s : Store Addr}

lemma agenda_perm (h : Taken T t d n s u) : (agenda T t).Perm ((d.key,some n)::agenda T u) := by
  have hmap := (h.perm.map fun i => (i.key,T.nodes i.addr)).symm
  rwa [List.map_cons,h.node] at hmap

lemma pending_perm (h : Taken T t d n s u) : (some n::pending T u).Perm (pending T t) := by
  rw [← agenda_snd,← agenda_snd]
  exact (h.agenda_perm.map Prod.snd).symm

lemma mem_of_mem (h : Taken T t d n s u) {i : Item Addr} (hi : i ∈ u.toList) : i ∈ t.toList :=
  h.perm.mem_iff.mp (List.mem_cons_of_mem _ hi)

lemma notMem (h : Taken T t d n s u) (ht : Kept T t) : d.addr ∉ addrs u := by
  have hnodup := (h.perm.map Item.addr).nodup_iff.mpr ht.avl.rep.nodup
  exact (List.nodup_cons.mp hnodup).1

/-- The timer is inserted again under a new key. -/
theorem reschedule (h : Taken T t d n s u) (ht : Kept T t) {key : UInt64} (hfit : InsertFits u key) :
    ∃ s₁ s₂ t', s.modify d.addr (fun k => { k with key := key }) = some s₁ ∧
      avlInsert s₁ d.addr = some s₂ ∧ Kept { T with tree := s₂ } t' ∧
      (agenda { T with tree := s₂ } t').Perm ((key,some n)::agenda T u) := by
  obtain ⟨j,hj,hjp⟩ := Option.map_eq_some_iff.mp h.payload
  have hdata : j.data = d.addr := congrArg Prod.snd hjp
  have hnew := h.notMem ht
  obtain ⟨s₂,h1,h2,_⟩ := (h.avl.put hnew { j with key := key }).insert hnew (Mem.put_same _ _ _) hfit
  have hnext := (insertNode_perm Item.key ⟨d.addr,key,j.data⟩ u).map fun i => (i.key,T.nodes i.addr)
  rw [List.map_cons,h.node] at hnext
  refine ⟨_,s₂,_,Store.modify_eq hj _,h1,⟨⟨h2.rep,?_,ht.serials,ht.freed⟩,h2,?_⟩,hnext⟩
  · have hpend := pending_insert { T with tree := s₂ } u ⟨d.addr,key,j.data⟩
    rw [h.node] at hpend
    exact ((hpend.trans h.pending_perm).append_right _).trans ht.once
  · exact self_insert hdata fun i hi => ht.self i (h.mem_of_mem hi)

/-- The timer is released. -/
theorem release (h : Taken T t d n s u) (ht : Kept T t) :
    ∃ T', timerRelease { T with tree := s } d.addr = some T' ∧ Kept T' u ∧ T'.released = T.released++[n] ∧
      agenda T' u = agenda T u := by
  let T' : Timer := ⟨⟨s.root,s.mem.free d.addr⟩,T.nodes.free d.addr,T.pushed,T.released++[n],
    T.freeCalls++n.freeCall.toList⟩
  have hne : ∀ b ∈ addrs u, b ≠ d.addr := fun b hb he => h.notMem ht (he ▸ hb)
  have hagenda : agenda T' u = agenda T u := agenda_congr fun b hb => Mem.free_of_ne (hne b hb) _
  have havl : IsAvl T'.tree u := h.avl.congr rfl fun b hb => Mem.free_of_ne (hne b hb) _
  refine ⟨T',by simp [timerRelease,h.node,T'],⟨⟨havl.rep,?_,ht.serials,?_⟩,havl,?_⟩,rfl,hagenda⟩
  · rw [← agenda_snd,hagenda,agenda_snd]
    simp only [T',List.map_append,List.map_cons,List.map_nil]
    refine List.Perm.trans ?_ ((h.pending_perm.append_right _).trans ht.once)
    rw [← List.append_assoc]
    exact List.perm_append_singleton _ _
  · simp only [T',ht.freed,List.filterMap_append]
    cases hc : n.freeCall <;> simp [hc]
  · exact fun i hi => ht.self i (h.mem_of_mem hi)

end Taken

theorem Kept.pass {T : Timer} {t : HTree (Item Addr)} (h : Kept T t) {tick : Tick} (hsafe : tick.Safe T) :
    ∃ T' t' r, processPass T tick = some (T',r) ∧ Kept T' t' ∧ Passed T t tick T' t' r := by
  cases hl : t.toList with
  | nil =>
    refine ⟨T,t,none,by simp [processPass,h.minNode,hl],h,.ended fun q hq => ?_⟩
    rw [agenda,hl] at hq
    cases hq
  | cons d rest =>
    have hd : d ∈ t.toList := by simp [hl]
    obtain ⟨k,hk,hp⟩ := Option.map_eq_some_iff.mp (h.avl.rep.holds.mem_payload hd)
    have hkey : k.key = d.key := congrArg Prod.fst hp
    have hleast : ∀ i ∈ t.toList, d.key ≤ i.key := h.avl.first_le hl
    by_cases hdue : tick.current < d.key
    · refine ⟨T,t,none,by simp [processPass,h.minNode,hl,hk,hkey,hdue],h,.ended fun q hq => ?_⟩
      obtain ⟨i,hi,rfl⟩ := List.mem_map.mp hq
      exact hdue.trans_le (hleast i hi)
    obtain ⟨hfirst,hfits,hre⟩ := hsafe t d rest h.avl.rep hl (not_lt.mp hdue)
    obtain ⟨s,u,n,hremove,htaken,hins⟩ := h.removeFirst hd hfirst hfits
    have hn := htaken.node
    have hrest : ∀ q ∈ agenda T u, d.key ≤ q.1 := by
      intro q hq
      obtain ⟨i,hi,rfl⟩ := List.mem_map.mp hq
      exact hleast i (htaken.mem_of_mem hi)
    by_cases hret : 0 < tick.retval
    · obtain ⟨s₁,s₂,t',h1,h2,h3,h4⟩ := htaken.reschedule h (hins _ (hre hret))
      refine ⟨{ T with tree := s₂ },t',some n,?_,h3,.rescheduled htaken.agenda_perm hrest
        (not_lt.mp hdue) hret rfl h4⟩
      simp [processPass,h.minNode,hl,hk,hkey,hdue,hremove,hn,hret,h1,h2]
    · obtain ⟨T',h1,h2,h3,h4⟩ := htaken.release h
      refine ⟨T',u,some n,?_,h2,
        .released htaken.agenda_perm hrest (not_lt.mp hdue) hret h3 (h4 ▸ List.Perm.refl _)⟩
      simp [processPass,h.minNode,hl,hk,hkey,hdue,hremove,hn,hret,h1]

end JustKit.Timers
