import JustKit.Avl.PathStack
import JustKit.Timers.Runs

/-! Timers whose pending deadlines differ at all times. Then a search by key meets no other timer, so
that a run which never overflows the path stack of the tree is safe. -/
namespace JustKit.Timers
open Foundations Foundations.HTree JustKit.Avl

/-- The pending deadlines are pairwise different. -/
def KeysDistinct (T : Timer) : Prop := ∀ t, Represents T.tree t → (t.toList.map Item.key).Nodup

/-- They are so before every pass of a call, and after the last one. -/
def DistinctTicks (T : Timer) : List Tick → Prop
  | [] => KeysDistinct T
  | tick::ticks => KeysDistinct T ∧ ∀ T' n, processPass T tick = some (T',some n) → DistinctTicks T' ticks

def Op.Distinct (T : Timer) : Op → Prop
  | .push _ _ _ _ _ _ => True
  | .process ticks => DistinctTicks T ticks

/-- They are so during the whole run, and `malloc` returns no address in use. -/
def DistinctRun (T : Timer) : List Op → Prop
  | [] => KeysDistinct T
  | op::ops => KeysDistinct T ∧ op.Fresh T ∧ op.Distinct T ∧ ∀ T', op.exec T = some T' → DistinctRun T' ops

lemma keysDistinct_of_represents {T : Timer} {t : HTree (Item Addr)} (ht : Represents T.tree t)
    (hk : (t.toList.map Item.key).Nodup) : KeysDistinct T := by
  intro t' ht'
  rwa [ht'.unique ht]

section Pass
variable {T : Timer} {t : HTree (Item Addr)} (h : Kept T t) (hk : (t.toList.map Item.key).Nodup) {tick : Tick}
include h hk

/-- The first timer is found by its key; what remains to be safe is the room on the path stacks. -/
lemma Kept.safe_of_room (hroom : ∀ gs l d k r, locate Item.key d.key t [] = some (gs,node l d k r) →
      (∀ i ∈ t.toList, d.key ≤ i.key) → d.key ≤ tick.current →
      removeSlots gs l ≤ maxHeight ∧ (0 < tick.retval → InsertFits (removeRoot gs l k r) tick.newKey)) :
    tick.Safe T := by
  intro t' d rest ht' hl hdue
  obtain rfl : t' = t := ht'.unique h.avl.rep
  have hd : d ∈ t'.toList := by simp [hl]
  obtain ⟨gs,l,k,r,hloc⟩ := locate_self h.avl.ordered hk hd
  obtain ⟨hslots,hinsert⟩ := hroom gs l d k r hloc (h.avl.first_le hl) hdue
  refine ⟨foundFirst_of_locate h.avl hloc,?_,fun hret => ?_⟩
  · intro gs' l' e k' r' hloc'
    cases hloc.symm.trans hloc'
    exact hslots
  · intro gs' l' e k' r' hloc'
    cases hloc.symm.trans hloc'
    exact hinsert hret

/-- A pass that does not overflow a path stack is safe. -/
theorem Kept.safe_of_defined (hpass : (processPass T tick).isSome) : tick.Safe T := by
  apply h.safe_of_room hk
  intro gs l d k r hloc hleast hdue
  have hd : d ∈ t.toList := by
    have hplug := (locate_plug Item.key hloc).1
    rw [plug_nil] at hplug
    rw [← hplug,plug_toList]
    simp
  have hmin : timerMinNode T = some (some d.addr) := by
    rw [h.minNode]
    cases hl : t.toList with
    | nil =>
      rw [hl] at hd
      cases hd
    | cons e rest =>
      -- The first node has the smallest key, and this is the only node with it.
      have he : e ∈ t.toList := by simp [hl]
      obtain rfl : e = d := List.inj_on_of_nodup_map hk he hd (le_antisymm (h.avl.first_le hl d hd) (hleast e he))
      rfl
  obtain ⟨k',hk',hp⟩ := Option.map_eq_some_iff.mp (h.avl.rep.holds.mem_payload hd)
  have hkey : k'.key = d.key := congrArg Prod.fst hp
  obtain ⟨hfits,hover⟩ := avlRemove_refines_self h.avl.rep hloc
  by_cases hslots : removeSlots gs l ≤ maxHeight
  · refine ⟨hslots,fun hret => ?_⟩
    by_contra hfit
    obtain ⟨s,h1,h2,_⟩ := hfits hslots
    obtain ⟨n,hn⟩ := h.allocated hd
    have hpay := (avlRemove_payload h1 d.addr).trans (h.avl.rep.holds.mem_payload hd)
    obtain ⟨j,hj,_⟩ := Option.map_eq_some_iff.mp hpay
    have hgone : d.addr ∉ addrs (removeRoot gs l k r) := by
      rw [addrs,removeRoot_toList,h.avl.rep.filter_located hloc]
      intro hm
      obtain ⟨i,hi,he⟩ := List.mem_map.mp hm
      exact of_decide_eq_true (List.mem_filter.mp hi).2 he
    have hmod : s.modify d.addr (fun k => { k with key := tick.newKey }) =
        some (s.put d.addr { j with key := tick.newKey }) := Store.modify_eq hj _
    have hnone : avlInsert (s.put d.addr { j with key := tick.newKey }) d.addr = none :=
      avlInsert_overflow (a := ⟨d.addr,tick.newKey,j.data⟩) (h2.put hgone _) (Mem.put_same _ _ _) rfl
        (not_le.mp hfit)
    simp [processPass,hmin,hk',hkey,not_lt.mpr hdue,h1,hn,hret,hmod,hnone] at hpass
  · simp [processPass,hmin,hk',hkey,not_lt.mpr hdue,hover (not_le.mp hslots)] at hpass

/-- A pass over fewer timers than the node limit is safe. -/
theorem Kept.safe_of_small (hlen : t.toList.length < nodeLimit) : tick.Safe T := by
  apply h.safe_of_room hk
  intro gs l d k r hloc _ _
  have hplug := (locate_plug Item.key hloc).1
  rw [plug_nil] at hplug
  refine ⟨h.avl.removeSlots_le hlen hloc,fun _ => ?_⟩
  have hvalid : Valid (removeRoot gs l k r) := removeRoot_valid gs l d k r (by rw [hplug]; exact h.avl.valid)
  have hshorter : (removeRoot gs l k r).toList.length ≤ t.toList.length := by
    rw [removeRoot_toList,h.avl.rep.filter_located hloc]
    exact List.length_filter_le _ _
  exact (descend_length_le Item.key _ _ hvalid).trans (stored_le_maxHeight hvalid (hshorter.trans_lt hlen))

end Pass

/-- The number of pending timers never grows in a pass. -/
lemma Passed.length_le {T T' : Timer} {t t' : HTree (Item Addr)} {tick : Tick} {r : Option TimerNode}
    (h : Passed T t tick T' t' r) : t'.toList.length ≤ t.toList.length := by
  cases h with
  | ended h => exact le_rfl
  | rescheduled first _ _ _ _ next =>
    have h1 := first.length_eq
    have h2 := next.length_eq
    simp only [agenda,List.length_map,List.length_cons] at h1 h2
    omega
  | released first _ _ _ _ next =>
    have h1 := first.length_eq
    have h2 := next.length_eq
    simp only [agenda,List.length_map,List.length_cons] at h1 h2
    omega

/-- The deadlines stay different if the new one, if any, is none of the others. -/
lemma Passed.keysDistinct {T T' : Timer} {t t' : HTree (Item Addr)} {tick : Tick} {r : Option TimerNode}
    (h : Passed T t tick T' t' r) (h' : Kept T' t') (hk : (t.toList.map Item.key).Nodup)
    (hnew : 0 < tick.retval → tick.newKey ∉ t.toList.map Item.key) : KeysDistinct T' := by
  apply keysDistinct_of_represents h'.avl.rep
  have hfst (T : Timer) (t : HTree (Item Addr)) : (agenda T t).map Prod.fst = t.toList.map Item.key := by
    simp [agenda,Function.comp_def]
  cases h with
  | ended h => exact hk
  | rescheduled first _ _ again _ next =>
    have hmem := (first.map Prod.fst).mem_iff.not.mp ((hfst T t).symm ▸ hnew again)
    have hnodup := (first.map Prod.fst).nodup_iff.mp ((hfst T t).symm ▸ hk)
    rw [← hfst T',(next.map Prod.fst).nodup_iff]
    rw [List.map_cons,List.nodup_cons] at hnodup ⊢
    rw [List.map_cons,List.mem_cons,not_or] at hmem
    exact ⟨hmem.2,hnodup.2⟩
  | released first _ _ _ _ next =>
    have hnodup := (first.map Prod.fst).nodup_iff.mp ((hfst T t).symm ▸ hk)
    rw [← hfst T',(next.map Prod.fst).nodup_iff]
    rw [List.map_cons,List.nodup_cons] at hnodup
    exact hnodup.2

/-- What a defined pass does. -/
theorem Kept.passed {T T' : Timer} {t : HTree (Item Addr)} (h : Kept T t) (hd : KeysDistinct T) {tick : Tick}
    {r : Option TimerNode} (hpass : processPass T tick = some (T',r)) : ∃ t', Kept T' t' ∧
    Passed T t tick T' t' r := by
  have hsafe := h.safe_of_defined (hd t h.avl.rep) (Option.isSome_iff_exists.mpr ⟨_,hpass⟩)
  obtain ⟨T₁,t₁,r₁,h1,h2,h3⟩ := h.pass hsafe
  cases hpass.symm.trans h1
  exact ⟨t₁,h2,h3⟩

theorem Kept.safeTicks {T : Timer} {t : HTree (Item Addr)} {ticks : List Tick} (h : Kept T t)
    (hd : DistinctTicks T ticks) (hrun : (timerProcessTimeout T ticks).isSome) : SafeTicks T ticks := by
  induction ticks generalizing T t with
  | nil => trivial
  | cons tick ticks ih =>
    obtain ⟨r,hr⟩ := Option.isSome_iff_exists.mp hrun
    obtain ⟨⟨T₁,n⟩,hpass,hrest⟩ := Option.bind_eq_some_iff.mp hr
    refine ⟨h.safe_of_defined (hd.1 t h.avl.rep) (Option.isSome_iff_exists.mpr ⟨_,hpass⟩),
      fun T' n' hpass' => ?_⟩
    cases hpass.symm.trans hpass'
    obtain ⟨t₁,h1,_⟩ := h.passed hd.1 hpass
    obtain ⟨q,hq,_⟩ := Option.bind_eq_some_iff.mp hrest
    exact ih h1 (hd.2 _ _ hpass) (Option.isSome_iff_exists.mpr ⟨q,hq⟩)

theorem Kept.safeTicks_of_small {T : Timer} {t : HTree (Item Addr)} {ticks : List Tick} (h : Kept T t)
    (hd : DistinctTicks T ticks) (hlen : t.toList.length < nodeLimit) : SafeTicks T ticks := by
  induction ticks generalizing T t with
  | nil => trivial
  | cons tick ticks ih =>
    refine ⟨h.safe_of_small (hd.1 t h.avl.rep) hlen,fun T' n hpass => ?_⟩
    obtain ⟨t₁,h1,h2⟩ := h.passed hd.1 hpass
    exact ih h1 (hd.2 _ _ hpass) (h2.length_le.trans_lt hlen)

lemma Kept.safeOp {T : Timer} {t : HTree (Item Addr)} {op : Op} (h : Kept T t) (hf : op.Fresh T)
    (hd : op.Distinct T) (hrun : (op.exec T).isSome) : op.Safe T := by
  cases op with
  | push timeout cb free data alloc now =>
    intro halloc t' ht'
    obtain rfl : t' = t := ht'.unique h.avl.rep
    obtain ⟨a,rfl⟩ := Option.ne_none_iff_exists'.mp halloc
    by_contra hfit
    have hnew : a ∉ addrs t' := h.notMem_addrs (hf a rfl)
    have hnone : avlInsert (T.tree.put a ⟨timeout+now,a,0,none,none⟩) a = none :=
      avlInsert_overflow (a := ⟨a,timeout+now,a⟩) (h.avl.rep.put hnew _) (Mem.put_same _ _ _) rfl
        (not_le.mp hfit)
    simp [Op.exec,timerPush,hnone] at hrun
  | process ticks =>
    apply h.safeTicks hd
    simpa [Op.exec] using hrun

/-- A defined run whose deadlines differ at all times is safe. -/
theorem Kept.safeRun {T : Timer} {t : HTree (Item Addr)} {ops : List Op} (h : Kept T t) (hd : DistinctRun T ops)
    (hrun : (run T ops).isSome) : SafeRun T ops := by
  induction ops generalizing T t with
  | nil => trivial
  | cons op ops ih =>
    obtain ⟨_,hf,hop,hrest⟩ := hd
    obtain ⟨T',hT'⟩ := Option.isSome_iff_exists.mp hrun
    obtain ⟨T₁,h1,h2⟩ := Option.bind_eq_some_iff.mp hT'
    have hsafe := h.safeOp hf hop (Option.isSome_iff_exists.mpr ⟨T₁,h1⟩)
    refine ⟨hf,hsafe,fun T₂ hT₂ => ?_⟩
    cases h1.symm.trans hT₂
    obtain ⟨T₃,t₃,g1,g2⟩ := h.exec hf hsafe
    cases h1.symm.trans g1
    exact ih g2 (hrest _ h1) (Option.isSome_iff_exists.mpr ⟨T',h2⟩)

/-- What such a run leads to. -/
theorem kept_of_run {ops : List Op} {T : Timer} (hd : DistinctRun timerInit ops)
    (hrun : run timerInit ops = some T) : ∃ t, Kept T t := by
  obtain ⟨T',t,h1,h2⟩ := run_kept kept_init (kept_init.safeRun hd (Option.isSome_iff_exists.mpr ⟨T,hrun⟩))
  cases hrun.symm.trans h1
  exact ⟨t,h2⟩

end JustKit.Timers
