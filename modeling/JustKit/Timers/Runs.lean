import JustKit.Timers.Accounts

/-! Runs of pushes and timeout calls, and the final destruction. A timer is lost exactly through the
removal that meets another timer with the same deadline first. -/
namespace JustKit.Timers
open Foundations Foundations.HTree JustKit.Avl

/-- One call, with what its environment answers. -/
inductive Op where
  | push (timeout : UInt64) (cb : ℕ) (free : Option ℕ) (data : ℕ) (alloc : Option Addr) (now : UInt64)
  | process (ticks : List Tick)

def Op.exec (T : Timer) : Op → Option Timer
  | .push timeout cb free data alloc now => (timerPush T timeout cb free data alloc now).map Prod.fst
  | .process ticks => (timerProcessTimeout T ticks).map Prod.fst

def run (T : Timer) : List Op → Option Timer
  | [] => some T
  | op::ops => do run (← op.exec T) ops

/-- `malloc` returns no address in use. -/
def Op.Fresh (T : Timer) : Op → Prop
  | .push _ _ _ _ alloc _ => ∀ a, alloc = some a → T.nodes a = none
  | .process _ => True

/-- Every pass of a call of `jk_timer_process_timeout` is safe in the state it starts from. -/
def SafeTicks (T : Timer) : List Tick → Prop
  | [] => True
  | tick::ticks => tick.Safe T ∧ ∀ T' n, processPass T tick = some (T',some n) → SafeTicks T' ticks

/-- A push needs room on the path stack; every pass must meet the first timer by its key. -/
def Op.Safe (T : Timer) : Op → Prop
  | .push timeout _ _ _ alloc now => alloc ≠ none → ∀ t, Represents T.tree t → InsertFits t (timeout+now)
  | .process ticks => SafeTicks T ticks

/-- Every call of the run is fresh and safe in the state it starts from. -/
def SafeRun (T : Timer) : List Op → Prop
  | [] => True
  | op::ops => op.Fresh T ∧ op.Safe T ∧ ∀ T', op.exec T = some T' → SafeRun T' ops

theorem Kept.process {T : Timer} {t : HTree (Item Addr)} {ticks : List Tick} (h : Kept T t)
    (hs : SafeTicks T ticks) : ∃ T' t' e, timerProcessTimeout T ticks = some (T',e) ∧ Kept T' t' := by
  induction ticks generalizing T t with
  | nil => exact ⟨T,t,_,rfl,h⟩
  | cons tick ticks ih =>
    obtain ⟨hsafe,hrest⟩ := hs
    obtain ⟨T₁,t₁,n,h1,h2,_⟩ := h.pass hsafe
    cases n with
    | none => exact ⟨T₁,t₁,([],true),by simp [timerProcessTimeout,h1],h2⟩
    | some n =>
      obtain ⟨T₂,t₂,⟨events,ended⟩,h3,h4⟩ := ih h2 (hrest T₁ n h1)
      exact ⟨T₂,t₂,(n::events,ended),by simp [timerProcessTimeout,h1,h3],h4⟩

theorem Kept.exec {T : Timer} {t : HTree (Item Addr)} {op : Op} (h : Kept T t) (hf : op.Fresh T)
    (hs : op.Safe T) : ∃ T' t', op.exec T = some T' ∧ Kept T' t' := by
  cases op with
  | push timeout cb free data alloc now =>
    cases alloc with
    | none => exact ⟨T,t,rfl,h⟩
    | some a =>
      obtain ⟨T',t',h1,h2⟩ := h.push timeout now cb data free (hf a rfl)
        (hs (by simp) t h.avl.rep)
      exact ⟨T',t',by simp [Op.exec,h1],h2⟩
  | process ticks =>
    obtain ⟨T',t',e,h1,h2⟩ := h.process hs
    exact ⟨T',t',by simp [Op.exec,h1],h2⟩

theorem run_kept {T : Timer} {t : HTree (Item Addr)} {ops : List Op} (h : Kept T t) (hs : SafeRun T ops) :
    ∃ T' t', run T ops = some T' ∧ Kept T' t' := by
  induction ops generalizing T t with
  | nil => exact ⟨T,t,rfl,h⟩
  | cons op ops ih =>
    obtain ⟨hf,hsafe,hrest⟩ := hs
    obtain ⟨T₁,t₁,h1,h2⟩ := h.exec hf hsafe
    obtain ⟨T₂,t₂,h3,h4⟩ := ih h2 (hrest T₁ h1)
    exact ⟨T₂,t₂,by simp [run,h1,h3],h4⟩

/-- An initial part of a run: it may end between two passes of a timeout call. -/
inductive Initial : List Op → List Op → Prop
  | nil (ops : List Op) : Initial [] ops
  | cons (op : Op) {pre ops : List Op} : Initial pre ops → Initial (op::pre) (op::ops)
  | inside {ticks' ticks : List Tick} (ops : List Op) : ticks' <+: ticks →
      Initial [.process ticks'] (.process ticks::ops)

lemma SafeTicks.of_prefix {T : Timer} {ticks' ticks : List Tick} (h : SafeTicks T ticks)
    (hp : ticks' <+: ticks) : SafeTicks T ticks' := by
  induction ticks' generalizing T ticks with
  | nil => trivial
  | cons tick ticks' ih =>
    obtain ⟨rest,rfl⟩ := hp
    exact ⟨h.1,fun T' n hT => ih (h.2 T' n hT) ⟨rest,rfl⟩⟩

lemma SafeRun.initial {T : Timer} {pre ops : List Op} (h : SafeRun T ops) (hp : Initial pre ops) :
    SafeRun T pre := by
  induction hp generalizing T with
  | nil ops => trivial
  | cons op _ ih => exact ⟨h.1,h.2.1,fun T' hT => ih (h.2.2 T' hT)⟩
  | inside ops hticks => exact ⟨h.1,SafeTicks.of_prefix h.2.1 hticks,fun _ _ => trivial⟩

/-! ### Destruction -/

/-- Destroying a subtree releases its timers and touches no other node. -/
theorem timerTreeNodeDestroy_spec (u : HTree (Item Addr)) (T : Timer) (fuel : ℕ) (hu : Holds T.tree.mem u)
    (hn : (addrs u).Nodup) (hself : ∀ i ∈ u.toList, i.data = i.addr ∧ (T.nodes i.addr).isSome)
    (hfree : T.freeCalls = T.released.filterMap TimerNode.freeCall) (hfuel : u.toList.length ≤ fuel) :
    ∃ T', timerTreeNodeDestroy fuel T (ptr u) = some T' ∧ T'.pushed = T.pushed ∧
      (T'.released.map some).Perm (pending T u ++ T.released.map some) ∧
      T'.freeCalls = T'.released.filterMap TimerNode.freeCall ∧
      ∀ b ∉ addrs u, T'.tree.mem b = T.tree.mem b ∧ T'.nodes b = T.nodes b := by
  induction u generalizing T fuel with
  | nil => exact ⟨T,by cases fuel <;> rfl,rfl,by simp [pending],hfree,fun b _ => ⟨rfl,rfl⟩⟩
  | node l a h r hl hr =>
    obtain ⟨ha,hml,hmr⟩ := hu
    obtain ⟨hal,har,hnl,hnr,hdisj⟩ := nodup_node.mp hn
    simp only [toList_node,List.length_append,List.length_cons] at hfuel
    cases fuel with
    | zero => omega
    | succ fuel =>
      obtain ⟨hda,hna⟩ := hself a (by simp)
      obtain ⟨n,hna⟩ := Option.isSome_iff_exists.mp hna
      obtain ⟨T₁,h1,p1,r1,f1,o1⟩ := hl T fuel hml hnl (fun i hi => hself i (by simp [hi])) hfree (by omega)
      have hoff : ∀ b ∈ addrs r, T₁.tree.mem b = T.tree.mem b ∧ T₁.nodes b = T.nodes b :=
        fun b hb => o1 b fun hm => hdisj hm hb
      obtain ⟨T₂,h2,p2,r2,f2,o2⟩ := hr T₁ fuel (holds_congr (fun b hb => (hoff b hb).1) hmr) hnr
        (fun i hi => ⟨(hself i (by simp [hi])).1,by
          rw [(hoff i.addr (List.mem_map_of_mem hi)).2]
          exact (hself i (by simp [hi])).2⟩) f1 (by omega)
      have m1 := o1 a.addr hal
      have m2 := o2 a.addr har
      refine ⟨⟨⟨T₂.tree.root,T₂.tree.mem.free a.addr⟩,T₂.nodes.free a.addr,T₂.pushed,
        T₂.released++[n],T₂.freeCalls++n.freeCall.toList⟩,?_,p2.trans p1,?_,?_,?_⟩
      · simp [timerTreeNodeDestroy,ha,h1,m1.1,h2,m2.1,timerRelease,hda,m2.2,m1.2,hna]
      · have hp : pending T₁ r = pending T r := pending_congr fun b hb => (hoff b hb).2
        rw [hp] at r2
        simp only [List.map_append,List.map_cons,List.map_nil]
        refine (List.perm_append_singleton _ _).trans ?_
        refine ((r2.trans (r1.append_left _)).cons _).trans ?_
        simp only [pending,toList_node,List.map_append,List.map_cons,hna,List.append_assoc,List.cons_append]
        exact (List.Perm.cons _ (List.perm_append_comm_assoc _ _ _)).trans List.perm_middle.symm
      · simp only [f2,List.filterMap_append]
        cases hc : n.freeCall <;> simp [hc]
      · intro b hb
        simp only [addrs_node,List.mem_append,List.mem_cons,not_or] at hb
        obtain ⟨hbl,hba,hbr⟩ := hb
        simp [hba,(o2 b hbr).1,(o2 b hbr).2,(o1 b hbl).1,(o1 b hbl).2]

/-- `jk_timer_destroy` releases every pending timer. -/
theorem Kept.destroy {T : Timer} {t : HTree (Item Addr)} (h : Kept T t) :
    ∃ T', timerDestroy T = some T' ∧ T'.pushed = T.pushed ∧ T'.released.Perm T'.pushed ∧
      T'.freeCalls = T'.released.filterMap TimerNode.freeCall := by
  obtain ⟨T',h1,h2,h3,h4,_⟩ := timerTreeNodeDestroy_spec t T T.pushed.length h.avl.rep.holds h.avl.rep.nodup
    (fun i hi => ⟨h.self i hi,Option.isSome_iff_exists.mpr (h.allocated hi)⟩) h.freed h.length_le
  refine ⟨T',by rw [timerDestroy,h.avl.rep.root,h1],h2,?_,h4⟩
  have hp := h3.trans h.once
  rw [h2]
  exact (List.map_perm_map_iff (Option.some_injective _)).mp hp

lemma kept_init : Kept timerInit nil :=
  ⟨⟨⟨rfl,trivial,by simp⟩,by simp [pending,timerInit],rfl,rfl⟩,
    ⟨⟨rfl,trivial,by simp⟩,valid_nil,List.Pairwise.nil⟩,by simp⟩

/-- In a safe run no timer is ever lost: after every call, and between the passes of a timeout call,
each pushed timer is one node of the tree or released, and the final destruction leaves every pushed
timer released once, its free callback called if it has one. -/
theorem timer_never_lost (ops : List Op) (h : SafeRun timerInit ops) :
    (∀ pre, Initial pre ops → ∃ T t, run timerInit pre = some T ∧ Accounted T t) ∧
    ∃ T T', run timerInit ops = some T ∧ timerDestroy T = some T' ∧ T'.pushed = T.pushed ∧
      T'.released.Perm T'.pushed ∧ (T'.pushed.map TimerNode.serial).Nodup ∧
      T'.freeCalls = T'.released.filterMap TimerNode.freeCall := by
  constructor
  · intro pre hp
    obtain ⟨T,t,h1,h2⟩ := run_kept kept_init (h.initial hp)
    exact ⟨T,t,h1,h2.toAccounted⟩
  · obtain ⟨T,t,h1,h2⟩ := run_kept kept_init h
    obtain ⟨T',h3,h4,h5,h6⟩ := h2.destroy
    refine ⟨T,T',h1,h3,h4,h5,?_,h6⟩
    rw [h4,h2.serials]
    exact List.nodup_range

/-- Two timers, the first of which is called and scheduled anew. -/
def rescheduledRun : List Op :=
  [.push 5 0 none 0 (some 1) 0,.push 7 0 (some 3) 0 (some 2) 0,.process [⟨6,3,6⟩]]

lemma rescheduledRun_safe : SafeRun timerInit rescheduledRun := by
  refine ⟨fun a ha => by cases ha; rfl,?_,?_⟩
  · intro _ t ht
    obtain rfl : t = nil := ht.unique ⟨rfl,trivial,by simp⟩
    decide
  intro T hT
  cases hT
  refine ⟨fun a ha => by cases ha; rfl,?_,?_⟩
  · intro _ t ht
    obtain rfl : t = node nil ⟨1,5,1⟩ 1 nil := ht.unique ⟨rfl,⟨rfl,trivial,trivial⟩,by decide⟩
    decide
  intro T hT
  cases hT
  refine ⟨trivial,⟨?_,fun _ _ _ => trivial⟩,fun _ _ => trivial⟩
  intro t d rest ht hl _
  obtain rfl : t = node nil ⟨1,5,1⟩ 2 (node nil ⟨2,7,2⟩ 1 nil) :=
    ht.unique ⟨rfl,⟨rfl,trivial,⟨rfl,trivial,trivial⟩⟩,by decide⟩
  cases hl
  refine ⟨⟨1,rfl⟩,?_,fun _ => ?_⟩
  · intro gs l e k r hl
    cases hl
    decide
  · intro gs l e k r hl
    cases hl
    decide

theorem timer_never_lost_rescheduled :
    (∀ pre, Initial pre rescheduledRun → ∃ T t, run timerInit pre = some T ∧ Accounted T t) ∧
    ∃ T T', run timerInit rescheduledRun = some T ∧ timerDestroy T = some T' ∧ T'.pushed = T.pushed ∧
      T'.released.Perm T'.pushed ∧ (T'.pushed.map TimerNode.serial).Nodup ∧
      T'.freeCalls = T'.released.filterMap TimerNode.freeCall :=
  timer_never_lost rescheduledRun rescheduledRun_safe

/-- Three timers with one deadline, and one pass that finds the first of them due. -/
def lostRun : List Op :=
  [.push 5 0 none 0 (some 1) 0,.push 5 0 none 0 (some 2) 0,.push 5 0 none 0 (some 3) 0,
    .process [⟨5,0,5⟩]]

/-- The pass empties the tree, and two of the timers are never released. -/
theorem equal_deadlines_lose : ∃ T T', run timerInit lostRun = some T ∧ (∀ t, ¬ Accounted T t) ∧
    timerDestroy T = some T' ∧ ¬ T'.released.Perm T'.pushed := by
  refine ⟨_,_,rfl,?_,rfl,?_⟩
  · intro t ht
    have hnil : t = nil := ptr_eq_none.mp ht.rep.root.symm
    subst hnil
    have hlen := ht.once.length_eq
    revert hlen
    decide
  · intro hp
    have hlen := hp.length_eq
    revert hlen
    decide

end JustKit.Timers
