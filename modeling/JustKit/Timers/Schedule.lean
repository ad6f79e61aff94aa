import JustKit.Timers.Runs

/-! What the timers are for: a queue of deadlines with equal ones in the order they were made. Every safe
run of the program does what this queue does, and its callbacks come in the order of their deadlines. -/
namespace JustKit.Timers
open Foundations Foundations.HTree JustKit.Avl

/-! ### The queue of deadlines -/

/-- The pending timers with their deadlines, the timers released, and the number of those pushed. -/
structure Agenda where
  queue : List (UInt64 × TimerNode)
  released : List TimerNode
  pushed : ℕ

/-- What a caller sees of one call: the return value of a push; the callbacks of a timeout call with their
deadlines, and whether the call has returned. -/
inductive Outcome where
  | pushed (retval : ℤ)
  | processed (log : List (UInt64 × TimerNode)) (ended : Bool)

namespace Agenda

/-- A timer takes its place behind all that are not due later. -/
def enter (q : UInt64 × TimerNode) (queue : List (UInt64 × TimerNode)) : List (UInt64 × TimerNode) :=
  queue.orderedInsert (fun x y => x.1 < y.1) q

/-- The first timer is called if it is due. -/
def pass (A : Agenda) (tick : Tick) : Agenda × Option (UInt64 × TimerNode) :=
  match A.queue with
  | [] => (A,none)
  | (k,n)::queue =>
    if tick.current < k then (A,none)
    else if 0 < tick.retval then ({ A with queue := enter (tick.newKey,n) queue },some (k,n))
    else (⟨queue,A.released++[n],A.pushed⟩,some (k,n))

def timeout (A : Agenda) : List Tick → Agenda × List (UInt64 × TimerNode) × Bool
  | [] => (A,[],false)
  | tick::ticks =>
    match A.pass tick with
    | (A,none) => (A,[],true)
    | (A,some q) =>
      let (A,log,ended) := A.timeout ticks
      (A,q::log,ended)

def exec (A : Agenda) : Op → Agenda × Outcome
  | .push timeout cb free data alloc now =>
    match alloc with
    | none => (A,.pushed (-1))
    | some _ => (⟨enter (timeout+now,⟨cb,free,data,A.pushed⟩) A.queue,A.released,A.pushed+1⟩,.pushed 0)
  | .process ticks =>
    let (A,log,ended) := A.timeout ticks
    (A,.processed log ended)

def run (A : Agenda) : List Op → Agenda × List Outcome
  | [] => (A,[])
  | op::ops =>
    let (A,o) := A.exec op
    let (A,os) := A.run ops
    (A,o::os)

end Agenda

/-! ### The program, observed -/

/-- The deadline that the loop compares with the clock. -/
def firstDeadline (T : Timer) : Option UInt64 := do
  let node ← timerMinNode T
  return (← T.tree.mem (← node)).key

/-- `jk_timer_process_timeout` with the deadlines of the timers called. -/
def timerProcessLog (T : Timer) : List Tick → Option (Timer × List (UInt64 × TimerNode) × Bool)
  | [] => some (T,[],false)
  | tick::ticks => do
    match ← processPass T tick with
    | (T',none) => return (T',[],true)
    | (T',some n) =>
      let k ← firstDeadline T
      let (T',log,ended) ← timerProcessLog T' ticks
      return (T',(k,n)::log,ended)

def Op.observe (T : Timer) : Op → Option (Timer × Outcome)
  | .push timeout cb free data alloc now =>
    (timerPush T timeout cb free data alloc now).map fun r => (r.1,.pushed r.2)
  | .process ticks => (timerProcessLog T ticks).map fun r => (r.1,.processed r.2.1 r.2.2)

def runObserved (T : Timer) : List Op → Option (Timer × List Outcome)
  | [] => some (T,[])
  | op::ops => do
    let (T,o) ← op.observe T
    let (T,os) ← runObserved T ops
    return (T,o::os)

/-- The tree holds the queue, in its order. -/
structure Realises (T : Timer) (t : HTree (Item Addr)) (A : Agenda) : Prop extends Kept T t where
  queue : agenda T t = A.queue.map fun q => (q.1,some q.2)
  released : T.released = A.released
  pushed : T.pushed.length = A.pushed

lemma realises_init : Realises timerInit nil ⟨[],[],0⟩ := ⟨kept_init,rfl,rfl,rfl⟩

/-- An insertion into the tree enters the queue. -/
lemma agenda_insert (T : Timer) {t : HTree (Item Addr)} (ho : Ordered Item.key t.toList) (i : Item Addr) :
    agenda T (insertNode Item.key i t) =
      (agenda T t).orderedInsert (fun x y => x.1 < y.1) (i.key,T.nodes i.addr) := by
  obtain ⟨hb,ha⟩ := descend_between Item.key i.key t [] ho (by simp) (by simp)
  rw [agenda,agenda,insertNode_toList,toList_eq_descend Item.key i.key t,List.map_append,List.map_append,
    List.map_cons]
  symm
  apply @IsStableSort.orderedInsert_eq _ _ _ Prod.fst
  · intro q hq
    obtain ⟨j,hj,rfl⟩ := List.mem_map.mp hq
    exact hb j hj
  · intro q hq
    obtain ⟨j,hj,rfl⟩ := List.mem_map.mp hq
    exact ha j hj

lemma map_enter (q : UInt64 × TimerNode) (queue : List (UInt64 × TimerNode)) :
    (Agenda.enter q queue).map (fun q => (q.1,some q.2)) =
      (queue.map fun q => (q.1,some q.2)).orderedInsert (fun x y => x.1 < y.1) (q.1,some q.2) :=
  List.map_orderedInsert _ _ _ _ _ (fun _ _ => Iff.rfl) (fun _ _ => Iff.rfl)

namespace Realises
variable {T : Timer} {t : HTree (Item Addr)} {A : Agenda}

theorem push (h : Realises T t A) {timeout now : UInt64} (cb data : ℕ) (free : Option ℕ) {a : Addr}
    (ha : T.nodes a = none) (hfit : InsertFits t (timeout+now)) :
    ∃ T' t', timerPush T timeout cb free data (some a) now = some (T',0) ∧
      Realises T' t' (A.exec (.push timeout cb free data (some a) now)).1 := by
  obtain ⟨T',t',h1,h2⟩ := h.toKept.push timeout now cb data free ha hfit
  have hnew : a ∉ addrs t := h.notMem_addrs ha
  obtain ⟨s,hs,he⟩ := Option.bind_eq_some_iff.mp h1
  cases he
  -- The tree is the one that the insertion into `t` makes.
  obtain rfl := h2.avl.rep.unique (h.avl.insert_of_some hnew hs).rep
  refine ⟨_,_,h1,h2,?_,h.released,?_⟩
  · rw [agenda_insert _ h.avl.ordered,agenda_congr (T := T) fun b hb =>
      Mem.put_of_ne (fun he : b = a => hnew (he ▸ hb)) _ _]
    dsimp only [Agenda.exec]
    rw [map_enter,h.queue,Mem.put_same,h.pushed]
  · simp [Agenda.exec,h.pushed]

/-- The first timer of the queue is the first of the tree. -/
lemma first (h : Realises T t A) {d : Item Addr} {rest : List (Item Addr)} (hl : t.toList = d::rest) :
    ∃ n queue, A.queue = (d.key,n)::queue ∧ T.nodes d.addr = some n ∧
      rest.map (fun i => (i.key,T.nodes i.addr)) = queue.map fun q => (q.1,some q.2) := by
  have hq := h.queue
  rw [agenda,hl] at hq
  obtain ⟨⟨k,n⟩,queue,hA,he,hrest⟩ := List.map_eq_cons_iff.mp hq.symm
  obtain ⟨rfl,hn⟩ := Prod.mk.inj he
  exact ⟨n,queue,hA,hn.symm,hrest.symm⟩

lemma queue_nil (h : Realises T t A) (hl : t.toList = []) : A.queue = [] := by
  have hq := h.queue
  rw [agenda,hl] at hq
  exact List.map_eq_nil_iff.mp hq.symm

end Realises

/-- An exact removal of the first node leaves the others in their order. -/
lemma Taken.rest_eq {T : Timer} {t u : HTree (Item Addr)} {d : Item Addr} {n : TimerNode} {s : Store Addr}
    {rest : List (Item Addr)} (h : Taken T t d n s u) (ht : Kept T t) (hl : t.toList = d::rest)
    (hfirst : FoundFirst T.tree d) (hs : avlRemove T.tree d.addr = some s) : u.toList = rest := by
  obtain ⟨gs,l,k,r,hloc⟩ := locate_of_foundFirst ht.avl (by simp [hl]) hfirst
  obtain ⟨u',h1,h2⟩ := ht.avl.remove_of_some hloc hs
  have hn := ht.avl.rep.nodup
  rw [addrs,hl] at hn
  rw [h.avl.rep.unique h1.rep,h2,hl]
  exact @filter_addr _ [] rest d hn

/-- Scheduled anew, the timer enters the queue of the others. -/
lemma Taken.agenda_reschedule {T : Timer} {t u t' : HTree (Item Addr)} {d : Item Addr} {n : TimerNode}
    {s s₁ s₂ : Store Addr} (h : Taken T t d n s u) (ht : Kept T t) {key : UInt64}
    (h1 : s.modify d.addr (fun k => { k with key := key }) = some s₁) (h2 : avlInsert s₁ d.addr = some s₂)
    (h3 : Kept { T with tree := s₂ } t') :
    agenda { T with tree := s₂ } t' = (agenda T u).orderedInsert (fun x y => x.1 < y.1) (key,some n) := by
  obtain ⟨j,hj,_⟩ := Option.map_eq_some_iff.mp h.payload
  rw [Store.modify_eq hj] at h1
  cases h1
  obtain rfl := h3.avl.rep.unique (h.avl.insert_of_some (h.notMem ht) h2).rep
  rw [← h.node]
  exact agenda_insert { T with tree := s₂ } h.avl.ordered _

theorem Realises.pass {T : Timer} {t : HTree (Item Addr)} {A : Agenda} (h : Realises T t A) {tick : Tick}
    (hsafe : tick.Safe T) : ∃ T' t', processPass T tick = some (T',(A.pass tick).2.map Prod.snd) ∧
      Realises T' t' (A.pass tick).1 ∧ ∀ q, (A.pass tick).2 = some q → firstDeadline T = some q.1 := by
  have hmin := h.minNode
  cases hl : t.toList with
  | nil =>
    rw [hl] at hmin
    have hpass : A.pass tick = (A,none) := by rw [Agenda.pass,h.queue_nil hl]
    rw [hpass]
    exact ⟨T,t,by simp [processPass,hmin],h,fun q hq => by cases hq⟩
  | cons d rest =>
    rw [hl] at hmin
    have hd : d ∈ t.toList := by simp [hl]
    obtain ⟨k,hk,hp⟩ := Option.map_eq_some_iff.mp (h.avl.rep.holds.mem_payload hd)
    have hkey : k.key = d.key := congrArg Prod.fst hp
    obtain ⟨n,queue,hA,hn,hrest⟩ := h.first hl
    have hdead : firstDeadline T = some d.key := by simp [firstDeadline,hmin,hk,hkey]
    by_cases hdue : tick.current < d.key
    · have hpass : A.pass tick = (A,none) := by simp [Agenda.pass,hA,hdue]
      rw [hpass]
      exact ⟨T,t,by simp [processPass,hmin,hk,hkey,hdue],h,fun q hq => by cases hq⟩
    obtain ⟨hfirst,hfits,hre⟩ := hsafe t d rest h.avl.rep hl (not_lt.mp hdue)
    obtain ⟨s,u,n',hremove,htaken,hins⟩ := h.removeFirst hd hfirst hfits
    obtain rfl : n = n' := Option.some.inj (hn.symm.trans htaken.node)
    have hu : agenda T u = queue.map fun q => (q.1,some q.2) := by
      rw [agenda,htaken.rest_eq h.toKept hl hfirst hremove,hrest]
    by_cases hret : 0 < tick.retval
    · have hpass : A.pass tick = ({ A with queue := Agenda.enter (tick.newKey,n) queue },some (d.key,n)) := by
        simp [Agenda.pass,hA,hdue,hret]
      obtain ⟨s₁,s₂,t',h1,h2,h3,_⟩ := htaken.reschedule h.toKept (hins _ (hre hret))
      rw [hpass]
      refine ⟨{ T with tree := s₂ },t',?_,⟨h3,?_,h.released,h.pushed⟩,fun q hq => by cases hq; exact hdead⟩
      · simp [processPass,hmin,hk,hkey,hdue,hremove,hn,hret,h1,h2]
      · rw [htaken.agenda_reschedule h.toKept h1 h2 h3,hu,map_enter]
    · have hpass : A.pass tick = (⟨queue,A.released++[n],A.pushed⟩,some (d.key,n)) := by
        simp [Agenda.pass,hA,hdue,hret]
      obtain ⟨T',h1,h2,h3,h4⟩ := htaken.release h.toKept
      have hpushed : T'.pushed = T.pushed := by
        obtain ⟨m,_,he⟩ := Option.bind_eq_some_iff.mp h1
        cases he
        rfl
      rw [hpass]
      refine ⟨T',u,?_,⟨h2,by rw [h4,hu],by rw [h3,h.released],by rw [hpushed,h.pushed]⟩,fun q hq => by
        cases hq
        exact hdead⟩
      simp [processPass,hmin,hk,hkey,hdue,hremove,hn,hret,h1]

theorem Realises.timeout {T : Timer} {t : HTree (Item Addr)} {A : Agenda} {ticks : List Tick} (h : Realises T t A)
    (hs : SafeTicks T ticks) : ∃ T' t', timerProcessLog T ticks = some (T',(A.timeout ticks).2) ∧
      Realises T' t' (A.timeout ticks).1 := by
  induction ticks generalizing T t A with
  | nil => exact ⟨T,t,rfl,h⟩
  | cons tick ticks ih =>
    obtain ⟨hsafe,hnext⟩ := hs
    obtain ⟨T₁,t₁,h1,h2,h3⟩ := h.pass hsafe
    obtain ⟨⟨A₁,r⟩,hpass⟩ : ∃ o, A.pass tick = o := ⟨_,rfl⟩
    simp only [hpass] at h1 h2 h3
    cases r with
    | none =>
      refine ⟨T₁,t₁,?_,?_⟩
      · simp [timerProcessLog,Agenda.timeout,h1,hpass]
      · simpa only [Agenda.timeout,hpass] using h2
    | some q =>
      obtain ⟨T₂,t₂,h4,h5⟩ := ih h2 (hnext T₁ q.2 h1)
      refine ⟨T₂,t₂,?_,?_⟩
      · simp [timerProcessLog,Agenda.timeout,h1,hpass,h3 q rfl,h4]
      · simpa only [Agenda.timeout,hpass] using h5

theorem Realises.exec {T : Timer} {t : HTree (Item Addr)} {A : Agenda} {op : Op} (h : Realises T t A)
    (hf : op.Fresh T) (hs : op.Safe T) :
    ∃ T' t', op.observe T = some (T',(A.exec op).2) ∧ Realises T' t' (A.exec op).1 := by
  cases op with
  | push timeout cb free data alloc now =>
    cases alloc with
    | none => exact ⟨T,t,rfl,h⟩
    | some a =>
      obtain ⟨T',t',h1,h2⟩ := h.push cb data free (hf a rfl) (hs (by simp) t h.avl.rep)
      exact ⟨T',t',by simp [Op.observe,h1,Agenda.exec],h2⟩
  | process ticks =>
    obtain ⟨T',t',h1,h2⟩ := h.timeout hs
    exact ⟨T',t',by simp [Op.observe,h1,Agenda.exec],h2⟩

/-- A pass that calls a timer has read its deadline. -/
lemma firstDeadline_of_pass {T T' : Timer} {tick : Tick} {n : TimerNode}
    (h : processPass T tick = some (T',some n)) :
    ∃ k, firstDeadline T = some k := by
  obtain ⟨r,hmin,h⟩ := Option.bind_eq_some_iff.mp h
  cases r with
  | none => cases h
  | some a =>
    obtain ⟨k,hk,_⟩ := Option.bind_eq_some_iff.mp h
    exact ⟨k.key,by simp [firstDeadline,hmin,hk]⟩

/-- Without the deadlines the log is what `jk_timer_process_timeout` calls. -/
theorem timerProcessLog_eq (T : Timer) (ticks : List Tick) :
    (timerProcessLog T ticks).map (fun r => (r.1,r.2.1.map Prod.snd,r.2.2)) = timerProcessTimeout T ticks := by
  induction ticks generalizing T with
  | nil => rfl
  | cons tick ticks ih =>
    cases hpass : processPass T tick with
    | none => simp [timerProcessLog,timerProcessTimeout,hpass]
    | some r =>
      obtain ⟨T',r⟩ := r
      cases r with
      | none => simp [timerProcessLog,timerProcessTimeout,hpass]
      | some n =>
        obtain ⟨k,hk⟩ := firstDeadline_of_pass hpass
        simp only [timerProcessLog,timerProcessTimeout,hpass,hk,← ih,Option.bind_eq_bind,Option.bind_some]
        cases timerProcessLog T' ticks <;> rfl

lemma Op.observe_fst (T : Timer) (op : Op) : (op.observe T).map Prod.fst = op.exec T := by
  cases op with
  | push timeout cb free data alloc now => simp [Op.observe,Op.exec,Function.comp_def]
  | process ticks => simp [Op.observe,Op.exec,← timerProcessLog_eq,Function.comp_def]

theorem Realises.run {T : Timer} {t : HTree (Item Addr)} {A : Agenda} {ops : List Op} (h : Realises T t A)
    (hs : SafeRun T ops) : ∃ T' t', runObserved T ops = some (T',(A.run ops).2) ∧
    Realises T' t' (A.run ops).1 := by
  induction ops generalizing T t A with
  | nil => exact ⟨T,t,rfl,h⟩
  | cons op ops ih =>
    obtain ⟨hf,hsafe,hnext⟩ := hs
    obtain ⟨T₁,t₁,h1,h2⟩ := h.exec hf hsafe
    obtain ⟨T₂,t₂,h3,h4⟩ := ih h2 (hnext T₁ (by rw [← Op.observe_fst,h1]; rfl))
    exact ⟨T₂,t₂,by simp [runObserved,h1,h3,Agenda.run],h4⟩

/-- Every safe run of pushes and timeout calls, with whatever deadlines, shows the outcomes of the queue of
deadlines: the same return values, the same callbacks in the same order, the same timers pending in the
same order and the same ones released. -/
theorem timer_refines_agenda (ops : List Op) (h : SafeRun timerInit ops) :
    ∃ T t, runObserved timerInit ops = some (T,((⟨[],[],0⟩ : Agenda).run ops).2) ∧ Represents T.tree t ∧
      agenda T t = ((⟨[],[],0⟩ : Agenda).run ops).1.queue.map (fun q => (q.1,some q.2)) ∧
      T.released = ((⟨[],[],0⟩ : Agenda).run ops).1.released := by
  obtain ⟨T,t,h1,h2⟩ := realises_init.run h
  exact ⟨T,t,h1,h2.avl.rep,h2.queue,h2.released⟩

theorem timer_refines_agenda_rescheduled : ∃ T t,
    runObserved timerInit rescheduledRun = some (T,((⟨[],[],0⟩ : Agenda).run rescheduledRun).2) ∧
    Represents T.tree t ∧
      agenda T t = ((⟨[],[],0⟩ : Agenda).run rescheduledRun).1.queue.map (fun q => (q.1,some q.2)) ∧
      T.released = ((⟨[],[],0⟩ : Agenda).run rescheduledRun).1.released :=
  timer_refines_agenda rescheduledRun rescheduledRun_safe

/-! ### The order of the callbacks -/

/-- The clock readings that the code makes. -/
def Tick.readings (tick : Tick) : List UInt64 :=
  if 0 < tick.retval then [tick.current,tick.later] else [tick.current]

def Op.readings : Op → List UInt64
  | .push _ _ _ _ alloc now => if alloc = none then [] else [now]
  | .process ticks => ticks.flatMap Tick.readings

/-- No deadline of the call wraps around 64 bits. -/
def Op.NoWrap : Op → Prop
  | .push timeout _ _ _ _ now => timeout.toNat+now.toNat < 2^64
  | .process ticks => ∀ tick ∈ ticks, 0 < tick.retval → tick.retval+tick.later.toNat < 2^64

/-- The callbacks that a call has made. -/
def Outcome.log : Outcome → List (UInt64 × TimerNode)
  | .pushed _ => []
  | .processed log _ => log

/-- The callbacks made and the queue are in one order, and the deadlines of the former have been reached. -/
structure Orderly (log : List (UInt64 × TimerNode)) (clock : UInt64) (A : Agenda) : Prop where
  sorted : (log++A.queue).Pairwise fun x y => x.1 ≤ y.1
  past : ∀ q ∈ log, q.1 ≤ clock

lemma Tick.later_le_newKey {tick : Tick} (h : 0 < tick.retval) (hw : tick.retval+tick.later.toNat < 2^64) :
    tick.later ≤ tick.newKey := by
  have hof : (UInt64.ofInt tick.retval).toNat = tick.retval.toNat := by
    rw [UInt64.ofInt,Int.emod_eq_of_lt h.le (by omega),UInt64.toNat_ofNat']
    exact Nat.mod_eq_of_lt (by omega)
  rw [UInt64.le_iff_toNat_le,Tick.newKey,UInt64.toNat_add,hof,Nat.mod_eq_of_lt (by omega)]
  omega

/-- After the readings of one pass the clock goes on from the last of them. -/
lemma Tick.readings_rise {clock : UInt64} {tick : Tick} {rest : List UInt64}
    (h : (clock::(tick.readings++rest)).Pairwise (· ≤ ·)) :
    clock ≤ tick.current ∧ ∃ clock', tick.current ≤ clock' ∧ (0 < tick.retval → clock' = tick.later) ∧
      (clock'::rest).Pairwise (· ≤ ·) := by
  unfold Tick.readings at h
  split_ifs at h with hret
  · simp only [List.cons_append,List.nil_append] at h
    obtain ⟨hclock,h⟩ := List.pairwise_cons.mp h
    obtain ⟨hcurrent,h⟩ := List.pairwise_cons.mp h
    exact ⟨hclock _ (by simp),tick.later,hcurrent _ (by simp),fun _ => rfl,h⟩
  · simp only [List.cons_append,List.nil_append] at h
    obtain ⟨hclock,h⟩ := List.pairwise_cons.mp h
    exact ⟨hclock _ (by simp),tick.current,le_rfl,fun hpos => absurd hpos hret,h⟩

namespace Orderly
variable {log : List (UInt64 × TimerNode)} {clock : UInt64} {A : Agenda}

lemma wait (h : Orderly log clock A) {clock' : UInt64} (hc : clock ≤ clock') : Orderly log clock' A :=
  ⟨h.sorted,fun q hq => (h.past q hq).trans hc⟩

/-- A deadline that is still to come enters behind all callbacks made. -/
lemma enter (h : Orderly log clock A) {k : UInt64} (hk : clock ≤ k) (n : TimerNode) :
    (log++Agenda.enter (k,n) A.queue).Pairwise fun x y => x.1 ≤ y.1 :=
  @IsStableSort.pairwise_orderedInsert _ _ _ Prod.fst _ _ _ h.sorted fun q hq => (h.past q hq).trans hk

/-- One pass moves the head of the queue to the end of the log: together they stay as they are. -/
theorem pass (h : Orderly log clock A) {tick : Tick} {clock' : UInt64} (hc : clock ≤ tick.current)
    (hc' : tick.current ≤ clock') (hnew : 0 < tick.retval → clock' ≤ tick.newKey) :
    Orderly (log++(A.pass tick).2.toList) clock' (A.pass tick).1 := by
  unfold Agenda.pass
  cases hq : A.queue with
  | nil => simpa using h.wait (hc.trans hc')
  | cons q queue =>
    obtain ⟨k,n⟩ := q
    dsimp only
    split_ifs with hdue hret
    · simpa using h.wait (hc.trans hc')
    all_goals
      have hmoved : Orderly (log++[(k,n)]) clock' ⟨queue,A.released,A.pushed⟩ := by
        have hsorted := h.sorted
        rw [hq,List.append_cons] at hsorted
        refine ⟨hsorted,fun q hmem => ?_⟩
        rcases List.mem_append.mp hmem with hmem | hmem
        · exact (h.past q hmem).trans (hc.trans hc')
        · rw [List.mem_singleton.mp hmem]
          exact (not_lt.mp hdue).trans hc'
    · exact ⟨hmoved.enter (hnew hret) n,hmoved.past⟩
    · exact ⟨hmoved.sorted,hmoved.past⟩

theorem timeout (h : Orderly log clock A) {ticks : List Tick} {rest : List UInt64}
    (hrise : (clock::(ticks.flatMap Tick.readings++rest)).Pairwise (· ≤ ·))
    (hwrap : ∀ tick ∈ ticks, 0 < tick.retval → tick.retval+tick.later.toNat < 2^64) :
    ∃ clock', Orderly (log++(A.timeout ticks).2.1) clock' (A.timeout ticks).1 ∧
      (clock'::rest).Pairwise (· ≤ ·) := by
  induction ticks generalizing log clock A with
  | nil => exact ⟨clock,by simpa [Agenda.timeout] using h,hrise⟩
  | cons tick ticks ih =>
    rw [List.flatMap_cons,List.append_assoc] at hrise
    obtain ⟨hc,clock',hc',hlater,hrise'⟩ := Tick.readings_rise hrise
    have hstep := h.pass hc hc' fun hret => by
      rw [hlater hret]
      exact Tick.later_le_newKey hret (hwrap tick List.mem_cons_self hret)
    obtain ⟨⟨A₁,r⟩,hpass⟩ : ∃ o, A.pass tick = o := ⟨_,rfl⟩
    rw [hpass] at hstep
    cases r with
    | none =>
      refine ⟨clock',by simpa [Agenda.timeout,hpass] using hstep,?_⟩
      exact hrise'.sublist ((List.sublist_append_right _ _).cons_cons _)
    | some q =>
      obtain ⟨clock₂,h1,h2⟩ := ih hstep hrise' fun tick' ht => hwrap tick' (List.mem_cons_of_mem _ ht)
      exact ⟨clock₂,by simpa [Agenda.timeout,hpass] using h1,h2⟩

theorem exec (h : Orderly log clock A) {op : Op} {rest : List UInt64}
    (hrise : (clock::(op.readings++rest)).Pairwise (· ≤ ·)) (hwrap : op.NoWrap) :
    ∃ clock', Orderly (log++(A.exec op).2.log) clock' (A.exec op).1 ∧ (clock'::rest).Pairwise (· ≤ ·) := by
  cases op with
  | push timeout cb free data alloc now =>
    cases alloc with
    | none => exact ⟨clock,by simpa [Agenda.exec,Outcome.log] using h,hrise⟩
    | some a =>
      obtain ⟨hclock,hrise⟩ := List.pairwise_cons.mp hrise
      have hc : clock ≤ now := hclock now (by simp [Op.readings])
      have hsum : now ≤ timeout+now := by
        rw [UInt64.le_iff_toNat_le,UInt64.toNat_add,Nat.mod_eq_of_lt hwrap]
        omega
      refine ⟨now,?_,hrise⟩
      have hwait := h.wait hc
      simp only [Agenda.exec,Outcome.log,List.append_nil]
      exact ⟨hwait.enter hsum _,hwait.past⟩
  | process ticks => exact h.timeout hrise hwrap

theorem run (h : Orderly log clock A) {ops : List Op} (hrise : (clock::ops.flatMap Op.readings).Pairwise (· ≤ ·))
    (hwrap : ∀ op ∈ ops, op.NoWrap) :
    ∃ clock', Orderly (log++(A.run ops).2.flatMap Outcome.log) clock' (A.run ops).1 := by
  induction ops generalizing log clock A with
  | nil => exact ⟨clock,by simpa [Agenda.run] using h⟩
  | cons op ops ih =>
    rw [List.flatMap_cons] at hrise
    obtain ⟨clock',h1,h2⟩ := h.exec hrise (hwrap op List.mem_cons_self)
    obtain ⟨clock₂,h3⟩ := ih h1 h2 fun op' hop => hwrap op' (List.mem_cons_of_mem _ hop)
    exact ⟨clock₂,by simpa [Agenda.run,List.append_assoc] using h3⟩

end Orderly

/-- When the clock never goes back and no deadline wraps around, the callbacks of a whole run come in the
order of their deadlines, and no timer left pending is due before one of those called. -/
theorem deadlines_in_order (ops : List Op) (h : SafeRun timerInit ops)
    (hclock : (ops.flatMap Op.readings).Pairwise (· ≤ ·)) (hwrap : ∀ op ∈ ops, op.NoWrap) :
    ∃ T t outcomes, runObserved timerInit ops = some (T,outcomes) ∧ Represents T.tree t ∧
      (outcomes.flatMap Outcome.log).Pairwise (fun x y => x.1 ≤ y.1) ∧
      ∀ q ∈ outcomes.flatMap Outcome.log, ∀ i ∈ t.toList, q.1 ≤ i.key := by
  obtain ⟨T,t,h1,h2⟩ := realises_init.run h
  have hstart : Orderly [] 0 ⟨[],[],0⟩ := ⟨List.Pairwise.nil,fun q hq => by cases hq⟩
  obtain ⟨clock,h3⟩ := hstart.run (List.pairwise_cons.mpr ⟨fun _ _ => UInt64.zero_le,hclock⟩) hwrap
  obtain ⟨hlog,_,hpending⟩ := List.pairwise_append.mp h3.sorted
  refine ⟨T,t,_,h1,h2.avl.rep,hlog,fun q hq i hi => ?_⟩
  have hmem : (i.key,T.nodes i.addr) ∈ agenda T t := List.mem_map.mpr ⟨i,hi,rfl⟩
  rw [h2.queue] at hmem
  obtain ⟨p,hp,he⟩ := List.mem_map.mp hmem
  exact (Prod.mk.inj he).1 ▸ hpending q hq p hp

theorem deadlines_in_order_rescheduled : ∃ T t outcomes,
    runObserved timerInit rescheduledRun = some (T,outcomes) ∧ Represents T.tree t ∧
      (outcomes.flatMap Outcome.log).Pairwise (fun x y => x.1 ≤ y.1) ∧
      ∀ q ∈ outcomes.flatMap Outcome.log, ∀ i ∈ t.toList, q.1 ≤ i.key := by
  refine deadlines_in_order rescheduledRun rescheduledRun_safe (by decide) fun op hop => ?_
  simp only [rescheduledRun,List.mem_cons,List.not_mem_nil,or_false] at hop
  rcases hop with rfl | rfl | rfl
  · exact (by decide : (5 : UInt64).toNat+(0 : UInt64).toNat < 2^64)
  · exact (by decide : (7 : UInt64).toNat+(0 : UInt64).toNat < 2^64)
  · intro tick htick _
    obtain rfl := List.mem_singleton.mp htick
    decide

end JustKit.Timers
