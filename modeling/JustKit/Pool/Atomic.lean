import JustKit.Pool.ExactlyOnce
import JustKit.Pool.Renaming
import JustKit.Pool.Teardown

/-! The threads of the pool, interrupted between any two accesses, do what the pool does whose sections are single
events: a section takes effect at one of its accesses. -/
namespace JustKit.Pool.Threads
open Foundations Foundations.Transition Foundations.LinkedCells
variable {n m : ℕ} {φ α : Type}

/-! ### The pool with sections as events -/

/-- A push signals as `pthread_cond_signal` does. -/
def Signalled (t : Pool.State n φ α) : Pool.Event n φ α → Prop
  | .push _ _ _ malloc woken => malloc → t.Signals woken
  | _ => True

instance signalledDecidable (t : Pool.State n φ α) : (d : Pool.Event n φ α) → Decidable (Signalled t d)
  | .push _ _ _ malloc woken => inferInstanceAs (Decidable (malloc → t.Signals woken))
  | .wake _ | .lock _ | .call _ | .finish _ | .free _ | .quit | .join | .freeLeft => inferInstanceAs (Decidable True)

/-- One event, where no push overlaps with `jk_thread_pool_destroy` and each signal reaches a waiting worker, if
there is one. -/
def strictStep (t : Pool.State n φ α) (d : Pool.Event n φ α) : Option (Pool.State n φ α) :=
  if Signalled t d then Pool.step t d else none

lemma strictStep_eq {t t' : Pool.State n φ α} {d : Pool.Event n φ α} (h : strictStep t d = some t') :
    Pool.step t d = some t' := (Option.ite_none_right_eq_some.mp h).2

/-- Both systems of the pool can take the event. -/
lemma strictStep_signalStep {t t' : Pool.State n φ α} {d : Pool.Event n φ α} (h : strictStep t d = some t') :
    signalStep t d = some t' := by
  obtain ⟨hs,hstep⟩ := Option.ite_none_right_eq_some.mp h
  cases d with
  | push call arg finish malloc woken =>
    obtain ⟨hidle,heq⟩ := Option.ite_none_right_eq_some.mp hstep
    have hdone : t.destroy ≠ .done := by simp [hidle]
    exact (if_pos ⟨hdone,hs⟩).trans heq
  | _ => exact hstep

theorem run_strict {t t' : Pool.State n φ α} {ds : List (Pool.Event n φ α)} (h : run strictStep t ds = some t') :
    run Pool.step t ds = some t' ∧ run signalStep t ds = some t' := by
  induction ds generalizing t with
  | nil => exact ⟨h,h⟩
  | cons d ds ih =>
    obtain ⟨u,hu,hrest⟩ := Option.bind_eq_some_iff.mp h
    obtain ⟨h₁,h₂⟩ := ih hrest
    exact ⟨Option.bind_eq_some_iff.mpr ⟨u,strictStep_eq hu,h₁⟩,
      Option.bind_eq_some_iff.mpr ⟨u,strictStep_signalStep hu,h₂⟩⟩

/-! ### The correspondence -/

def job (t : Task φ α) : Job φ α := ⟨t.call,t.arg,t.finish⟩

lemma finishing_job (t : Task φ α) : (job t).finishing = t.finishing.map (Action.map job) := by
  unfold Job.finishing Task.finishing
  change (if t.finish.isSome = true then _ else _) = _
  split <;> rfl

/-- Where a worker is in terms of whole sections. It has a task in hand from the access on that takes it off the
list. -/
def WorkerPc.Follows (tasks : Mem (Cell (Job φ α))) : WorkerPc → Pool.Pc (Task φ α) → Prop
  | .waiting,p => p = .waiting
  | .woken,p => p = .woken
  | .unlinked a,p | .counting a _,p | .counted a,p | .holding a,p =>
    ∃ t q, p = .holding t ∧ tasks a = some ⟨job t,q⟩
  | .called a,p => ∃ t q, p = .called t ∧ tasks a = some ⟨job t,q⟩
  | .finished a,p => ∃ t q, p = .finished t ∧ tasks a = some ⟨job t,q⟩
  | .exited,p => p = .exited
  | .top,p | .locked,p | .checking,p | .blocking,p | .testing,p | .quitting,p
  | .taking,p | .took _,p | .unlinking _ _,p =>
    p = .top ∨ p = .woken

/-- The push has put its task into the list, and has not signalled yet. -/
def PusherPc.ahead {β : Type} : PusherPc β → Bool
  | .stored _ | .counting _ _ | .counted _ => true
  | _ => false

structure Matches (s : State n m φ α) (xs : List (ℕ × Job φ α)) (t : Pool.State n φ α) : Prop where
  workers : ∀ i, (s.worker i).Follows s.tasks (t.workers i).pc
  logs : ∀ i, (t.workers i).log.map (Action.map job) = s.log i
  listed : (∀ j, (s.pusher j).ahead = false) → t.waitTasks.map job = xs.map Prod.snd
  ahead : ∀ j, (s.pusher j).ahead = true → t.waitTasks.map job = xs.tail.map Prod.snd
  quits : t.quitFlag = true ↔ t.destroy ≠ .idle
  destroy : t.destroy = s.destroyer.section
  accepted : t.accepted.map job = s.accepted
  freed : t.freed.map job = s.freed
  sound : Sound t

theorem start_matches : Matches (start n m φ α) [] (threadPoolNew n φ α) where
  workers _ := Or.inl rfl
  logs _ := rfl
  listed _ := rfl
  ahead _ h := nomatch h
  quits := by simp [threadPoolNew]
  destroy := rfl
  accepted := rfl
  freed := rfl
  sound := threadPoolNew_sound

lemma WorkerPc.Follows.congr {tasks tasks' : Mem (Cell (Job φ α))} {pc : WorkerPc} {p : Pool.Pc (Task φ α)}
    (h : pc.Follows tasks p) (htasks : ∀ a ∈ pc.blocks, tasks' a = tasks a) : pc.Follows tasks' p := by
  cases pc with
  | unlinked a | counting a _ | counted a | holding a | called a | finished a =>
    obtain ⟨t,q,hp,ha⟩ := h
    exact ⟨t,q,hp,(htasks a List.mem_cons_self).trans ha⟩
  | _ => exact h

section Steps
variable {s s' : State n m φ α} {xs xs' : List (ℕ × Job φ α)} {t t' : Pool.State n φ α}
  {i : Fin n} {j : Fin m}

lemma run_one {d : Pool.Event n φ α} (hs : Signalled t d) (h : Pool.step t d = some t') :
    run strictStep t [d] = some t' := by
  have hone : strictStep t d = some t' := (if_pos hs).trans h
  simp [run,hone]

/-- An access that does not show in terms of whole sections. -/
lemma Matches.stay (hm : Matches s xs t) (hworkers : ∀ i, (s'.worker i).Follows s'.tasks (t.workers i).pc)
    (hlog : s'.log = s.log) (hpushers : ∀ j, (s'.pusher j).ahead = (s.pusher j).ahead)
    (hd : s'.destroyer.section = s.destroyer.section) (haccepted : s'.accepted = s.accepted)
    (hfreed : s'.freed = s.freed) :
    ∃ ds t', run strictStep t ds = some t' ∧ Matches s' xs t' := by
  refine ⟨[],t,rfl,hworkers,fun i => ?_,fun h => hm.listed fun j => ?_,fun j h => hm.ahead j ?_,hm.quits,?_,?_,
    ?_,hm.sound⟩
  · rw [hlog]
    exact hm.logs i
  · rw [← hpushers j]
    exact h j
  · rw [← hpushers j]
    exact h
  · rw [hd]
    exact hm.destroy
  · rw [haccepted]
    exact hm.accepted
  · rw [hfreed]
    exact hm.freed

/-- A thread that is not busy has nothing in the list. -/
lemma PusherPc.not_ahead {β : Type} {pc : PusherPc β} (h : pc.inside = false) : pc.ahead = false := by
  cases pc <;> first | rfl | cases h

lemma Consistent.none_ahead (h : Consistent s xs) {x : Thread n m} (hx : x.busy (s.pc x) = true)
    (hxj : ∀ j, x = .pusher j → (s.pusher j).ahead = false) (j : Fin m) : (s.pusher j).ahead = false := by
  by_cases hj : (.pusher j : Thread n m) = x
  · exact hxj j hj.symm
  · exact PusherPc.not_ahead (h.turn hx hj)

lemma Consistent.release_eq (h : Consistent s xs) {x : Thread n m} {pc : x.Pc (Job φ α)}
    (hx : x.inside (s.pc x) = true) :
    s.release x pc = { s.setPc x pc with owner := none } := if_pos ((h.mutex x).mp hx)

/-- The pool sees the counter that the worker sees. -/
lemma Matches.nums (hm : Matches s xs t) (h : Consistent s xs) (hx : (s.worker i).inside = true)
    (hlag : (s.worker i).lag = 0) :
    t.taskNums = s.taskNums ∧ t.waitTasks.map job = xs.map Prod.snd := by
  have hlist := hm.listed (h.none_ahead (x := .worker i) hx (by simp))
  have hlen : t.waitTasks.length = xs.length := by simpa using congrArg List.length hlist
  have hnums := h.worker_nums hx
  rw [hlag,add_zero] at hnums
  exact ⟨by rw [hm.sound.count,hlen,hnums],hlist⟩

lemma DestroyerPc.section_idle {pc : DestroyerPc} (h : pc.quits = false) : pc.section = .idle := by
  cases pc <;> first | rfl | cases h

lemma DestroyerPc.section_quits {pc : DestroyerPc} (h : pc.quits = true) (hin : pc.inside = false) :
    pc.section ≠ .idle := by
  cases pc <;> simp_all [DestroyerPc.quits,DestroyerPc.inside,DestroyerPc.section]

/-- The pool sees the flag that the worker sees. -/
lemma Matches.flag (hm : Matches s xs t) (h : Consistent s xs) (hx : (s.worker i).inside = true) :
    t.quitFlag = s.quitFlag := by
  have hd : s.destroyer.inside = false :=
    Thread.inside_of_not_busy (h.turn (x := .worker i) (y := .destroyer) hx (by simp))
  cases hq : s.quitFlag with
  | false =>
    have hidle := DestroyerPc.section_idle (h.phases.flag.symm.trans hq)
    cases htq : t.quitFlag with
    | false => rfl
    | true => exact absurd (hm.destroy.trans hidle) (hm.quits.mp htq)
  | true =>
    have hne := DestroyerPc.section_quits (h.phases.flag.symm.trans hq) hd
    exact hm.quits.mpr (by rwa [hm.destroy])

/-! ### Workers -/

lemma State.worker_moves {pc : WorkerPc} (hpc : s'.pc = Function.update s.pc (.worker i) pc) :
    s'.worker i = pc ∧ (∀ k, k ≠ i → s'.worker k = s.worker k) ∧ (∀ j, s'.pusher j = s.pusher j) ∧
      s'.destroyer = s.destroyer := by
  refine ⟨?_,fun k hk => State.pc_of_ne hpc (y := .worker k) (by simpa using hk),
    fun j => State.pc_of_ne hpc (y := .pusher j) (by simp),State.destroyer_worker hpc⟩
  rw [State.worker,hpc,Function.update_self]

/-- A worker moves, which does not show. -/
lemma Matches.worker_stay (hm : Matches s xs t) {pc : WorkerPc} (hpc : s'.pc = Function.update s.pc (.worker i) pc)
    (hfollows : pc.Follows s.tasks (t.workers i).pc) (htasks : s'.tasks = s.tasks) (hlog : s'.log = s.log)
    (haccepted : s'.accepted = s.accepted) (hfreed : s'.freed = s.freed) :
    ∃ ds t', run strictStep t ds = some t' ∧ Matches s' xs t' := by
  obtain ⟨hself,hother,hpusher,hd⟩ := State.worker_moves hpc
  apply hm.stay _ hlog (fun j => by rw [hpusher]) (by rw [hd]) haccepted hfreed
  intro k
  rw [htasks]
  by_cases hk : k = i
  · subst hk
    rw [hself]
    exact hfollows
  · rw [hother k hk]
    exact hm.workers k

/-- A worker moves, and so does the worker of the pool. -/
lemma Matches.worker_does (hm : Matches s xs t) {pc : WorkerPc} {w : Worker (Task φ α)} {d : Pool.Event n φ α}
    (hpc : s'.pc = Function.update s.pc (.worker i) pc) (hd : Signalled t d) (hstep : Pool.step t d = some t')
    (hw : t'.workers = Function.update t.workers i w) (hfollows : pc.Follows s'.tasks w.pc)
    (htasks : ∀ k, k ≠ i → ∀ a ∈ (s.worker k).blocks, s'.tasks a = s.tasks a)
    (hlog : w.log.map (Action.map job) = s'.log i) (hlogs : ∀ k, k ≠ i → s'.log k = s.log k)
    (hlisted : (∀ j, (s.pusher j).ahead = false) → t'.waitTasks.map job = xs'.map Prod.snd)
    (hahead : ∀ j, (s.pusher j).ahead = true → t'.waitTasks.map job = xs'.tail.map Prod.snd)
    (hsame : t'.quitFlag = t.quitFlag ∧ t'.destroy = t.destroy ∧ t'.accepted = t.accepted ∧ t'.freed = t.freed)
    (hsame' : s'.accepted = s.accepted ∧ s'.freed = s.freed) :
    ∃ ds t', run strictStep t ds = some t' ∧ Matches s' xs' t' := by
  obtain ⟨hself,hother,hpusher,hdest⟩ := State.worker_moves hpc
  obtain ⟨hquit,hdestroy,haccepted,hfreed⟩ := hsame
  refine ⟨[d],t',run_one hd hstep,fun k => ?_,fun k => ?_,fun h => hlisted fun j => ?_,
    fun j h => hahead j ?_,?_,?_,?_,?_,hm.sound.step hstep⟩
  · rw [hw]
    by_cases hk : k = i
    · subst hk
      rw [hself,Function.update_self]
      exact hfollows
    · rw [hother k hk,Function.update_of_ne hk]
      exact (hm.workers k).congr (htasks k hk)
  · rw [hw]
    by_cases hk : k = i
    · subst hk
      rw [Function.update_self]
      exact hlog
    · rw [Function.update_of_ne hk,hlogs k hk]
      exact hm.logs k
  · rw [← hpusher j]
    exact h j
  · rw [← hpusher j]
    exact h
  · rw [hquit,hdestroy]
    exact hm.quits
  · rw [hdestroy,hdest]
    exact hm.destroy
  · rw [haccepted,hsame'.1]
    exact hm.accepted
  · rw [hfreed,hsame'.2]
    exact hm.freed

/-- A worker waits, or exits. -/
lemma Matches.worker_stops (hm : Matches s xs t) {pc : WorkerPc} {p : Pool.Pc (Task φ α)}
    (hpc : s'.pc = Function.update s.pc (.worker i) pc) (hp : (t.workers i).pc = .top ∨ (t.workers i).pc = .woken)
    (hsection : threadLoopSection t i = t.setPc i p) (hfollows : pc.Follows s.tasks p) (htasks : s'.tasks = s.tasks)
    (hlog : s'.log = s.log) (hsame : s'.accepted = s.accepted ∧ s'.freed = s.freed) :
    ∃ ds t', run strictStep t ds = some t' ∧ Matches s' xs t' := by
  have hstep : Pool.step t (.lock i) = some (t.setPc i p) := by
    rcases hp with hp | hp <;> simp [Pool.step,hp,hsection]
  refine hm.worker_does hpc (show Signalled t (.lock i) from trivial) hstep rfl ?_ ?_ ?_ ?_ hm.listed hm.ahead
    ⟨rfl,rfl,rfl,rfl⟩ hsame
  · rw [htasks]
    exact hfollows
  · intro k _ a _
    rw [htasks]
  · rw [hlog]
    exact hm.logs i
  · intro k _
    rw [hlog]

/-- A worker goes on with its task. -/
lemma Matches.worker_acts (hm : Matches s xs t) {pc : WorkerPc} {p : Pool.Pc (Task φ α)}
    {as : List (Action (Task φ α))} {d : Pool.Event n φ α} (hpc : s'.pc = Function.update s.pc (.worker i) pc)
    (hd : Signalled t d) (hstep : Pool.step t d = some (t.setWorker i ⟨p,(t.workers i).log++as⟩))
    (hfollows : pc.Follows s'.tasks p)
    (htasks : ∀ k, k ≠ i → ∀ a ∈ (s.worker k).blocks, s'.tasks a = s.tasks a)
    (hlog : s'.log = Function.update s.log i (s.log i++as.map (Action.map job)))
    (hsame : s'.accepted = s.accepted ∧ s'.freed = s.freed) :
    ∃ ds t', run strictStep t ds = some t' ∧ Matches s' xs t' := by
  refine hm.worker_does hpc hd hstep rfl hfollows htasks ?_ ?_ hm.listed hm.ahead ⟨rfl,rfl,rfl,rfl⟩ hsame
  · rw [hlog,Function.update_self,List.map_append,hm.logs i]
  · intro k hk
    rw [hlog,Function.update_of_ne hk]

/-- The access that takes a task off the list is the section of the worker. -/
lemma Matches.unlink (hm : Matches s xs t) (h : Consistent s xs) {a : ℕ} {p : Option ℕ}
    (hpc : s.worker i = .unlinking a p)
    (hs' : s' = { s.setPc (.worker i) (WorkerPc.unlinked a) with waitTasks := p }) :
    ∃ ds t', run strictStep t ds = some t' ∧ Matches s' xs.tail t' := by
  have hfits : (s.worker i).Fits s := h.fits (.worker i)
  have hx : (s.worker i).inside = true := by simp [hpc,WorkerPc.inside]
  have hnone := h.none_ahead (x := .worker i) hx (by simp)
  have hfollows := hm.workers i
  obtain ⟨hnums,hlist⟩ := hm.nums h hx (by simp [hpc,WorkerPc.lag])
  have hflag := hm.flag h hx
  rw [hpc] at hfits hfollows
  obtain ⟨hq,hn,hw,_⟩ := hfits
  obtain ⟨b,q,rest,rfl,hb⟩ := h.first (h.phases.running (i := i) (by simp [hpc])) hw
  cases hwait : t.waitTasks with
  | nil =>
    rw [hwait] at hlist
    cases hlist
  | cons task ts =>
    rw [hwait] at hlist
    obtain ⟨hjob,hts⟩ := List.cons.inj hlist
    set t' : Pool.State n φ α := { t.setPc i (.holding task) with
      waitTasks := ts, taskNums := wrap 32 (t.taskNums-1), taken := t.taken++[task] } with ht'
    have hsection : threadLoopSection t i = t' := by
      have hpos : ¬t.taskNums ≤ 0 := by omega
      have hquit : t.quitFlag = false := hflag.trans hq
      simp [threadLoopSection,hquit,hpos,hwait,ht']
    have hstep : Pool.step t (.lock i) = some t' := by
      rcases hfollows with hp | hp <;> simp [Pool.step,hp,hsection]
    subst hs'
    have hfollows' : WorkerPc.Follows s.tasks (.unlinked a) (.holding task) := by
      refine ⟨task,q,rfl,?_⟩
      rw [hjob]
      exact hb
    refine hm.worker_does rfl (show Signalled t (.lock i) from trivial) hstep rfl hfollows'
      (fun _ _ _ _ => rfl) (hm.logs i)
      (fun _ _ => rfl) (fun _ => hts) (fun j hj => ?_) ⟨rfl,rfl,rfl,rfl⟩ ⟨rfl,rfl⟩
    rw [hnone j] at hj
    cases hj

/-- `next` of the first task is read. -/
lemma Matches.worker_reach (hm : Matches s xs t) {p : Option ℕ} (hpc : s.worker i = .took p)
    (hs' : s' = s.access p fun a c => s.setPc (.worker i) (WorkerPc.unlinking a c.next)) :
    ∃ ds t', run strictStep t ds = some t' ∧ Matches s' xs t' := by
  subst hs'
  have hfollows := hm.workers i
  rw [hpc] at hfollows
  unfold State.access
  cases p with
  | none => exact hm.stay hm.workers rfl (fun _ => rfl) rfl rfl rfl
  | some a =>
    cases hc : s.tasks a with
    | none =>
      simp only [hc]
      exact hm.stay hm.workers rfl (fun _ => rfl) rfl rfl rfl
    | some c =>
      simp only [hc]
      have hunlinking : (WorkerPc.unlinking a c.next).Follows s.tasks (t.workers i).pc := hfollows
      exact hm.worker_stay rfl hunlinking rfl rfl rfl rfl

/-- The section of a worker that finds no task. -/
lemma Matches.worker_waits (hm : Matches s xs t) (h : Consistent s xs) (hpc : s.worker i = .blocking) :
    ∃ ds t', run strictStep t ds = some t' ∧ Matches (s.release (.worker i) WorkerPc.waiting) xs t' := by
  have hfits : (s.worker i).Fits s := h.fits (.worker i)
  have hfollows := hm.workers i
  have hx : (s.worker i).inside = true := by simp [hpc,WorkerPc.inside]
  obtain ⟨heq,_⟩ := hm.nums h hx (by simp [hpc,WorkerPc.lag])
  have hquit := hm.flag h hx
  rw [hpc] at hfollows hfits
  have hsection : threadLoopSection t i = t.setPc i .waiting := by
    have hle : t.taskNums ≤ 0 := heq ▸ hfits.2
    simp [threadLoopSection,hquit.trans hfits.1,hle]
  have hwaiting : WorkerPc.waiting.Follows s.tasks (.waiting : Pool.Pc (Task φ α)) := rfl
  rw [h.release_eq (x := .worker i) hx]
  exact hm.worker_stops rfl hfollows hsection hwaiting rfl rfl ⟨rfl,rfl⟩

/-- The section of a worker that finds `quit_flag` set. -/
lemma Matches.worker_quits (hm : Matches s xs t) (h : Consistent s xs) (hpc : s.worker i = .quitting) :
    ∃ ds t', run strictStep t ds = some t' ∧ Matches (s.release (.worker i) WorkerPc.exited) xs t' := by
  have hfits : (s.worker i).Fits s := h.fits (.worker i)
  have hfollows := hm.workers i
  have hx : (s.worker i).inside = true := by simp [hpc,WorkerPc.inside]
  have hquit := hm.flag h hx
  rw [hpc] at hfollows hfits
  have hsection : threadLoopSection t i = t.setPc i .exited := by
    simp [threadLoopSection,hquit.trans hfits]
  have hexited : WorkerPc.exited.Follows s.tasks (.exited : Pool.Pc (Task φ α)) := rfl
  rw [h.release_eq (x := .worker i) hx]
  exact hm.worker_stops rfl hfollows hsection hexited rfl rfl ⟨rfl,rfl⟩

/-- The function of the task is called. -/
lemma Matches.worker_calls (hm : Matches s xs t) {a : ℕ} (hpc : s.worker i = .holding a)
    (hs' : s' = s.access (some a) fun a c => s.record i (.called a) [.call c.item]) :
    ∃ ds t', run strictStep t ds = some t' ∧ Matches s' xs t' := by
  subst hs'
  have hfollows := hm.workers i
  rw [hpc] at hfollows
  obtain ⟨task,q,hp,ha⟩ := hfollows
  have hcalled : WorkerPc.Follows s.tasks (.called a) (.called task) := ⟨task,q,rfl,ha⟩
  have hdo : Pool.step t (.call i) = some (t.setWorker i ⟨.called task,(t.workers i).log++[.call task]⟩) := by
    simp [Pool.step,hp]
  simp only [State.access,ha]
  exact hm.worker_acts rfl (show Signalled t (.call i) from trivial) hdo hcalled (fun _ _ _ _ => rfl) rfl
    ⟨rfl,rfl⟩

/-- So is its `finish`, if it has one. -/
lemma Matches.worker_finishes (hm : Matches s xs t) {a : ℕ} (hpc : s.worker i = .called a)
    (hs' : s' = s.access (some a) fun a c => s.record i (.finished a) c.item.finishing) :
    ∃ ds t', run strictStep t ds = some t' ∧ Matches s' xs t' := by
  subst hs'
  have hfollows := hm.workers i
  rw [hpc] at hfollows
  obtain ⟨task,q,hp,ha⟩ := hfollows
  have hfinished : WorkerPc.Follows s.tasks (.finished a) (.finished task) := ⟨task,q,rfl,ha⟩
  have hdo : Pool.step t (.finish i) =
      some (t.setWorker i ⟨.finished task,(t.workers i).log++task.finishing⟩) := by
    simp [Pool.step,hp]
  simp only [State.access,ha,finishing_job]
  exact hm.worker_acts rfl (show Signalled t (.finish i) from trivial) hdo hfinished (fun _ _ _ _ => rfl) rfl
    ⟨rfl,rfl⟩

/-- The task is freed, which no other worker has. -/
lemma Matches.worker_frees (hm : Matches s xs t) (h : Consistent s xs) {a : ℕ} (hpc : s.worker i = .finished a)
    (hs' : s' = s.access (some a) fun a c => { s.record i .top [.free c.item] with tasks := s.tasks.free a }) :
    ∃ ds t', run strictStep t ds = some t' ∧ Matches s' xs t' := by
  subst hs'
  have hfollows := hm.workers i
  rw [hpc] at hfollows
  obtain ⟨task,q,hp,ha⟩ := hfollows
  have htop : WorkerPc.Follows (s.tasks.free a) .top (.top : Pool.Pc (Task φ α)) := Or.inl rfl
  have hdo : Pool.step t (.free i) = some (t.setWorker i ⟨.top,(t.workers i).log++[.free task]⟩) := by
    simp [Pool.step,hp]
  simp only [State.access,ha]
  refine hm.worker_acts rfl (show Signalled t (.free i) from trivial) hdo htop ?_ rfl ⟨rfl,rfl⟩
  intro k hk b hb
  apply Mem.free_of_ne
  rintro rfl
  have hin : b ∈ s.blocks xs (some (.worker i)) := by
    change b ∈ (s.worker i).blocks
    rw [hpc]
    exact List.mem_cons_self
  have hsame := h.blocks.alone (some (.worker k)) (some (.worker i)) b hb hin
  exact hk (by simpa using hsame)

/-- One access of a worker. -/
theorem Matches.threadLoop (hm : Matches s xs t) (h : Consistent s xs) (hstep : threadLoop s i = some s') :
    ∃ ds t', run strictStep t ds = some t' ∧ Matches s' ((s.worker i).after xs) t' := by
  have hfollows := hm.workers i
  unfold Threads.threadLoop at hstep
  cases hpc : s.worker i with
  | top | woken =>
    rw [hpc] at hstep hfollows
    obtain ⟨_,heq⟩ := Option.ite_none_right_eq_some.mp hstep
    obtain rfl := Option.some.inj heq
    have hlocked : WorkerPc.locked.Follows s.tasks (t.workers i).pc := by
      first | exact hfollows | exact Or.inr hfollows
    exact hm.worker_stay rfl hlocked rfl rfl rfl rfl
  | locked | checking | testing =>
    rw [hpc] at hstep hfollows
    obtain rfl := Option.some.inj hstep
    refine hm.worker_stay rfl ?_ rfl rfl rfl rfl
    split <;> exact hfollows
  | taking =>
    rw [hpc] at hstep hfollows
    obtain rfl := Option.some.inj hstep
    have htook : (WorkerPc.took s.waitTasks).Follows s.tasks (t.workers i).pc := hfollows
    exact hm.worker_stay rfl htook rfl rfl rfl rfl
  | took p =>
    rw [hpc] at hstep
    exact hm.worker_reach hpc (Option.some.inj hstep).symm
  | unlinking a p =>
    rw [hpc] at hstep
    exact hm.unlink h hpc (Option.some.inj hstep).symm
  | unlinked a =>
    rw [hpc] at hstep hfollows
    obtain rfl := Option.some.inj hstep
    have hcounting : (WorkerPc.counting a s.taskNums).Follows s.tasks (t.workers i).pc := hfollows
    exact hm.worker_stay rfl hcounting rfl rfl rfl rfl
  | counting a k =>
    rw [hpc] at hstep hfollows
    obtain rfl := Option.some.inj hstep
    have hcounted : (WorkerPc.counted a).Follows s.tasks (t.workers i).pc := hfollows
    exact hm.worker_stay rfl hcounted rfl rfl rfl rfl
  | counted a =>
    rw [hpc] at hstep hfollows
    obtain rfl := Option.some.inj hstep
    have hholding : (WorkerPc.holding a).Follows s.tasks (t.workers i).pc := hfollows
    rw [h.release_eq (x := .worker i) (show (s.worker i).inside = true by simp [hpc,WorkerPc.inside])]
    exact hm.worker_stay rfl hholding rfl rfl rfl rfl
  | blocking =>
    rw [hpc] at hstep
    obtain rfl := Option.some.inj hstep
    exact hm.worker_waits h hpc
  | quitting =>
    rw [hpc] at hstep
    obtain rfl := Option.some.inj hstep
    exact hm.worker_quits h hpc
  | holding a =>
    rw [hpc] at hstep
    exact hm.worker_calls hpc (Option.some.inj hstep).symm
  | called a =>
    rw [hpc] at hstep
    exact hm.worker_finishes hpc (Option.some.inj hstep).symm
  | finished a =>
    rw [hpc] at hstep
    exact hm.worker_frees h hpc (Option.some.inj hstep).symm
  | waiting | exited =>
    rw [hpc] at hstep
    cases hstep

end Steps

end JustKit.Pool.Threads
