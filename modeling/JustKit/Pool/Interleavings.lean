import JustKit.Pool.Progress
import JustKit.Pool.Simulation

/-! What the interleavings of the threads of a pool have in common: no fault, one thread in a section at a time, the
calls that the pool with sections as events makes, no block left at the end, and no deadlock. -/
namespace JustKit.Pool.Threads
open Foundations Foundations.Transition Foundations.LinkedCells
variable {n m : ℕ} {φ α : Type}

/-- What of the pool can be seen at its threads. While nobody has the mutex, the list and the counter in the
memory are those of the pool, until the destroyer has joined the workers and goes through the tasks left without
the mutex. -/
structure Shows (s : State n m φ α) (t : Pool.State n φ α) : Prop where
  logs : ∀ i, s.log i = (t.workers i).log.map (Action.map job)
  accepted : s.accepted = t.accepted.map job
  freed : s.freed = t.freed.map job
  waiting : ∀ i, s.worker i = .waiting ↔ (t.workers i).pc = .waiting
  exited : ∀ i, s.worker i = .exited ↔ (t.workers i).pc = .exited
  destroyed : s.destroyer = .done ↔ t.destroy = .done
  listed : s.owner = none → s.destroyer.alone = false → s.taskNums = t.taskNums ∧
    ∃ xs, Path s.tasks s.waitTasks xs none ∧ xs.map Prod.snd = t.waitTasks.map job

section Shows
variable {s : State n m φ α} {xs : List (ℕ × Job φ α)} {t : Pool.State n φ α}

lemma Matches.exited_iff (hm : Matches s xs t) (i : Fin n) : s.worker i = .exited ↔
    (t.workers i).pc = .exited := by
  have hfollows := hm.workers i
  constructor
  · intro hw
    rw [hw] at hfollows
    exact hfollows
  · intro hp
    rw [hp] at hfollows
    cases hpc : s.worker i <;> rw [hpc] at hfollows <;> first | rfl | simp [WorkerPc.Follows] at hfollows

/-- Nobody is in a section. -/
lemma Consistent.nobody (h : Consistent s xs) (howner : s.owner = none) (x : Thread n m) :
    x.inside (s.pc x) = false := by
  cases hx : x.inside (s.pc x) with
  | false => rfl
  | true => cases howner.symm.trans ((h.mutex x).mp hx)

lemma Refines.shows (h : Refines s t) : Shows s t := by
  obtain ⟨xs,h,hm⟩ := h
  refine ⟨fun i => (hm.logs i).symm,hm.accepted.symm,hm.freed.symm,hm.waiting_iff,hm.exited_iff,?_,
    fun howner halone => ?_⟩
  · rw [hm.destroy]
    cases s.destroyer <;> simp [DestroyerPc.section]
  · have hout := h.nobody howner
    have hlist := hm.listed fun j => PusherPc.not_ahead (hout (.pusher j))
    have hlen : t.waitTasks.length = xs.length := by simpa using congrArg List.length hlist
    have hfree : ∀ x : Thread n m, x.busy (s.pc x) = false := by
      intro x
      have hx := hout x
      cases x with
      | worker | pusher => exact hx
      | destroyer => exact Bool.or_eq_false_iff.mpr ⟨hx,halone⟩
    refine ⟨?_,xs,?_,hlist.symm⟩
    · rw [h.count hfree,hm.sound.count,hlen]
    · rw [← State.head_eq halone]
      exact h.path

end Shows

/-- In every interleaving of single accesses, with released addresses used again, no block is accessed that is not
allocated, no thread runs on when the pool is freed, and at most one thread is in a section; and what the threads
do is what some run of the pool with sections as events does. -/
theorem threads_refine_sections (es : List (Event n m φ α)) (s : State n m φ α)
    (hrun : run step (start n m φ α) es = some s) :
    s.fault = false ∧ (∀ x : Thread n m, x.inside (s.pc x) = true ↔ s.owner = some x) ∧
      ∃ ds t, run Pool.step (threadPoolNew n φ α) ds = some t ∧
      run signalStep (threadPoolNew n φ α) ds = some t ∧
        Shows s t := by
  obtain ⟨ds,t,hds,hr⟩ := run_refines hrun
  obtain ⟨hstep,hsignal⟩ := run_strict hds
  have hshows := hr.shows
  obtain ⟨xs,h,_⟩ := hr
  exact ⟨h.safe,h.mutex,ds,t,hstep,hsignal,hshows⟩

/-- Two workers and two pushing threads. One worker waits and is woken for the first task while the second is pushed,
the block of the first is used again for the third, and the pool is destroyed while the other worker has that one. -/
def busyRun (i k : Fin n) (j l : Fin m) : List (Event n m ℕ ℕ) := List.flatten [
  List.replicate 4 (.worker i),[.push j ⟨1,10,some 2⟩ (some (7,some 3)),.pusher j [],.push l ⟨1,11,none⟩
    (some (8,none))],
  List.replicate 6 (.pusher j [i]),[.pusher j []],List.replicate 10 (.worker i),[.pusher l [],.worker i],
  List.replicate 5 (.pusher l []),[.worker i,.pusher l [],.worker i,.pusher l [],.push j ⟨1,12,some 2⟩
  (some (7,none))],List.replicate 8 (.pusher j []),[.destroy],List.replicate 10 (.worker k),
  List.replicate 4 .destroyer,List.replicate 7 (.worker k),List.replicate 4 (.worker i),
  List.replicate 8 .destroyer]

lemma busyRun_ends : (run step (start 2 2 ℕ ℕ) (busyRun 0 1 0 1)).isSome := by decide +kernel

theorem threads_refine_sections_busy : ∃ s, run step (start 2 2 ℕ ℕ) (busyRun 0 1 0 1) = some s ∧
    s.accepted.length = 3 ∧ s.fault = false ∧
    (∀ x : Thread 2 2, x.inside (s.pc x) = true ↔ s.owner = some x) ∧
      ∃ ds t, run Pool.step (threadPoolNew 2 ℕ ℕ) ds = some t ∧
      run signalStep (threadPoolNew 2 ℕ ℕ) ds = some t ∧
        Shows s t := by
  have hrun := (Option.some_get busyRun_ends).symm
  exact ⟨_,hrun,by decide +kernel,threads_refine_sections (busyRun 0 1 0 1) _ hrun⟩

/-! ### Nothing is left -/

/-- The whole treatment of a task by a worker. -/
def Job.treatment (b : Job φ α) : List (Action (Job φ α)) := .call b::b.finishing++[.free b]

/-- All calls of tasks that the workers have made. -/
def State.calls (s : State n m φ α) : Multiset (Job φ α) :=
  total (fun log : List (Action (Job φ α)) => (calledTasks log : Multiset (Job φ α))) s.log

lemma treatment_job (t : Task φ α) : t.treatment.map (Action.map job) = (job t).treatment := by
  simp [Task.treatment,Job.treatment,finishing_job,Action.map]

lemma flatMap_treatment (ts : List (Task φ α)) :
    (ts.flatMap Task.treatment).map (Action.map job) = (ts.map job).flatMap Job.treatment := by
  induction ts with
  | nil => rfl
  | cons t ts ih => rw [List.flatMap_cons,List.map_append,ih,treatment_job,List.map_cons,List.flatMap_cons]

lemma calledTasks_job (log : List (Action (Task φ α))) :
    calledTasks (log.map (Action.map job)) = (calledTasks log).map job := by
  induction log with
  | nil => rfl
  | cons a log ih =>
    cases a with
    | call t => exact congrArg (job t::·) ih
    | finish | free => exact ih

section Shows
variable {s : State n m φ α} {xs : List (ℕ × Job φ α)} {t : Pool.State n φ α}

lemma Shows.calls (h : Shows s t) : s.calls = t.calls.map job := by
  have hone : ∀ i, (calledTasks (s.log i) : Multiset (Job φ α)) =
      Multiset.mapAddMonoidHom job (calledTasks (t.workers i).log : Multiset (Task φ α)) := by
    intro i
    rw [h.logs i,calledTasks_job]
    rfl
  have hsum := map_sum (Multiset.mapAddMonoidHom job)
    (fun i => (calledTasks (t.workers i).log : Multiset (Task φ α))) Finset.univ
  exact (Finset.sum_congr rfl fun i _ => hone i).trans hsum.symm

/-- Each worker has treated its tasks one after the other. -/
lemma Shows.treated (h : Shows s t)
    (hlogs : ∀ i, ∃ done : List (Task φ α), (t.workers i).log = done.flatMap Task.treatment)
    (i : Fin n) : ∃ done : List (Job φ α), s.log i = done.flatMap Job.treatment := by
  obtain ⟨done,hdone⟩ := hlogs i
  exact ⟨done.map job,by rw [h.logs i,hdone,flatMap_treatment]⟩

/-- When no thread has a block and the list is empty, there is none. -/
lemma Consistent.no_blocks (h : Consistent s []) (hblocks : ∀ x : Thread n m, x.blocks (s.pc x) = []) :
    s.tasks = fun _ => none := by
  funext a
  by_contra ha
  obtain ⟨k,hk⟩ := (h.blocks.covers a).mp ha
  cases k with
  | none => cases hk
  | some x =>
    change a ∈ x.blocks (s.pc x) at hk
    rw [hblocks x] at hk
    cases hk

end Shows

/-- When `jk_thread_pool_destroy` returns, in any interleaving, the mutex is free, no block of a task is left,
every job accepted has been called or freed, and each worker has treated its tasks completely, one after the
other. -/
theorem threads_leave_nothing (es : List (Event n m φ α)) (s : State n m φ α)
    (hrun : run step (start n m φ α) es = some s) (hdone : s.destroyer = .done) :
    s.fault = false ∧ s.owner = none ∧ s.tasks = (fun _ => none) ∧
      (s.accepted : Multiset (Job φ α)) = s.calls+s.freed ∧
        ∀ i, ∃ done : List (Job φ α), s.log i = done.flatMap Job.treatment := by
  obtain ⟨ds,t,_,hr⟩ := run_refines hrun
  have hshows := hr.shows
  obtain ⟨xs,h,hm⟩ := hr
  have hend := hshows.destroyed.mp hdone
  obtain ⟨hexited,hidle⟩ := h.gone hdone
  obtain ⟨heq,hlogs⟩ := hm.sound.destroyed hend
  have hout : ∀ x : Thread n m, x.inside (s.pc x) = false := by
    intro x
    cases x with
    | worker i => exact congrArg WorkerPc.inside (hexited i)
    | pusher j => exact congrArg PusherPc.inside (hidle j)
    | destroyer => exact congrArg DestroyerPc.inside hdone
  refine ⟨h.safe,?_,?_,?_,hshows.treated hlogs⟩
  · cases howner : s.owner with
    | none => rfl
    | some x =>
      have hin := (h.mutex x).mpr howner
      rw [hout x] at hin
      cases hin
  · have hlist := hm.listed fun j => PusherPc.not_ahead (hout (.pusher j))
    rw [hm.sound.done hend] at hlist
    obtain rfl : xs = [] := List.map_eq_nil_iff.mp hlist.symm
    apply h.no_blocks
    intro x
    cases x with
    | worker i => exact congrArg WorkerPc.blocks (hexited i)
    | pusher j => exact congrArg PusherPc.blocks (hidle j)
    | destroyer => rfl
  · rw [hshows.calls,hshows.accepted,hshows.freed,← Multiset.map_coe,← Multiset.map_coe,heq,Multiset.map_add]

theorem threads_leave_nothing_busy : ∃ s, run step (start 2 2 ℕ ℕ) (busyRun 0 1 0 1) = some s ∧
    s.destroyer = .done ∧ s.fault = false ∧ s.owner = none ∧ s.tasks = (fun _ => none) ∧
    (s.accepted : Multiset (Job ℕ ℕ)) = s.calls+s.freed ∧
        ∀ i, ∃ done : List (Job ℕ ℕ), s.log i = done.flatMap Job.treatment := by
  have hrun := (Option.some_get busyRun_ends).symm
  have hdone : ((run step (start 2 2 ℕ ℕ) (busyRun 0 1 0 1)).get busyRun_ends).destroyer =
    .done := by decide +kernel
  exact ⟨_,hrun,hdone,threads_leave_nothing (busyRun 0 1 0 1) _ hrun hdone⟩

/-! ### No deadlock -/

/-- No thread has an access to make: those that are not at rest wait. -/
def Stuck (s : State n m φ α) : Prop :=
  (∀ i, step s (.worker i) = none) ∧ (∀ j woken, step s (.pusher j woken) = none) ∧ step s .destroyer = none

section Stuck
variable {s : State n m φ α} {xs : List (ℕ × Job φ α)} {t : Pool.State n φ α}

lemma threadLoop_runs {i : Fin n} (hx : (s.worker i).inside = true) : threadLoop s i ≠ none := by
  unfold threadLoop
  cases hpc : s.worker i with
  | top | waiting | woken | holding | called | finished | exited =>
    rw [hpc] at hx
    cases hx
  | _ => exact Option.some_ne_none _

lemma pushing_runs {j : Fin m} (hx : (s.pusher j).inside = true) : pushing s j (List.finRange n) ≠ none := by
  have hsignals : s.Signals (List.finRange n) := fun ⟨i,hi⟩ => ⟨i,List.mem_finRange i,hi⟩
  unfold pushing
  cases hpc : s.pusher j with
  | idle | filled =>
    rw [hpc] at hx
    cases hx
  | counted b => simp [hsignals]
  | _ => exact Option.some_ne_none _

lemma threadPoolDestroy_runs (hx : s.destroyer.inside = true) : threadPoolDestroy s ≠ none := by
  unfold threadPoolDestroy
  cases hpc : s.destroyer with
  | locked | flagged | broadcasted => exact Option.some_ne_none _
  | _ =>
    rw [hpc] at hx
    cases hx

/-- A thread in a section can go on. -/
lemma Stuck.owner (hs : Stuck s) (h : Consistent s xs) : s.owner = none := by
  obtain ⟨hworker,hpusher,hdestroyer⟩ := hs
  cases howner : s.owner with
  | none => rfl
  | some x =>
    have hin := (h.mutex x).mpr howner
    cases x with
    | worker i =>
      refine absurd ?_ (threadLoop_runs hin)
      rw [← h.worker_eq]
      exact hworker i
    | pusher j =>
      refine absurd ?_ (pushing_runs hin)
      rw [← h.pusher_eq]
      exact hpusher j (List.finRange n)
    | destroyer => exact absurd hdestroyer (threadPoolDestroy_runs hin)

lemma Stuck.worker (hs : Stuck s) (h : Consistent s xs) (i : Fin n) : s.worker i = .waiting ∨
    s.worker i = .exited := by
  have howner := hs.owner h
  have hnone := hs.1 i
  rw [h.worker_eq] at hnone
  cases hpc : s.worker i with
  | waiting => exact Or.inl rfl
  | exited => exact Or.inr rfl
  | _ => simp [threadLoop,hpc,State.acquire,howner] at hnone

lemma Stuck.pusher (hs : Stuck s) (h : Consistent s xs) (j : Fin m) : s.pusher j = .idle := by
  have howner := hs.owner h
  have hout := h.nobody howner (.pusher j)
  change (s.pusher j).inside = false at hout
  have hnone := hs.2.1 j []
  rw [h.pusher_eq] at hnone
  cases hpc : s.pusher j with
  | idle => rfl
  | filled b a => simp [pushing,hpc,State.acquire,howner] at hnone
  | _ =>
    rw [hpc] at hout
    cases hout

/-- `jk_thread_pool_destroy` waits for no worker that waits. -/
lemma Stuck.destroyer (hs : Stuck s) (h : Consistent s xs) (hm : Matches s xs t) (hclosing : Closing t) :
    s.destroyer = .idle ∨ s.destroyer = .done := by
  have howner := hs.owner h
  have hout := h.nobody howner .destroyer
  change s.destroyer.inside = false at hout
  have hnone : threadPoolDestroy s = none := hs.2.2
  cases hpc : s.destroyer with
  | idle => exact Or.inl rfl
  | done => exact Or.inr rfl
  | called => simp [threadPoolDestroy,hpc,State.acquire,howner] at hnone
  | joining k =>
    have hjoining : t.destroy ≠ .idle := by
      rw [hm.destroy,hpc]
      simp [DestroyerPc.section]
    have hexited : ∀ i, s.worker i = .exited := fun i => (hs.worker h i).resolve_left fun hw =>
      hclosing.awake (hclosing.quitting hjoining) i ((hm.waiting_iff i).mp hw)
    by_cases hk : k < n <;> simp [threadPoolDestroy,hpc,hk,hexited] at hnone
  | freeing p => cases p <;> simp [threadPoolDestroy,hpc,howner] at hnone
  | dropping | dropped | counting => simp [threadPoolDestroy,hpc] at hnone
  | locked | flagged | broadcasted =>
    rw [hpc] at hout
    cases hout

end Stuck

/-- The threads never block each other: when none of them has an access to make, the mutex is free and no push is
under way, and either the pool has been destroyed, or nobody has asked for that and all workers wait, when every
job accepted has been called, completely treated, and its block freed. -/
theorem stuck_only_at_rest (hn : 0 < n) (es : List (Event n m φ α)) (s : State n m φ α)
    (hrun : run step (start n m φ α) es = some s)
    (hpending : ∀ xs, Path s.tasks s.waitTasks xs none → xs.length < 2^31) (hstuck : Stuck s) :
    s.owner = none ∧ (∀ j, s.pusher j = .idle) ∧ (s.destroyer = .done ∨
      s.destroyer = .idle ∧ (∀ i, s.worker i = .waiting) ∧ s.calls = s.accepted ∧
      s.tasks = (fun _ => none) ∧
        ∀ i, ∃ done : List (Job φ α), s.log i = done.flatMap Job.treatment) := by
  obtain ⟨ds,t,hds,hr⟩ := run_refines hrun
  obtain ⟨hstep,hsignal⟩ := run_strict hds
  have hshows := hr.shows
  obtain ⟨xs,h,hm⟩ := hr
  have hclosing : Closing t := run_invariant (fun _ _ _ h hstep => h.step hstep) threadPoolNew_closing hstep
  refine ⟨hstuck.owner h,hstuck.pusher h,?_⟩
  rcases hstuck.destroyer h hm hclosing with hidle | hdone
  · right
    have hopen : Open t := run_open hsignal (by rw [hm.destroy,hidle]; rfl)
    have hwait : ∀ i, s.worker i = .waiting := fun i => (hstuck.worker h i).resolve_right fun he =>
      hopen.inLoop i ((hm.exited_iff i).mp he)
    have hrest : Rests Pool.step (fun _ d => d.OfWorker) t := by
      intro d hd
      have hw : ∀ i, (t.workers i).pc = .waiting := fun i => (hm.waiting_iff i).mp (hwait i)
      cases d with
      | lock i | call i | finish i | free i => simp [Pool.step,hw i]
      | _ => exact hd.elim
    have hlist := hm.listed fun j => by rw [hstuck.pusher h j]; rfl
    have hpath := h.path
    rw [State.head_eq (DestroyerPc.alone_idle hidle)] at hpath
    have hlen : t.waitTasks.length < 2^31 := by
      have hlen : t.waitTasks.length = xs.length := by simpa using congrArg List.length hlist
      rw [hlen]
      exact hpending xs hpath
    have hserved := hopen.served hn hlen hrest
    rw [hserved.empty] at hlist
    obtain rfl : xs = [] := List.map_eq_nil_iff.mp hlist.symm
    refine ⟨hidle,hwait,?_,?_,hshows.treated hserved.logs⟩
    · rw [hshows.calls,hserved.calls,hshows.accepted]
      rfl
    · apply h.no_blocks
      intro x
      cases x with
      | worker i => exact congrArg WorkerPc.blocks (hwait i)
      | pusher j => exact congrArg PusherPc.blocks (hstuck.pusher h j)
      | destroyer => rfl
  · exact Or.inl hdone

/-- All workers wait, and nobody else is in the pool. -/
lemma stuck_at_rest {s : State n m φ α} (hworker : ∀ i, s.worker i = .waiting)
    (hpusher : ∀ j, s.pusher j = .idle) (hidle : s.destroyer = .idle) : Stuck s := by
  refine ⟨fun i => ?_,fun j woken => ?_,?_⟩
  · simp [step,threadLoop,hworker,hidle]
  · simp [step,pushing,hpusher,hidle]
  · simp [step,threadPoolDestroy,hidle]

/-- A task that a waiting worker is woken for, while the other one finds nothing to do. -/
def restRun (i k : Fin n) (j : Fin m) : List (Event n m ℕ ℕ) := List.flatten [
  List.replicate 4 (.worker i),[.push j ⟨1,10,some 2⟩ (some (7,none))],List.replicate 8 (.pusher j [i]),
  List.replicate 10 (.worker i),List.replicate 4 (.worker k),List.replicate 7 (.worker i)]

lemma restRun_ends : (run step (start 2 1 ℕ ℕ) (restRun 0 1 0)).isSome := by decide +kernel

theorem stuck_only_at_rest_one : ∃ s, run step (start 2 1 ℕ ℕ) (restRun 0 1 0) = some s ∧
    s.accepted.length = 1 ∧ Stuck s ∧ s.owner = none ∧ (∀ j, s.pusher j = .idle) ∧
    (s.destroyer = .done ∨
      s.destroyer = .idle ∧ (∀ i, s.worker i = .waiting) ∧ s.calls = s.accepted ∧
      s.tasks = (fun _ => none) ∧
        ∀ i, ∃ done : List (Job ℕ ℕ), s.log i = done.flatMap Job.treatment) := by
  have hrun := (Option.some_get restRun_ends).symm
  set s := (run step (start 2 1 ℕ ℕ) (restRun 0 1 0)).get restRun_ends
  have hempty : s.waitTasks = none := by decide +kernel
  have hpending : ∀ xs, Path s.tasks s.waitTasks xs none → xs.length < 2^31 := by
    intro xs hpath
    rw [hempty] at hpath
    cases xs with
    | nil => simp
    | cons c rest => exact absurd hpath.1 (by simp)
  have hstuck : Stuck s := stuck_at_rest (by decide +kernel) (by decide +kernel) (by decide +kernel)
  exact ⟨s,hrun,by decide +kernel,hstuck,stuck_only_at_rest Nat.two_pos (restRun 0 1 0) s hrun hpending hstuck⟩

end JustKit.Pool.Threads
