import JustKit.Foundations.Transition
import JustKit.Foundations.Word

/-! `jk_thread_pool.c` as a transition system. An event is what one thread does up to the next point at
which another thread can see it: a section between lock and unlock, a call of a task, a `free`. The pool
starts as `jk_thread_pool_new` returns it, when all workers have checked in. -/
namespace JustKit.Pool
open Foundations Foundations.Transition

/-- `jk_thread_task_s`; `serial` tells apart the tasks that the pool has ever accepted. -/
structure Task (φ α : Type) where
  serial : ℕ
  call : φ
  arg : α
  finish : Option φ
  deriving Repr, DecidableEq

/-- What a worker does to a task: `task->call(task->arg)`, `task->finish(task->arg)`, `free(task)`. -/
inductive Action (τ : Type) where
  | call (t : τ)
  | finish (t : τ)
  | free (t : τ)
  deriving Repr, DecidableEq

/-- The call of `task->finish`, if there is one. -/
def Task.finishing {φ α : Type} (t : Task φ α) : List (Action (Task φ α)) :=
  if t.finish.isSome then [.finish t] else []

/-- Where a worker is in the loop of `jk_thread_loop`, with its variable `task`. -/
inductive Pc (τ : Type) where
  | top
  | waiting
  | woken
  | holding (t : τ)
  | called (t : τ)
  | finished (t : τ)
  | exited
  | faulted
  deriving Repr, DecidableEq

/-- A worker and what it has done so far. -/
structure Worker (τ : Type) where
  pc : Pc τ
  log : List (Action τ)

/-- Where the thread in `jk_thread_pool_destroy` is. -/
inductive Destroy where
  | idle
  | joining (i : ℕ)
  | freeing
  | done
  deriving Repr, DecidableEq

/-- `jk_thread_pool_s` with its workers. `waitTasks` is the list at `wait_tasks`, as far as it is not
freed. The last three fields only record: the tasks in the order in which they were accepted and in
which workers took them, and those that `jk_thread_pool_destroy` freed. -/
structure State (n : ℕ) (φ α : Type) where
  workers : Fin n → Worker (Task φ α)
  waitTasks : List (Task φ α)
  taskNums : ℤ
  quitFlag : Bool
  destroy : Destroy
  accepted : List (Task φ α)
  taken : List (Task φ α)
  freed : List (Task φ α)

variable {n : ℕ} {φ α : Type}

def threadPoolNew (n : ℕ) (φ α : Type) : State n φ α := ⟨fun _ => ⟨.top,[]⟩,[],0,false,.idle,[],[],[]⟩

/-- A waiting worker leaves `pthread_cond_wait`. -/
def Worker.wake {τ : Type} (w : Worker τ) : Worker τ :=
  match w.pc with
  | .waiting => { w with pc := .woken }
  | _ => w

def State.setWorker (s : State n φ α) (i : Fin n) (w : Worker (Task φ α)) : State n φ α :=
  { s with workers := Function.update s.workers i w }

def State.setPc (s : State n φ α) (i : Fin n) (pc : Pc (Task φ α)) : State n φ α :=
  s.setWorker i { s.workers i with pc := pc }

/-- The section of `jk_thread_loop` between lock and unlock, up to `pthread_cond_wait` if it waits. -/
def threadLoopSection (s : State n φ α) (i : Fin n) : State n φ α :=
  if s.quitFlag then s.setPc i .exited
  else if s.taskNums ≤ 0 then s.setPc i .waiting
  else
    match s.waitTasks with
    | [] => s.setPc i .faulted
    | t::rest => { s.setPc i (.holding t) with
      waitTasks := rest, taskNums := wrap 32 (s.taskNums-1), taken := s.taken++[t] }

/-- `jk_thread_pool_push` and its result. The call of `pthread_cond_signal` wakes the waiting workers
among `woken`. -/
def threadPoolPush (s : State n φ α) (call : φ) (arg : α) (finish : Option φ) (malloc : Bool)
    (woken : List (Fin n)) : State n φ α × ℤ :=
  if malloc then
    let task : Task φ α := ⟨s.accepted.length,call,arg,finish⟩
    ({ s with
      waitTasks := task::s.waitTasks, taskNums := wrap 32 (s.taskNums+1), accepted := s.accepted++[task],
      workers := fun i => if i ∈ woken then (s.workers i).wake else s.workers i },0)
  else (s,-1)

inductive Event (n : ℕ) (φ α : Type) where
  /-- A call of `jk_thread_pool_push`. -/
  | push (call : φ) (arg : α) (finish : Option φ) (malloc : Bool) (woken : List (Fin n))
  /-- A wake-up without a signal. -/
  | wake (i : Fin n)
  /-- The section of the worker under the lock. -/
  | lock (i : Fin n)
  | call (i : Fin n)
  | finish (i : Fin n)
  | free (i : Fin n)
  /-- The section of `jk_thread_pool_destroy` under the lock. -/
  | quit
  /-- `pthread_join` returns, or the loop around it ends. -/
  | join
  /-- A pass of the loop that frees the tasks left, or the rest of `jk_thread_pool_destroy`. -/
  | freeLeft

/-- One event. No task is pushed once `jk_thread_pool_destroy` is called, and it is called once. -/
def step (s : State n φ α) : Event n φ α → Option (State n φ α)
  | .push call arg finish malloc woken =>
    if s.destroy = .idle then some (threadPoolPush s call arg finish malloc woken).1 else none
  | .wake i =>
    match (s.workers i).pc with
    | .waiting => some (s.setPc i .woken)
    | _ => none
  | .lock i =>
    match (s.workers i).pc with
    | .top | .woken => some (threadLoopSection s i)
    | _ => none
  | .call i =>
    match (s.workers i).pc with
    | .holding t => some (s.setWorker i ⟨.called t,(s.workers i).log++[.call t]⟩)
    | _ => none
  | .finish i =>
    match (s.workers i).pc with
    | .called t => some (s.setWorker i ⟨.finished t,(s.workers i).log++t.finishing⟩)
    | _ => none
  | .free i =>
    match (s.workers i).pc with
    | .finished t => some (s.setWorker i ⟨.top,(s.workers i).log++[.free t]⟩)
    | _ => none
  | .quit =>
    if s.destroy = .idle then
      some { s with quitFlag := true, workers := fun i => (s.workers i).wake, destroy := .joining 0 }
    else none
  | .join =>
    match s.destroy with
    | .joining i =>
      if h : i < n then
        match (s.workers ⟨i,h⟩).pc with
        | .exited => some { s with destroy := .joining (i+1) }
        | _ => none
      else some { s with destroy := .freeing }
    | _ => none
  | .freeLeft =>
    match s.destroy with
    | .freeing =>
      match s.waitTasks with
      | [] => some { s with destroy := .done }
      | t::rest => some { s with waitTasks := rest, taskNums := wrap 32 (s.taskNums-1), freed := s.freed++[t] }
    | _ => none

/-- Every event, with the state in which it can happen and the state after it. -/
inductive Step (s : State n φ α) : Event n φ α → State n φ α → Prop
  | push {call : φ} {arg : α} {finish : Option φ} {malloc : Bool} {woken : List (Fin n)} (h : s.destroy = .idle) :
    Step s (.push call arg finish malloc woken) (threadPoolPush s call arg finish malloc woken).1
  | wake {i : Fin n} (h : (s.workers i).pc = .waiting) : Step s (.wake i) (s.setPc i .woken)
  | lock {i : Fin n} (h : (s.workers i).pc = .top ∨ (s.workers i).pc = .woken) :
    Step s (.lock i) (threadLoopSection s i)
  | call {i : Fin n} {t : Task φ α} (h : (s.workers i).pc = .holding t) :
    Step s (.call i) (s.setWorker i ⟨.called t,(s.workers i).log++[.call t]⟩)
  | finish {i : Fin n} {t : Task φ α} (h : (s.workers i).pc = .called t) :
    Step s (.finish i) (s.setWorker i ⟨.finished t,(s.workers i).log++t.finishing⟩)
  | free {i : Fin n} {t : Task φ α} (h : (s.workers i).pc = .finished t) :
    Step s (.free i) (s.setWorker i ⟨.top,(s.workers i).log++[.free t]⟩)
  | quit (h : s.destroy = .idle) :
    Step s .quit { s with quitFlag := true, workers := fun i => (s.workers i).wake, destroy := .joining 0 }
  | joinOne {i : Fin n} (h : s.destroy = .joining i) (hpc : (s.workers i).pc = .exited) :
    Step s .join { s with destroy := .joining (i+1) }
  | joinAll {i : ℕ} (h : s.destroy = .joining i) (hi : n ≤ i) : Step s .join { s with destroy := .freeing }
  | freeOne {t : Task φ α} {rest : List (Task φ α)} (h : s.destroy = .freeing) (hw : s.waitTasks = t::rest) :
    Step s .freeLeft { s with waitTasks := rest, taskNums := wrap 32 (s.taskNums-1), freed := s.freed++[t] }
  | freeAll (h : s.destroy = .freeing) (hw : s.waitTasks = []) : Step s .freeLeft { s with destroy := .done }

theorem step_cases {s s' : State n φ α} {e : Event n φ α} (h : step s e = some s') : Step s e s' := by
  cases e with
  | push call arg finish malloc woken =>
    simp only [step] at h
    split at h
    · rename_i hidle
      exact Option.some.inj h ▸ Step.push hidle
    · cases h
  | wake i =>
    simp only [step] at h
    split at h
    · rename_i hpc
      exact Option.some.inj h ▸ Step.wake hpc
    · cases h
  | lock i =>
    simp only [step] at h
    split at h
    · rename_i hpc
      exact Option.some.inj h ▸ Step.lock (Or.inl hpc)
    · rename_i hpc
      exact Option.some.inj h ▸ Step.lock (Or.inr hpc)
    · cases h
  | call i =>
    simp only [step] at h
    split at h
    · rename_i t hpc
      exact Option.some.inj h ▸ Step.call hpc
    · cases h
  | finish i =>
    simp only [step] at h
    split at h
    · rename_i t hpc
      exact Option.some.inj h ▸ Step.finish hpc
    · cases h
  | free i =>
    simp only [step] at h
    split at h
    · rename_i t hpc
      exact Option.some.inj h ▸ Step.free hpc
    · cases h
  | quit =>
    simp only [step] at h
    split at h
    · rename_i hidle
      exact Option.some.inj h ▸ Step.quit hidle
    · cases h
  | join =>
    simp only [step] at h
    split at h
    · rename_i i hd
      split at h
      · rename_i hi
        split at h
        · rename_i hpc
          exact Option.some.inj h ▸ Step.joinOne (i := ⟨i,hi⟩) hd hpc
        · cases h
      · rename_i hi
        exact Option.some.inj h ▸ Step.joinAll hd (not_lt.mp hi)
    · cases h
  | freeLeft =>
    simp only [step] at h
    split at h
    · rename_i hd
      split at h
      · rename_i hw
        exact Option.some.inj h ▸ Step.freeAll hd hw
      · rename_i t rest hw
        exact Option.some.inj h ▸ Step.freeOne hd hw
    · cases h

end JustKit.Pool
