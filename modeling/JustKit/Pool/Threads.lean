import JustKit.Foundations.LinkedCells
import JustKit.Pool.Wakeups

/-! `jk_thread_pool.c` access by access: the mutex, the fields of the pool and the blocks of the tasks are shared
by the workers, by any number of threads that call `jk_thread_pool_push` and by the one that calls
`jk_thread_pool_destroy`. An event is one access of one thread, or a call, and a thread may be interrupted between
any two of them. -/
namespace JustKit.Pool.Threads
open Foundations Foundations.Transition Foundations.LinkedCells

/-- What `jk_thread_pool_push` is given, and what a block of `jk_thread_task_t` holds beside `next`. -/
structure Job (φ α : Type) where
  call : φ
  arg : α
  finish : Option φ
  deriving Repr, DecidableEq

/-- The call of `task->finish`, if there is one. -/
def Job.finishing {φ α : Type} (b : Job φ α) : List (Action (Job φ α)) :=
  if b.finish.isSome then [.finish b] else []

/-- What a thread in `jk_thread_loop` does next, with its variable `task` and the values it has read. -/
inductive WorkerPc where
  | top
  /-- It has the mutex, and reads `quit_flag` in the condition of the loop. -/
  | locked
  /-- It reads `task_nums`. -/
  | checking
  /-- It calls `pthread_cond_wait`. -/
  | blocking
  | waiting
  | woken
  /-- It reads `quit_flag` after the loop. -/
  | testing
  /-- It unlocks, and exits. -/
  | quitting
  /-- It reads `wait_tasks`. -/
  | taking
  /-- It reads `task->next`. -/
  | took (task : Option ℕ)
  /-- It writes `wait_tasks`. -/
  | unlinking (task : ℕ) (next : Option ℕ)
  /-- It reads `task_nums` to decrement it. -/
  | unlinked (task : ℕ)
  | counting (task : ℕ) (nums : ℤ)
  /-- It unlocks. -/
  | counted (task : ℕ)
  | holding (task : ℕ)
  | called (task : ℕ)
  | finished (task : ℕ)
  | exited
  deriving Repr, DecidableEq

/-- What a thread that calls `jk_thread_pool_push` does next, with the parameters of the call. -/
inductive PusherPc (β : Type) where
  | idle
  /-- The block is allocated and has its contents; it locks. -/
  | filled (job : β) (task : ℕ)
  /-- It reads `wait_tasks`. -/
  | locked (job : β) (task : ℕ)
  /-- It writes `task->next`. -/
  | linking (job : β) (task : ℕ) (head : Option ℕ)
  /-- It writes `wait_tasks`. -/
  | linked (job : β) (task : ℕ)
  /-- It reads `task_nums` to increment it. -/
  | stored (job : β)
  | counting (job : β) (nums : ℤ)
  /-- It signals. -/
  | counted (job : β)
  /-- It unlocks, and returns 0. -/
  | signalled
  deriving Repr, DecidableEq

instance idleDecidable {β : Type} : (pc : PusherPc β) → Decidable (pc = .idle)
  | .idle => isTrue rfl
  | .filled _ _ | .locked _ _ | .linking _ _ _ | .linked _ _ | .stored _ | .counting _ _ | .counted _ | .signalled =>
    isFalse fun h => nomatch h

/-- What the thread that calls `jk_thread_pool_destroy` does next. -/
inductive DestroyerPc where
  | idle
  /-- It locks. -/
  | called
  /-- It writes `quit_flag`. -/
  | locked
  /-- It broadcasts. -/
  | flagged
  /-- It unlocks. -/
  | broadcasted
  /-- It joins a worker, or reads `wait_tasks` when all are joined. -/
  | joining (i : ℕ)
  /-- It reads `task->next`, or destroys the mutexes and frees the pool. -/
  | freeing (task : Option ℕ)
  /-- It frees the block. -/
  | dropping (task : ℕ) (next : Option ℕ)
  /-- It reads `task_nums` to decrement it. -/
  | dropped (next : Option ℕ)
  | counting (next : Option ℕ) (nums : ℤ)
  | done
  deriving Repr, DecidableEq

/-- The threads: `n` workers, `m` threads that push, and one that destroys the pool. -/
inductive Thread (n m : ℕ) where
  | worker (i : Fin n)
  | pusher (j : Fin m)
  | destroyer
  deriving Repr, DecidableEq

variable {n m : ℕ} {φ α : Type}

/-- The program counters of a thread. -/
@[reducible] def Thread.Pc (β : Type) : Thread n m → Type
  | .worker _ => WorkerPc
  | .pusher _ => PusherPc β
  | .destroyer => DestroyerPc

/-- `jk_thread_pool_s`, the mutex `lock`, the threads and the blocks of tasks. `fault` is set by an access to a
block that is not allocated, by a thread that runs on when the pool is freed, and by an unlock of a mutex that
another thread has. The last three fields only record: what the workers have done, the jobs in the order in which
their pushes have signalled, and those that `jk_thread_pool_destroy` freed. -/
structure State (n m : ℕ) (φ α : Type) where
  pc : (x : Thread n m) → x.Pc (Job φ α)
  owner : Option (Thread n m)
  waitTasks : Option ℕ
  taskNums : ℤ
  quitFlag : Bool
  tasks : Mem (Cell (Job φ α))
  fault : Bool
  log : Fin n → List (Action (Job φ α))
  accepted : List (Job φ α)
  freed : List (Job φ α)

namespace State
variable (s : State n m φ α)

def worker (i : Fin n) : WorkerPc := s.pc (.worker i)
def pusher (j : Fin m) : PusherPc (Job φ α) := s.pc (.pusher j)
def destroyer : DestroyerPc := s.pc .destroyer

def setPc (x : Thread n m) (pc : x.Pc (Job φ α)) : State n m φ α := { s with pc := Function.update s.pc x pc }

def crash : State n m φ α := { s with fault := true }

/-- `pthread_mutex_lock`: the thread goes on when the mutex is free. -/
def acquire (x : Thread n m) (pc : x.Pc (Job φ α)) : Option (State n m φ α) :=
  if s.owner = none then some { s.setPc x pc with owner := some x } else none

/-- `pthread_mutex_unlock`. -/
def release (x : Thread n m) (pc : x.Pc (Job φ α)) : State n m φ α :=
  if s.owner = some x then { s.setPc x pc with owner := none } else s.crash

/-- An access to the block of a task. -/
def access (p : Option ℕ) (f : ℕ → Cell (Job φ α) → State n m φ α) : State n m φ α :=
  match p with
  | none => s.crash
  | some a =>
    match s.tasks a with
    | none => s.crash
    | some c => f a c

/-- A step of a worker with a task in hand. -/
def record (i : Fin n) (pc : WorkerPc) (as : List (Action (Job φ α))) : State n m φ α :=
  { s.setPc (.worker i) pc with log := Function.update s.log i (s.log i++as) }

/-- The waiting workers among `woken` leave `pthread_cond_wait`, as far as the mutex lets them. -/
def wake (woken : List (Fin n)) (x : Thread n m) : x.Pc (Job φ α) :=
  match x with
  | .worker i => if woken.contains i ∧ s.worker i = .waiting then WorkerPc.woken else s.worker i
  | .pusher j => s.pusher j
  | .destroyer => s.destroyer

/-- `pthread_cond_signal` reaches a waiting worker, if there is one. -/
def Signals (woken : List (Fin n)) : Prop := (∃ i, s.worker i = .waiting) →
    ∃ i ∈ woken, s.worker i = .waiting

instance signalsDecidable (woken : List (Fin n)) : Decidable (s.Signals woken) :=
  inferInstanceAs (Decidable ((∃ i, s.worker i = .waiting) → ∃ i ∈ woken, s.worker i = .waiting))

end State

/-- The next access of a thread in `jk_thread_loop`. -/
def threadLoop (s : State n m φ α) (i : Fin n) : Option (State n m φ α) :=
  match s.worker i with
  | .top => s.acquire (.worker i) WorkerPc.locked
  | .locked => some (s.setPc (.worker i) (if s.quitFlag then WorkerPc.testing else WorkerPc.checking))
  | .checking => some (s.setPc (.worker i) (if s.taskNums ≤ 0 then WorkerPc.blocking else WorkerPc.testing))
  | .blocking => some (s.release (.worker i) WorkerPc.waiting)
  | .waiting => none
  | .woken => s.acquire (.worker i) WorkerPc.locked
  | .testing => some (s.setPc (.worker i) (if s.quitFlag then WorkerPc.quitting else WorkerPc.taking))
  | .quitting => some (s.release (.worker i) WorkerPc.exited)
  | .taking => some (s.setPc (.worker i) (WorkerPc.took s.waitTasks))
  | .took task => some (s.access task fun a c => s.setPc (.worker i) (WorkerPc.unlinking a c.next))
  | .unlinking a next => some { s.setPc (.worker i) (WorkerPc.unlinked a) with waitTasks := next }
  | .unlinked a => some (s.setPc (.worker i) (WorkerPc.counting a s.taskNums))
  | .counting a nums => some { s.setPc (.worker i) (WorkerPc.counted a) with taskNums := wrap 32 (nums-1) }
  | .counted a => some (s.release (.worker i) (WorkerPc.holding a))
  | .holding a => some (s.access (some a) fun a c => s.record i (.called a) [.call c.item])
  | .called a => some (s.access (some a) fun a c => s.record i (.finished a) c.item.finishing)
  | .finished a => some (s.access (some a) fun a c => { s.record i .top [.free c.item] with
      tasks := s.tasks.free a })
  | .exited => none

/-- `jk_thread_pool_push` is called. `block` is what `malloc` returns: an address, and what is in the block where
`next` is going to be. Without a block the call returns -1. -/
def threadPoolPush (s : State n m φ α) (j : Fin m) (job : Job φ α) : Option (ℕ × Option ℕ) →
    Option (State n m φ α)
  | none => some s
  | some (a,next) =>
    if s.tasks a = none then
      some { s.setPc (.pusher j) (PusherPc.filled job a) with tasks := s.tasks.put a ⟨job,next⟩ }
    else none

/-- The next access of a thread in `jk_thread_pool_push`; its signal reaches the waiting workers among `woken`. -/
def pushing (s : State n m φ α) (j : Fin m) (woken : List (Fin n)) : Option (State n m φ α) :=
  match s.pusher j with
  | .idle => none
  | .filled job a => s.acquire (.pusher j) (PusherPc.locked job a)
  | .locked job a => some (s.setPc (.pusher j) (PusherPc.linking job a s.waitTasks))
  | .linking job a head => some (s.access (some a) fun a c =>
      { s.setPc (.pusher j) (PusherPc.linked job a) with tasks := s.tasks.put a ⟨c.item,head⟩ })
  | .linked job a => some { s.setPc (.pusher j) (PusherPc.stored job) with waitTasks := some a }
  | .stored job => some (s.setPc (.pusher j) (PusherPc.counting job s.taskNums))
  | .counting job nums => some { s.setPc (.pusher j) (PusherPc.counted job) with taskNums := wrap 32 (nums+1) }
  | .counted job =>
    if s.Signals woken then
      some { s with
        pc := Function.update (s.wake woken) (.pusher j) PusherPc.signalled, accepted := s.accepted++[job] }
    else none
  | .signalled => some (s.release (.pusher j) PusherPc.idle)

/-- The next access of the thread in `jk_thread_pool_destroy`. -/
def threadPoolDestroy (s : State n m φ α) : Option (State n m φ α) :=
  match s.destroyer with
  | .idle => none
  | .called => s.acquire .destroyer DestroyerPc.locked
  | .locked => some { s.setPc .destroyer DestroyerPc.flagged with quitFlag := true }
  | .flagged => some { s with pc := Function.update (s.wake (List.finRange n)) .destroyer DestroyerPc.broadcasted }
  | .broadcasted => some (s.release .destroyer (DestroyerPc.joining 0))
  | .joining i =>
    if h : i < n then
      match s.worker ⟨i,h⟩ with
      | .exited => some (s.setPc .destroyer (DestroyerPc.joining (i+1)))
      | _ => none
    else some (s.setPc .destroyer (DestroyerPc.freeing s.waitTasks))
  | .freeing none => if s.owner = none then some (s.setPc .destroyer DestroyerPc.done) else some s.crash
  | .freeing task => some (s.access task fun a c => s.setPc .destroyer (DestroyerPc.dropping a c.next))
  | .dropping a next => some (s.access (some a) fun a c =>
      { s.setPc .destroyer (DestroyerPc.dropped next) with tasks := s.tasks.free a, freed := s.freed++[c.item] })
  | .dropped next => some (s.setPc .destroyer (DestroyerPc.counting next s.taskNums))
  | .counting next nums =>
    some { s.setPc .destroyer (DestroyerPc.freeing next) with taskNums := wrap 32 (nums-1) }
  | .done => none

inductive Event (n m : ℕ) (φ α : Type) where
  | worker (i : Fin n)
  /-- A wake-up without a signal. -/
  | wake (i : Fin n)
  /-- A call of `jk_thread_pool_push`. -/
  | push (j : Fin m) (job : Job φ α) (block : Option (ℕ × Option ℕ))
  | pusher (j : Fin m) (woken : List (Fin n))
  /-- The call of `jk_thread_pool_destroy`. -/
  | destroy
  | destroyer

/-- One event. `jk_thread_pool_destroy` is called once, when no thread is in `jk_thread_pool_push`, and none calls it
later. -/
def step (s : State n m φ α) : Event n m φ α → Option (State n m φ α)
  | .worker i => if s.destroyer = .done ∧ s.worker i ≠ .exited then some s.crash else threadLoop s i
  | .wake i => if s.worker i = .waiting then some (s.setPc (.worker i) WorkerPc.woken) else none
  | .push j job block => if s.destroyer = .idle ∧ s.pusher j = .idle then threadPoolPush s j job block else none
  | .pusher j woken => if s.destroyer = .done ∧ s.pusher j ≠ .idle then some s.crash else pushing s j woken
  | .destroy =>
    if s.destroyer = .idle ∧ ∀ j, s.pusher j = .idle then some (s.setPc .destroyer DestroyerPc.called) else none
  | .destroyer => threadPoolDestroy s

/-- A pool as `jk_thread_pool_new` returns it. -/
def start (n m : ℕ) (φ α : Type) : State n m φ α where
  pc
    | .worker _ => WorkerPc.top
    | .pusher _ => PusherPc.idle
    | .destroyer => DestroyerPc.idle
  owner := none
  waitTasks := none
  taskNums := 0
  quitFlag := false
  tasks _ := none
  fault := false
  log _ := []
  accepted := []
  freed := []

end JustKit.Pool.Threads
