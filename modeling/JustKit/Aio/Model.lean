import JustKit.Foundations.Memory
import JustKit.Pool.Model

/-! The shared state of `jk_aio.c` with its worker pool as a transition system: any number of calls of
`jk_aio_submit`, of threads in `jk_aio_wait` and `jk_aio_poll`, and of workers. The code compares
pointers to requests with the null pointer only, so requests are named in the order of their
allocation. -/
namespace JustKit.Aio
open Foundations Foundations.Transition

/-- `jk_aio_operate_t`. -/
inductive Operate where
  | read
  | write
  | open
  | close
  | mkdir
  | rmdir
  | unlink
  deriving Repr, DecidableEq

/-- `jk_aio_request_s` without the arguments of the system call. `ψ` stands for the callbacks of the
user. -/
structure Request (ψ : Type) where
  type : Operate
  result : ℤ
  error : ℤ
  finish : Option ψ
  next : Option ℕ
  deriving Repr, DecidableEq

/-- The functions that are handed to the pool. -/
inductive Fn where
  | execute
  | fininsh
  deriving Repr, DecidableEq

/-- A thread in `jk_aio_wait` that has left `select`, with `count`, or in `jk_aio_poll`, with
`processed` and `req`. -/
inductive Thread where
  | idle
  | reading (count : ℕ)
  | polling (processed : ℕ)
  | finishing (req processed : ℕ)
  | destroying (req processed : ℕ)
  deriving Repr, DecidableEq

/-- The request that a thread has taken off the list. -/
def Thread.holds : Thread → Multiset ℕ
  | .finishing r _ => {r}
  | .destroying r _ => {r}
  | _ => 0

/-- `aio`, its pool and memory. `submitting` are the calls of `jk_aio_submit` that have counted their
request and not pushed it, `refused` those whose push has failed. `fault` is set when a function reads
or releases memory that is not allocated. The last fields only record: the requests counted and not
rolled back, and those executed, appended, dequeued, called back and released, in order, and the results
of `jk_aio_wait`. -/
structure State (n m : ℕ) (ψ : Type) where
  pool : Pool.State n Fn ℕ
  reqs : Mem (Request ψ)
  fresh : ℕ
  rhead : Option ℕ
  rtail : Option ℕ
  nreqs : UInt64
  ncoms : UInt64
  pipe : ℕ
  capacity : ℕ
  submitting : List ℕ
  refused : List ℕ
  threads : Fin m → Thread
  fault : Bool
  counted : List ℕ
  executed : List ℕ
  appended : List ℕ
  dequeued : List ℕ
  callbacks : List ℕ
  destroyed : List ℕ
  counts : List ℕ

variable {n m : ℕ} {ψ : Type}

/-- `jk_aio_init`, with the capacity of the pipe. -/
def aioInit (n m : ℕ) (ψ : Type) (capacity : ℕ) : State n m ψ where
  pool := Pool.threadPoolNew n Fn ℕ
  reqs _ := none
  fresh := 0
  rhead := none
  rtail := none
  nreqs := 0
  ncoms := 0
  pipe := 0
  capacity := capacity
  submitting := []
  refused := []
  threads _ := .idle
  fault := false
  counted := []
  executed := []
  appended := []
  dequeued := []
  callbacks := []
  destroyed := []
  counts := []

def State.setThread (s : State n m ψ) (j : Fin m) (t : Thread) : State n m ψ :=
  { s with threads := Function.update s.threads j t }

/-- `jk_aio_request` and the first section of `jk_aio_submit`. -/
def aioRequest (s : State n m ψ) (type : Operate) (finish : Option ψ) : State n m ψ :=
  { s with
    reqs := s.reqs.put s.fresh ⟨type,0,0,finish,none⟩, fresh := s.fresh+1, nreqs := s.nreqs+1,
    submitting := s.submitting++[s.fresh], counted := s.counted++[s.fresh] }

/-- The call of `jk_thread_pool_push` in `jk_aio_submit`. -/
def aioPush (s : State n m ψ) (r : ℕ) (malloc : Bool) (woken : List (Fin n)) : State n m ψ :=
  let (pool,ret) := Pool.threadPoolPush s.pool .execute r (some .fininsh) malloc woken
  { s with
    pool := pool, submitting := s.submitting.erase r, refused := if ret = 0 then s.refused else r::s.refused }

/-- The last section of `jk_aio_submit`, after a failed push. -/
def aioRollback (s : State n m ψ) (r : ℕ) : State n m ψ :=
  { s with nreqs := s.nreqs-1, refused := s.refused.erase r, counted := s.counted.erase r }

/-- `jk_aio_execute`, with what the system call gives. -/
def aioExecute (s : State n m ψ) (r : ℕ) (result error : ℤ) : Option (State n m ψ) := do
  let reqs ← s.reqs.modify r fun q => { q with result := result, error := error }
  return { s with reqs := reqs, executed := s.executed++[r] }

/-- `jk_aio_fininsh`. A byte that does not fit the pipe is dropped. -/
def aioFininsh (s : State n m ψ) (r : ℕ) : Option (State n m ψ) := do
  let reqs ← s.reqs.modify r fun q => { q with next := none }
  let rhead := if s.rhead = none then some r else s.rhead
  let reqs ← match s.rtail with
    | none => some reqs
    | some t => reqs.modify t fun q => { q with next := some r }
  return { s with
    reqs := reqs, rhead := rhead, rtail := some r, pipe := if s.pipe < s.capacity then s.pipe+1 else s.pipe,
    appended := s.appended++[r] }

/-- A worker calls one of the functions. -/
def Fn.invoke (f : Fn) (s : State n m ψ) (r : ℕ) (result error : ℤ) : Option (State n m ψ) :=
  match f with
  | .execute => aioExecute s r result error
  | .fininsh => aioFininsh s r

/-- The section of `jk_aio_poll` under the lock; it returns if the list is empty. -/
def aioPollSection (s : State n m ψ) (j : Fin m) (processed : ℕ) : Option (State n m ψ) :=
  match s.rhead with
  | none => some (s.setThread j .idle)
  | some r => do
    let rhead := (← s.reqs r).next
    return { s.setThread j (.finishing r processed) with
      rhead := rhead, rtail := if rhead = none then none else s.rtail, ncoms := s.ncoms+1,
      dequeued := s.dequeued++[r] }

/-- The call of `req->finish`, if there is one. -/
def aioCallback (s : State n m ψ) (j : Fin m) (r processed : ℕ) : Option (State n m ψ) := do
  let q ← s.reqs r
  return { s.setThread j (.destroying r processed) with
    callbacks := if q.finish.isSome then s.callbacks++[r] else s.callbacks }

/-- `jk_aio_destory`. -/
def aioDestory (s : State n m ψ) (j : Fin m) (r processed : ℕ) : Option (State n m ψ) := do
  let _ ← s.reqs r
  return { s.setThread j (.polling (processed+1)) with
    reqs := s.reqs.free r, destroyed := s.destroyed++[r] }

inductive Event (n m : ℕ) (ψ : Type) where
  /-- The three sections of `jk_aio_submit`. -/
  | submit (type : Operate) (finish : Option ψ)
  | push (r : ℕ) (malloc : Bool) (woken : List (Fin n))
  | rollback (r : ℕ)
  /-- The events of a worker. -/
  | wake (i : Fin n)
  | lock (i : Fin n)
  | call (i : Fin n) (result error : ℤ)
  | finish (i : Fin n)
  | free (i : Fin n)
  /-- A call of `jk_aio_wait`, with what `select` returns, and a pass of its loop. -/
  | select (j : Fin m) (ret : ℤ)
  | read (j : Fin m)
  /-- A call of `jk_aio_poll` and the parts of its loop. -/
  | poll (j : Fin m)
  | dequeue (j : Fin m)
  | callback (j : Fin m)
  | destory (j : Fin m)

/-- A fault ends what the thread does. -/
def State.orFault (s : State n m ψ) (s' : Option (State n m ψ)) : State n m ψ := s'.getD { s with fault := true }

/-- A worker gives its task to one of the functions. -/
def workerStep (s : State n m ψ) (e : Pool.Event n Fn ℕ) (call : Option (Fn × ℕ)) (result error : ℤ) :
    Option (State n m ψ) := do
  let pool ← Pool.step s.pool e
  let s : State n m ψ := { s with pool := pool }
  match call with
  | none => return s
  | some (f,r) => return s.orFault (f.invoke s r result error)

/-- One event. A request is an object in a memory of less than 2⁶⁴ bytes, so fewer are in flight. -/
def step (s : State n m ψ) : Event n m ψ → Option (State n m ψ)
  | .submit type finish =>
    if s.counted.length-s.dequeued.length+1 < 2^64 then some (aioRequest s type finish) else none
  | .push r malloc woken => if r ∈ s.submitting then some (aioPush s r malloc woken) else none
  | .rollback r => if r ∈ s.refused then some (aioRollback s r) else none
  | .wake i => workerStep s (.wake i) none 0 0
  | .lock i => workerStep s (.lock i) none 0 0
  | .call i result error =>
    match (s.pool.workers i).pc with
    | .holding t => workerStep s (.call i) (some (t.call,t.arg)) result error
    | _ => none
  | .finish i =>
    match (s.pool.workers i).pc with
    | .called t => workerStep s (.finish i) (t.finish.map fun f => (f,t.arg)) 0 0
    | _ => none
  | .free i => workerStep s (.free i) none 0 0
  | .select j ret =>
    match s.threads j with
    | .idle =>
      if ret ≤ 0 then some s
      else if 0 < s.pipe then some (s.setThread j (.reading 0)) else none
    | _ => none
  | .read j =>
    match s.threads j with
    | .reading count =>
      if 0 < s.pipe then some { s.setThread j (.reading (count+1)) with pipe := s.pipe-1 }
      else some { s.setThread j .idle with counts := s.counts++[count] }
    | _ => none
  | .poll j =>
    match s.threads j with
    | .idle => some (s.setThread j (.polling 0))
    | _ => none
  | .dequeue j =>
    match s.threads j with
    | .polling processed => some (s.orFault (aioPollSection s j processed))
    | _ => none
  | .callback j =>
    match s.threads j with
    | .finishing r processed => some (s.orFault (aioCallback s j r processed))
    | _ => none
  | .destory j =>
    match s.threads j with
    | .destroying r processed => some (s.orFault (aioDestory s j r processed))
    | _ => none

/-- The same as a relation, with the condition of each event. -/
inductive Step (s : State n m ψ) : Event n m ψ → State n m ψ → Prop
  | submit {type : Operate} {finish : Option ψ} (hroom : s.counted.length-s.dequeued.length+1 < 2^64) :
    Step s (.submit type finish) (aioRequest s type finish)
  | push {r : ℕ} {malloc : Bool} {woken : List (Fin n)} (hr : r ∈ s.submitting) :
    Step s (.push r malloc woken) (aioPush s r malloc woken)
  | rollback {r : ℕ} (hr : r ∈ s.refused) : Step s (.rollback r) (aioRollback s r)
  | wake {i : Fin n} {pool : Pool.State n Fn ℕ} (hp : Pool.step s.pool (.wake i) = some pool) :
    Step s (.wake i) { s with pool := pool }
  | lock {i : Fin n} {pool : Pool.State n Fn ℕ} (hp : Pool.step s.pool (.lock i) = some pool) :
    Step s (.lock i) { s with pool := pool }
  | call {i : Fin n} {result error : ℤ} {t : Pool.Task Fn ℕ} {pool : Pool.State n Fn ℕ}
    (hpc : (s.pool.workers i).pc = .holding t) (hp : Pool.step s.pool (.call i) = some pool) :
    Step s (.call i result error)
      (State.orFault { s with pool := pool } (t.call.invoke { s with pool := pool } t.arg result error))
  | finish {i : Fin n} {t : Pool.Task Fn ℕ} {pool : Pool.State n Fn ℕ} {f : Fn}
    (hpc : (s.pool.workers i).pc = .called t) (hf : t.finish = some f)
    (hp : Pool.step s.pool (.finish i) = some pool) :
    Step s (.finish i) (State.orFault { s with pool := pool } (f.invoke { s with pool := pool } t.arg 0 0))
  | noFinish {i : Fin n} {t : Pool.Task Fn ℕ} {pool : Pool.State n Fn ℕ}
    (hpc : (s.pool.workers i).pc = .called t) (hf : t.finish = none)
    (hp : Pool.step s.pool (.finish i) = some pool) : Step s (.finish i) { s with pool := pool }
  | free {i : Fin n} {pool : Pool.State n Fn ℕ} (hp : Pool.step s.pool (.free i) = some pool) :
    Step s (.free i) { s with pool := pool }
  | noInput {j : Fin m} {ret : ℤ} (hj : s.threads j = .idle) (hret : ret ≤ 0) : Step s (.select j ret) s
  | select {j : Fin m} {ret : ℤ} (hj : s.threads j = .idle) (hret : ¬ ret ≤ 0) (hpipe : 0 < s.pipe) :
    Step s (.select j ret) (s.setThread j (.reading 0))
  | read {j : Fin m} {count : ℕ} (hj : s.threads j = .reading count) (hpipe : 0 < s.pipe) :
    Step s (.read j) { s.setThread j (.reading (count+1)) with pipe := s.pipe-1 }
  | readAll {j : Fin m} {count : ℕ} (hj : s.threads j = .reading count) (hpipe : ¬ 0 < s.pipe) :
    Step s (.read j) { s.setThread j .idle with counts := s.counts++[count] }
  | poll {j : Fin m} (hj : s.threads j = .idle) : Step s (.poll j) (s.setThread j (.polling 0))
  | dequeue {j : Fin m} {processed : ℕ} (hj : s.threads j = .polling processed) :
    Step s (.dequeue j) (s.orFault (aioPollSection s j processed))
  | callback {j : Fin m} {r processed : ℕ} (hj : s.threads j = .finishing r processed) :
    Step s (.callback j) (s.orFault (aioCallback s j r processed))
  | destory {j : Fin m} {r processed : ℕ} (hj : s.threads j = .destroying r processed) :
    Step s (.destory j) (s.orFault (aioDestory s j r processed))

lemma workerStep_none {s s' : State n m ψ} {e : Pool.Event n Fn ℕ} (h : workerStep s e none 0 0 = some s') :
    ∃ pool, Pool.step s.pool e = some pool ∧ s' = { s with pool := pool } := by
  obtain ⟨pool,hp,hs⟩ := Option.bind_eq_some_iff.mp h
  exact ⟨pool,hp,(Option.some.inj hs).symm⟩

lemma workerStep_some {s s' : State n m ψ} {e : Pool.Event n Fn ℕ} {f : Fn} {r : ℕ} {result error : ℤ}
    (h : workerStep s e (some (f,r)) result error = some s') : ∃ pool, Pool.step s.pool e = some pool ∧
      s' = State.orFault { s with pool := pool } (f.invoke { s with pool := pool } r result error) := by
  obtain ⟨pool,hp,hs⟩ := Option.bind_eq_some_iff.mp h
  exact ⟨pool,hp,(Option.some.inj hs).symm⟩

/-- What an event can do. -/
theorem step_cases {s s' : State n m ψ} {e : Event n m ψ} (h : step s e = some s') : Step s e s' := by
  cases e with
  | submit type finish =>
    obtain ⟨hroom,hs⟩ := Option.ite_none_right_eq_some.mp h
    exact Option.some.inj hs ▸ .submit hroom
  | push r malloc woken =>
    obtain ⟨hr,hs⟩ := Option.ite_none_right_eq_some.mp h
    exact Option.some.inj hs ▸ .push hr
  | rollback r =>
    obtain ⟨hr,hs⟩ := Option.ite_none_right_eq_some.mp h
    exact Option.some.inj hs ▸ .rollback hr
  | wake i =>
    obtain ⟨pool,hp,rfl⟩ := workerStep_none h
    exact .wake hp
  | lock i =>
    obtain ⟨pool,hp,rfl⟩ := workerStep_none h
    exact .lock hp
  | free i =>
    obtain ⟨pool,hp,rfl⟩ := workerStep_none h
    exact .free hp
  | call i result error =>
    simp only [step] at h
    split at h
    · rename_i t hpc
      obtain ⟨pool,hp,rfl⟩ := workerStep_some h
      exact .call hpc hp
    · cases h
  | finish i =>
    simp only [step] at h
    split at h
    · rename_i t hpc
      cases hf : t.finish with
      | none =>
        rw [hf] at h
        obtain ⟨pool,hp,rfl⟩ := workerStep_none h
        exact .noFinish hpc hf hp
      | some f =>
        rw [hf] at h
        obtain ⟨pool,hp,rfl⟩ := workerStep_some h
        exact .finish hpc hf hp
    · cases h
  | select j ret =>
    simp only [step] at h
    split at h
    · rename_i hj
      split at h
      · rename_i hret
        exact Option.some.inj h ▸ .noInput hj hret
      · rename_i hret
        obtain ⟨hpipe,hs⟩ := Option.ite_none_right_eq_some.mp h
        exact Option.some.inj hs ▸ .select hj hret hpipe
    · cases h
  | read j =>
    simp only [step] at h
    split at h
    · rename_i count hj
      split at h
      · rename_i hpipe
        exact Option.some.inj h ▸ .read hj hpipe
      · rename_i hpipe
        exact Option.some.inj h ▸ .readAll hj hpipe
    · cases h
  | poll j =>
    simp only [step] at h
    split at h
    · rename_i hj
      exact Option.some.inj h ▸ .poll hj
    · cases h
  | dequeue j =>
    simp only [step] at h
    split at h
    · rename_i processed hj
      exact Option.some.inj h ▸ .dequeue hj
    · cases h
  | callback j =>
    simp only [step] at h
    split at h
    · rename_i r processed hj
      exact Option.some.inj h ▸ .callback hj
    · cases h
  | destory j =>
    simp only [step] at h
    split at h
    · rename_i r processed hj
      exact Option.some.inj h ▸ .destory hj
    · cases h

end JustKit.Aio
