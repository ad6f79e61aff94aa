import JustKit.Aio.Calls
import JustKit.Aio.Results

/-! `jk_aio.c` with the addresses of its requests: the calls of all threads, the workers and the polling threads
over one memory, in which `malloc` may return any address that is not in use. -/
namespace JustKit.Aio.Calls
open Foundations Foundations.Transition
variable {n m : ℕ} {ψ : Type}

/-! ### A call up to `jk_aio_submit` -/

def prepareOnFd (s : State n ψ) (alloc : Alloc n) (type : Operate) (finish : Option ψ)
    (fill : AioRequest ψ → AioRequest ψ) : Option (State n ψ × Option Addr) := do
  match ← aioRequest s alloc type finish with
  | (s,none) => return (s,none)
  | (s,some req) =>
    let s ← assign s req fill
    return (s,some req)

def prepareOnPath (s : State n ψ) (alloc : Alloc n) (type : Operate) (finish : Option ψ)
    (path : Option (List UInt8)) (fill : AioRequest ψ → AioRequest ψ) : Option (State n ψ × Option Addr) := do
  match ← aioRequest s alloc type finish with
  | (s,none) => return (s,none)
  | (s,some req) =>
    let (s,copy) ← strdup s alloc path
    let s ← assign s req fun q => { q with path := copy }
    if copy = none then
      let s ← aioDestory s req
      return (s,none)
    else
      let s ← assign s req fill
      return (s,some req)

/-- Everything that a call does before `jk_aio_submit`, with the request it submits, if it comes so far. -/
def Call.prepare (s : State n ψ) (alloc : Alloc n) : Call ψ → Option (State n ψ × Option Addr)
  | .read fd buf size finish =>
    prepareOnFd s alloc .read finish fun q => { q with fd := fd, buf := buf, size := size }
  | .write fd buf size finish =>
    prepareOnFd s alloc .write finish fun q => { q with fd := fd, buf := buf, size := size }
  | .open path flags mode finish =>
    prepareOnPath s alloc .open finish path fun q => { q with flags := flags, mode := mode }
  | .close fd finish => prepareOnFd s alloc .close finish fun q => { q with fd := fd }
  | .mkdir path mode finish => prepareOnPath s alloc .mkdir finish path fun q => { q with mode := mode }
  | .rmdir path finish => prepareOnPath s alloc .rmdir finish path id
  | .unlink path finish => prepareOnPath s alloc .unlink finish path id

/-- The end of a call. -/
def submitted (alloc : Alloc n) : State n ψ × Option Addr → State n ψ × ℤ
  | (s,none) => (s,-1)
  | (s,some req) => aioSubmit s alloc req

lemma callOnFd_eq (s : State n ψ) (alloc : Alloc n) (type : Operate) (finish : Option ψ)
    (fill : AioRequest ψ → AioRequest ψ) :
    callOnFd s alloc type finish fill = (prepareOnFd s alloc type finish fill).map (submitted alloc) := by
  unfold callOnFd prepareOnFd
  cases aioRequest s alloc type finish with
  | none => rfl
  | some p =>
    obtain ⟨t,req⟩ := p
    cases req with
    | none => rfl
    | some req =>
      simp only [Option.bind_eq_bind,Option.bind_some]
      cases assign t req fill <;> rfl

lemma callOnPath_eq (s : State n ψ) (alloc : Alloc n) (type : Operate) (finish : Option ψ)
    (path : Option (List UInt8)) (fill : AioRequest ψ → AioRequest ψ) :
    callOnPath s alloc type finish path fill = (prepareOnPath s alloc type finish path fill).map
      (submitted alloc) := by
  unfold callOnPath prepareOnPath
  cases aioRequest s alloc type finish with
  | none => rfl
  | some p =>
    obtain ⟨t,req⟩ := p
    cases req with
    | none => rfl
    | some req =>
      simp only [Option.bind_eq_bind,Option.bind_some]
      cases strdup t alloc path with
      | none => rfl
      | some p =>
        obtain ⟨t,copy⟩ := p
        simp only [Option.bind_some]
        cases assign t req fun q => { q with path := copy } with
        | none => rfl
        | some t =>
          simp only [Option.bind_some]
          split_ifs with hcopy
          · cases aioDestory t req <;> rfl
          · cases assign t req fill <;> rfl

/-- A call is what it does before `jk_aio_submit`, and `jk_aio_submit`. -/
theorem Call.exec_eq (s : State n ψ) (alloc : Alloc n) (call : Call ψ) :
    call.exec s alloc = (call.prepare s alloc).map (submitted alloc) := by
  cases call with
  | read fd buf size finish => exact callOnFd_eq _ _ _ _ _
  | write fd buf size finish => exact callOnFd_eq _ _ _ _ _
  | «open» path flags mode finish => exact callOnPath_eq _ _ _ _ _ _
  | close fd finish => exact callOnFd_eq _ _ _ _ _
  | mkdir path mode finish => exact callOnPath_eq _ _ _ _ _ _
  | rmdir path finish => exact callOnPath_eq _ _ _ _ _ _
  | unlink path finish => exact callOnPath_eq _ _ _ _ _ _

/-- The path that a call is given. -/
def Call.path : Call ψ → Option (List UInt8)
  | .read _ _ _ _ | .write _ _ _ _ | .close _ _ => none
  | .open path _ _ _ | .mkdir path _ _ | .rmdir path _ | .unlink path _ => path

/-- The request of a call, with the copy of its path. -/
def Call.record (path : Option Addr) : Call ψ → AioRequest ψ
  | .read fd buf size finish => ⟨.read,fd,size,buf,path,0,0,0,0,finish,none⟩
  | .write fd buf size finish => ⟨.write,fd,size,buf,path,0,0,0,0,finish,none⟩
  | .open _ flags mode finish => ⟨.open,0,0,none,path,flags,mode,0,0,finish,none⟩
  | .close fd finish => ⟨.close,fd,0,none,path,0,0,0,0,finish,none⟩
  | .mkdir _ mode finish => ⟨.mkdir,0,0,none,path,0,mode,0,0,finish,none⟩
  | .rmdir _ finish => ⟨.rmdir,0,0,none,path,0,0,0,0,finish,none⟩
  | .unlink _ finish => ⟨.unlink,0,0,none,path,0,0,0,0,finish,none⟩

/-- A call that has come to `jk_aio_submit`, with the addresses of its request and of the copy of its path. -/
structure Entry (ψ : Type) where
  call : Call ψ
  req : Addr
  path : Option Addr

/-- The memory with the blocks of a new request. -/
def Entry.place (e : Entry ψ) (mem : Mem (Block ψ)) : Mem (Block ψ) :=
  let mem := match e.path with
    | none => mem
    | some p => mem.put p (.path (e.call.path.getD []))
  mem.put e.req (.request (e.call.record e.path))

/-- A call that copies a path was given one and has got a copy. -/
def Entry.Complete (e : Entry ψ) : Prop := e.path.isSome = e.call.copies ∧ e.call.path.isSome = e.call.copies

/-- The call is complete, and its blocks are new. -/
structure Entry.Fits (e : Entry ψ) (mem : Mem (Block ψ)) : Prop where
  req : mem e.req = none
  path : ∀ p, e.path = some p → mem p = none ∧ p ≠ e.req
  complete : e.Complete

lemma prepareOnFd_cases {s s' : State n ψ} {alloc : Alloc n} {type : Operate} {finish : Option ψ}
    {fill : AioRequest ψ → AioRequest ψ} {r : Option Addr}
    (h : prepareOnFd s alloc type finish fill = some (s',r)) :
    (r = none ∧ s' = s) ∨ ∃ req, r = some req ∧ alloc.request = some req ∧ s.mem req = none ∧
      s' = { s with mem := s.mem.put req (.request (fill ⟨type,0,0,none,none,0,0,0,0,finish,none⟩)) } := by
  obtain ⟨⟨s₁,r₁⟩,hreq,hcall⟩ := Option.bind_eq_some_iff.mp h
  obtain ⟨rfl,⟨hnone,rfl⟩ | ⟨req,hsome,hfresh,rfl⟩⟩ := malloc_cases hreq
  · rw [hnone] at hcall
    cases hcall
    exact Or.inl ⟨rfl,rfl⟩
  · rw [hsome] at hcall
    simp only [assign,Mem.put_same,Option.bind_eq_bind,Option.bind_some,Mem.put_put] at hcall
    cases hcall
    exact Or.inr ⟨req,rfl,hsome,hfresh,rfl⟩

lemma prepareOnPath_cases {s s' : State n ψ} {alloc : Alloc n} {type : Operate} {finish : Option ψ}
    {path : Option (List UInt8)} {fill : AioRequest ψ → AioRequest ψ} {r : Option Addr}
    (h : prepareOnPath s alloc type finish path fill = some (s',r)) :
    (r = none ∧ s' = s) ∨ ∃ req p bytes, r = some req ∧ alloc.request = some req ∧ alloc.path = some p ∧
      path = some bytes ∧ s.mem req = none ∧ s.mem p = none ∧ p ≠ req ∧
      s' = { s with
        mem := (s.mem.put p (.path bytes)).put req
          (.request (fill ⟨type,0,0,none,some p,0,0,0,0,finish,none⟩)) } := by
  obtain ⟨⟨s₁,r₁⟩,hreq,hcall⟩ := Option.bind_eq_some_iff.mp h
  obtain ⟨rfl,⟨hnone,rfl⟩ | ⟨req,hsome,hfresh,rfl⟩⟩ := malloc_cases hreq
  · rw [hnone] at hcall
    cases hcall
    exact Or.inl ⟨rfl,rfl⟩
  · rw [hsome] at hcall
    obtain ⟨⟨s₂,copy⟩,hdup,hcall⟩ := Option.bind_eq_some_iff.mp hcall
    obtain ⟨bytes,rfl,hdup⟩ := Option.bind_eq_some_iff.mp hdup
    obtain ⟨rfl,⟨hnone,rfl⟩ | ⟨p,hcopy,hpfresh,rfl⟩⟩ := malloc_cases hdup
    · rw [hnone] at hcall
      simp only [assign,aioDestory,Mem.put_same,Option.bind_eq_bind,Option.bind_some,ite_true,Mem.put_put] at hcall
      cases hcall
      refine Or.inl ⟨rfl,?_⟩
      rw [Mem.free,Mem.put,Function.update_idem,← hfresh,Function.update_eq_self]
    · rw [hcopy] at hcall
      have hpr : p ≠ req := by
        intro he
        rw [he] at hpfresh
        cases (Mem.put_same _ _ _).symm.trans hpfresh
      simp only [assign,Mem.put_of_ne hpr.symm,Mem.put_same,Option.bind_eq_bind,Option.bind_some,reduceCtorEq,
        ite_false] at hcall
      cases hcall
      refine Or.inr ⟨req,p,bytes,rfl,hsome,hcopy,rfl,hfresh,?_,hpr,?_⟩
      · simpa [hpr] using hpfresh
      · rw [Mem.put_put,Mem.put_comm hpr.symm,Mem.put_put]

/-- The request that a call submits. -/
def Call.entry (alloc : Alloc n) (call : Call ψ) (req : Addr) : Entry ψ :=
  ⟨call,req,if call.copies then alloc.path else none⟩

/-- A call that does not come to `jk_aio_submit` leaves no block behind, and otherwise all blocks are there. -/
theorem Call.prepare_cases {s s' : State n ψ} {alloc : Alloc n} {call : Call ψ} {r : Option Addr}
    (h : call.prepare s alloc = some (s',r)) : (r = none ∧ s' = s) ∨ ∃ req, r = some req ∧
    alloc.request = some req ∧
      (call.entry alloc req).Fits s.mem ∧ s' = { s with mem := (call.entry alloc req).place s.mem } := by
  have hfd {type : Operate} {finish : Option ψ} {fill : AioRequest ψ → AioRequest ψ}
      (h : prepareOnFd s alloc type finish fill = some (s',r)) (hpath : call.path = none)
        (hcopies : call.copies = false)
      (hrecord : fill ⟨type,0,0,none,none,0,0,0,0,finish,none⟩ = call.record none) :
      (r = none ∧ s' = s) ∨ ∃ req, r = some req ∧ alloc.request = some req ∧
        (call.entry alloc req).Fits s.mem ∧ s' = { s with mem := (call.entry alloc req).place s.mem } := by
    refine (prepareOnFd_cases h).imp_right ?_
    rintro ⟨req,hr,halloc,hfresh,rfl⟩
    refine ⟨req,hr,halloc,⟨hfresh,?_,?_⟩,?_⟩
    · simp [Call.entry,hcopies]
    · simp [Entry.Complete,Call.entry,hcopies,hpath]
    · simp [Call.entry,Entry.place,hcopies,hrecord]
  have hdup {type : Operate} {finish : Option ψ} {path : Option (List UInt8)}
    {fill : AioRequest ψ → AioRequest ψ}
      (h : prepareOnPath s alloc type finish path fill = some (s',r)) (hpath : call.path = path)
        (hcopies : call.copies = true)
      (hrecord : ∀ p, fill ⟨type,0,0,none,some p,0,0,0,0,finish,none⟩ = call.record (some p)) :
      (r = none ∧ s' = s) ∨ ∃ req, r = some req ∧ alloc.request = some req ∧
        (call.entry alloc req).Fits s.mem ∧ s' = { s with mem := (call.entry alloc req).place s.mem } := by
    refine (prepareOnPath_cases h).imp_right ?_
    rintro ⟨req,p,bytes,hr,halloc,hp,hbytes,hfresh,hpfresh,hpr,rfl⟩
    refine ⟨req,hr,halloc,⟨hfresh,?_,?_⟩,?_⟩
    · simp [Call.entry,hcopies,hp,hpfresh,hpr]
    · simp [Entry.Complete,Call.entry,hcopies,hp,hpath,hbytes]
    · simp [Call.entry,Entry.place,hcopies,hp,hpath,hbytes,hrecord]
  cases call with
  | read fd buf size finish => exact hfd h rfl rfl rfl
  | write fd buf size finish => exact hfd h rfl rfl rfl
  | «open» path flags mode finish => exact hdup h rfl rfl fun _ => rfl
  | close fd finish => exact hfd h rfl rfl rfl
  | mkdir path mode finish => exact hdup h rfl rfl fun _ => rfl
  | rmdir path finish => exact hdup h rfl rfl fun _ => rfl
  | unlink path finish => exact hdup h rfl rfl fun _ => rfl

/-! ### The system calls -/

/-- The system calls with the arguments that they are made with. -/
inductive SystemCall where
  | read (fd : ℤ) (buf : Option Addr) (count : ℕ)
  | write (fd : ℤ) (buf : Option Addr) (count : ℕ)
  | open (path : List UInt8) (flags mode : ℤ)
  | close (fd : ℤ)
  | mkdir (path : List UInt8) (mode : ℤ)
  | rmdir (path : List UInt8)
  | unlink (path : List UInt8)
  deriving Repr, DecidableEq

/-- An `int` that is passed as a `size_t`. -/
def sizeT (size : ℤ) : ℕ := (size % 2^64).toNat

/-- The string at an address. -/
def stringAt (mem : Mem (Block ψ)) (path : Option Addr) : Option (List UInt8) := do
  match ← mem (← path) with
  | .path bytes => some bytes
  | .request _ => none

/-- The switch of `jk_aio_execute`. -/
def AioRequest.systemCall (mem : Mem (Block ψ)) (q : AioRequest ψ) : Option SystemCall :=
  match q.type with
  | .read => some (.read q.fd q.buf (sizeT q.size))
  | .write => some (.write q.fd q.buf (sizeT q.size))
  | .close => some (.close q.fd)
  | .open => (stringAt mem q.path).map fun path => .open path q.flags q.mode
  | .mkdir => (stringAt mem q.path).map fun path => .mkdir path q.mode
  | .rmdir => (stringAt mem q.path).map .rmdir
  | .unlink => (stringAt mem q.path).map .unlink

/-- What a call asks for. -/
def Call.systemCall : Call ψ → Option SystemCall
  | .read fd buf size _ => some (.read fd buf (sizeT size))
  | .write fd buf size _ => some (.write fd buf (sizeT size))
  | .open path flags mode _ => path.map fun path => .open path flags mode
  | .close fd _ => some (.close fd)
  | .mkdir path mode _ => path.map fun path => .mkdir path mode
  | .rmdir path _ => path.map .rmdir
  | .unlink path _ => path.map .unlink

lemma Call.systemCall_isSome {call : Call ψ} (h : call.path.isSome = call.copies) :
    call.systemCall.isSome = true := by
  cases call with
  | read | write | close => rfl
  | «open» | mkdir | rmdir | unlink => exact (Option.isSome_map ..).trans h

/-- The request of a call makes the system call that was asked for, whatever results it holds. -/
lemma Call.record_systemCall {mem : Mem (Block ψ)} {call : Call ψ} {path : Option Addr}
    (h : call.copies = true → stringAt mem path = call.path) (result error : ℤ) (next : Option Addr) :
    AioRequest.systemCall mem { call.record path with result := result, error := error, next := next } =
      call.systemCall := by
  cases call with
  | read | write | close => rfl
  | «open» | mkdir | rmdir | unlink =>
    simp only [Call.record,AioRequest.systemCall,Call.systemCall]
    rw [h rfl]
    rfl

/-! ### All threads together -/

/-- `aio` with its pool, the memory and all threads that use it. `asked` are the calls that have come to
`jk_aio_submit`. The last fields only record: the results of `jk_aio_wait`, the system calls made and what they
have given, the requests that callbacks were called with, and the addresses of those that the pool has refused,
with their paths. -/
structure Machine (n m : ℕ) (ψ : Type) extends State n ψ where
  pipe : ℕ
  capacity : ℕ
  submitting : List Addr
  refused : List Addr
  threads : Fin m → Thread
  fault : Bool
  counts : List ℕ
  asked : List (Entry ψ)
  made : List (SystemCall × ℤ × ℤ)
  returned : List (AioRequest ψ)
  leaked : List (Addr × Option Addr)

namespace Machine

/-- `jk_aio_init`. -/
def init (n m : ℕ) (ψ : Type) (capacity : ℕ) : Machine n m ψ where
  toState := ⟨Pool.threadPoolNew n Fn Addr,fun _ => none,none,none,0,0⟩
  pipe := 0
  capacity := capacity
  submitting := []
  refused := []
  threads _ := .idle
  fault := false
  counts := []
  asked := []
  made := []
  returned := []
  leaked := []

def setThread (s : Machine n m ψ) (j : Fin m) (t : Thread) : Machine n m ψ :=
  { s with threads := Function.update s.threads j t }

/-- Assign to fields of a request. -/
def assign (s : Machine n m ψ) (req : Addr) (f : AioRequest ψ → AioRequest ψ) : Option (Machine n m ψ) := do
  let t ← Calls.assign s.toState req f
  return { s with toState := t }

/-- The first section of `jk_aio_submit`. -/
def count (s : Machine n m ψ) (e : Entry ψ) : Machine n m ψ :=
  { s with nreqs := s.nreqs+1, submitting := s.submitting++[e.req], asked := s.asked++[e] }

/-- A call up to the end of the first section of `jk_aio_submit`. -/
def aioCall (s : Machine n m ψ) (call : Call ψ) (alloc : Alloc n) : Option (Machine n m ψ) := do
  match ← call.prepare s.toState alloc with
  | (t,none) => return { s with toState := t }
  | (t,some req) => return count { s with toState := t } (call.entry alloc req)

/-- The call of `jk_thread_pool_push` in `jk_aio_submit`. -/
def aioPush (s : Machine n m ψ) (req : Addr) (malloc : Bool) (woken : List (Fin n)) : Machine n m ψ :=
  let (pool,ret) := Pool.threadPoolPush s.pool .execute req (some .fininsh) malloc woken
  { s with
    pool := pool, submitting := s.submitting.erase req, refused := if ret = 0 then s.refused else req::s.refused }

/-- The last section of `jk_aio_submit`, after a failed push. -/
def aioRollback (s : Machine n m ψ) (req : Addr) : Machine n m ψ :=
  let path := match s.mem req with
    | some (.request q) => q.path
    | _ => none
  { s with nreqs := s.nreqs-1, refused := s.refused.erase req, leaked := s.leaked++[(req,path)] }

/-- `jk_aio_execute`, with what the system call gives. -/
def aioExecute (s : Machine n m ψ) (req : Addr) (result error : ℤ) : Option (Machine n m ψ) :=
  match s.mem req with
  | some (.request q) => do
    let call ← q.systemCall s.mem
    let s ← s.assign req fun q => { q with result := result, error := error }
    return { s with made := s.made++[(call,result,error)] }
  | _ => none

/-- `jk_aio_fininsh`. -/
def aioFininsh (s : Machine n m ψ) (req : Addr) : Option (Machine n m ψ) := do
  let s ← s.assign req fun q => { q with next := none }
  let s : Machine n m ψ := { s with rhead := if s.rhead = none then some req else s.rhead }
  let s ← match s.rtail with
    | none => some s
    | some t => s.assign t fun q => { q with next := some req }
  return { s with rtail := some req, pipe := if s.pipe < s.capacity then s.pipe+1 else s.pipe }

/-- A worker calls one of the functions. -/
def invoke (s : Machine n m ψ) (f : Fn) (req : Addr) (result error : ℤ) : Option (Machine n m ψ) :=
  match f with
  | .execute => s.aioExecute req result error
  | .fininsh => s.aioFininsh req

/-- The section of `jk_aio_poll` under the lock; it returns if the list is empty. -/
def aioPollSection (s : Machine n m ψ) (j : Fin m) (processed : ℕ) : Option (Machine n m ψ) :=
  match s.rhead with
  | none => some (s.setThread j .idle)
  | some req =>
    match s.mem req with
    | some (.request q) => some { s.setThread j (.finishing req processed) with
      rhead := q.next, rtail := if q.next = none then none else s.rtail, ncoms := s.ncoms+1 }
    | _ => none

/-- The call of `req->finish`, if there is one. -/
def aioCallback (s : Machine n m ψ) (j : Fin m) (req processed : ℕ) : Option (Machine n m ψ) :=
  match s.mem req with
  | some (.request q) => some { s.setThread j (.destroying req processed) with
    returned := if q.finish.isSome then s.returned++[q] else s.returned }
  | _ => none

/-- `jk_aio_destory`, and `processed++`. -/
def aioDestory (s : Machine n m ψ) (j : Fin m) (req processed : ℕ) : Option (Machine n m ψ) :=
  match s.mem req with
  | some (.request q) => do
    let mem ← match q.path with
      | none => some s.mem
      | some p => (s.mem p).map fun _ => s.mem.free p
    return { s.setThread j (.polling (processed+1)) with mem := mem.free req }
  | _ => none

/-- The events are those of the requests without addresses, but for the calls. -/
inductive Event (n m : ℕ) (ψ : Type) where
  /-- A call up to the first section of `jk_aio_submit`, and the rest of `jk_aio_submit`. -/
  | enter (call : Call ψ) (alloc : Alloc n)
  | push (req : Addr) (malloc : Bool) (woken : List (Fin n))
  | rollback (req : Addr)
  /-- The events of a worker. -/
  | wake (i : Fin n)
  | lock (i : Fin n)
  | call (i : Fin n) (result error : ℤ)
  | finish (i : Fin n)
  | free (i : Fin n)
  /-- A call of `jk_aio_wait`, with what `select` returns, and a pass of its loop. -/
  | select (j : Fin m) (ret : ℤ)
  | read (j : Fin m)
  /-- A call of `jk_aio_poll` and the parts of its loop. -/
  | poll (j : Fin m)
  | dequeue (j : Fin m)
  | callback (j : Fin m)
  | destory (j : Fin m)

/-- A fault ends what the thread does. -/
def orFault (s : Machine n m ψ) (s' : Option (Machine n m ψ)) : Machine n m ψ := s'.getD { s with fault := true }

/-- A worker gives its task to one of the functions. -/
def workerStep (s : Machine n m ψ) (e : Pool.Event n Fn Addr) (call : Option (Fn × Addr)) (result error : ℤ) :
    Option (Machine n m ψ) := do
  let pool ← Pool.step s.pool e
  let s : Machine n m ψ := { s with pool := pool }
  match call with
  | none => return s
  | some (f,req) => return s.orFault (s.invoke f req result error)

/-- One event. `malloc` returns addresses of 64 bits. -/
def step (s : Machine n m ψ) : Event n m ψ → Option (Machine n m ψ)
  | .enter call alloc =>
    if alloc.request.all fun req => 0 < req ∧ req < 2^64 then s.aioCall call alloc else none
  | .push req malloc woken => if req ∈ s.submitting then some (s.aioPush req malloc woken) else none
  | .rollback req => if req ∈ s.refused then some (s.aioRollback req) else none
  | .wake i => s.workerStep (.wake i) none 0 0
  | .lock i => s.workerStep (.lock i) none 0 0
  | .call i result error =>
    match (s.pool.workers i).pc with
    | .holding t => s.workerStep (.call i) (some (t.call,t.arg)) result error
    | _ => none
  | .finish i =>
    match (s.pool.workers i).pc with
    | .called t => s.workerStep (.finish i) (t.finish.map fun f => (f,t.arg)) 0 0
    | _ => none
  | .free i => s.workerStep (.free i) none 0 0
  | .select j ret =>
    match s.threads j with
    | .idle =>
      if ret ≤ 0 then some s
      else if 0 < s.pipe then some (s.setThread j (.reading 0)) else none
    | _ => none
  | .read j =>
    match s.threads j with
    | .reading count =>
      if 0 < s.pipe then some { s.setThread j (.reading (count+1)) with pipe := s.pipe-1 }
      else some { s.setThread j .idle with counts := s.counts++[count] }
    | _ => none
  | .poll j =>
    match s.threads j with
    | .idle => some (s.setThread j (.polling 0))
    | _ => none
  | .dequeue j =>
    match s.threads j with
    | .polling processed => some (s.orFault (s.aioPollSection j processed))
    | _ => none
  | .callback j =>
    match s.threads j with
    | .finishing req processed => some (s.orFault (s.aioCallback j req processed))
    | _ => none
  | .destory j =>
    match s.threads j with
    | .destroying req processed => some (s.orFault (s.aioDestory j req processed))
    | _ => none

end Machine

end JustKit.Aio.Calls
