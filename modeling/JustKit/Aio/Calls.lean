import JustKit.Aio.Model

/-! The calls `jk_aio_read` to `jk_aio_unlink` from their entry to their return, with every block that they
allocate. An argument gives what `malloc` returns along the call. -/
namespace JustKit.Aio.Calls
open Foundations

abbrev Addr := ℕ

/-- `jk_aio_request_s`. -/
structure AioRequest (ψ : Type) where
  type : Operate
  fd : ℤ
  size : ℤ
  buf : Option Addr
  path : Option Addr
  flags : ℤ
  mode : ℤ
  result : ℤ
  error : ℤ
  finish : Option ψ
  next : Option Addr
  deriving Repr, DecidableEq

/-- What the calls allocate: a request, or the copy of a path. -/
inductive Block (ψ : Type) where
  | request (req : AioRequest ψ)
  | path (bytes : List UInt8)
  deriving Repr, DecidableEq

/-- `aio` with `worker_pool` and the memory. The completion list starts at `rhead` and goes on through the
`next` fields of the requests. -/
structure State (n : ℕ) (ψ : Type) where
  pool : Pool.State n Fn Addr
  mem : Mem (Block ψ)
  rhead : Option Addr
  rtail : Option Addr
  nreqs : UInt64
  ncoms : UInt64

/-- The results of `malloc` in `jk_aio_request`, in `strdup` and in `jk_thread_pool_push`, and the workers
that the signal of the last wakes. -/
structure Alloc (n : ℕ) where
  request : Option Addr
  path : Option Addr
  task : Bool
  woken : List (Fin n)

variable {n : ℕ} {ψ : Type}

/-- `malloc` and the first assignment to the block. It returns no address in use. -/
def malloc (s : State n ψ) (a : Option Addr) (block : Block ψ) : Option (State n ψ × Option Addr) :=
  match a with
  | none => some (s,none)
  | some a => if (s.mem a).isSome then none else some ({ s with mem := s.mem.put a block },some a)

/-- `jk_aio_request`. -/
def aioRequest (s : State n ψ) (alloc : Alloc n) (type : Operate) (finish : Option ψ) :
    Option (State n ψ × Option Addr) :=
  malloc s alloc.request (.request ⟨type,0,0,none,none,0,0,0,0,finish,none⟩)

/-- `strdup`; there is no copy of a null pointer. -/
def strdup (s : State n ψ) (alloc : Alloc n) (path : Option (List UInt8)) : Option (State n ψ × Option Addr) := do
  malloc s alloc.path (.path (← path))

/-- Assign to fields of a request. -/
def assign (s : State n ψ) (req : Addr) (f : AioRequest ψ → AioRequest ψ) : Option (State n ψ) :=
  match s.mem req with
  | some (.request q) => some { s with mem := s.mem.put req (.request (f q)) }
  | _ => none

/-- `jk_aio_destory`. -/
def aioDestory (s : State n ψ) (req : Addr) : Option (State n ψ) :=
  match s.mem req with
  | some (.request q) =>
    let mem := match q.path with
      | none => s.mem
      | some p => s.mem.free p
    some { s with mem := mem.free req }
  | _ => none

/-- `jk_aio_submit`. -/
def aioSubmit (s : State n ψ) (alloc : Alloc n) (req : Addr) : State n ψ × ℤ :=
  let s := { s with nreqs := s.nreqs+1 }
  let (pool,ret) := Pool.threadPoolPush s.pool .execute req (some .fininsh) alloc.task alloc.woken
  let s := { s with pool := pool }
  if ret ≠ 0 then ({ s with nreqs := s.nreqs-1 },-1) else (s,0)

/-- The calls without a path. -/
def callOnFd (s : State n ψ) (alloc : Alloc n) (type : Operate) (finish : Option ψ)
    (fill : AioRequest ψ → AioRequest ψ) : Option (State n ψ × ℤ) := do
  match ← aioRequest s alloc type finish with
  | (s,none) => return (s,-1)
  | (s,some req) =>
    let s ← assign s req fill
    return aioSubmit s alloc req

/-- The calls with a path. -/
def callOnPath (s : State n ψ) (alloc : Alloc n) (type : Operate) (finish : Option ψ)
    (path : Option (List UInt8)) (fill : AioRequest ψ → AioRequest ψ) : Option (State n ψ × ℤ) := do
  match ← aioRequest s alloc type finish with
  | (s,none) => return (s,-1)
  | (s,some req) =>
    let (s,copy) ← strdup s alloc path
    let s ← assign s req fun q => { q with path := copy }
    if copy = none then
      let s ← aioDestory s req
      return (s,-1)
    else
      let s ← assign s req fill
      return aioSubmit s alloc req

/-- `jk_aio_read`. -/
def aioRead (s : State n ψ) (alloc : Alloc n) (fd : ℤ) (buf : Option Addr) (size : ℤ) (finish : Option ψ) :
    Option (State n ψ × ℤ) :=
  callOnFd s alloc .read finish fun q => { q with fd := fd, buf := buf, size := size }

/-- `jk_aio_write`. -/
def aioWrite (s : State n ψ) (alloc : Alloc n) (fd : ℤ) (buf : Option Addr) (size : ℤ) (finish : Option ψ) :
    Option (State n ψ × ℤ) :=
  callOnFd s alloc .write finish fun q => { q with fd := fd, buf := buf, size := size }

/-- `jk_aio_open`. -/
def aioOpen (s : State n ψ) (alloc : Alloc n) (path : Option (List UInt8)) (flags mode : ℤ) (finish : Option ψ) :
    Option (State n ψ × ℤ) :=
  callOnPath s alloc .open finish path fun q => { q with flags := flags, mode := mode }

/-- `jk_aio_close`. -/
def aioClose (s : State n ψ) (alloc : Alloc n) (fd : ℤ) (finish : Option ψ) : Option (State n ψ × ℤ) :=
  callOnFd s alloc .close finish fun q => { q with fd := fd }

/-- `jk_aio_mkdir`. -/
def aioMkdir (s : State n ψ) (alloc : Alloc n) (path : Option (List UInt8)) (mode : ℤ) (finish : Option ψ) :
    Option (State n ψ × ℤ) :=
  callOnPath s alloc .mkdir finish path fun q => { q with mode := mode }

/-- `jk_aio_rmdir`. -/
def aioRmdir (s : State n ψ) (alloc : Alloc n) (path : Option (List UInt8)) (finish : Option ψ) :
    Option (State n ψ × ℤ) :=
  callOnPath s alloc .rmdir finish path id

/-- `jk_aio_unlink`. -/
def aioUnlink (s : State n ψ) (alloc : Alloc n) (path : Option (List UInt8)) (finish : Option ψ) :
    Option (State n ψ × ℤ) :=
  callOnPath s alloc .unlink finish path id

/-- A call with its arguments. -/
inductive Call (ψ : Type) where
  | read (fd : ℤ) (buf : Option Addr) (size : ℤ) (finish : Option ψ)
  | write (fd : ℤ) (buf : Option Addr) (size : ℤ) (finish : Option ψ)
  | open (path : Option (List UInt8)) (flags mode : ℤ) (finish : Option ψ)
  | close (fd : ℤ) (finish : Option ψ)
  | mkdir (path : Option (List UInt8)) (mode : ℤ) (finish : Option ψ)
  | rmdir (path : Option (List UInt8)) (finish : Option ψ)
  | unlink (path : Option (List UInt8)) (finish : Option ψ)

def Call.exec (s : State n ψ) (alloc : Alloc n) : Call ψ → Option (State n ψ × ℤ)
  | .read fd buf size finish => aioRead s alloc fd buf size finish
  | .write fd buf size finish => aioWrite s alloc fd buf size finish
  | .open path flags mode finish => aioOpen s alloc path flags mode finish
  | .close fd finish => aioClose s alloc fd finish
  | .mkdir path mode finish => aioMkdir s alloc path mode finish
  | .rmdir path finish => aioRmdir s alloc path finish
  | .unlink path finish => aioUnlink s alloc path finish

/-- The call copies a path. -/
def Call.copies : Call ψ → Bool
  | .read _ _ _ _ | .write _ _ _ _ | .close _ _ => false
  | .open _ _ _ _ | .mkdir _ _ _ | .rmdir _ _ | .unlink _ _ => true

/-! ### What a call leaves behind -/

/-- The counters, the completion list and the pool are as before, and every block allocated since is freed. -/
structure LeavesNothing (s s' : State n ψ) : Prop where
  nreqs : s'.nreqs = s.nreqs
  ncoms : s'.ncoms = s.ncoms
  ends : s'.rhead = s.rhead ∧ s'.rtail = s.rtail
  kept : ∀ a, s.mem a ≠ none → s'.mem a = s.mem a
  tasks : s'.pool = s.pool
  freed : ∀ a, s.mem a = none → s'.mem a = none

/-- One request more is counted and waits in the pool, and its record is new. -/
structure AddsOne (s s' : State n ψ) : Prop where
  nreqs : s'.nreqs = s.nreqs+1
  task : ∃ req q, s.mem req = none ∧ s'.mem req = some (.request q) ∧
    s'.pool.waitTasks = ⟨s.pool.accepted.length,.execute,req,some .fininsh⟩::s.pool.waitTasks

/-- What the caller may expect of a call that has returned `ret`. -/
structure KeepsWord (s s' : State n ψ) (ret : ℤ) : Prop where
  returns : ret = -1 ∨ ret = 0
  refused : ret = -1 → LeavesNothing s s'
  accepted : ret = 0 → AddsOne s s'

/-- No allocation fails after the request and its path have been allocated. -/
def Alloc.Fits (alloc : Alloc n) (copies : Bool) : Prop :=
  alloc.request = none ∨ (copies = true ∧ alloc.path = none) ∨ alloc.task = true

lemma malloc_cases {s s' : State n ψ} {a r : Option Addr} {block : Block ψ} (h : malloc s a block = some (s',r)) :
    r = a ∧
      ((a = none ∧ s' = s) ∨
        ∃ b, a = some b ∧ s.mem b = none ∧ s' = { s with mem := s.mem.put b block }) := by
  unfold malloc at h
  cases a with
  | none =>
    cases h
    exact ⟨rfl,Or.inl ⟨rfl,rfl⟩⟩
  | some b =>
    dsimp only at h
    split_ifs at h with hused
    cases h
    exact ⟨rfl,Or.inr ⟨b,rfl,by simpa using hused,rfl⟩⟩

lemma leavesNothing_refl (s : State n ψ) : LeavesNothing s s :=
  ⟨rfl,rfl,⟨rfl,rfl⟩,fun _ _ => rfl,rfl,fun _ h => h⟩

/-- `s₁` is `s` with a request at the new address `req`, and perhaps with the copy of its path. -/
structure Prepared (s s₁ : State n ψ) (req : Addr) : Prop where
  fresh : s.mem req = none
  record : ∃ q, s₁.mem req = some (.request q)
  pool : s₁.pool = s.pool
  nreqs : s₁.nreqs = s.nreqs

lemma aioSubmit_fails (s : State n ψ) {alloc : Alloc n} (h : alloc.task = false) (req : Addr) :
    aioSubmit s alloc req = ({ s with nreqs := s.nreqs+1-1 },-1) := by
  simp [aioSubmit,Pool.threadPoolPush,h]

lemma aioSubmit_succeeds (s : State n ψ) {alloc : Alloc n} (h : alloc.task = true) (req : Addr) :
    (aioSubmit s alloc req).2 = 0 ∧ (aioSubmit s alloc req).1.nreqs = s.nreqs+1 ∧
      (aioSubmit s alloc req).1.mem = s.mem ∧ (aioSubmit s alloc req).1.pool.waitTasks =
        ⟨s.pool.accepted.length,.execute,req,some .fininsh⟩::s.pool.waitTasks := by
  simp [aioSubmit,Pool.threadPoolPush,h]

/-- The tail that all calls share: if the pool refuses, the request stays allocated. -/
theorem aioSubmit_keepsWord_iff {s s₁ : State n ψ} {req : Addr} (h : Prepared s s₁ req) (alloc : Alloc n) :
    KeepsWord s (aioSubmit s₁ alloc req).1 (aioSubmit s₁ alloc req).2 ↔ alloc.task = true := by
  obtain ⟨q,hq⟩ := h.record
  cases htask : alloc.task with
  | true =>
    obtain ⟨hret,hnreqs,hmem,htasks⟩ := aioSubmit_succeeds s₁ htask req
    refine iff_of_true ⟨Or.inr hret,fun hrefused => ?_,fun _ => ⟨?_,req,q,h.fresh,?_,?_⟩⟩ rfl
    · exact absurd (hret.symm.trans hrefused) (by decide)
    · rw [hnreqs,h.nreqs]
    · rw [hmem,hq]
    · rw [htasks,h.pool]
  | false =>
    refine iff_of_false (fun hword => ?_) Bool.false_ne_true
    rw [aioSubmit_fails s₁ htask req] at hword
    have hfree := (hword.refused rfl).freed req h.fresh
    cases hfree.symm.trans hq

/-- The sections of a call of `jk_aio_submit` as events of the transition system. -/
def submitEvents {m : ℕ} (alloc : Alloc n) (type : Operate) (finish : Option ψ)
    (req : ℕ) : List (Event n m ψ) :=
  [.submit type finish,.push req alloc.task alloc.woken]++if alloc.task then [] else [.rollback req]

/-- A call of `jk_aio_submit` that no other thread interrupts is a run of the transition system. -/
theorem aioSubmit_run {m : ℕ} {s : Aio.State n m ψ} {c : State n ψ} (hpool : c.pool = s.pool)
    (hnreqs : c.nreqs = s.nreqs) (alloc : Alloc n) (type : Operate) (finish : Option ψ)
    (hroom : s.counted.length-s.dequeued.length+1 < 2^64) :
    ∃ s', Transition.run step s (submitEvents alloc type finish s.fresh) = some s' ∧
      s'.pool = (aioSubmit c alloc s.fresh).1.pool ∧ s'.nreqs = (aioSubmit c alloc s.fresh).1.nreqs ∧
      s'.ncoms = s.ncoms ∧ s'.rhead = s.rhead ∧ s'.rtail = s.rtail := by
  have hsubmitted : s.fresh ∈ (Aio.aioRequest s type finish).submitting := by simp [Aio.aioRequest]
  have hsubmit : step s (.submit type finish) = some (Aio.aioRequest s type finish) := if_pos hroom
  have hpush (task : Bool) : step (Aio.aioRequest s type finish) (.push s.fresh task alloc.woken) =
      some (aioPush (Aio.aioRequest s type finish) s.fresh task alloc.woken) := if_pos hsubmitted
  cases htask : alloc.task with
  | true =>
    refine ⟨aioPush (Aio.aioRequest s type finish) s.fresh true alloc.woken,?_,?_,?_,rfl,rfl,rfl⟩
    · simp [submitEvents,htask,Transition.run,hsubmit,hpush]
    · simp [aioPush,Aio.aioRequest,aioSubmit,Pool.threadPoolPush,htask,hpool]
    · simp [aioPush,Aio.aioRequest,aioSubmit,Pool.threadPoolPush,htask,hnreqs]
  | false =>
    have hrefused : s.fresh ∈ (aioPush (Aio.aioRequest s type finish) s.fresh false alloc.woken).refused := by
      simp [aioPush,Pool.threadPoolPush]
    have hback : step (aioPush (Aio.aioRequest s type finish) s.fresh false alloc.woken) (.rollback s.fresh) =
        some (aioRollback (aioPush (Aio.aioRequest s type finish) s.fresh false alloc.woken) s.fresh) :=
        if_pos hrefused
    refine ⟨aioRollback (aioPush (Aio.aioRequest s type finish) s.fresh false alloc.woken) s.fresh,?_,?_,?_,
      rfl,rfl,rfl⟩
    · simp [submitEvents,htask,Transition.run,hsubmit,hpush,hback]
    · simp [aioSubmit_fails c htask,aioRollback,aioPush,Aio.aioRequest,Pool.threadPoolPush,hpool]
    · simp [aioSubmit_fails c htask,aioRollback,aioPush,Aio.aioRequest,Pool.threadPoolPush,hnreqs]

lemma keepsWord_refused {s s' : State n ψ} (h : LeavesNothing s s') : KeepsWord s s' (-1) :=
  ⟨Or.inl rfl,fun _ => h,fun hret => absurd hret (by decide)⟩

theorem callOnFd_keepsWord_iff {s s' : State n ψ} {alloc : Alloc n} {type : Operate} {finish : Option ψ}
    {fill : AioRequest ψ → AioRequest ψ} {ret : ℤ} (h : callOnFd s alloc type finish fill = some (s',ret)) :
    KeepsWord s s' ret ↔ alloc.Fits false := by
  obtain ⟨⟨s₁,r⟩,hreq,hcall⟩ := Option.bind_eq_some_iff.mp h
  obtain ⟨rfl,⟨hnone,rfl⟩ | ⟨req,hsome,hfresh,rfl⟩⟩ := malloc_cases hreq
  · rw [hnone] at hcall
    cases hcall
    exact iff_of_true (keepsWord_refused (leavesNothing_refl _)) (Or.inl hnone)
  · rw [hsome] at hcall
    obtain ⟨s₂,hassign,hcall⟩ := Option.bind_eq_some_iff.mp hcall
    simp only [assign,Mem.put_same,Option.some.injEq] at hassign
    subst hassign
    have hsubmit := Option.some.inj hcall
    obtain rfl : _ = s' := congrArg Prod.fst hsubmit
    obtain rfl : _ = ret := congrArg Prod.snd hsubmit
    refine Iff.trans (aioSubmit_keepsWord_iff ?_ alloc) ?_
    · exact ⟨hfresh,⟨_,Mem.put_same _ _ _⟩,rfl,rfl⟩
    · simp [Alloc.Fits,hsome]

theorem callOnPath_keepsWord_iff {s s' : State n ψ} {alloc : Alloc n} {type : Operate} {finish : Option ψ}
    {path : Option (List UInt8)} {fill : AioRequest ψ → AioRequest ψ} {ret : ℤ}
    (h : callOnPath s alloc type finish path fill = some (s',ret)) : KeepsWord s s' ret ↔ alloc.Fits true := by
  obtain ⟨⟨s₁,r⟩,hreq,hcall⟩ := Option.bind_eq_some_iff.mp h
  obtain ⟨rfl,⟨hnone,rfl⟩ | ⟨req,hsome,hfresh,rfl⟩⟩ := malloc_cases hreq
  · rw [hnone] at hcall
    cases hcall
    exact iff_of_true (keepsWord_refused (leavesNothing_refl _)) (Or.inl hnone)
  · rw [hsome] at hcall
    obtain ⟨⟨s₂,copy⟩,hdup,hcall⟩ := Option.bind_eq_some_iff.mp hcall
    obtain ⟨bytes,hbytes,hdup⟩ := Option.bind_eq_some_iff.mp hdup
    obtain ⟨rfl,⟨hnone,rfl⟩ | ⟨p,hcopy,hpfresh,rfl⟩⟩ := malloc_cases hdup
    · -- There is no copy: the request is destroyed again.
      rw [hnone] at hcall
      simp only [assign,aioDestory,Mem.put_same,Option.bind_eq_bind,Option.bind_some,ite_true] at hcall
      cases hcall
      refine iff_of_true (keepsWord_refused ⟨rfl,rfl,⟨rfl,rfl⟩,fun a ha => ?_,rfl,fun a ha => ?_⟩)
        (Or.inr (Or.inl ⟨rfl,hnone⟩))
      · have hne : a ≠ req := fun he => ha (he ▸ hfresh)
        simp [hne]
      · by_cases hne : a = req
        · rw [hne]
          exact Mem.free_same _ _
        · simpa [hne] using ha
    · rw [hcopy] at hcall
      have hpr : p ≠ req := by
        intro he
        rw [he] at hpfresh
        cases (Mem.put_same _ _ _).symm.trans hpfresh
      simp only [assign,Mem.put_of_ne hpr.symm,Mem.put_same,Option.bind_eq_bind,Option.bind_some,reduceCtorEq,
        ite_false] at hcall
      have hsubmit := Option.some.inj hcall
      obtain rfl : _ = s' := congrArg Prod.fst hsubmit
      obtain rfl : _ = ret := congrArg Prod.snd hsubmit
      refine Iff.trans (aioSubmit_keepsWord_iff ?_ alloc) ?_
      · exact ⟨hfresh,⟨_,Mem.put_same _ _ _⟩,rfl,rfl⟩
      · simp [Alloc.Fits,hsome,hcopy]

/-- A call leaves nothing behind when it is refused, and adds one request when it is accepted, if and only
if the pool gets memory for its task whenever the request and its path have got theirs. -/
theorem call_keepsWord_iff (s s' : State n ψ) (alloc : Alloc n) (call : Call ψ) (ret : ℤ)
    (h : call.exec s alloc = some (s',ret)) : KeepsWord s s' ret ↔ alloc.Fits call.copies := by
  cases call with
  | read fd buf size finish => exact callOnFd_keepsWord_iff h
  | write fd buf size finish => exact callOnFd_keepsWord_iff h
  | «open» path flags mode finish => exact callOnPath_keepsWord_iff h
  | close fd finish => exact callOnFd_keepsWord_iff h
  | mkdir path mode finish => exact callOnPath_keepsWord_iff h
  | rmdir path finish => exact callOnPath_keepsWord_iff h
  | unlink path finish => exact callOnPath_keepsWord_iff h

/-- `jk_aio_init`, with its 15 workers. -/
def aioInit (ψ : Type) : State 15 ψ := ⟨Pool.threadPoolNew 15 Fn Addr,fun _ => none,none,none,0,0⟩

/-- A path of one letter is opened, and the pool accepts the task. -/
theorem call_keepsWord_iff_open :
    ∃ s', (Call.open (some [97]) 0 0 none).exec (aioInit Unit) ⟨some 1,some 2,true,[]⟩ =
    some (s',0) ∧
    (KeepsWord (aioInit Unit) s' 0 ↔ Alloc.Fits (⟨some 1,some 2,true,[]⟩ : Alloc 15) true) := by
  obtain ⟨s',h⟩ : ∃ s', (Call.open (some [97]) 0 0 none).exec (aioInit Unit) ⟨some 1,some 2,true,[]⟩ =
      some (s',0) :=
    ⟨_,rfl⟩
  exact ⟨s',h,call_keepsWord_iff (aioInit Unit) s' ⟨some 1,some 2,true,[]⟩ (.open (some [97]) 0 0 none) 0 h⟩

/-- When only the allocation of the task fails, the call is refused and its request stays allocated, with the
copy of its path if there is one. -/
theorem refused_call_leaks :
    (∃ s', (Call.close 3 none).exec (aioInit Unit) ⟨some 1,none,false,[]⟩ = some (s',-1) ∧
      s'.mem 1 ≠ none ∧ ¬ LeavesNothing (aioInit Unit) s') ∧
    ∃ s', (Call.open (some [97]) 0 0 none).exec (aioInit Unit) ⟨some 1,some 2,false,[]⟩ = some (s',-1) ∧
      s'.mem 1 ≠ none ∧ s'.mem 2 ≠ none ∧ ¬ LeavesNothing (aioInit Unit) s' := by
  constructor
  · refine ⟨_,rfl,by decide,fun h => ?_⟩
    exact absurd (h.freed 1 rfl) (by decide)
  · refine ⟨_,rfl,by decide,by decide,fun h => ?_⟩
    exact absurd (h.freed 1 rfl) (by decide)

end JustKit.Aio.Calls
