import JustKit.Foundations.Transition
import JustKit.Foundations.Word

/-! `jk_spinlock.c` as a transition system of any number of threads. Every read of the lock word, every
compare-and-swap and every pass of a loop is an event of its own. -/
namespace JustKit.Spinlock
open Foundations Foundations.Transition

/-- Where a thread is in `jk_spinlock`, with its variables `n` and `i`. -/
inductive Pc where
  | idle
  | read
  | swap
  /-- The pauses before the lock is tried again. -/
  | pause (n i : ℤ)
  | innerRead (n : ℤ)
  | innerSwap (n : ℤ)
  | yield
  | holding
  deriving Repr, DecidableEq

/-- The lock word, the variable `ncpu` of the file, and the threads. -/
structure State (ι : Type) where
  word : ℤ
  ncpu : ℤ
  pc : ι → Pc

variable {ι : Type} [DecidableEq ι]

/-- `__sync_bool_compare_and_swap`: the new word, and whether it was stored. -/
def compareAndSwap (word old new : ℤ) : ℤ × Bool := if word = old then (new,true) else (word,false)

/-- `jk_spinlock_init`, with what `sysconf` returns. -/
def spinlockInit (s : State ι) (online : ℤ) : State ι :=
  let ncpu := wrap 32 online
  { s with ncpu := if ncpu ≤ 0 then 1 else ncpu }

def State.setPc (s : State ι) (i : ι) (pc : Pc) : State ι := { s with pc := Function.update s.pc i pc }

/-- The test of the inner loop. -/
def innerLoop (n : ℤ) : Pc := if n < 129 then .pause n 0 else .yield

/-- What follows a failed try in the outer loop. -/
def afterTry (ncpu : ℤ) : Pc := if 1 < ncpu then innerLoop 1 else .yield

/-- What follows a failed try in the inner loop: its step `n << 1` leaves `n` as it is. -/
def afterInnerTry (n : ℤ) : Pc := innerLoop n

/-- A thread tries to swap its identifier in; `failed` is where it goes if the word is not free. -/
def trySwap (s : State ι) (i : ι) (which : ℤ) (failed : Pc) : State ι :=
  match compareAndSwap s.word 0 which with
  | (word,true) => { s.setPc i .holding with word := word }
  | (_,false) => s.setPc i failed

/-- The next step of a thread in `jk_spinlock`. -/
def spinlockStep (s : State ι) (i : ι) (which : ℤ) : Option (State ι) :=
  match s.pc i with
  | .idle => none
  | .read => some (s.setPc i (if s.word = 0 then .swap else afterTry s.ncpu))
  | .swap => some (trySwap s i which (afterTry s.ncpu))
  | .pause n k => some (s.setPc i (if k < n then .pause n (k+1) else .innerRead n))
  | .innerRead n => some (s.setPc i (if s.word = 0 then .innerSwap n else afterInnerTry n))
  | .innerSwap n => some (trySwap s i which (afterInnerTry n))
  | .yield => some (s.setPc i .read)
  | .holding => none

/-- `jk_spinunlock`. -/
def spinunlock (s : State ι) (i : ι) (which : ℤ) : State ι :=
  { s with
    word := (compareAndSwap s.word which 0).1
    pc := if s.pc i = .holding then Function.update s.pc i .idle else s.pc }

inductive Event (ι : Type) where
  | init (online : ℤ)
  /-- A call of `jk_spinlock`. -/
  | lock (i : ι)
  | tick (i : ι)
  /-- A call of `jk_spinunlock`, by any thread. -/
  | unlock (i : ι)

/-- One event; `which i` is the identifier of thread `i`. -/
def step (which : ι → ℤ) (s : State ι) : Event ι → Option (State ι)
  | .init online => some (spinlockInit s online)
  | .lock i =>
    match s.pc i with
    | .idle => some (s.setPc i .read)
    | _ => none
  | .tick i => spinlockStep s i (which i)
  | .unlock i => some (spinunlock s i (which i))

/-- No thread has called anything. -/
def start (ι : Type) (ncpu : ℤ) : State ι := ⟨0,ncpu,fun _ => .idle⟩

end JustKit.Spinlock
