import JustKit.Aio.Conservation

/-! One thread that repeats `jk_aio_wait` and `jk_aio_poll`. The write to the pipe in `jk_aio_fininsh` is
an event of its own here: the thread may read the pipe between the append and the write, but it cannot
take the lock. -/
namespace JustKit.Aio
open Foundations Foundations.Transition
variable {n m : ℕ} {ψ : Type}

/-- The function that the thread is in, or calls next. -/
inductive Turn where
  | wait
  | poll
  deriving Repr, DecidableEq

/-- `writing` says that a worker in `jk_aio_fininsh` has appended its request and not written its byte;
it holds the lock. -/
structure Loop (n m : ℕ) (ψ : Type) where
  aio : State n m ψ
  turn : Turn
  writing : Bool

inductive LoopEvent (n m : ℕ) (ψ : Type) where
  | aio (e : Event n m ψ)
  /-- The write to the pipe, and the end of `jk_aio_fininsh`. -/
  | write

def loopInit (n m : ℕ) (ψ : Type) (capacity : ℕ) : Loop n m ψ := ⟨aioInit n m ψ capacity,.wait,false⟩

/-- The thread is at `select` in `jk_aio_wait`. -/
def Loop.AtSelect (s : Loop n m ψ) (j : Fin m) : Prop := s.turn = .wait ∧ s.aio.threads j = .idle

/-- The thread does something, and its turn after it is `turn`. -/
def Loop.act (s : Loop n m ψ) (e : Event n m ψ) (turn : Turn) : Option (Loop n m ψ) :=
  (Aio.step s.aio e).map fun aio => { s with aio := aio, turn := turn }

/-- One event, where `j` is the thread. -/
def loopStep (j : Fin m) (s : Loop n m ψ) : LoopEvent n m ψ → Option (Loop n m ψ)
  | .write =>
    if s.writing then
      some { s with
        aio := { s.aio with pipe := if s.aio.pipe < s.aio.capacity then s.aio.pipe+1 else s.aio.pipe },
        writing := false }
    else none
  | .aio e =>
    match e with
    | .submit _ _ | .rollback _ => if s.writing then none else s.act e s.turn
    | .push _ _ _ | .wake _ | .lock _ | .call _ _ _ | .free _ => s.act e s.turn
    | .finish _ =>
      if s.writing then none
      else (Aio.step s.aio e).map fun aio => { s with aio := { aio with pipe := s.aio.pipe }, writing := true }
    | .select k ret => if k = j ∧ s.turn = .wait then s.act e (if ret ≤ 0 then .poll else .wait) else none
    | .read k => if k = j then s.act e (if 0 < s.aio.pipe then .wait else .poll) else none
    | .poll k => if k = j ∧ s.turn = .poll then s.act e .poll else none
    | .dequeue k =>
      if k = j ∧ s.writing = false then s.act e (if s.aio.rhead = none then .wait else .poll) else none
    | .callback k | .destory k => if k = j then s.act e .poll else none

/-! ### What the other threads leave alone -/

/-- The list, the pipe and the threads are the same. -/
structure Undisturbed (s s' : State n m ψ) : Prop where
  rhead : s'.rhead = s.rhead
  pipe : s'.pipe = s.pipe
  threads : s'.threads = s.threads

/-- Submissions and the steps of workers, without the append. -/
def Event.Elsewhere : Event n m ψ → Prop
  | .submit _ _ | .push _ _ _ | .rollback _ | .wake _ | .lock _ | .call _ _ _ | .free _ => True
  | _ => False

lemma execute_undisturbed (s : State n m ψ) (r : ℕ) (result error : ℤ) :
    Undisturbed s (s.orFault (Fn.execute.invoke s r result error)) := by
  unfold Fn.invoke aioExecute
  cases s.reqs.modify r fun q => { q with result := result, error := error } with
  | none => exact ⟨rfl,rfl,rfl⟩
  | some reqs => exact ⟨rfl,rfl,rfl⟩

theorem Sound.elsewhere {s s' : State n m ψ} {list : List ℕ} (h : Sound s list) {e : Event n m ψ}
    (he : e.Elsewhere) (hstep : Aio.step s e = some s') : Undisturbed s s' := by
  cases step_cases hstep with
  | submit | push | rollback | wake | lock | free => exact ⟨rfl,rfl,rfl⟩
  | @call i result error t pool hpc =>
    have ht : t ∈ s.pool.load := Pool.mem_load (Or.inl hpc)
    rw [(h.tasks t ht).1]
    exact { execute_undisturbed { s with pool := pool } t.arg result error with }
  | _ => exact he.elim

lemma invoke_capacity (f : Fn) (s : State n m ψ) (r : ℕ) (result error : ℤ) :
    (s.orFault (f.invoke s r result error)).capacity = s.capacity := by
  cases h : f.invoke s r result error with
  | none => rfl
  | some s' =>
    cases f with
    | execute =>
      obtain ⟨reqs,_,hs⟩ := Option.bind_eq_some_iff.mp h
      exact Option.some.inj hs ▸ rfl
    | fininsh =>
      obtain ⟨reqs,_,hs⟩ := Option.bind_eq_some_iff.mp h
      cases ht : s.rtail with
      | none =>
        simp only [ht] at hs
        exact Option.some.inj hs ▸ rfl
      | some t =>
        simp only [ht] at hs
        obtain ⟨reqs',_,hs⟩ := Option.bind_eq_some_iff.mp hs
        exact Option.some.inj hs ▸ rfl

lemma pollSection_capacity (s : State n m ψ) (j : Fin m) (processed : ℕ) :
    (s.orFault (aioPollSection s j processed)).capacity = s.capacity := by
  unfold aioPollSection
  cases s.rhead with
  | none => rfl
  | some r =>
    cases hr : s.reqs r with
    | none => simp [hr,State.orFault]
    | some q => simp [hr,State.orFault,State.setThread]

/-- The capacity of the pipe never changes. -/
theorem step_capacity {s s' : State n m ψ} {e : Event n m ψ} (hstep : Aio.step s e = some s') :
    s'.capacity = s.capacity := by
  cases step_cases hstep with
  | @call i result error t => exact invoke_capacity t.call _ t.arg result error
  | @finish i t pool f => exact invoke_capacity f _ t.arg 0 0
  | dequeue => exact pollSection_capacity s _ _
  | @callback j r => cases hr : s.reqs r <;> simp [hr,aioCallback,State.orFault,State.setThread]
  | @destory j r => cases hr : s.reqs r <;> simp [hr,aioDestory,State.orFault,State.setThread]
  | _ => rfl

/-! ### The loop -/

/-- A request in the list keeps the thread from sleeping. -/
structure Awake (j : Fin m) (s : Loop n m ψ) : Prop where
  sound : ∃ list, Sound s.aio list
  capacity : 0 < s.aio.capacity
  byte : s.AtSelect j → s.writing = false → s.aio.rhead ≠ none → 0 < s.aio.pipe

lemma loopInit_awake {capacity : ℕ} (hcap : 0 < capacity) (j : Fin m) : Awake j (loopInit n m ψ capacity) :=
  ⟨⟨[],aioInit_sound n m ψ capacity⟩,hcap,fun _ _ h => absurd rfl h⟩

section Steps
variable {j : Fin m} {s s' : Loop n m ψ} (h : Awake j s)
include h

lemma Awake.act {e : Event n m ψ} {turn : Turn} (hact : s.act e turn = some s')
    (hbyte : ∀ aio, Aio.step s.aio e = some aio → turn = .wait → aio.threads j = .idle →
    s.writing = false →
      aio.rhead ≠ none → 0 < aio.pipe) : Awake j s' := by
  obtain ⟨aio,hstep,rfl⟩ := Option.map_eq_some_iff.mp hact
  obtain ⟨list,hs⟩ := h.sound
  refine ⟨hs.step hstep,?_,fun ⟨hturn,hidle⟩ hw => hbyte aio hstep hturn hidle hw⟩
  rw [step_capacity hstep]
  exact h.capacity

/-- What happens elsewhere does not disturb the thread. -/
lemma Awake.elsewhere {e : Event n m ψ} (he : e.Elsewhere) (hact : s.act e s.turn = some s') : Awake j s' := by
  apply h.act hact
  intro aio hstep hturn hidle hw hr
  obtain ⟨list,hs⟩ := h.sound
  have hu := hs.elsewhere he hstep
  rw [hu.pipe]
  apply h.byte ⟨hturn,hu.threads ▸ hidle⟩ hw
  rw [← hu.rhead]
  exact hr

/-- The thread goes on to `jk_aio_poll`, or stays in it. -/
lemma Awake.toPoll {e : Event n m ψ} (hact : s.act e .poll = some s') : Awake j s' :=
  h.act hact fun _ _ hturn => nomatch hturn

/-- The byte is written after the request is appended, or the pipe is full. -/
lemma Awake.write : Awake j { s with
    aio := { s.aio with pipe := if s.aio.pipe < s.aio.capacity then s.aio.pipe+1 else s.aio.pipe },
    writing := false } := by
  obtain ⟨list,hs⟩ := h.sound
  refine ⟨⟨list,{ hs with }⟩,h.capacity,fun _ _ _ => ?_⟩
  have hcap := h.capacity
  dsimp only
  split <;> omega

lemma Awake.append {i : Fin n} {aio : State n m ψ} (hstep : Aio.step s.aio (.finish i) = some aio) :
    Awake j { s with aio := { aio with pipe := s.aio.pipe }, writing := true } := by
  obtain ⟨list,hs⟩ := h.sound
  obtain ⟨list',hs'⟩ := hs.step hstep
  refine ⟨⟨list',{ hs' with }⟩,?_,fun _ hw => nomatch hw⟩
  change 0 < aio.capacity
  rw [step_capacity hstep]
  exact h.capacity

/-- The thread leaves `select` only to read. -/
lemma Awake.select {ret : ℤ} (hact : s.act (.select j ret) (if ret ≤ 0 then .poll else .wait) = some s') :
    Awake j s' := by
  by_cases hret : ret ≤ 0
  · rw [if_pos hret] at hact
    exact h.toPoll hact
  · apply h.act hact
    intro aio hstep _ hidle
    cases step_cases hstep with
    | noInput _ hle => exact absurd hle hret
    | select => simp [State.setThread] at hidle

/-- The thread reads until the pipe is empty, and then polls. -/
lemma Awake.read (hact : s.act (.read j) (if 0 < s.aio.pipe then .wait else .poll) = some s') : Awake j s' := by
  by_cases hpipe : 0 < s.aio.pipe
  · apply h.act hact
    intro aio hstep _ hidle
    cases step_cases hstep with
    | read => simp [State.setThread] at hidle
    | readAll _ hempty => exact absurd hpipe hempty
  · rw [if_neg hpipe] at hact
    exact h.toPoll hact

/-- The thread leaves `jk_aio_poll` when the list is empty. -/
lemma Awake.dequeue (hact : s.act (.dequeue j) (if s.aio.rhead = none then .wait else .poll) = some s') :
    Awake j s' := by
  cases hr : s.aio.rhead with
  | some r =>
    rw [hr,if_neg (by simp)] at hact
    exact h.toPoll hact
  | none =>
    apply h.act hact
    intro aio hstep _ _ _ hne
    cases step_cases hstep with
    | dequeue => simp [aioPollSection,hr,State.orFault,State.setThread] at hne

/-- One event of any thread keeps the loop awake. -/
theorem Awake.step {e : LoopEvent n m ψ} (hstep : loopStep j s e = some s') : Awake j s' := by
  cases e with
  | write =>
    obtain ⟨_,hs⟩ := Option.ite_none_right_eq_some.mp hstep
    obtain rfl := Option.some.inj hs
    exact h.write
  | aio e =>
    cases e with
    | submit type finish =>
      exact h.elsewhere (e := .submit type finish) trivial (Option.ite_none_left_eq_some.mp hstep).2
    | rollback r => exact h.elsewhere (e := .rollback r) trivial (Option.ite_none_left_eq_some.mp hstep).2
    | push r malloc woken => exact h.elsewhere (e := .push r malloc woken) trivial hstep
    | wake i => exact h.elsewhere (e := .wake i) trivial hstep
    | lock i => exact h.elsewhere (e := .lock i) trivial hstep
    | call i result error => exact h.elsewhere (e := .call i result error) trivial hstep
    | free i => exact h.elsewhere (e := .free i) trivial hstep
    | finish i =>
      obtain ⟨_,hs⟩ := Option.ite_none_left_eq_some.mp hstep
      obtain ⟨aio,ha,rfl⟩ := Option.map_eq_some_iff.mp hs
      exact h.append ha
    | select k ret =>
      obtain ⟨⟨rfl,_⟩,hact⟩ := Option.ite_none_right_eq_some.mp hstep
      exact h.select hact
    | read k =>
      obtain ⟨rfl,hact⟩ := Option.ite_none_right_eq_some.mp hstep
      exact h.read hact
    | poll k => exact h.toPoll (Option.ite_none_right_eq_some.mp hstep).2
    | dequeue k =>
      obtain ⟨⟨rfl,_⟩,hact⟩ := Option.ite_none_right_eq_some.mp hstep
      exact h.dequeue hact
    | callback k => exact h.toPoll (Option.ite_none_right_eq_some.mp hstep).2
    | destory k => exact h.toPoll (Option.ite_none_right_eq_some.mp hstep).2

end Steps

/-- Whenever the thread is at `select` and no worker is between its append and its write, a request in
the list of completed requests comes with a byte in the pipe. -/
theorem loop_never_sleeps {capacity : ℕ} (hcap : 1 ≤ capacity) (j : Fin m) (es : List (LoopEvent n m ψ))
    (s : Loop n m ψ) (hrun : run (loopStep j) (loopInit n m ψ capacity) es = some s) (hselect : s.AtSelect j)
    (hfree : s.writing = false) :
    (s.aio.rhead ≠ none ↔ s.aio.appended ≠ s.aio.dequeued) ∧ (s.aio.rhead ≠ none → 0 < s.aio.pipe) := by
  have h : Awake j s := run_invariant (fun _ _ _ h hstep => h.step hstep) (loopInit_awake hcap j) hrun
  refine ⟨?_,h.byte hselect hfree⟩
  obtain ⟨list,hs⟩ := h.sound
  rw [hs.queue.chain.head,hs.order]
  simp

/-- Two requests with room for one byte: the second byte is dropped, the thread polls both requests, a
third one is appended while the thread is back in `jk_aio_wait`. -/
def sleeperRun (i i' : Fin n) (j : Fin m) : List (LoopEvent n m ℕ) :=
  [.aio (.submit .read (some 7)),.aio (.push 0 true []),.aio (.submit .write none),.aio (.push 1 true []),
    .aio (.lock i),.aio (.lock i'),.aio (.call i 5 0),.aio (.call i' 3 0),.aio (.finish i),.write,.aio (.select j 1),
    .aio (.read j),.aio (.finish i'),.aio (.read j),.write,.aio (.poll j),.aio (.dequeue j),.aio (.callback j),
    .aio (.destory j),.aio (.dequeue j),.aio (.callback j),.aio (.destory j),.aio (.dequeue j),.aio (.free i),
    .aio (.submit .close none),.aio (.push 2 true []),.aio (.lock i),.aio (.call i 0 0),.aio (.finish i),.write]

lemma sleeperRun_ends : (run (loopStep 0) (loopInit 2 1 ℕ 1) (sleeperRun 0 1 0)).isSome := by decide +kernel

theorem loop_never_sleeps_sleeper : ∃ s, run (loopStep 0) (loopInit 2 1 ℕ 1) (sleeperRun 0 1 0) = some s ∧
    s.aio.rhead = some 2 ∧
      (s.aio.rhead ≠ none ↔ s.aio.appended ≠ s.aio.dequeued) ∧
      (s.aio.rhead ≠ none → 0 < s.aio.pipe) := by
  have hrun := (Option.some_get sleeperRun_ends).symm
  have hselect : ((run (loopStep 0) (loopInit 2 1 ℕ 1) (sleeperRun 0 1 0)).get sleeperRun_ends).AtSelect 0 :=
    ⟨by decide +kernel,by decide +kernel⟩
  exact ⟨_,hrun,by decide +kernel,
    loop_never_sleeps le_rfl 0 (sleeperRun 0 1 0) _ hrun hselect (by decide +kernel)⟩

end JustKit.Aio
