import JustKit.Pool.ExactlyOnce
import JustKit.Pool.Wakeups

/-! The pool gets its work done: what the workers have to do is bounded by the tasks in the list, they do
not stop before the list is empty, and `jk_thread_pool_destroy` returns. Nothing is assumed of the order in
which the threads run. -/
namespace JustKit.Pool
open Foundations Foundations.Transition
variable {n : ℕ} {φ α τ : Type}

/-- The steps of a worker until it is back at the lock, and the one that makes it wait. -/
def Pc.work : Pc τ → ℕ
  | .top => 1
  | .waiting => 0
  | .woken => 1
  | .holding _ => 4
  | .called _ => 3
  | .finished _ => 2
  | .exited => 0
  | .faulted => 0

/-- The steps of `jk_thread_pool_destroy`, and those of the workers that it wakes. -/
def Destroy.work (n : ℕ) : Destroy → ℕ
  | .idle => 2*n+3
  | .joining i => n-i+2
  | .freeing => 1
  | .done => 0

/-- A bound of what can happen without a push and without wake-ups that nobody has signalled. -/
def State.work (s : State n φ α) : ℕ :=
  4*s.waitTasks.length+total (fun w : Worker (Task φ α) => w.pc.work) s.workers+s.destroy.work n

/-- The events of the workers, wake-ups apart. -/
def Event.OfWorker : Event n φ α → Prop
  | .lock _ | .call _ | .finish _ | .free _ => True
  | _ => False

/-- The events of the workers and of `jk_thread_pool_destroy`. -/
def Event.OfShutdown : Event n φ α → Prop
  | .push _ _ _ _ _ | .wake _ => False
  | _ => True

lemma Event.OfWorker.shutdown {e : Event n φ α} (he : e.OfWorker) : e.OfShutdown := by
  cases e with
  | lock | call | finish | free => trivial
  | _ => exact he.elim

lemma signalStep_eq {s : State n φ α} {e : Event n φ α} (he : e.OfShutdown) : signalStep s e = step s e := by
  cases e with
  | push | wake => exact he.elim
  | _ => rfl

/-- A worker moves on. -/
lemma setWorker_work {s : State n φ α} {i : Fin n} {w : Worker (Task φ α)} :
    (s.setWorker i w).work+(s.workers i).pc.work = s.work+w.pc.work := by
  have h := total_update (fun w : Worker (Task φ α) => w.pc.work) s.workers i w
  unfold State.work State.setWorker
  dsimp only
  omega

lemma setWorker_work_lt {s : State n φ α} {i : Fin n} {w : Worker (Task φ α)}
    (hw : w.pc.work < (s.workers i).pc.work) : (s.setWorker i w).work < s.work := by
  have h := setWorker_work (s := s) (i := i) (w := w)
  omega

lemma wake_work_le (w : Worker τ) : w.wake.pc.work ≤ w.pc.work+1 := by
  obtain ⟨pc,log⟩ := w
  cases pc <;> simp [Worker.wake,Pc.work]

lemma lockSection_work {s : State n φ α} {i : Fin n}
    (hpc : (s.workers i).pc = .top ∨ (s.workers i).pc = .woken) : (threadLoopSection s i).work < s.work := by
  have hone : (s.workers i).pc.work = 1 := by
    rcases hpc with hpc | hpc <;> rw [hpc] <;> rfl
  have hstop (pc : Pc (Task φ α)) (hpc : pc.work = 0) : (s.setPc i pc).work < s.work := by
    apply setWorker_work_lt
    rw [hone]
    exact hpc ▸ Nat.zero_lt_one
  unfold threadLoopSection
  split
  · exact hstop .exited rfl
  · split
    · exact hstop .waiting rfl
    · split
      · exact hstop .faulted rfl
      · rename_i t rest hw
        -- The task leaves the list, and the worker has three steps to make for it.
        have h : (s.setPc i (.holding t)).work+1 = s.work+4 := by
          have h := setWorker_work (s := s) (i := i) (w := { s.workers i with pc := .holding t })
          rwa [hone] at h
        have hlist : 4*rest.length+4 = 4*(s.setPc i (.holding t)).waitTasks.length := by
          change _ = 4*s.waitTasks.length
          rw [hw,List.length_cons]
          omega
        simp only [State.work] at h ⊢
        simp only [State.setPc,State.setWorker] at h hlist ⊢
        omega

/-- Every event but a push and a wake-up uses up work. -/
theorem step_work {s s' : State n φ α} {e : Event n φ α} (he : e.OfShutdown) (hstep : step s e = some s') :
    s'.work < s.work := by
  cases step_cases hstep with
  | push | wake => exact he.elim
  | lock hpc => exact lockSection_work hpc
  | call hpc => exact setWorker_work_lt (by simp [hpc,Pc.work])
  | finish hpc => exact setWorker_work_lt (by simp [hpc,Pc.work])
  | free hpc => exact setWorker_work_lt (by simp [hpc,Pc.work])
  | quit hidle =>
    have hle : total (fun w : Worker (Task φ α) => w.pc.work) (fun i => (s.workers i).wake) ≤
        total (fun w : Worker (Task φ α) => w.pc.work+1) s.workers :=
      Finset.sum_le_sum fun i _ => wake_work_le (s.workers i)
    have hadd : total (fun w : Worker (Task φ α) => w.pc.work+1) s.workers =
        total (fun w : Worker (Task φ α) => w.pc.work) s.workers+n := by
      simp [total,Finset.sum_add_distrib]
    simp only [State.work,hidle,Destroy.work]
    omega
  | @joinOne i hd =>
    have hi := i.isLt
    simp only [State.work,hd,Destroy.work]
    omega
  | joinAll hd hi =>
    simp only [State.work,hd,Destroy.work]
    omega
  | freeOne hd hw =>
    simp only [State.work,hw,List.length_cons]
    omega
  | freeAll hd hw =>
    simp only [State.work,hd,Destroy.work]
    omega

/-! ### Workers at rest -/

/-- A worker with no step to make waits, or has left its loop. -/
lemma at_rest {s : State n φ α} {i : Fin n} (hrest : ∀ e : Event n φ α, e.OfWorker → step s e = none) :
    (s.workers i).pc = .waiting ∨ (s.workers i).pc = .exited ∨ (s.workers i).pc = .faulted := by
  have hlock := hrest (.lock i) trivial
  have hcall := hrest (.call i) trivial
  have hfinish := hrest (.finish i) trivial
  have hfree := hrest (.free i) trivial
  cases hpc : (s.workers i).pc with
  | top => simp [step,hpc] at hlock
  | woken => simp [step,hpc] at hlock
  | holding t => simp [step,hpc] at hcall
  | called t => simp [step,hpc] at hfinish
  | finished t => simp [step,hpc] at hfree
  | waiting => exact Or.inl rfl
  | exited => exact Or.inr (Or.inl rfl)
  | faulted => exact Or.inr (Or.inr rfl)

/-- What holds before `jk_thread_pool_destroy` is called: the pool is sound, the counter covered, and no worker
has left its loop. -/
structure Open (s : State n φ α) : Prop where
  sound : Sound s
  covered : Covered s
  working : s.quitFlag = false
  inLoop : ∀ i, (s.workers i).pc ≠ .exited
  kept : s.freed = []

theorem threadPoolNew_open : Open (threadPoolNew n φ α) where
  sound := threadPoolNew_sound
  covered := threadPoolNew_covered
  working := rfl
  inLoop _ := by simp [threadPoolNew]
  kept := rfl

lemma wake_in_loop {w : Worker τ} (h : w.pc ≠ .exited) : w.wake.pc ≠ .exited := by
  obtain ⟨pc,log⟩ := w
  cases pc <;> simp_all [Worker.wake]

section Steps
variable {s s' : State n φ α} (h : Open s)
include h

/-- A worker moves, and does not leave its loop. -/
lemma setWorker_in_loop {i : Fin n} {w : Worker (Task φ α)} (hw : w.pc ≠ .exited) (j : Fin n) :
    ((s.setWorker i w).workers j).pc ≠ .exited := by
  by_cases hj : j = i
  · subst hj
    simpa [State.setWorker] using hw
  · simpa [State.setWorker,hj] using h.inLoop j

lemma lockSection_in_loop (i : Fin n) : (threadLoopSection s i).quitFlag = false ∧
    (∀ j, ((threadLoopSection s i).workers j).pc ≠ .exited) ∧ (threadLoopSection s i).freed = [] := by
  unfold threadLoopSection
  rw [if_neg (by simp [h.working])]
  split
  · exact ⟨h.working,setWorker_in_loop h (by simp),h.kept⟩
  · split
    · exact ⟨h.working,setWorker_in_loop h (by simp),h.kept⟩
    · exact ⟨h.working,setWorker_in_loop h (by simp),h.kept⟩

/-- The pool stays open until `jk_thread_pool_destroy` is called. -/
theorem Open.step {e : Event n φ α} (hstep : signalStep s e = some s') (hidle : s.destroy = .idle)
    (hidle' : s'.destroy = .idle) : Open s' := by
  have hcovered := h.covered.step hstep
  by_cases hpush : ∃ call arg finish malloc woken, e = .push call arg finish malloc woken
  · obtain ⟨call,arg,finish,malloc,woken,rfl⟩ := hpush
    obtain ⟨⟨_,_⟩,heq⟩ := Option.ite_none_right_eq_some.mp hstep
    obtain rfl := Option.some.inj heq
    refine ⟨h.sound.push call arg finish malloc woken hidle,hcovered,?_,fun j => ?_,?_⟩
    · cases malloc <;> exact h.working
    · cases malloc with
      | false => exact h.inLoop j
      | true =>
        change (if j ∈ woken then (s.workers j).wake else s.workers j).pc ≠ .exited
        split
        · exact wake_in_loop (h.inLoop j)
        · exact h.inLoop j
    · cases malloc <;> exact h.kept
  · have hstep' : Pool.step s e = some s' := by
      cases e with
      | push call arg finish malloc woken => exact absurd ⟨call,arg,finish,malloc,woken,rfl⟩ hpush
      | _ => exact hstep
    have hsound := h.sound.step hstep'
    cases step_cases hstep' with
    | push _ => exact absurd ⟨_,_,_,_,_,rfl⟩ hpush
    | @lock i =>
      obtain ⟨hquit,hloop,hkept⟩ := lockSection_in_loop h i
      exact ⟨hsound,hcovered,hquit,hloop,hkept⟩
    | wake | call | finish | free => exact ⟨hsound,hcovered,h.working,setWorker_in_loop h (by simp),h.kept⟩
    | quit => cases hidle'
    | joinOne hd => cases hidle.symm.trans hd
    | joinAll hd => cases hidle.symm.trans hd
    | freeOne hd => cases hidle.symm.trans hd
    | freeAll hd => cases hidle.symm.trans hd

end Steps

lemma signalStep_idle {s s' : State n φ α} {e : Event n φ α} (hstep : signalStep s e = some s')
    (hidle : s'.destroy = .idle) :
    s.destroy = .idle := by
  by_cases hpush : ∃ call arg finish malloc woken, e = .push call arg finish malloc woken
  · obtain ⟨call,arg,finish,malloc,woken,rfl⟩ := hpush
    obtain ⟨_,heq⟩ := Option.ite_none_right_eq_some.mp hstep
    obtain rfl := Option.some.inj heq
    cases malloc <;> exact hidle
  · have hstep' : Pool.step s e = some s' := by
      cases e with
      | push call arg finish malloc woken => exact absurd ⟨call,arg,finish,malloc,woken,rfl⟩ hpush
      | _ => exact hstep
    cases step_cases hstep' with
    | push _ => exact absurd ⟨_,_,_,_,_,rfl⟩ hpush
    | @lock i =>
      unfold threadLoopSection at hidle
      split at hidle
      · exact hidle
      · split at hidle
        · exact hidle
        · split at hidle <;> exact hidle
    | quit hd => exact hd
    | joinOne | joinAll | freeAll => cases hidle
    | freeOne hd => cases hd.symm.trans hidle
    | _ => exact hidle

/-- The pool is open in every state before `jk_thread_pool_destroy` is called. -/
theorem run_open {s : State n φ α} {es : List (Event n φ α)}
    (hrun : run signalStep (threadPoolNew n φ α) es = some s) (hidle : s.destroy = .idle) : Open s :=
  run_invariant (P := fun s => s.destroy = .idle → Open s)
    (fun _ _ _ h hstep hidle => (h (signalStep_idle hstep hidle)).step hstep (signalStep_idle hstep hidle) hidle)
    (fun _ => threadPoolNew_open) hrun hidle

/-- Every accepted task has been treated completely. -/
structure AllServed (s : State n φ α) : Prop where
  empty : s.waitTasks = []
  calls : s.calls = s.accepted
  logs : ∀ i, ∃ done : List (Task φ α), (s.workers i).log = done.flatMap Task.treatment

/-- When no worker has a step to make, all wait, and nothing is left to do. -/
theorem Open.served {s : State n φ α} (h : Open s) (hn : 0 < n) (hpending : s.waitTasks.length < 2^31)
    (hrest : Rests Pool.step (fun _ e => e.OfWorker) s) : AllServed s := by
  have hwait : ∀ i, (s.workers i).pc = .waiting := by
    intro i
    rcases at_rest (i := i) hrest with hw | he | hf
    · exact hw
    · exact absurd he (h.inLoop i)
    · exact absurd hf (h.sound.safe i)
  have hle := h.covered.woken ⟨⟨0,hn⟩,hwait _⟩
  have hzero : s.wokenWorkers = 0 := total_eq_zero _ fun i => by simp [hwait i,Pc.awoken]
  have hcount : s.taskNums = s.waitTasks.length := by
    rw [h.covered.count]
    exact wrap_of_range (w := 31) (by omega) (by exact_mod_cast hpending)
  have hempty : s.waitTasks = [] := by
    apply List.eq_nil_of_length_eq_zero
    omega
  have hidle : total (fun w : Worker (Task φ α) => w.pc.untouched) s.workers = 0 :=
    total_eq_zero _ fun i => by simp [hwait i,Pc.untouched]
  refine ⟨hempty,?_,fun i => ?_⟩
  · rw [h.sound.places,hempty,hidle,h.kept]
    simp
  · obtain ⟨done,hl⟩ := h.sound.orderly i
    exact ⟨done,by simpa [hwait i,Pc.begun] using hl⟩

/-- What the events of the workers leave alone. -/
lemma worker_frame {s s' : State n φ α} {e : Event n φ α} (he : e.OfWorker) (hstep : step s e = some s') :
    s'.destroy = s.destroy ∧ s'.accepted = s.accepted ∧ s'.waitTasks.length ≤ s.waitTasks.length := by
  cases step_cases hstep with
  | @lock i =>
    unfold threadLoopSection
    split
    · exact ⟨rfl,rfl,le_rfl⟩
    · split
      · exact ⟨rfl,rfl,le_rfl⟩
      · split
        · exact ⟨rfl,rfl,le_rfl⟩
        · rename_i t rest hw
          exact ⟨rfl,rfl,by simp [hw]⟩
  | call | finish | free => exact ⟨rfl,rfl,le_rfl⟩
  | _ => exact he.elim

/-- From any state before `jk_thread_pool_destroy` is called, in any order in which the workers run, they make
at most `s.work` steps, and they come to rest; but not before every task accepted so far has been treated. -/
theorem pool_finishes (hn : 0 < n) (es : List (Event n φ α)) (s : State n φ α)
    (hrun : run signalStep (threadPoolNew n φ α) es = some s) (hidle : s.destroy = .idle)
    (hpending : s.waitTasks.length < 2^31) :
    (∃ ws s', (∀ e ∈ ws, e.OfWorker) ∧ run step s ws = some s' ∧ Rests step (fun _ e => e.OfWorker) s') ∧
      ∀ ws s', (∀ e ∈ ws, e.OfWorker) → run step s ws = some s' →
        ws.length+s'.work ≤ s.work ∧ s'.accepted = s.accepted ∧
          (Rests step (fun _ e => e.OfWorker) s' → AllServed s') := by
  let P (t : State n φ α) : Prop := Open t ∧ t.destroy = .idle ∧ t.accepted = s.accepted ∧
    t.waitTasks.length ≤ s.waitTasks.length
  have hkeeps : ∀ t e t', P t → e.OfWorker → step t e = some t' → P t' := by
    intro t e t' ⟨hopen,hd,hacc,hlen⟩ he hstep
    obtain ⟨hd',hacc',hlen'⟩ := worker_frame he hstep
    have hsignal := (signalStep_eq he.shutdown).trans hstep
    exact ⟨hopen.step hsignal hd (hd'.trans hd),hd'.trans hd,hacc'.trans hacc,hlen'.trans hlen⟩
  have hwork : ∀ t e t', P t → e.OfWorker → step t e = some t' → t'.work < t.work :=
    fun t e t' _ he hstep => step_work he.shutdown hstep
  have hP : P s := ⟨run_open hrun hidle,hidle,rfl,le_rfl⟩
  constructor
  · obtain ⟨ws,s',hall,hrun',hrest⟩ := exists_run_rests hkeeps hwork hP
    exact ⟨ws,s',(always_const_iff hrun').mp hall,hrun',hrest⟩
  · intro ws s' hws hrun'
    have hall := (always_const_iff hrun').mpr hws
    obtain ⟨hopen,_,hacc,hlen⟩ := run_invariant_when hkeeps hP hrun' hall
    exact ⟨run_length_le hkeeps hwork hP hrun' hall,hacc,hopen.served hn (hlen.trans_lt hpending)⟩

/-- One worker and two tasks. -/
def twoTasks (i : Fin n) : List (Event n ℕ ℕ) :=
  [.lock i,.push 1 10 (some 2) true [i],.push 1 11 none true [i],.lock i,.call i]

lemma twoTasks_ends : (run signalStep (threadPoolNew 1 ℕ ℕ) (twoTasks 0)).isSome := by decide +kernel

theorem pool_finishes_two : ∃ s, run signalStep (threadPoolNew 1 ℕ ℕ) (twoTasks 0) = some s ∧
    s.accepted.length = 2 ∧
    (∃ ws s', (∀ e ∈ ws, e.OfWorker) ∧ run step s ws = some s' ∧ Rests step (fun _ e => e.OfWorker) s') ∧
      ∀ ws s', (∀ e ∈ ws, e.OfWorker) → run step s ws = some s' →
        ws.length+s'.work ≤ s.work ∧ s'.accepted = s.accepted ∧
          (Rests step (fun _ e => e.OfWorker) s' → AllServed s') := by
  have hrun := (Option.some_get twoTasks_ends).symm
  exact ⟨_,hrun,by decide +kernel,
    pool_finishes Nat.one_pos (twoTasks 0) _ hrun (by decide +kernel) (by decide +kernel)⟩

/-! ### Shutdown -/

/-- The pool is sound, and once it is told to quit no worker waits. -/
structure Closing (s : State n φ α) : Prop where
  sound : Sound s
  quitting : s.destroy ≠ .idle → s.quitFlag = true
  awake : s.quitFlag = true → ∀ i, (s.workers i).pc ≠ .waiting

theorem threadPoolNew_closing : Closing (threadPoolNew n φ α) :=
  ⟨threadPoolNew_sound,fun h => absurd rfl h,fun h => nomatch h⟩

section Shutdown
variable {s s' : State n φ α} (h : Closing s)
include h

lemma setWorker_awake {i : Fin n} {w : Worker (Task φ α)} (hw : w.pc ≠ .waiting)
    (hq : s.quitFlag = true) (j : Fin n) : ((s.setWorker i w).workers j).pc ≠ .waiting := by
  by_cases hj : j = i
  · subst hj
    simpa [State.setWorker] using hw
  · simpa [State.setWorker,hj] using h.awake hq j

/-- One event keeps the workers awake. -/
theorem Closing.step {e : Event n φ α} (hstep : Pool.step s e = some s') : Closing s' := by
  have hsound := h.sound.step hstep
  cases step_cases hstep with
  | @push call arg finish malloc woken hidle =>
    refine ⟨hsound,fun hd => absurd ?_ hd,fun hq j => ?_⟩
    · cases malloc <;> exact hidle
    · cases malloc with
      | false => exact h.awake hq j
      | true =>
        change (if j ∈ woken then (s.workers j).wake else s.workers j).pc ≠ .waiting
        split
        · exact wake_not_waiting _
        · exact h.awake hq j
  | wake | call | finish | free =>
    exact ⟨hsound,h.quitting,fun hq j => setWorker_awake h (by simp) hq j⟩
  | @lock i =>
    refine ⟨hsound,?_,?_⟩
    · unfold threadLoopSection
      split
      · exact h.quitting
      · split
        · exact h.quitting
        · split <;> exact h.quitting
    · unfold threadLoopSection
      split
      · exact fun hq j => setWorker_awake h (by simp) hq j
      · rename_i hquit
        split
        · exact fun hq => absurd hq hquit
        · split <;> exact fun hq => absurd hq hquit
  | quit => exact ⟨hsound,fun _ => rfl,fun _ j => wake_not_waiting _⟩
  | joinOne hd => exact ⟨hsound,fun _ => h.quitting (by simp [hd]),h.awake⟩
  | joinAll hd => exact ⟨hsound,fun _ => h.quitting (by simp [hd]),h.awake⟩
  | freeOne hd => exact ⟨hsound,fun _ => h.quitting (by simp [hd]),h.awake⟩
  | freeAll hd => exact ⟨hsound,fun _ => h.quitting (by simp [hd]),h.awake⟩

/-- Once the pool is told to quit, nothing can be pushed and no worker can be woken. -/
lemma Closing.shutdown {e : Event n φ α} (hd : s.destroy ≠ .idle) (hstep : Pool.step s e = some s') :
    e.OfShutdown ∧ s'.destroy ≠ .idle := by
  have hq := h.quitting hd
  cases step_cases hstep with
  | push hidle => exact absurd hidle hd
  | wake hpc => exact absurd hpc (h.awake hq _)
  | @lock i =>
    refine ⟨trivial,?_⟩
    rw [threadLoopSection,if_pos hq]
    exact hd
  | call | finish | free => exact ⟨trivial,hd⟩
  | quit | joinOne | joinAll | freeAll => exact ⟨trivial,by simp⟩
  | freeOne => exact ⟨trivial,hd⟩

/-- `jk_thread_pool_destroy` is never stuck, and nothing happens once it has returned. -/
theorem Closing.rests_iff (hd : s.destroy ≠ .idle) : (∀ e, Pool.step s e = none) ↔ s.destroy = .done := by
  constructor
  · intro hrest
    have hexit : ∀ i, (s.workers i).pc = .exited := by
      intro i
      rcases at_rest (i := i) fun e _ => hrest e with hw | he | hf
      · exact absurd hw (h.awake (h.quitting hd) i)
      · exact he
      · exact absurd hf (h.sound.safe i)
    cases hdestroy : s.destroy with
    | idle => exact absurd hdestroy hd
    | joining i =>
      have hjoin := hrest .join
      by_cases hi : i < n
      · simp [Pool.step,hdestroy,hi,hexit] at hjoin
      · simp [Pool.step,hdestroy,hi] at hjoin
    | freeing =>
      have hfree := hrest .freeLeft
      cases hw : s.waitTasks <;> simp [Pool.step,hdestroy,hw] at hfree
    | done => rfl
  · intro hdone e
    have hexit : ∀ i, (s.workers i).pc = .exited := fun i => h.sound.joined i (by rw [hdone]; trivial)
    cases e with
    | push | quit | join | freeLeft => simp [Pool.step,hdone]
    | wake i | lock i | call i | finish i | free i => simp [Pool.step,hexit i]

end Shutdown

/-- Once `jk_thread_pool_destroy` has been called, at most `s.work` events follow, whatever happens; it comes to an
end and is never stuck before it; and when it returns, every accepted task has been called or freed. -/
theorem shutdown_completes (es : List (Event n φ α)) (s : State n φ α)
    (hrun : run step (threadPoolNew n φ α) es = some s) (hd : s.destroy ≠ .idle) :
    (∃ ws s', run step s ws = some s' ∧ s'.destroy = .done) ∧
      ∀ ws s', run step s ws = some s' → ws.length+s'.work ≤ s.work ∧
        ((∀ e, step s' e = none) ↔ s'.destroy = .done) ∧
        (s'.destroy = .done → (s'.accepted : Multiset (Task φ α)) = s'.calls+s'.freed) := by
  let P (t : State n φ α) : Prop := Closing t ∧ t.destroy ≠ .idle
  have hkeeps : ∀ t e t', P t → True → step t e = some t' → P t' :=
    fun t e t' ht _ hstep => ⟨ht.1.step hstep,(ht.1.shutdown ht.2 hstep).2⟩
  have hwork : ∀ t e t', P t → True → step t e = some t' → t'.work < t.work :=
    fun t e t' ht _ hstep => step_work (ht.1.shutdown ht.2 hstep).1 hstep
  have hP : P s := ⟨run_invariant (fun _ _ _ h hstep => h.step hstep) threadPoolNew_closing hrun,hd⟩
  constructor
  · obtain ⟨ws,s',_,hrun',hrest⟩ := exists_run_rests hkeeps hwork hP
    obtain ⟨hclosing,hd'⟩ := run_invariant (fun t e t' ht => hkeeps t e t' ht trivial) hP hrun'
    exact ⟨ws,s',hrun',(hclosing.rests_iff hd').mp fun e => hrest e trivial⟩
  · intro ws s' hrun'
    obtain ⟨hclosing,hd'⟩ := run_invariant (fun t e t' ht => hkeeps t e t' ht trivial) hP hrun'
    have hall := (always_const_iff (C := fun _ => True) hrun').mpr fun _ _ => trivial
    exact ⟨run_length_le hkeeps hwork hP hrun' hall,hclosing.rests_iff hd',
      fun hdone => (hclosing.sound.destroyed hdone).1⟩

/-- Two workers, of which one has a task in hand and one waits, and a task that is left in the list. -/
def quitRun (i k : Fin n) : List (Event n ℕ ℕ) :=
  [.lock k,.push 1 10 (some 2) true [],.push 1 11 none true [],.lock i,.call i,.quit]

lemma quitRun_ends : (run step (threadPoolNew 2 ℕ ℕ) (quitRun 0 1)).isSome := by decide +kernel

theorem shutdown_completes_quit : ∃ s, run step (threadPoolNew 2 ℕ ℕ) (quitRun 0 1) = some s ∧
    s.waitTasks.length = 1 ∧ (∃ ws s', run step s ws = some s' ∧ s'.destroy = .done) ∧
      ∀ ws s', run step s ws = some s' → ws.length+s'.work ≤ s.work ∧
        ((∀ e, step s' e = none) ↔ s'.destroy = .done) ∧
        (s'.destroy = .done → (s'.accepted : Multiset (Task ℕ ℕ)) = s'.calls+s'.freed) := by
  have hrun := (Option.some_get quitRun_ends).symm
  exact ⟨_,hrun,by decide +kernel,shutdown_completes (quitRun 0 1) _ hrun (by decide +kernel)⟩

end JustKit.Pool
