import JustKit.Pool.Model

/-! No wake-up is lost: while a worker waits, the counter of tasks is covered by workers that have been
woken. Here `pthread_cond_signal` wakes a waiting worker if there is one, and tasks may be pushed until
`jk_thread_pool_destroy` returns. -/
namespace JustKit.Pool
open Foundations Foundations.Transition
variable {n : ℕ} {φ α τ : Type}

def Pc.isWaiting : Pc τ → Bool
  | .waiting => true
  | _ => false

/-- One for a worker that was woken and has not looked at the counter again. -/
def Pc.awoken : Pc τ → ℕ
  | .woken => 1
  | _ => 0

/-- A signal that reaches the workers in `woken` reaches a waiting one, if there is one. -/
def State.Signals (s : State n φ α) (woken : List (Fin n)) : Prop :=
  (∃ i, (s.workers i).pc.isWaiting) → ∃ i ∈ woken, (s.workers i).pc.isWaiting

instance signalsDecidable (s : State n φ α) (woken : List (Fin n)) : Decidable (s.Signals woken) :=
  inferInstanceAs (Decidable ((∃ i, (s.workers i).pc.isWaiting) → ∃ i ∈ woken, (s.workers i).pc.isWaiting))

/-- One event, with pushes by any threads at any time. -/
def signalStep (s : State n φ α) : Event n φ α → Option (State n φ α)
  | .push call arg finish malloc woken =>
    if s.destroy ≠ .done ∧ (malloc → s.Signals woken) then
      some (threadPoolPush s call arg finish malloc woken).1
    else none
  | .wake i => step s (.wake i)
  | .lock i => step s (.lock i)
  | .call i => step s (.call i)
  | .finish i => step s (.finish i)
  | .free i => step s (.free i)
  | .quit => step s .quit
  | .join => step s .join
  | .freeLeft => step s .freeLeft

/-- The number of workers that were woken and have not looked at the counter again. -/
def State.wokenWorkers (s : State n φ α) : ℕ := total (fun w : Worker (Task φ α) => w.pc.awoken) s.workers

lemma isWaiting_iff {pc : Pc τ} : pc.isWaiting = true ↔ pc = .waiting := by
  cases pc <;> simp [Pc.isWaiting]

structure Covered (s : State n φ α) : Prop where
  count : s.taskNums = wrap 32 s.waitTasks.length
  quitting : s.destroy ≠ .idle → s.quitFlag = true
  awake : s.quitFlag = true → ∀ i, (s.workers i).pc ≠ .waiting
  woken : (∃ i, (s.workers i).pc = .waiting) → s.taskNums ≤ s.wokenWorkers

theorem threadPoolNew_covered : Covered (threadPoolNew n φ α) where
  count := show (0 : ℤ) = wrap 32 0 by decide
  quitting h := absurd rfl h
  awake h := nomatch h
  woken _ := Int.natCast_nonneg _

lemma setWorker_woken (s : State n φ α) (i : Fin n) (w : Worker (Task φ α)) :
    (s.setWorker i w).wokenWorkers+(s.workers i).pc.awoken = s.wokenWorkers+w.pc.awoken :=
  total_update (fun w : Worker (Task φ α) => w.pc.awoken) s.workers i w

/-- A wake-up turns a waiting worker into a woken one. -/
lemma wake_awoken (w : Worker τ) : w.wake.pc.awoken = w.pc.awoken+if w.pc.isWaiting then 1 else 0 := by
  obtain ⟨pc,log⟩ := w
  cases pc <;> rfl

lemma awoken_le (pc : Pc τ) : pc.awoken ≤ 1 := by
  cases pc <;> simp [Pc.awoken]

lemma wake_not_waiting (w : Worker τ) : w.wake.pc ≠ .waiting := by
  obtain ⟨pc,log⟩ := w
  cases pc <;> simp [Worker.wake]

/-- A positive counter can be decremented. -/
lemma decrement_eq {x : ℤ} (hpos : 0 < x) (hr : x < 2^31) : wrap 32 (x-1) = x-1 :=
  wrap_of_range (w := 31) (by omega) (by omega)

/-- The counter grows by one, unless it overflows. -/
lemma increment_le {x : ℤ} (hl : -2^31 ≤ x) : wrap 32 (x+1) ≤ x+1 := by
  by_cases hx : x+1 < 2^31
  · exact (wrap_of_range (w := 31) (by omega) hx).le
  · have hr : wrap 32 (x+1) < 2^31 := (wrap_range 31 (x+1)).2
    omega

section Steps
variable {s s' : State n φ α} (h : Covered s)
include h

/-- One worker moves, and it does not start to wait. -/
lemma Covered.setWorker {i : Fin n} {w : Worker (Task φ α)} (hpc : w.pc ≠ .waiting)
    (hw : (s.workers i).pc.awoken ≤ w.pc.awoken) : Covered (s.setWorker i w) := by
  have hu := setWorker_woken s i w
  have hold : ∀ j, ((s.setWorker i w).workers j).pc = .waiting → (s.workers j).pc = .waiting := by
    intro j hj
    by_cases hji : j = i
    · subst hji
      exact absurd hj (by simpa [State.setWorker] using hpc)
    · simpa [State.setWorker,hji] using hj
  refine ⟨h.count,h.quitting,fun hq j hj => h.awake hq j (hold j hj),?_⟩
  rintro ⟨j,hj⟩
  have hle := h.woken ⟨j,hold j hj⟩
  change s.taskNums ≤ _
  omega

lemma Covered.push (call : φ) (arg : α) (finish : Option φ) (malloc : Bool) {woken : List (Fin n)}
    (hs : malloc → s.Signals woken) : Covered (threadPoolPush s call arg finish malloc woken).1 := by
  cases malloc with
  | false => exact h
  | true =>
    have hrange : -2^31 ≤ s.taskNums := h.count ▸ (wrap_range 31 s.waitTasks.length).1
    have hold : ∀ j, (if j ∈ woken then (s.workers j).wake else s.workers j).pc = .waiting →
        (s.workers j).pc = .waiting := by
      intro j hj
      split at hj
      · exact absurd hj (wake_not_waiting _)
      · exact hj
    refine ⟨?_,h.quitting,fun hq j hj => h.awake hq j (hold j hj),?_⟩
    · simp only [threadPoolPush,if_true,List.length_cons,h.count,wrap_wrap_add]
      push_cast
      rfl
    · rintro ⟨j,hj⟩
      have hj' := hold j hj
      have hle := h.woken ⟨j,hj'⟩
      have hnums := increment_le hrange
      -- The signal has turned one more worker into a woken one.
      obtain ⟨i,hi,hwait⟩ := hs rfl ⟨j,isWaiting_iff.mpr hj'⟩
      have hmore : s.wokenWorkers < (threadPoolPush s call arg finish true woken).1.wokenWorkers := by
        apply total_lt (i := i)
        · intro k
          change _ ≤ (if k ∈ woken then (s.workers k).wake else s.workers k).pc.awoken
          split
          · rw [wake_awoken]
            exact Nat.le_add_right _ _
          · exact le_rfl
        · change _ < (if i ∈ woken then (s.workers i).wake else s.workers i).pc.awoken
          rw [if_pos hi,wake_awoken,if_pos hwait]
          exact Nat.lt_succ_self _
      change wrap 32 (s.taskNums+1) ≤ _
      omega

/-- The section under the lock: the worker waits only if the counter is not positive, and otherwise it
takes one task. -/
lemma Covered.lockSection (i : Fin n) : Covered (threadLoopSection s i) := by
  unfold threadLoopSection
  split
  · rename_i hq
    refine ⟨h.count,h.quitting,fun _ j => ?_,?_⟩
    · by_cases hj : j = i
      · simp [State.setPc,State.setWorker,hj]
      · simpa [State.setPc,State.setWorker,hj] using h.awake hq j
    · rintro ⟨j,hj⟩
      by_cases hji : j = i
      · simp [State.setPc,State.setWorker,hji] at hj
      · exact absurd (by simpa [State.setPc,State.setWorker,hji] using hj) (h.awake hq j)
  · rename_i hq
    split
    · rename_i hnums
      exact ⟨h.count,h.quitting,fun hq' => absurd hq' hq,fun _ => hnums.trans (Int.natCast_nonneg _)⟩
    · rename_i hpos
      have hcount := h.count
      split
      · rename_i hw
        rw [hw] at hcount
        have hzero : wrap 32 0 = 0 := by decide
        exact absurd (hcount.trans hzero).le hpos
      · rename_i t rest hw
        have hnums : wrap 32 (s.taskNums-1) = s.taskNums-1 :=
          decrement_eq (not_le.mp hpos) (hcount ▸ (wrap_range 31 s.waitTasks.length).2)
        refine ⟨?_,h.quitting,fun hq' => absurd hq' hq,?_⟩
        · rw [hw] at hcount
          simp only [hcount,wrap_wrap_sub,List.length_cons]
          simp
        · rintro ⟨j,hj⟩
          have hji : j ≠ i := by
            rintro rfl
            simp [State.setPc,State.setWorker] at hj
          have hle := h.woken ⟨j,by simpa [State.setPc,State.setWorker,hji] using hj⟩
          have hone := setWorker_woken s i { s.workers i with pc := .holding t }
          have hlt : (s.workers i).pc.awoken ≤ 1 := awoken_le _
          change wrap 32 (s.taskNums-1) ≤ ((s.setPc i (.holding t)).wokenWorkers : ℤ)
          change (s.setPc i (.holding t)).wokenWorkers+_ = _+0 at hone
          omega

/-- One event keeps the counter covered. -/
theorem Covered.step {e : Event n φ α} (hstep : signalStep s e = some s') : Covered s' := by
  by_cases hpush : ∃ call arg finish malloc woken, e = .push call arg finish malloc woken
  · obtain ⟨call,arg,finish,malloc,woken,rfl⟩ := hpush
    obtain ⟨⟨_,hs⟩,heq⟩ := Option.ite_none_right_eq_some.mp hstep
    obtain rfl := Option.some.inj heq
    exact h.push call arg finish malloc hs
  · have hstep' : Pool.step s e = some s' := by
      cases e with
      | push call arg finish malloc woken => exact absurd ⟨call,arg,finish,malloc,woken,rfl⟩ hpush
      | _ => exact hstep
    cases step_cases hstep' with
    | push _ => exact absurd ⟨_,_,_,_,_,rfl⟩ hpush
    | wake hpc => exact h.setWorker (by simp) (by simp [hpc,Pc.awoken])
    | lock _ => exact h.lockSection _
    | call hpc => exact h.setWorker (by simp) (by simp [hpc,Pc.awoken])
    | finish hpc => exact h.setWorker (by simp) (by simp [hpc,Pc.awoken])
    | free hpc => exact h.setWorker (by simp) (by simp [hpc,Pc.awoken])
    | quit _ =>
      exact ⟨h.count,fun _ => rfl,fun _ _ => wake_not_waiting _,fun ⟨_,hj⟩ => absurd hj (wake_not_waiting _)⟩
    | joinOne hd _ => exact ⟨h.count,fun _ => h.quitting (by simp [hd]),h.awake,h.woken⟩
    | joinAll hd _ => exact ⟨h.count,fun _ => h.quitting (by simp [hd]),h.awake,h.woken⟩
    | @freeOne t rest hd hw =>
      have hq := h.quitting (by simp [hd])
      refine ⟨?_,fun _ => hq,h.awake,fun ⟨j,hj⟩ => absurd hj (h.awake hq j)⟩
      rw [h.count,hw,wrap_wrap_sub]
      simp
    | freeAll hd _ => exact ⟨h.count,fun _ => h.quitting (by simp [hd]),h.awake,h.woken⟩

end Steps

/-- The counter is covered in every state of every run. -/
theorem run_covered {s : State n φ α} {es : List (Event n φ α)}
    (hrun : run signalStep (threadPoolNew n φ α) es = some s) : Covered s :=
  run_invariant (fun _ _ _ h hstep => h.step hstep) threadPoolNew_covered hrun

/-- While a worker waits, the counter is at most the number of woken workers, and so is the number of
tasks in the list as long as the counter does not overflow. -/
theorem no_lost_wakeup (es : List (Event n φ α)) (s : State n φ α)
    (hrun : run signalStep (threadPoolNew n φ α) es = some s) (hwait : ∃ i, (s.workers i).pc = .waiting) :
    s.taskNums ≤ s.wokenWorkers ∧
      (s.waitTasks.length < 2^31 → s.waitTasks.length ≤ s.wokenWorkers ∧
        (s.waitTasks ≠ [] → ∃ i, (s.workers i).pc = .woken)) := by
  have h := run_covered hrun
  have hle := h.woken hwait
  refine ⟨hle,fun hlen => ?_⟩
  have hcount : s.taskNums = s.waitTasks.length := by
    rw [h.count]
    exact wrap_of_range (w := 31) (by omega) (by exact_mod_cast hlen)
  rw [hcount] at hle
  have hle' : s.waitTasks.length ≤ s.wokenWorkers := by exact_mod_cast hle
  refine ⟨hle',fun hne => ?_⟩
  by_contra hnone
  have hzero : s.wokenWorkers = 0 := by
    apply total_eq_zero
    intro i
    have hi : (s.workers i).pc ≠ .woken := fun hi => hnone ⟨i,hi⟩
    cases hpc : (s.workers i).pc with
    | woken => exact absurd hpc hi
    | _ => rfl
  have hpos := List.length_pos_of_ne_nil hne
  omega

/-- Two workers wait. A push signals one of them, but a third worker that has just finished takes the task;
the woken worker waits again, and the next push signals it. -/
def stealRun (i i' k : Fin n) : List (Event n ℕ ℕ) :=
  [.push 1 10 none true [],.lock k,.lock i,.lock i',.call k,.finish k,.free k,.push 1 11 none true [i],
    .lock k,.lock i,.push 1 12 none true [i]]

lemma stealRun_ends : (run signalStep (threadPoolNew 3 ℕ ℕ) (stealRun 0 1 2)).isSome := by decide +kernel

theorem no_lost_wakeup_stolen : ∃ s, run signalStep (threadPoolNew 3 ℕ ℕ) (stealRun 0 1 2) = some s ∧
    s.waitTasks ≠ [] ∧ s.taskNums ≤ s.wokenWorkers ∧
      (s.waitTasks.length < 2^31 → s.waitTasks.length ≤ s.wokenWorkers ∧
        (s.waitTasks ≠ [] → ∃ i, (s.workers i).pc = .woken)) := by
  have hrun := (Option.some_get stealRun_ends).symm
  exact ⟨_,hrun,by decide +kernel,no_lost_wakeup (stealRun 0 1 2) _ hrun ⟨1,by decide +kernel⟩⟩

/-! ### Overflow of the counter -/

/-- Pushes while the workers are still on their way to the lock, until worker `i` gets it. -/
def flood (i : Fin n) (k : ℕ) : List (Event n ℕ ℕ) := List.replicate k (.push 1 10 none true [])++[.lock i]

/-- No worker waits, so the signals reach none. -/
lemma pushes_run (k : ℕ) (s : State n ℕ ℕ) (hidle : s.destroy = .idle)
    (hwait : ∀ i, (s.workers i).pc.isWaiting = false) :
    ∃ s', run signalStep s (List.replicate k (.push 1 10 none true [])) = some s' ∧ s'.workers = s.workers ∧
      s'.quitFlag = s.quitFlag ∧ s'.waitTasks.length = s.waitTasks.length+k := by
  induction k generalizing s with
  | zero => exact ⟨s,rfl,rfl,rfl,rfl⟩
  | succ k ih =>
    have hsignals : s.Signals [] := fun ⟨i,hi⟩ => by simp [hwait i] at hi
    have hstep : signalStep s (.push 1 10 none true []) = some (threadPoolPush s 1 10 none true []).1 :=
      if_pos ⟨by simp [hidle],fun _ => hsignals⟩
    have hworkers : (threadPoolPush s 1 10 none true []).1.workers = s.workers := by
      funext i
      simp [threadPoolPush]
    obtain ⟨s',hrun,hw,hq,hlen⟩ := ih (threadPoolPush s 1 10 none true []).1 hidle (hworkers ▸ hwait)
    refine ⟨s',?_,hw.trans hworkers,hq,?_⟩
    · rw [List.replicate_succ,run,hstep]
      exact hrun
    · rw [hlen]
      simp only [threadPoolPush,if_true,List.length_cons]
      omega

/-- When the counter has wrapped to a value that is not positive, the worker goes to sleep with all
tasks in the list, and no worker has been woken. -/
theorem flood_sleeps (i : Fin n) (k : ℕ) (hk : wrap 32 k ≤ 0) : ∃ s,
    run signalStep (threadPoolNew n ℕ ℕ) (flood i k) = some s ∧ (s.workers i).pc = .waiting ∧
    s.waitTasks.length = k ∧
      ∀ j, (s.workers j).pc ≠ .woken := by
  obtain ⟨s,hrun,hw,hq,hlen⟩ := pushes_run k (threadPoolNew n ℕ ℕ) rfl fun _ => rfl
  have hlen' : s.waitTasks.length = k := hlen.trans (Nat.zero_add k)
  have hnums : s.taskNums ≤ 0 := by
    rw [(run_covered hrun).count,hlen']
    exact hk
  have htop : ∀ j, (s.workers j).pc = .top := fun j => by rw [hw]; rfl
  have hquit : s.quitFlag = false := hq
  have hstep : signalStep s (.lock i) = some (s.setPc i .waiting) := by
    simp [signalStep,step,htop i,threadLoopSection,hquit,hnums]
  refine ⟨s.setPc i .waiting,?_,by simp [State.setPc,State.setWorker],hlen',fun j => ?_⟩
  · rw [flood,run_append,hrun]
    simp [run,hstep]
  · by_cases hj : j = i
    · simp [State.setPc,State.setWorker,hj]
    · simp [State.setPc,State.setWorker,hj,htop j]

/-- With 2³¹ tasks in the list the counter is negative, and the only worker sleeps. -/
theorem overflow_sleeps : ∃ s, run signalStep (threadPoolNew 1 ℕ ℕ) (flood 0 (2^31)) = some s ∧
    (s.workers 0).pc = .waiting ∧ s.waitTasks ≠ [] ∧ ∀ i, (s.workers i).pc ≠ .woken := by
  obtain ⟨s,hrun,hwait,hlen,hnone⟩ := flood_sleeps (0 : Fin 1) (2^31) (by decide)
  refine ⟨s,hrun,hwait,?_,hnone⟩
  apply List.ne_nil_of_length_pos
  rw [hlen]
  positivity

end JustKit.Pool
