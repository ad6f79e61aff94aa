import JustKit.Pool.Model

/-! The start of a pool: `jk_thread_pool_new` creates the workers and then waits at a barrier until they
have checked in, while they run already. An event is what one thread does up to the next point at which
another thread can see it; a section under `wait_lock` is one event. -/
namespace JustKit.Pool.Startup
open Foundations Foundations.Transition

/-- A worker: not created, created but not yet through the first section of `jk_thread_loop`, or in
its loop. -/
inductive Worker where
  | absent
  | starting
  | checkedIn
  deriving Repr, DecidableEq

/-- Where `jk_thread_pool_new` is. It has returned a pool in `returned`, and `NULL` in `failed`. -/
inductive Main where
  | allocating
  | creating (i : ℕ)
  | waiting
  | woken
  | returned
  | failed
  deriving Repr, DecidableEq

/-- `wait_threads` with the two sides of the barrier. -/
structure State (n : ℕ) where
  main : Main
  waitThreads : ℤ
  workers : Fin n → Worker

inductive Event (n : ℕ) where
  /-- The allocations of the pool and of its array of threads. -/
  | alloc (thd tids : Bool)
  /-- A pass of the loop around `pthread_create`. -/
  | create
  /-- The section of `jk_thread_pool_new` under `wait_lock`. -/
  | barrier
  /-- A wake-up without a signal. -/
  | wake
  /-- The section of `jk_thread_loop` under `wait_lock`. -/
  | checkIn (i : Fin n)

variable {n : ℕ}

/-- `thread_nums` is in `wait_threads` before the first worker exists. -/
def start (n : ℕ) : State n := ⟨.allocating,n,fun _ => .absent⟩

/-- `pthread_create` for worker `i`, and the test of its result. Only the result 0 stands for a worker. -/
def create (outcome : Fin n → ℤ) (s : State n) (i : Fin n) : State n :=
  { s with
    main := if outcome i = -1 then .failed else .creating (i+1)
    workers := if outcome i = 0 then Function.update s.workers i .starting else s.workers }

/-- The loop around `pthread_cond_wait`, up to the wait. -/
def barrier (s : State n) : State n := { s with main := if 0 < s.waitThreads then .waiting else .returned }

/-- `pthread_cond_signal(&thd->wait_cond)`. -/
def Main.signal : Main → Main
  | .waiting => .woken
  | m => m

def checkIn (s : State n) (i : Fin n) : State n :=
  ⟨s.main.signal,wrap 32 (s.waitThreads-1),Function.update s.workers i .checkedIn⟩

/-- One event, where `outcome` has what each `pthread_create` returns. -/
def step (outcome : Fin n → ℤ) (s : State n) : Event n → Option (State n)
  | .alloc thd tids =>
    match s.main with
    | .allocating => some { s with main := if thd && tids then .creating 0 else .failed }
    | _ => none
  | .create =>
    match s.main with
    | .creating i => if h : i < n then some (create outcome s ⟨i,h⟩) else none
    | _ => none
  | .barrier =>
    match s.main with
    | .creating i => if i < n then none else some (barrier s)
    | .woken => some (barrier s)
    | _ => none
  | .wake =>
    match s.main with
    | .waiting => some { s with main := .woken }
    | _ => none
  | .checkIn i =>
    match s.workers i with
    | .starting => some (checkIn s i)
    | _ => none

/-- Every event, with the state in which it can happen and the state after it. -/
inductive Step (outcome : Fin n → ℤ) (s : State n) : Event n → State n → Prop
  | alloc {thd tids : Bool} (h : s.main = .allocating) :
    Step outcome s (.alloc thd tids) { s with main := if thd && tids then .creating 0 else .failed }
  | create {i : Fin n} (h : s.main = .creating i) : Step outcome s .create (create outcome s i)
  | enter {i : ℕ} (h : s.main = .creating i) (hi : n ≤ i) : Step outcome s .barrier (barrier s)
  | again (h : s.main = .woken) : Step outcome s .barrier (barrier s)
  | wake (h : s.main = .waiting) : Step outcome s .wake { s with main := .woken }
  | checkIn {i : Fin n} (h : s.workers i = .starting) : Step outcome s (.checkIn i) (checkIn s i)

variable {outcome : Fin n → ℤ} {s s' : State n}

theorem step_cases {e : Event n} (h : step outcome s e = some s') : Step outcome s e s' := by
  cases e with
  | alloc thd tids =>
    simp only [step] at h
    split at h
    · rename_i hm
      exact Option.some.inj h ▸ Step.alloc hm
    · cases h
  | create =>
    simp only [step] at h
    split at h
    · rename_i i hm
      split at h
      · rename_i hi
        exact Option.some.inj h ▸ Step.create (i := ⟨i,hi⟩) hm
      · cases h
    · cases h
  | barrier =>
    simp only [step] at h
    split at h
    · rename_i i hm
      split at h
      · cases h
      · rename_i hi
        exact Option.some.inj h ▸ Step.enter hm (not_lt.mp hi)
    · rename_i hm
      exact Option.some.inj h ▸ Step.again hm
    · cases h
  | wake =>
    simp only [step] at h
    split at h
    · rename_i hm
      exact Option.some.inj h ▸ Step.wake hm
    · cases h
  | checkIn i =>
    simp only [step] at h
    split at h
    · rename_i hw
      exact Option.some.inj h ▸ Step.checkIn hw
    · cases h

/-- A worker that is counted down from `wait_threads`. -/
def Worker.arrived : Worker → ℤ
  | .checkedIn => 1
  | _ => 0

/-- How many passes of the creation loop are done. -/
def Main.passes (n : ℕ) : Main → ℕ
  | .allocating => 0
  | .failed => 0
  | .creating i => i
  | _ => n

/-- What every run keeps: who exists, and that `wait_threads` counts those who have not checked in, the
threads that could not be created among them. -/
structure Inv (outcome : Fin n → ℤ) (s : State n) : Prop where
  created : ∀ i : Fin n, s.workers i ≠ .absent ↔ i < s.main.passes n ∧ outcome i = 0
  counted : s.waitThreads+total Worker.arrived s.workers = n
  waiting : s.main = .waiting → 0 < s.waitThreads
  returned : s.main = .returned → s.waitThreads ≤ 0

lemma arrived_nonneg (w : Worker) : 0 ≤ w.arrived := by cases w <;> decide

lemma arrived_le_one (w : Worker) : w.arrived ≤ 1 := by cases w <;> decide

lemma arrivals_nonneg (w : Fin n → Worker) : 0 ≤ total Worker.arrived w :=
  Finset.sum_nonneg fun i _ => arrived_nonneg (w i)

lemma total_one : total (fun _ : Worker => (1 : ℤ)) s.workers = n := by simp [total]

/-- If a worker has not checked in, fewer than `n` have. -/
lemma arrivals_lt {i : Fin n} (hi : s.workers i ≠ .checkedIn) : total Worker.arrived s.workers < n := by
  have hlt : total Worker.arrived s.workers < total (fun _ : Worker => (1 : ℤ)) s.workers := by
    refine Finset.sum_lt_sum (fun j _ => arrived_le_one _) ⟨i,Finset.mem_univ i,?_⟩
    cases hw : s.workers i with
    | absent => decide
    | starting => decide
    | checkedIn => exact absurd hw hi
  rwa [total_one] at hlt

/-- If fewer than `n` workers have checked in, one of them has not. -/
lemma exists_missing (h : total Worker.arrived s.workers < n) : ∃ i, s.workers i ≠ .checkedIn := by
  by_contra hall
  push Not at hall
  apply h.ne
  rw [← total_one (s := s)]
  exact Finset.sum_congr rfl fun i _ => congrArg Worker.arrived (hall i)

lemma start_inv : Inv outcome (start n) where
  created i := by simp [start,Main.passes]
  counted := by simp [start,total,Worker.arrived]
  waiting h := by cases h
  returned h := by cases h

lemma Main.signal_passes (m : Main) : m.signal.passes n = m.passes n := by cases m <;> rfl

lemma Main.signal_ne (m : Main) : m.signal ≠ .waiting := by cases m <;> nofun

lemma Main.signal_returned {m : Main} (h : m.signal = .returned) : m = .returned := by
  cases m with
  | returned => rfl
  | _ => cases h

lemma create_made {i : Fin n} (ho : outcome i = 0) :
    create outcome s i = ⟨.creating (i+1),s.waitThreads,Function.update s.workers i .starting⟩ := by
  unfold create
  rw [if_pos ho,if_neg (by omega)]

lemma create_refused {i : Fin n} (ho : 0 < outcome i) :
    create outcome s i = ⟨.creating (i+1),s.waitThreads,s.workers⟩ := by
  unfold create
  rw [if_neg ho.ne',if_neg (by omega)]

/-- Passing the creation of a worker on: the others are as before. -/
lemma creating_inv {i : Fin n} {w : Fin n → Worker} (hm : s.main = .creating i) (h : Inv outcome s)
    (hi : w i ≠ .absent ↔ outcome i = 0) (hw : ∀ j, j ≠ i → w j = s.workers j)
    (hcount : total Worker.arrived w = total Worker.arrived s.workers) :
    Inv outcome ⟨.creating (i+1),s.waitThreads,w⟩ := by
  refine ⟨fun j => ?_,?_,fun hwait => ?_,fun hret => ?_⟩
  · change w j ≠ .absent ↔ (j : ℕ) < i+1 ∧ outcome j = 0
    rcases eq_or_ne j i with rfl | hji
    · rw [hi]
      simp
    · have hval : (j : ℕ) ≠ i := fun hv => hji (Fin.ext hv)
      rw [hw j hji,h.created j,hm]
      change (j : ℕ) < i ∧ outcome j = 0 ↔ _
      refine and_congr_left fun _ => ?_
      omega
  · change s.waitThreads+total Worker.arrived w = n
    rw [hcount]
    exact h.counted
  · cases hwait
  · cases hret

lemma create_inv (hposix : ∀ i, 0 ≤ outcome i) {i : Fin n} (hm : s.main = .creating i) (h : Inv outcome s) :
    Inv outcome (create outcome s i) := by
  have habsent : s.workers i = .absent := by
    have hi := h.created i
    rw [hm] at hi
    exact Classical.not_not.mp (mt hi.mp fun hlt => absurd hlt.1 (lt_irrefl _))
  rcases (hposix i).eq_or_lt' with ho | ho
  · rw [create_made ho]
    refine creating_inv hm h (by simp [ho]) (fun j hj => Function.update_of_ne hj _ _) ?_
    apply total_update_same
    rw [habsent]
    rfl
  · rw [create_refused ho]
    exact creating_inv hm h (by simp [habsent,ho.ne']) (fun _ _ => rfl) rfl

lemma barrier_inv (hp : n ≤ s.main.passes n) (h : Inv outcome s) : Inv outcome (barrier s) := by
  refine ⟨fun i => ?_,h.counted,fun hw => ?_,fun hr => ?_⟩
  · have hpasses : (barrier s).main.passes n = n := by
      unfold barrier
      split <;> rfl
    rw [hpasses]
    refine (h.created i).trans (and_congr_left fun _ => ?_)
    omega
  · change (if 0 < s.waitThreads then Main.waiting else .returned) = .waiting at hw
    split at hw
    · rename_i hpos
      exact hpos
    · cases hw
  · change (if 0 < s.waitThreads then Main.waiting else .returned) = .returned at hr
    split at hr
    · cases hr
    · rename_i hpos
      exact not_lt.mp hpos

lemma checkIn_inv (hn : n < 2^31) {i : Fin n} (hw : s.workers i = .starting) (h : Inv outcome s) :
    Inv outcome (checkIn s i) := by
  have hcount := total_update Worker.arrived s.workers i .checkedIn
  rw [hw] at hcount
  change _+0 = _+1 at hcount
  have hlt := arrivals_lt (s := s) (i := i) (by rw [hw]; decide)
  have hpos : 0 < s.waitThreads := by linarith [h.counted]
  have hle : s.waitThreads ≤ n := by linarith [h.counted,arrivals_nonneg s.workers]
  have hwrap : (checkIn s i).waitThreads = s.waitThreads-1 := wrap_of_range (w := 31) (by omega) (by omega)
  refine ⟨fun j => ?_,?_,fun hm => absurd hm (Main.signal_ne _),fun hm => ?_⟩
  · change Function.update s.workers i .checkedIn j ≠ .absent ↔ (j : ℕ) < s.main.signal.passes n ∧
      outcome j = 0
    rw [Main.signal_passes,← h.created j]
    rcases eq_or_ne j i with rfl | hji
    · simp [hw]
    · rw [Function.update_of_ne hji]
  · rw [hwrap]
    change _+total Worker.arrived (Function.update s.workers i .checkedIn) = _
    linarith [h.counted]
  · have := h.returned (Main.signal_returned hm)
    omega

lemma Step.inv (hn : n < 2^31) (hposix : ∀ i, 0 ≤ outcome i) {e : Event n} (h : Step outcome s e s')
    (hinv : Inv outcome s) : Inv outcome s' := by
  cases h with
  | alloc hm =>
    refine ⟨fun i => ?_,hinv.counted,fun hw => ?_,fun hr => ?_⟩
    · have hi := hinv.created i
      rw [hm] at hi
      change s.workers i ≠ .absent ↔ _
      rw [hi]
      split <;> simp [Main.passes]
    · change (if _ then _ else _) = _ at hw
      split at hw <;> cases hw
    · change (if _ then _ else _) = _ at hr
      split at hr <;> cases hr
  | create hm => exact create_inv hposix hm hinv
  | enter hm hi => exact barrier_inv (by rw [hm]; exact hi) hinv
  | again hm => exact barrier_inv (by rw [hm]; exact le_rfl) hinv
  | wake hm =>
    refine ⟨fun i => ?_,hinv.counted,fun hw => ?_,fun hr => ?_⟩
    · have hi := hinv.created i
      rwa [hm] at hi
    · cases hw
    · cases hr
  | checkIn hw => exact checkIn_inv hn hw hinv

/-- What the start promises: it never waits for a worker that is not on its way, a pool that is returned has all
its workers, and no worker is left with a pool that is freed. -/
structure Sound (s : State n) : Prop where
  barrier : s.main = .waiting → ∃ i, s.workers i = .starting
  returned : s.main = .returned → ∀ i, s.workers i = .checkedIn
  failed : s.main = .failed → ∀ i, s.workers i = .absent

lemma run_inv (hn : n < 2^31) (hposix : ∀ i, 0 ≤ outcome i) {es : List (Event n)}
    (h : run (step outcome) (start n) es = some s) : Inv outcome s :=
  run_invariant (fun _ _ _ hinv hstep => (step_cases hstep).inv hn hposix hinv) start_inv h

/-- The barrier lets `jk_thread_pool_new` pass only when all workers are in their loops. -/
lemma Inv.all_checkedIn (h : Inv outcome s) (hm : s.main = .returned) (i : Fin n) : s.workers i = .checkedIn := by
  by_contra hi
  have hlt := arrivals_lt hi
  linarith [h.counted,h.returned hm]

lemma Inv.sound (hall : ∀ i, outcome i = 0) (h : Inv outcome s) : Sound s := by
  refine ⟨fun hm => ?_,h.all_checkedIn,fun hm i => ?_⟩
  · have hpos := h.waiting hm
    obtain ⟨i,hi⟩ := exists_missing (s := s) (by linarith [h.counted])
    have hex := (h.created i).mpr ⟨by rw [hm]; exact i.isLt,hall i⟩
    cases hw : s.workers i with
    | absent => exact absurd hw hex
    | starting => exact ⟨i,hw⟩
    | checkedIn => exact absurd hw hi
  · by_contra hi
    have hlt := ((h.created i).mp hi).1
    rw [hm] at hlt
    exact absurd hlt (Nat.not_lt_zero _)

/-- The creation loop runs to its end if no creation returns -1. -/
lemma exists_created (hposix : ∀ i, 0 ≤ outcome i) {k : ℕ} (hk : k ≤ n) :
    ∃ es s, run (step outcome) (start n) es = some s ∧ s.main = .creating k := by
  induction k with
  | zero => exact ⟨[.alloc true true],_,rfl,rfl⟩
  | succ k ih =>
    obtain ⟨es,s,hrun,hm⟩ := ih (Nat.le_of_succ_le hk)
    have hstep : step outcome s .create = some (create outcome s ⟨k,hk⟩) := by
      simp only [step,hm]
      exact dif_pos hk
    refine ⟨es++[.create],create outcome s ⟨k,hk⟩,?_,?_⟩
    · rw [run_append,hrun]
      simp [run,hstep]
    · have := hposix ⟨k,hk⟩
      exact if_neg (by omega)

/-- The workers of a list check in, as far as they are on their way. -/
lemma exists_checkedIn (outcome : Fin n → ℤ) (hm : s.main = .creating n) (is : List (Fin n)) :
    ∃ es s', run (step outcome) s es = some s' ∧ s'.main = .creating n ∧
      ∀ i, i ∈ is ∨ s.workers i ≠ .starting → s'.workers i ≠ .starting := by
  induction is generalizing s with
  | nil => exact ⟨[],s,rfl,hm,fun i hi => hi.resolve_left List.not_mem_nil⟩
  | cons i is ih =>
    by_cases hi : s.workers i = .starting
    · have hstep : step outcome s (.checkIn i) = some (checkIn s i) := by simp [step,hi]
      have hm' : (checkIn s i).main = .creating n := by
        change s.main.signal = _
        rw [hm]
        rfl
      obtain ⟨es,s',hrun,hmain,hw⟩ := ih hm'
      refine ⟨.checkIn i::es,s',?_,hmain,fun j hj => hw j ?_⟩
      · rw [run,hstep]
        exact hrun
      · change j ∈ is ∨ Function.update s.workers i .checkedIn j ≠ .starting
        rcases eq_or_ne j i with rfl | hji
        · exact Or.inr (by simp)
        · rw [Function.update_of_ne hji]
          exact hj.imp_left fun hj => (List.mem_cons.mp hj).resolve_left hji
    · obtain ⟨es,s',hrun,hmain,hw⟩ := ih hm
      refine ⟨es,s',hrun,hmain,fun j hj => hw j ?_⟩
      rcases eq_or_ne j i with rfl | hji
      · exact Or.inr hi
      · exact hj.imp_left fun hj => (List.mem_cons.mp hj).resolve_left hji

/-- A thread that could not be created stays in `wait_threads`, and the barrier is never passed. -/
lemma exists_stuck (hn : n < 2^31) (hposix : ∀ i, 0 ≤ outcome i) {i : Fin n} (hi : outcome i ≠ 0) :
    ∃ es s, run (step outcome) (start n) es = some s ∧ s.main = .waiting ∧
      ∀ j, s.workers j ≠ .starting := by
  obtain ⟨es,s,hrun,hm⟩ := exists_created hposix le_rfl
  obtain ⟨es',s',hrun',hm',hw⟩ := exists_checkedIn outcome hm (List.finRange n)
  have htotal : run (step outcome) (start n) (es++es') = some s' := by
    rw [run_append,hrun]
    exact hrun'
  have hinv := run_inv hn hposix htotal
  have habsent : s'.workers i = .absent :=
    Classical.not_not.mp (mt (hinv.created i).mp fun h => hi h.2)
  have hlt := arrivals_lt (s := s') (i := i) (by rw [habsent]; decide)
  have hpos : 0 < s'.waitThreads := by linarith [hinv.counted]
  have hstep : step outcome s' .barrier = some (barrier s') := by
    simp only [step,hm']
    exact if_neg (lt_irrefl n)
  refine ⟨es++es'++[.barrier],barrier s',?_,if_pos hpos,fun j => hw j (Or.inl (List.mem_finRange j))⟩
  rw [run_append,htotal]
  simp [run,hstep]

/-- Where the first section of `jk_thread_loop` leaves a worker in the pool's own transition system. -/
def Worker.place (τ : Type) : Worker → Option (Pc τ)
  | .checkedIn => some .top
  | _ => none

/-- A pool is returned with its workers where `threadPoolNew` has them. -/
theorem returned_places (φ α : Type) (hn : n < 2^31) (hposix : ∀ i, 0 ≤ outcome i) {es : List (Event n)}
    (h : run (step outcome) (start n) es = some s) (hm : s.main = .returned) (i : Fin n) :
    (s.workers i).place (Task φ α) = some ((threadPoolNew n φ α).workers i).pc := by
  rw [(run_inv hn hposix h).all_checkedIn hm i]
  rfl

/-- The start keeps its promises in all runs exactly if every creation succeeds: a creation that fails
returns an error number, and never the -1 for which `jk_thread_pool_new` looks. -/
theorem startup_sound_iff (hn : n < 2^31) (hposix : ∀ i, 0 ≤ outcome i) :
    (∀ es s, run (step outcome) (start n) es = some s → Sound s) ↔ ∀ i, outcome i = 0 := by
  constructor
  · intro hsound i
    by_contra hi
    obtain ⟨es,s,hrun,hm,hw⟩ := exists_stuck hn hposix hi
    obtain ⟨j,hj⟩ := (hsound es s hrun).barrier hm
    exact hw j hj
  · intro hall es s hrun
    exact (run_inv hn hposix hrun).sound hall

theorem startup_sound_three : ∃ s, run (step fun _ : Fin 3 => 0) (start 3)
    [.alloc true true,.create,.create,.create,.barrier] = some s ∧ Sound s :=
  ⟨_,rfl,(startup_sound_iff (by decide) fun _ => le_rfl).mpr (fun _ => rfl)
    [.alloc true true,.create,.create,.create,.barrier] _ rfl⟩

/-- The only `pthread_create` returns `EAGAIN`, and the barrier waits for a worker that does not exist. -/
theorem startup_eagain_stuck : ¬ ∀ es s, run (step fun _ : Fin 1 => 11) (start 1) es = some s → Sound s := by
  intro h
  obtain ⟨i,hi⟩ := (h [.alloc true true,.create,.barrier] ⟨.waiting,1,fun _ => .absent⟩ rfl).barrier rfl
  cases hi

end JustKit.Pool.Startup
