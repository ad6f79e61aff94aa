import JustKit.Pool.Interleavings

/-! The threads of a pool come to rest: what they have to do is bounded by the tasks in the list and by where the
threads are, and each access uses some of it up. Nothing is assumed of the order in which they run. -/
namespace JustKit.Pool.Threads
open Foundations Foundations.Transition Foundations.LinkedCells

/-- The accesses of a worker until it waits or exits. A task in its hand is counted, and one in the list is not. -/
def WorkerPc.work : WorkerPc → ℕ
  | .waiting | .exited => 0
  | .blocking | .quitting | .unlinking _ _ => 1
  | .took _ => 2
  | .taking => 3
  | .testing => 4
  | .checking => 5
  | .locked => 6
  | .top | .woken => 7
  | .finished _ => 8
  | .called _ => 9
  | .holding _ => 10
  | .counted _ => 11
  | .counting _ _ => 12
  | .unlinked _ => 13

/-- The accesses of a push, those of the workers that it wakes, and those for its task. -/
def PusherPc.work {β : Type} (n : ℕ) : PusherPc β → ℕ
  | .idle => 0
  | .signalled => 1
  | .counted _ => 7*n+2
  | .counting _ _ => 7*n+3
  | .stored _ => 7*n+4
  | .linked _ _ => 7*n+18
  | .linking _ _ _ => 7*n+19
  | .locked _ _ => 7*n+20
  | .filled _ _ => 7*n+21

/-- The accesses of `jk_thread_pool_destroy`, and those of the workers that it wakes. -/
def DestroyerPc.work (n : ℕ) : DestroyerPc → ℕ
  | .idle | .done | .dropping _ _ => 0
  | .freeing _ => 1
  | .counting _ _ => 2
  | .dropped _ => 3
  | .joining i => n-i+2
  | .broadcasted => n+3
  | .flagged => 8*n+4
  | .locked => 8*n+5
  | .called => 8*n+6

variable {n m : ℕ} {φ α : Type}

/-- A bound of the accesses that can follow when the list has `k` tasks, without calls and without wake-ups that
nobody has signalled. -/
def State.work (s : State n m φ α) (k : ℕ) : ℕ :=
  13*k+total WorkerPc.work s.worker+total (PusherPc.work n) s.pusher+s.destroyer.work n

/-- The events other than calls and wake-ups without a signal. -/
def Event.Access : Event n m φ α → Prop
  | .worker _ | .pusher _ _ | .destroyer => True
  | .wake _ | .push _ _ _ | .destroy => False

section Steps
variable {s s' : State n m φ α} {xs : List (ℕ × Job φ α)} {i : Fin n} {j : Fin m} {k k' : ℕ}

lemma worker_work (pc : WorkerPc) (hpc : s'.pc = Function.update s.pc (.worker i) pc)
    (hlt : pc.work+13*k' < (s.worker i).work+13*k) : s'.work k' < s.work k := by
  obtain ⟨hself,hother,hpusher,hd⟩ := State.worker_moves hpc
  have hworker : s'.worker = Function.update s.worker i pc := Function.eq_update_iff.mpr ⟨hself,hother⟩
  have hsum := total_update WorkerPc.work s.worker i pc
  unfold State.work
  rw [hworker,show s'.pusher = s.pusher from funext hpusher,hd]
  omega

lemma pusher_work (pc : PusherPc (Job φ α)) (hpc : s'.pc = Function.update s.pc (.pusher j) pc)
    (hlt : pc.work n+13*k' < (s.pusher j).work n+13*k) : s'.work k' < s.work k := by
  obtain ⟨hself,hother,hworker,hd⟩ := State.pusher_moves hpc
  have hpusher : s'.pusher = Function.update s.pusher j pc := Function.eq_update_iff.mpr ⟨hself,hother⟩
  have hsum := total_update (PusherPc.work n) s.pusher j pc
  unfold State.work
  rw [hpusher,show s'.worker = s.worker from funext hworker,hd]
  omega

lemma destroyer_work (pc : DestroyerPc) (hpc : s'.pc = Function.update s.pc .destroyer pc) (hne : pc ≠ .idle)
    (hlt : pc.work n+13*k' < s.destroyer.work n+13*k) : s'.destroyer ≠ .idle ∧ s'.work k' < s.work k := by
  obtain ⟨hworker,hpusher,hd⟩ := State.worker_destroyer hpc
  refine ⟨hd ▸ hne,?_⟩
  unfold State.work
  rw [show s'.worker = s.worker from funext hworker,show s'.pusher = s.pusher from funext hpusher,hd]
  omega

/-- A wake-up gives each worker a round of its loop at most. -/
lemma wake_work {woken : List (Fin n)} {s₁ : State n m φ α} (hpc : s₁.pc = s.wake woken) :
    total WorkerPc.work s₁.worker ≤ total WorkerPc.work s.worker+7*n := by
  have hle : total WorkerPc.work s₁.worker ≤ total (fun pc : WorkerPc => pc.work+7) s.worker := by
    refine Finset.sum_le_sum fun i _ => ?_
    rw [State.worker,hpc]
    change WorkerPc.work (if _ then WorkerPc.woken else s.worker i) ≤ _
    split
    · exact Nat.le_add_left _ _
    · exact Nat.le_add_right _ _
  have hadd : total (fun pc : WorkerPc => pc.work+7) s.worker = total WorkerPc.work s.worker+7*n := by
    simp [total,Finset.sum_add_distrib,mul_comm]
  exact hle.trans hadd.le

/-- An access that does not fault reads its block. -/
lemma access_eq {p : Option ℕ} {f : ℕ → Cell (Job φ α) → State n m φ α}
    (h : (s.access p f).fault = false) :
    ∃ a c, p = some a ∧ s.tasks a = some c ∧ s.access p f = f a c := by
  cases p with
  | none => cases h
  | some a =>
    cases hc : s.tasks a with
    | none =>
      simp only [State.access,hc] at h
      cases h
    | some c => exact ⟨a,c,rfl,hc,by simp [State.access,hc]⟩

theorem threadLoop_work (h : Consistent s xs) (hstep : threadLoop s i = some s') :
    ∃ pc : WorkerPc, s'.pc = Function.update s.pc (.worker i) pc ∧
      pc.work+13*((s.worker i).after xs).length < (s.worker i).work+13*xs.length := by
  have hfits : (s.worker i).Fits s := h.fits (.worker i)
  have hsafe := (h.threadLoop hstep).safe
  unfold threadLoop at hstep
  cases hpc : s.worker i with
  | waiting | exited =>
    rw [hpc] at hstep
    cases hstep
  | top | woken =>
    rw [hpc] at hstep
    obtain ⟨_,heq⟩ := Option.ite_none_right_eq_some.mp hstep
    obtain rfl := Option.some.inj heq
    exact ⟨.locked,rfl,by simp [WorkerPc.work,WorkerPc.after]⟩
  | locked | checking | testing =>
    rw [hpc] at hstep
    obtain rfl := Option.some.inj hstep
    refine ⟨_,rfl,?_⟩
    split <;> simp [WorkerPc.work,WorkerPc.after]
  | blocking | quitting | counted =>
    rw [hpc] at hstep
    obtain rfl := Option.some.inj hstep
    rw [h.release_eq (x := .worker i) (show (s.worker i).inside = true by simp [hpc,WorkerPc.inside])]
    exact ⟨_,rfl,by simp [WorkerPc.work,WorkerPc.after]⟩
  | taking | unlinked | counting =>
    rw [hpc] at hstep
    obtain rfl := Option.some.inj hstep
    exact ⟨_,rfl,by simp [WorkerPc.work,WorkerPc.after]⟩
  | took p =>
    rw [hpc] at hstep
    obtain rfl := Option.some.inj hstep
    obtain ⟨a,c,_,_,heq⟩ := access_eq hsafe
    rw [heq]
    exact ⟨.unlinking a c.next,rfl,by simp [WorkerPc.work,WorkerPc.after]⟩
  | holding | called | finished =>
    rw [hpc] at hstep
    obtain rfl := Option.some.inj hstep
    obtain ⟨a,c,_,_,heq⟩ := access_eq hsafe
    rw [heq]
    exact ⟨_,rfl,by simp [WorkerPc.work,WorkerPc.after]⟩
  | unlinking a p =>
    rw [hpc] at hstep hfits
    obtain rfl := Option.some.inj hstep
    -- The list has a task less, which pays for what the worker does with it.
    obtain ⟨b,q,rest,rfl,_⟩ := h.first (h.phases.running (i := i) (by simp [hpc])) hfits.2.2.1
    refine ⟨.unlinked a,rfl,?_⟩
    simp only [WorkerPc.work,WorkerPc.after,List.tail_cons,List.length_cons]
    omega

/-- The signal of a push. -/
lemma signal_work {b : Job φ α} (hpc : s.pusher j = .counted b) (woken : List (Fin n))
    (jobs : List (Job φ α)) (k : ℕ) :
    State.work { s with pc := Function.update (s.wake woken) (.pusher j) PusherPc.signalled, accepted := jobs }
      k < s.work k := by
  -- The workers wake first, and then the thread moves on.
  set s₁ : State n m φ α := { s with pc := s.wake woken } with hs₁
  set s₂ : State n m φ α := { s with
    pc := Function.update (s.wake woken) (.pusher j) PusherPc.signalled, accepted := jobs } with hs₂
  have hwoken : s₁.pc = s.wake woken := rfl
  have hmove : s₂.pc = Function.update s₁.pc (.pusher j) PusherPc.signalled := rfl
  have hwake := wake_work hwoken
  obtain ⟨hself,hother,hworker,hd⟩ := State.pusher_moves hmove
  have hpusher : s₂.pusher = Function.update s.pusher j PusherPc.signalled :=
    Function.eq_update_iff.mpr ⟨hself,hother⟩
  have hsum := total_update (PusherPc.work n) s.pusher j PusherPc.signalled
  have hd' : s₁.destroyer = s.destroyer := rfl
  rw [hpc] at hsum
  unfold State.work
  rw [hpusher,show s₂.worker = s₁.worker from funext hworker,hd,hd']
  simp only [PusherPc.work] at hsum
  omega

theorem pushing_work (h : Consistent s xs) {woken : List (Fin n)} (hstep : pushing s j woken = some s') :
    s'.work ((s.pusher j).after xs).length < s.work xs.length := by
  have hsafe := (h.pushing hstep).safe
  unfold pushing at hstep
  cases hpc : s.pusher j with
  | idle =>
    rw [hpc] at hstep
    cases hstep
  | filled b a =>
    rw [hpc] at hstep
    obtain ⟨_,heq⟩ := Option.ite_none_right_eq_some.mp hstep
    obtain rfl := Option.some.inj heq
    exact pusher_work (.locked b a) rfl (by simp [hpc,PusherPc.work,PusherPc.after])
  | locked b a =>
    rw [hpc] at hstep
    obtain rfl := Option.some.inj hstep
    exact pusher_work (.linking b a s.waitTasks) rfl (by simp [hpc,PusherPc.work,PusherPc.after])
  | linking b a p =>
    rw [hpc] at hstep
    obtain rfl := Option.some.inj hstep
    obtain ⟨c,d,hc,_,heq⟩ := access_eq hsafe
    obtain rfl := Option.some.inj hc
    rw [heq]
    exact pusher_work (.linked b a) rfl (by simp [hpc,PusherPc.work,PusherPc.after])
  | linked b a =>
    rw [hpc] at hstep
    obtain rfl := Option.some.inj hstep
    refine pusher_work (.stored b) rfl ?_
    simp only [hpc,PusherPc.work,PusherPc.after,List.length_cons]
    omega
  | stored b =>
    rw [hpc] at hstep
    obtain rfl := Option.some.inj hstep
    exact pusher_work (.counting b s.taskNums) rfl (by simp [hpc,PusherPc.work,PusherPc.after])
  | counting b c =>
    rw [hpc] at hstep
    obtain rfl := Option.some.inj hstep
    exact pusher_work (.counted b) rfl (by simp [hpc,PusherPc.work,PusherPc.after])
  | counted b =>
    rw [hpc] at hstep
    obtain ⟨_,heq⟩ := Option.ite_none_right_eq_some.mp hstep
    obtain rfl := Option.some.inj heq
    exact signal_work hpc woken _ _
  | signalled =>
    rw [hpc] at hstep
    obtain rfl := Option.some.inj hstep
    rw [h.release_eq (x := .pusher j) (show (s.pusher j).inside = true by simp [hpc,PusherPc.inside])]
    exact pusher_work .idle rfl (by simp [hpc,PusherPc.work,PusherPc.after])

/-- The broadcast. -/
lemma broadcast_work (hpc : s.destroyer = .flagged) (woken : List (Fin n)) (k : ℕ) :
    State.work { s with pc := Function.update (s.wake woken) .destroyer DestroyerPc.broadcasted } k < s.work k := by
  set s₁ : State n m φ α := { s with pc := s.wake woken } with hs₁
  set s₂ : State n m φ α :=
    { s with pc := Function.update (s.wake woken) .destroyer DestroyerPc.broadcasted } with hs₂
  have hwoken : s₁.pc = s.wake woken := rfl
  have hmove : s₂.pc = Function.update s₁.pc .destroyer DestroyerPc.broadcasted := rfl
  have hwake := wake_work hwoken
  obtain ⟨hworker,hpusher,hd⟩ := State.worker_destroyer hmove
  have hpusher' : s₂.pusher = s.pusher := funext hpusher
  unfold State.work
  rw [hpusher',show s₂.worker = s₁.worker from funext hworker,hd,hpc]
  simp only [DestroyerPc.work]
  omega

theorem threadPoolDestroy_work (h : Consistent s xs) (hstep : threadPoolDestroy s = some s') :
    s'.destroyer ≠ .idle ∧ s'.work (s.destroyer.after xs).length < s.work xs.length := by
  have hsafe := (h.threadPoolDestroy hstep).safe
  have hpath := h.path
  unfold threadPoolDestroy at hstep
  cases hpc : s.destroyer with
  | idle | done =>
    rw [hpc] at hstep
    cases hstep
  | called =>
    rw [hpc] at hstep
    obtain ⟨_,heq⟩ := Option.ite_none_right_eq_some.mp hstep
    obtain rfl := Option.some.inj heq
    exact destroyer_work .locked rfl (by simp) (by simp [hpc,DestroyerPc.work,DestroyerPc.after])
  | locked =>
    rw [hpc] at hstep
    obtain rfl := Option.some.inj hstep
    exact destroyer_work .flagged rfl (by simp) (by simp [hpc,DestroyerPc.work,DestroyerPc.after])
  | flagged =>
    rw [hpc] at hstep
    obtain rfl := Option.some.inj hstep
    refine ⟨?_,broadcast_work hpc _ _⟩
    simp [State.destroyer]
  | broadcasted =>
    rw [hpc] at hstep
    obtain rfl := Option.some.inj hstep
    rw [h.release_eq (x := .destroyer) (show s.destroyer.inside = true by simp [hpc,DestroyerPc.inside])]
    exact destroyer_work (.joining 0) rfl (by simp) (by simp [hpc,DestroyerPc.work,DestroyerPc.after])
  | joining i =>
    rw [hpc] at hstep
    simp only at hstep
    split at hstep
    · rename_i hi
      split at hstep
      · obtain rfl := Option.some.inj hstep
        refine destroyer_work (.joining (i+1)) rfl (by simp) ?_
        simp only [hpc,DestroyerPc.work,DestroyerPc.after]
        omega
      · cases hstep
    · obtain rfl := Option.some.inj hstep
      refine destroyer_work (.freeing s.waitTasks) rfl (by simp) ?_
      simp only [hpc,DestroyerPc.work,DestroyerPc.after]
      omega
  | freeing p =>
    rw [hpc] at hstep
    cases p with
    | none =>
      simp only at hstep
      split at hstep
      · obtain rfl := Option.some.inj hstep
        exact destroyer_work .done rfl (by simp) (by simp [hpc,DestroyerPc.work,DestroyerPc.after])
      · obtain rfl := Option.some.inj hstep
        cases hsafe
    | some a =>
      obtain rfl := Option.some.inj hstep
      obtain ⟨b,c,_,_,heq⟩ := access_eq hsafe
      rw [heq]
      exact destroyer_work (.dropping b c.next) rfl (by simp) (by simp [hpc,DestroyerPc.work,DestroyerPc.after])
  | dropping a p =>
    rw [hpc] at hstep
    obtain rfl := Option.some.inj hstep
    obtain ⟨b,c,_,_,heq⟩ := access_eq hsafe
    rw [heq]
    -- The list has a task less, which pays for the rest of the round.
    rw [State.head,hpc] at hpath
    cases xs with
    | nil => cases hpath
    | cons d rest =>
      refine destroyer_work (.dropped p) rfl (by simp) ?_
      simp only [hpc,DestroyerPc.work,DestroyerPc.after,List.tail_cons,List.length_cons]
      omega
  | dropped p =>
    rw [hpc] at hstep
    obtain rfl := Option.some.inj hstep
    exact destroyer_work (.counting p s.taskNums) rfl (by simp) (by simp [hpc,DestroyerPc.work,DestroyerPc.after])
  | counting p c =>
    rw [hpc] at hstep
    obtain rfl := Option.some.inj hstep
    exact destroyer_work (.freeing p) rfl (by simp) (by simp [hpc,DestroyerPc.work,DestroyerPc.after])

/-- Every access uses up work. -/
theorem step_work (h : Consistent s xs) {e : Event n m φ α} (he : e.Access) (hstep : step s e = some s') :
    s'.work (s.listed xs e).length < s.work xs.length := by
  cases e with
  | worker i =>
    rw [h.worker_eq] at hstep
    obtain ⟨pc,hmove,hlt⟩ := threadLoop_work h hstep
    exact worker_work pc hmove hlt
  | pusher j woken =>
    rw [h.pusher_eq] at hstep
    exact pushing_work h hstep
  | destroyer => exact (threadPoolDestroy_work h hstep).2
  | wake | push | destroy => exact he.elim

/-- While `jk_thread_pool_destroy` is under way nobody pushes, and it is not forgotten. -/
lemma step_destroying (h : Consistent s xs) {e : Event n m φ α} (he : e.Access) (hd : s.destroyer ≠ .idle)
    (hstep : step s e = some s') : s'.destroyer ≠ .idle := by
  cases e with
  | worker i =>
    rw [h.worker_eq] at hstep
    obtain ⟨pc,hmove,_⟩ := threadLoop_work h hstep
    rw [State.destroyer_worker hmove]
    exact hd
  | pusher j woken => simp [step,pushing,h.phases.quiet hd j] at hstep
  | destroyer => exact (threadPoolDestroy_work h hstep).1
  | wake | push | destroy => exact he.elim

end Steps

/-! ### Rest -/

/-- The step with the list beside the pool. -/
def listStep (p : State n m φ α × List (ℕ × Job φ α)) (e : Event n m φ α) :
    Option (State n m φ α × List (ℕ × Job φ α)) := (step p.1 e).map fun s' => (s',p.1.listed p.2 e)

section Rest
variable {s s' : State n m φ α} {xs xs' : List (ℕ × Job φ α)}

lemma listStep_eq {e : Event n m φ α} (hstep : listStep (s,xs) e = some (s',xs')) :
    step s e = some s' ∧ xs' = s.listed xs e := by
  obtain ⟨t,ht,heq⟩ := Option.map_eq_some_iff.mp hstep
  obtain ⟨rfl,rfl⟩ := Prod.ext_iff.mp heq
  exact ⟨ht,rfl⟩

/-- The runs are the same with the list and without it. -/
lemma run_listStep (s : State n m φ α) (xs : List (ℕ × Job φ α)) (es : List (Event n m φ α)) :
    (run listStep (s,xs) es).map Prod.fst = run step s es := by
  induction es generalizing s xs with
  | nil => rfl
  | cons e es ih =>
    simp only [run,listStep]
    cases step s e with
    | none => rfl
    | some t => exact ih t _

lemma stuck_iff : Stuck s ↔ Rests step (fun _ e => e.Access) s := by
  constructor
  · intro ⟨hworker,hpusher,hdestroyer⟩ e he
    cases e with
    | worker i => exact hworker i
    | pusher j woken => exact hpusher j woken
    | destroyer => exact hdestroyer
    | wake | push | destroy => exact he.elim
  · intro h
    exact ⟨fun i => h (.worker i) trivial,fun j woken => h (.pusher j woken) trivial,h .destroyer trivial⟩

lemma stuck_of_rests (h : Rests listStep (fun _ e => e.Access) (s,xs)) : Stuck s :=
  stuck_iff.mpr fun e he => Option.map_eq_none_iff.mp (h e he)

/-- The accesses come to an end, and the call of `jk_thread_pool_destroy` is not taken back. -/
theorem pool_settles (h : Consistent s xs) :
    (∃ ws s', (∀ e ∈ ws, e.Access) ∧ run step s ws = some s' ∧ Stuck s') ∧
      ∀ ws s', (∀ e ∈ ws, e.Access) → run step s ws = some s' →
        ws.length ≤ s.work xs.length ∧ (s.destroyer ≠ .idle → s'.destroyer ≠ .idle) := by
  let P (p : State n m φ α × List (ℕ × Job φ α)) : Prop :=
    Consistent p.1 p.2 ∧ (s.destroyer ≠ .idle → p.1.destroyer ≠ .idle)
  have hkeeps : ∀ p e p', P p → e.Access → listStep p e = some p' → P p' := by
    intro p e p' ⟨hp,hd⟩ he hstep
    obtain ⟨hstep',hlist⟩ := listStep_eq hstep
    refine ⟨?_,fun hs => step_destroying hp he (hd hs) hstep'⟩
    rw [hlist]
    exact hp.step hstep'
  have hwork : ∀ p e p', P p → e.Access → listStep p e = some p' →
      p'.1.work p'.2.length < p.1.work p.2.length := by
    intro p e p' ⟨hp,_⟩ he hstep
    obtain ⟨hstep',hlist⟩ := listStep_eq hstep
    rw [hlist]
    exact step_work hp he hstep'
  have hstart : P (s,xs) := ⟨h,id⟩
  constructor
  · obtain ⟨ws,⟨s',xs'⟩,hall,hrun,hrest⟩ := exists_run_rests hkeeps hwork hstart
    refine ⟨ws,s',(always_const_iff hrun).mp hall,?_,stuck_of_rests hrest⟩
    rw [← run_listStep s xs ws,hrun]
    rfl
  · intro ws s' hws hrun
    rw [← run_listStep s xs ws] at hrun
    obtain ⟨p,hrun',rfl⟩ := Option.map_eq_some_iff.mp hrun
    have hall := (always_const_iff hrun').mpr hws
    obtain ⟨_,hd⟩ := run_invariant_when hkeeps hstart hrun' hall
    have hle := run_length_le hkeeps hwork hstart hrun' hall
    exact ⟨(Nat.le_add_right _ _).trans hle,hd⟩

end Rest

/-- When nobody calls and no worker wakes up without a signal, the threads come to rest, in whatever order they
run: the tasks in the list and the places where the threads are bound the number of accesses that can follow. If
`jk_thread_pool_destroy` is under way, it has returned then. -/
theorem threads_come_to_rest (es : List (Event n m φ α)) (s : State n m φ α)
    (hrun : run step (start n m φ α) es = some s) :
    ∃ xs, Path s.tasks s.head xs none ∧
      (∃ ws s', (∀ e ∈ ws, e.Access) ∧ run step s ws = some s' ∧ Stuck s') ∧
      ∀ ws s', (∀ e ∈ ws, e.Access) → run step s ws = some s' →
        ws.length ≤ s.work xs.length ∧ (s.destroyer ≠ .idle → Stuck s' → s'.destroyer = .done) := by
  obtain ⟨_,_,_,xs,h,_⟩ := run_refines hrun
  obtain ⟨hrest,hbound⟩ := pool_settles h
  refine ⟨xs,h.path,hrest,fun ws s' hws hrun' => ?_⟩
  obtain ⟨hle,hkept⟩ := hbound ws s' hws hrun'
  refine ⟨hle,fun hd hstuck => ?_⟩
  have hall : run step (start n m φ α) (es++ws) = some s' := by
    rw [run_append,hrun]
    exact hrun'
  obtain ⟨ds,t,hds,_,h',hm⟩ := run_refines hall
  have hclosing : Closing t := run_invariant (fun _ _ _ h hstep => h.step hstep) threadPoolNew_closing
    (run_strict hds).1
  exact (hstuck.destroyer h' hm hclosing).resolve_left (hkept hd)

lemma busyRun_destroys : (run step (start 2 2 ℕ ℕ) ((busyRun 0 1 0 1).take 50)).isSome := by decide +kernel

theorem threads_come_to_rest_busy : ∃ s, run step (start 2 2 ℕ ℕ) ((busyRun 0 1 0 1).take 50) = some s ∧
    s.destroyer ≠ .idle ∧ s.destroyer ≠ .done ∧
    ∃ xs, Path s.tasks s.head xs none ∧
    (∃ ws s', (∀ e ∈ ws, e.Access) ∧ run step s ws = some s' ∧ Stuck s') ∧
      ∀ ws s', (∀ e ∈ ws, e.Access) → run step s ws = some s' →
        ws.length ≤ s.work xs.length ∧ (s.destroyer ≠ .idle → Stuck s' → s'.destroyer = .done) := by
  have hrun := (Option.some_get busyRun_destroys).symm
  exact ⟨_,hrun,by decide +kernel,by decide +kernel,threads_come_to_rest ((busyRun 0 1 0 1).take 50) _ hrun⟩

end JustKit.Pool.Threads
