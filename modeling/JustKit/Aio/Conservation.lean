import JustKit.Aio.Steps

/-! No request is lost, duplicated or completed twice, in any run. -/
namespace JustKit.Aio
open Foundations Foundations.Transition Foundations.LinkedList
variable {n m : ℕ} {ψ : Type} {s s' : State n m ψ} {list : List ℕ}

/-- A worker that is woken, takes a task or frees one holds the same requests as before. -/
lemma Sound.poolStep (h : Sound s list) {e : Pool.Event n Fn ℕ} {pool : Pool.State n Fn ℕ} {i : Fin n}
    (hp : Pool.step s.pool e = some pool) (he : e = .wake i ∨ e = .lock i ∨ e = .free i) :
    Sound { s with pool := pool } list := h.quiet (h.pool.step hp) ((Pool.step_cases hp).quiet he)

/-- The tasks of the requests name their functions. -/
lemma Sound.called (h : Sound s list) {i : Fin n} {t : Pool.Task Fn ℕ} (hpc : (s.pool.workers i).pc = .called t) :
    t.finish = some .fininsh :=
  (h.tasks t (Pool.mem_load (Or.inr hpc))).2

/-- One event keeps the requests sound. -/
theorem Sound.step (h : Sound s list) {e : Event n m ψ} (hstep : Aio.step s e = some s') :
    ∃ list', Sound s' list' := by
  cases step_cases hstep with
  | submit hroom => exact ⟨list,h.request _ _ hroom⟩
  | push hr => exact ⟨list,h.push hr _ _⟩
  | rollback hr => exact ⟨list,h.rollback hr⟩
  | wake hp => exact ⟨list,h.poolStep hp (Or.inl rfl)⟩
  | lock hp => exact ⟨list,h.poolStep hp (Or.inr (Or.inl rfl))⟩
  | free hp => exact ⟨list,h.poolStep hp (Or.inr (Or.inr rfl))⟩
  | @call i result error t pool hpc hp =>
    have hpool : Pool.step s.pool (.call i) =
        some (s.pool.setWorker i ⟨.called t,(s.pool.workers i).log++[.call t]⟩) := by
      simp [Pool.step,hpc]
    exact ⟨list,h.execute hpc (h.pool.step hp) (Option.some.inj (hp.symm.trans hpool)) result error⟩
  | @finish i t pool f hpc hf hp =>
    have hpool : Pool.step s.pool (.finish i) =
        some (s.pool.setWorker i ⟨.finished t,(s.pool.workers i).log++t.finishing⟩) := by
      simp [Pool.step,hpc]
    obtain rfl : f = .fininsh := Option.some.inj (hf.symm.trans (h.called hpc))
    exact ⟨_,h.fininsh hpc (h.pool.step hp) (Option.some.inj (hp.symm.trans hpool)) 0 0⟩
  | noFinish hpc hf => cases hf.symm.trans (h.called hpc)
  | noInput => exact ⟨list,h⟩
  | select hj => exact ⟨list,h.setThread (by simp [hj,Thread.holds,Thread.past]) ⟨rfl,rfl⟩⟩
  | @read j count hj =>
    have hb : (s.threads j).holds = 0 ∧ (s.threads j).past = 0 := by simp [hj,Thread.holds,Thread.past]
    exact ⟨list,{ h.setThread (t := .reading (count+1)) hb ⟨rfl,rfl⟩ with }⟩
  | @readAll j count hj =>
    have hb : (s.threads j).holds = 0 ∧ (s.threads j).past = 0 := by simp [hj,Thread.holds,Thread.past]
    exact ⟨list,{ h.setThread (t := .idle) hb ⟨rfl,rfl⟩ with }⟩
  | poll hj => exact ⟨list,h.setThread (by simp [hj,Thread.holds,Thread.past]) ⟨rfl,rfl⟩⟩
  | dequeue hj => exact h.pollSection hj
  | callback hj => exact ⟨list,h.callback hj⟩
  | destory hj => exact ⟨list,h.destory hj⟩

theorem run_sound {capacity : ℕ} {es : List (Event n m ψ)}
    (hrun : run Aio.step (aioInit n m ψ capacity) es = some s) :
    ∃ list, Sound s list := by
  apply run_invariant (P := fun s => ∃ list, Sound s list) _ ⟨[],aioInit_sound n m ψ capacity⟩ hrun
  rintro s e s' ⟨list,h⟩ hstep
  exact h.step hstep

/-- The requests in the task list of the pool. -/
def State.waiting (s : State n m ψ) : Multiset ℕ :=
  ((s.pool.waitTasks.map Pool.Task.arg : List ℕ) : Multiset ℕ)

/-- The requests that the workers hold. -/
def State.held (s : State n m ψ) : Multiset ℕ :=
  (total (fun w : Pool.Worker (Pool.Task Fn ℕ) => w.pc.inHand) s.pool.workers).map Pool.Task.arg

section Sound
variable (h : Sound s list)
include h

/-- Every request counted is in one place. -/
theorem Sound.places : (s.counted : Multiset ℕ) =
    s.submitting+s.refused+s.waiting+s.held+list+s.dequeued := by
  rw [h.counted,h.order,Pool.State.load,Multiset.map_add,Multiset.map_coe,← Multiset.coe_add,
    State.waiting,State.held]
  abel

lemma Sound.underway_le : (s.executed : Multiset ℕ) ≤ s.counted := by
  have hle : s.pool.underway ≤ s.pool.load := by
    apply le_trans _ (Multiset.le_add_left _ _)
    apply total_le
    intro i
    cases (s.pool.workers i).pc <;> simp [Pool.Pc.underway,Pool.Pc.inHand]
  rw [h.executed,h.counted]
  exact Multiset.add_le_add_right ((Multiset.map_le_map hle).trans (Multiset.le_add_left _ _))

/-- A request called back has been dequeued, and so executed. -/
lemma Sound.callbacks_le : (s.callbacks : Multiset ℕ) ≤ s.dequeued ∧
    (s.dequeued : Multiset ℕ) ≤ s.executed := by
  constructor
  · rw [h.dequeued]
    apply h.callbacks.trans
    apply Multiset.add_le_add_right
    apply total_le
    intro j
    cases s.threads j <;> simp [Thread.past,Thread.holds]
  · rw [h.executed,h.order,← Multiset.coe_add,add_left_comm]
    exact Multiset.le_add_right _ _

theorem Sound.pending : s.dequeued.length ≤ s.counted.length ∧
    (s.nreqs-s.ncoms).toNat = s.counted.length-s.dequeued.length := by
  have hle : s.dequeued.length ≤ s.counted.length :=
    Multiset.card_le_card ((h.callbacks_le.2).trans h.underway_le)
  refine ⟨hle,?_⟩
  rw [h.nreqs,h.ncoms,← UInt64.ofNat_sub hle,UInt64.toNat_ofNat',Nat.mod_eq_of_lt h.room]

end Sound

/-- In every run every request that is counted and not rolled back is in exactly one place; it is
executed at most once, and called back at most once and not before; the requests are dequeued in the
order in which they were appended; the head and the tail pointer belong to the list of the others; and
`nreqs-ncoms` is the number of requests not dequeued. No thread touches released memory. -/
theorem aio_conserved (capacity : ℕ) (es : List (Event n m ψ)) (s : State n m ψ)
    (hrun : run step (aioInit n m ψ capacity) es = some s) :
    s.fault = false ∧ (∀ i, (s.pool.workers i).pc ≠ .faulted) ∧ ∃ list : List ℕ,
      (s.counted.Nodup ∧
        (s.counted : Multiset ℕ) = s.submitting+s.refused+s.waiting+s.held+list+s.dequeued) ∧
      (s.executed.Nodup ∧ s.callbacks.Nodup ∧ ∀ r ∈ s.callbacks, r ∈ s.executed) ∧
      s.appended = s.dequeued++list ∧ Queue (nextOf s.reqs) s.rhead s.rtail list ∧
      (s.rhead = none ↔ s.rtail = none) ∧
      s.dequeued.length ≤ s.counted.length ∧ (s.nreqs-s.ncoms).toNat = s.counted.length-s.dequeued.length := by
  obtain ⟨list,h⟩ := run_sound hrun
  obtain ⟨hcall,hdeq⟩ := h.callbacks_le
  have hexec : s.executed.Nodup :=
    Multiset.coe_nodup.mp (Multiset.nodup_of_le h.underway_le (Multiset.coe_nodup.mpr h.nodup))
  have hback : s.callbacks.Nodup :=
    Multiset.coe_nodup.mp (Multiset.nodup_of_le (hcall.trans hdeq) (Multiset.coe_nodup.mpr hexec))
  exact ⟨h.fault,h.pool.safe,list,⟨h.nodup,h.places⟩,
    ⟨hexec,hback,fun r hr => Multiset.mem_coe.mp (Multiset.mem_of_le (hcall.trans hdeq) hr)⟩,
    h.order,h.queue,h.queue.empty_iff,h.pending⟩

/-- Three requests, of which one is refused; thread `j` polls one while the other is under way. -/
def pollingRun (i i' : Fin n) (j : Fin m) : List (Event n m ℕ) :=
  [.submit .read (some 7),.submit .write none,.push 0 true [],.push 1 false [],.submit .close (some 8),.rollback 1,
    .push 2 true [],.lock i,.lock i',.call i 5 0,.finish i,.call i' 0 0,.poll j,.dequeue j,.finish i',.callback j,
    .destory j,.free i,.dequeue j,.callback j]

lemma pollingRun_ends : (run step (aioInit 2 1 ℕ 1) (pollingRun 0 1 0)).isSome := by decide +kernel

theorem aio_conserved_polling : ∃ s, run step (aioInit 2 1 ℕ 1) (pollingRun 0 1 0) = some s ∧
    s.callbacks = [2,0] ∧ s.fault = false ∧ (∀ i, (s.pool.workers i).pc ≠ .faulted) ∧
    ∃ list : List ℕ,
      (s.counted.Nodup ∧
        (s.counted : Multiset ℕ) = s.submitting+s.refused+s.waiting+s.held+list+s.dequeued) ∧
      (s.executed.Nodup ∧ s.callbacks.Nodup ∧ ∀ r ∈ s.callbacks, r ∈ s.executed) ∧
      s.appended = s.dequeued++list ∧ Queue (nextOf s.reqs) s.rhead s.rtail list ∧
      (s.rhead = none ↔ s.rtail = none) ∧
      s.dequeued.length ≤ s.counted.length ∧ (s.nreqs-s.ncoms).toNat = s.counted.length-s.dequeued.length := by
  have hrun := (Option.some_get pollingRun_ends).symm
  exact ⟨_,hrun,by decide +kernel,aio_conserved 1 (pollingRun 0 1 0) _ hrun⟩

end JustKit.Aio
