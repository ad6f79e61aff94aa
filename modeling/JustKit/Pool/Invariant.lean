import JustKit.Pool.Model

/-! What holds of the pool in every state: no task is lost or in two places, and what every worker has
done is a sequence of complete treatments of tasks and at most one incomplete one. -/
namespace JustKit.Pool
open Foundations Foundations.Transition
variable {n : ℕ} {φ α τ : Type}

/-- The task that a worker has taken and not called yet. -/
def Pc.untouched : Pc τ → Multiset τ
  | .holding t => {t}
  | _ => 0

def calledTasks (log : List (Action τ)) : List τ :=
  log.filterMap fun a => match a with | .call t => some t | _ => none

/-- The tasks that a worker has taken. -/
def Worker.account (w : Worker τ) : Multiset τ := w.pc.untouched+(calledTasks w.log : List τ)

/-- The whole treatment of a task. -/
def Task.treatment (t : Task φ α) : List (Action (Task φ α)) := .call t::t.finishing++[.free t]

/-- What has been done to the task in hand. -/
def Pc.begun : Pc (Task φ α) → List (Action (Task φ α))
  | .called t => [.call t]
  | .finished t => .call t::t.finishing
  | _ => []

/-- A worker treats one task after the other: a call, at once the finish on the same task, the release. -/
def Worker.Orderly (w : Worker (Task φ α)) : Prop :=
  ∃ done : List (Task φ α), w.log = done.flatMap Task.treatment++w.pc.begun

/-- The workers that `jk_thread_pool_destroy` has joined. -/
def Destroy.Joined : Destroy → ℕ → Prop
  | .idle,_ => False
  | .joining k,i => i < k
  | .freeing,_ => True
  | .done,_ => True

structure Sound (s : State n φ α) : Prop where
  count : s.taskNums = wrap 32 s.waitTasks.length
  safe : ∀ i, (s.workers i).pc ≠ .faulted
  orderly : ∀ i, (s.workers i).Orderly
  conserved : (s.accepted : Multiset (Task φ α)) = s.waitTasks+total Worker.account s.workers+s.freed
  serials : s.accepted.map Task.serial = List.range s.accepted.length
  joined : ∀ i : Fin n, s.destroy.Joined i → (s.workers i).pc = .exited
  done : s.destroy = .done → s.waitTasks = []

theorem threadPoolNew_sound : Sound (threadPoolNew n φ α) where
  count := show (0 : ℤ) = wrap 32 0 by decide
  safe _ := by simp [threadPoolNew]
  orderly _ := ⟨[],rfl⟩
  conserved := by
    have hzero : total Worker.account (threadPoolNew n φ α).workers = 0 := total_eq_zero _ fun _ => rfl
    rw [hzero]
    rfl
  serials := rfl
  joined _ hi := hi.elim
  done hd := nomatch hd

/-- A wake-up changes neither what a worker has taken nor what it has done. -/
lemma wake_account (w : Worker τ) : w.wake.account = w.account := by
  obtain ⟨pc,log⟩ := w
  cases pc <;> rfl

lemma wake_orderly {w : Worker (Task φ α)} (h : w.Orderly) : w.wake.Orderly := by
  obtain ⟨pc,log⟩ := w
  cases pc <;> exact h

lemma wake_safe {w : Worker τ} (h : w.pc ≠ .faulted) : w.wake.pc ≠ .faulted := by
  obtain ⟨pc,log⟩ := w
  cases pc <;> simp_all [Worker.wake]

lemma wake_exited {w : Worker τ} (h : w.pc = .exited) : w.wake.pc = .exited := by
  simp [Worker.wake,h]

section Steps
variable {s : State n φ α} (h : Sound s)
include h

/-- The workers move, and none takes a task. -/
lemma Sound.move {ws : Fin n → Worker (Task φ α)}
    (hacc : total Worker.account ws = total Worker.account s.workers)
    (hsafe : ∀ i, (ws i).pc ≠ .faulted) (hord : ∀ i, (ws i).Orderly)
    (hexit : ∀ i, (s.workers i).pc = .exited → (ws i).pc = .exited) : Sound { s with workers := ws } :=
  ⟨h.count,hsafe,hord,by rw [h.conserved,← hacc],h.serials,fun i hi => hexit i (h.joined i hi),h.done⟩

/-- Some waiting workers wake up. -/
lemma Sound.wake (p : Fin n → Prop) [DecidablePred p] :
    Sound { s with workers := fun i => if p i then (s.workers i).wake else s.workers i } := by
  apply h.move
  · apply total_congr
    intro i
    split
    · exact wake_account _
    · rfl
  · intro i
    split
    · exact wake_safe (h.safe i)
    · exact h.safe i
  · intro i
    split
    · exact wake_orderly (h.orderly i)
    · exact h.orderly i
  · intro i hi
    split
    · exact wake_exited hi
    · exact hi

lemma Sound.setWorker {i : Fin n} {w : Worker (Task φ α)} (hacc : w.account = (s.workers i).account)
    (hsafe : w.pc ≠ .faulted) (hord : w.Orderly) (hexit : (s.workers i).pc ≠ .exited) :
    Sound (s.setWorker i w) := by
  apply h.move
  · exact total_update_same Worker.account s.workers i hacc
  all_goals
    intro j
    by_cases hj : j = i
    · subst hj
      simp [hsafe,hord,hexit]
    · simp [hj,h.safe j,h.orderly j]

/-- The worker has no task in hand, before and after. -/
lemma Sound.setPc {i : Fin n} {pc : Pc (Task φ α)} (hexit : (s.workers i).pc ≠ .exited)
    (hb : (s.workers i).pc.untouched = 0 ∧ (s.workers i).pc.begun = []) (ha : pc.untouched = 0 ∧ pc.begun = [])
    (hsafe : pc ≠ .faulted) : Sound (s.setPc i pc) := by
  apply h.setWorker
  · simp [Worker.account,hb.1,ha.1]
  · exact hsafe
  · have hord := h.orderly i
    rwa [Worker.Orderly,hb.2,← ha.2] at hord
  · exact hexit

lemma Sound.push (call : φ) (arg : α) (finish : Option φ) (malloc : Bool) (woken : List (Fin n))
    (hidle : s.destroy = .idle) : Sound (threadPoolPush s call arg finish malloc woken).1 := by
  cases malloc with
  | false => exact h
  | true =>
    have hw := h.wake (· ∈ woken)
    refine ⟨?_,hw.safe,hw.orderly,?_,?_,fun i hi => hw.joined i hi,fun hd => nomatch hidle.symm.trans hd⟩
    · simp only [threadPoolPush,if_true,List.length_cons,h.count,wrap_wrap_add]
      push_cast
      rfl
    · have hc := hw.conserved
      simp only [threadPoolPush,if_true,← Multiset.coe_add,← Multiset.cons_coe,
        ← Multiset.singleton_add,Multiset.coe_nil,add_zero] at hc ⊢
      rw [hc]
      abel
    · simp [threadPoolPush,h.serials,List.range_succ]

/-- A worker takes the first task. -/
lemma Sound.take {i : Fin n} {t : Task φ α} {rest : List (Task φ α)} (hw : s.waitTasks = t::rest)
    (hpc : (s.workers i).pc = .top ∨ (s.workers i).pc = .woken) : Sound { s.setPc i (.holding t) with
      waitTasks := rest, taskNums := wrap 32 (s.taskNums-1), taken := s.taken++[t] } := by
  have hupdate := total_update Worker.account s.workers i ⟨.holding t,(s.workers i).log⟩
  have hone : ∀ j, (Function.update s.workers i ⟨.holding t,(s.workers i).log⟩ j).pc ≠ .faulted ∧
      (Function.update s.workers i ⟨.holding t,(s.workers i).log⟩ j).Orderly ∧
      (s.destroy.Joined j → (Function.update s.workers i ⟨.holding t,(s.workers i).log⟩ j).pc = .exited) := by
    intro j
    by_cases hj : j = i
    · subst hj
      have hord := h.orderly j
      have hne : ¬ s.destroy.Joined j := fun hd => by simp [h.joined j hd] at hpc
      rcases hpc with hpc | hpc <;> simpa [Worker.Orderly,hpc,Pc.begun,hne] using hord
    · simpa [hj] using ⟨h.safe j,h.orderly j,h.joined j⟩
  refine ⟨?_,fun j => (hone j).1,fun j => (hone j).2.1,?_,h.serials,fun j => (hone j).2.2,fun hd => ?_⟩
  · rw [h.count,hw,wrap_wrap_sub]
    simp
  · have hin : total Worker.account (Function.update s.workers i ⟨.holding t,(s.workers i).log⟩) =
        total Worker.account s.workers+{t} := by
      have hnew : Worker.account ⟨.holding t,(s.workers i).log⟩ = {t}+(s.workers i).account := by
        rcases hpc with hpc | hpc <;> simp [Worker.account,hpc,Pc.untouched]
      rw [hnew,← add_assoc] at hupdate
      exact add_right_cancel hupdate
    have hc := h.conserved
    rw [hw,← Multiset.cons_coe,← Multiset.singleton_add] at hc
    change (s.accepted : Multiset (Task φ α)) = rest+total Worker.account
      (Function.update s.workers i ⟨.holding t,(s.workers i).log⟩)+s.freed
    rw [hc,hin]
    abel
  · exact nomatch hw.symm.trans (h.done hd)

lemma Sound.lockSection {i : Fin n} (hpc : (s.workers i).pc = .top ∨ (s.workers i).pc = .woken) :
    Sound (threadLoopSection s i) := by
  have hexit : (s.workers i).pc ≠ .exited := by
    rcases hpc with hpc | hpc <;> simp [hpc]
  have hb : (s.workers i).pc.untouched = 0 ∧ (s.workers i).pc.begun = [] := by
    rcases hpc with hpc | hpc <;> simp [hpc,Pc.untouched,Pc.begun]
  unfold threadLoopSection
  split
  · exact h.setPc hexit hb ⟨rfl,rfl⟩ (by simp)
  · split
    · exact h.setPc hexit hb ⟨rfl,rfl⟩ (by simp)
    · rename_i _ hpos
      split
      · rename_i hw
        -- The counter is positive, so the list is not empty.
        have hcount := h.count
        rw [hw] at hcount
        have hzero : wrap 32 0 = 0 := by decide
        exact absurd (hcount.trans hzero).le hpos
      · rename_i t rest hw
        exact h.take hw hpc

/-- A worker goes on with the task in hand. -/
lemma Sound.proceed {i : Fin n} {pc : Pc (Task φ α)} {a : List (Action (Task φ α))}
    (hexit : (s.workers i).pc ≠ .exited) (hsafe : pc ≠ .faulted)
    (hacc : pc.untouched+(calledTasks a : List (Task φ α)) = (s.workers i).pc.untouched)
    (hord : ∃ done : List (Task φ α), (s.workers i).pc.begun++a = done.flatMap Task.treatment++pc.begun) :
    Sound (s.setWorker i ⟨pc,(s.workers i).log++a⟩) := by
  apply h.setWorker
  · rw [Worker.account,Worker.account,← hacc]
    simp only [calledTasks,List.filterMap_append,← Multiset.coe_add]
    abel
  · exact hsafe
  · obtain ⟨done,hd⟩ := h.orderly i
    obtain ⟨done',hd'⟩ := hord
    exact ⟨done++done',by rw [hd,List.append_assoc,hd',List.flatMap_append,List.append_assoc]⟩
  · exact hexit

/-- One event keeps the pool sound. -/
theorem Sound.step {s' : State n φ α} {e : Event n φ α} (hstep : Pool.step s e = some s') : Sound s' := by
  cases step_cases hstep with
  | push hidle => exact h.push _ _ _ _ _ hidle
  | wake hpc => exact h.setPc (by simp [hpc]) (by simp [hpc,Pc.untouched,Pc.begun]) ⟨rfl,rfl⟩ (by simp)
  | lock hpc => exact h.lockSection hpc
  | @call i t hpc =>
    apply h.proceed
    · simp [hpc]
    · simp
    · simp [hpc,Pc.untouched,calledTasks]
    · exact ⟨[],by simp [hpc,Pc.begun]⟩
  | @finish i t hpc =>
    apply h.proceed
    · simp [hpc]
    · simp
    · cases hf : t.finish <;> simp [hpc,Pc.untouched,calledTasks,Task.finishing,hf]
    · exact ⟨[],by simp [hpc,Pc.begun]⟩
  | @free i t hpc =>
    apply h.proceed
    · simp [hpc]
    · simp
    · simp [hpc,Pc.untouched,calledTasks]
    · exact ⟨[t],by simp [hpc,Pc.begun,Task.treatment]⟩
  | quit hidle =>
    have hw := h.wake fun _ => True
    exact ⟨hw.count,hw.safe,hw.orderly,hw.conserved,hw.serials,fun i hi => absurd hi (Nat.not_lt_zero _),
      fun hd => nomatch hd⟩
  | @joinOne i hd hpc =>
    refine ⟨h.count,h.safe,h.orderly,h.conserved,h.serials,fun j hj => ?_,fun hd => nomatch hd⟩
    change (j : ℕ) < i+1 at hj
    by_cases hji : j = i
    · rw [hji,hpc]
    · apply h.joined j
      rw [hd]
      change (j : ℕ) < i
      omega
  | @joinAll i hd hi =>
    refine ⟨h.count,h.safe,h.orderly,h.conserved,h.serials,fun j _ => ?_,fun hd => nomatch hd⟩
    apply h.joined j
    rw [hd]
    exact j.isLt.trans_le hi
  | @freeOne t rest hd hw =>
    refine ⟨?_,h.safe,h.orderly,?_,h.serials,h.joined,fun he => nomatch hd.symm.trans he⟩
    · rw [h.count,hw,wrap_wrap_sub]
      simp
    · have hc := h.conserved
      rw [hw,← Multiset.cons_coe,← Multiset.singleton_add] at hc
      rw [hc,← Multiset.coe_add,Multiset.coe_singleton]
      abel
  | freeAll hd hw =>
    exact ⟨h.count,h.safe,h.orderly,h.conserved,h.serials,fun j _ => h.joined j (by rw [hd]; trivial),
      fun _ => hw⟩

end Steps

/-- Every state of every run is sound. -/
theorem run_sound {s : State n φ α} {es : List (Event n φ α)}
    (hrun : run Pool.step (threadPoolNew n φ α) es = some s) : Sound s :=
  run_invariant (fun _ _ _ h hstep => h.step hstep) threadPoolNew_sound hrun

end JustKit.Pool
