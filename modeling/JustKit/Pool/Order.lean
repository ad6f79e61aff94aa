import JustKit.Pool.ExactlyOnce

/-! The order in which the tasks are served. A task is pushed before the first one and the first one is taken, so
that among the tasks that wait the newest is served first. -/
namespace JustKit.Pool
open Foundations Foundations.Transition
variable {n : ℕ} {φ α τ : Type}

/-- The task that a worker has taken and not called yet, as a list. -/
def Pc.held : Pc τ → List τ
  | .holding t => [t]
  | _ => []

/-- The tasks that a worker has taken, in the order in which it calls them. -/
def Worker.tasks (w : Worker τ) : List τ := calledTasks w.log++w.pc.held

/-- A worker that takes a task takes the only one that waits. -/
def TakesOnly (s : State n φ α) : Event n φ α → Prop
  | .lock _ => s.quitFlag = false → 0 < s.taskNums → s.waitTasks.length = 1
  | _ => True

/-- The waiting tasks are in the order of pushes, the newest first, and each worker calls its tasks in the order
in which it has taken them. -/
structure Served (s : State n φ α) : Prop where
  flag : s.destroy ≠ .idle → s.quitFlag = true
  kept : s.quitFlag = false → s.freed = []
  waiting : s.waitTasks.reverse.Sublist s.accepted
  taken : (s.taken : Multiset (Task φ α)) = total Worker.account s.workers
  tasks : ∀ i, (s.workers i).tasks.Sublist s.taken

lemma tasks_account (w : Worker τ) : (w.tasks : Multiset τ) = w.account := by
  obtain ⟨pc,log⟩ := w
  cases pc <;> simp [Worker.tasks,Worker.account,Pc.held,Pc.untouched,← Multiset.coe_add,add_comm]

lemma wake_tasks (w : Worker τ) : w.wake.tasks = w.tasks := by
  obtain ⟨pc,log⟩ := w
  cases pc <;> rfl

theorem threadPoolNew_served : Served (threadPoolNew n φ α) where
  flag hne := absurd rfl hne
  kept _ := rfl
  waiting := List.Sublist.slnil
  taken := (total_eq_zero _ fun _ => rfl).symm
  tasks _ := List.Sublist.slnil

section Steps
variable {s s' : State n φ α} {e : Event n φ α} (h : Served s)
include h

/-- The workers move, and none takes a task. -/
lemma Served.move {ws : Fin n → Worker (Task φ α)} (htasks : ∀ i, (ws i).tasks = (s.workers i).tasks) :
    Served { s with workers := ws } := by
  refine ⟨h.flag,h.kept,h.waiting,?_,?_⟩
  · rw [h.taken]
    apply Eq.symm
    apply total_congr
    intro i
    rw [← tasks_account,htasks i,tasks_account]
  · intro i
    rw [htasks i]
    exact h.tasks i

lemma Served.setWorker {i : Fin n} {w : Worker (Task φ α)} (hw : w.tasks = (s.workers i).tasks) :
    Served (s.setWorker i w) := by
  apply h.move
  intro j
  by_cases hj : j = i
  · rw [hj,Function.update_self,hw]
  · rw [Function.update_of_ne hj]

lemma Served.setPc {i : Fin n} {pc : Pc (Task φ α)} (hpc : pc.held = (s.workers i).pc.held) :
    Served (s.setPc i pc) := by
  apply h.setWorker
  rw [Worker.tasks,Worker.tasks,hpc]

/-- A worker takes the first task. -/
lemma Served.take {i : Fin n} {t : Task φ α} {rest : List (Task φ α)} (hw : s.waitTasks = t::rest)
    (hpc : (s.workers i).pc.held = []) : Served { s.setPc i (.holding t) with
      waitTasks := rest, taskNums := wrap 32 (s.taskNums-1), taken := s.taken++[t] } := by
  have hold : (s.workers i).tasks = calledTasks (s.workers i).log := by
    rw [Worker.tasks,hpc,List.append_nil]
  have hnew : Worker.tasks ⟨.holding t,(s.workers i).log⟩ = (s.workers i).tasks++[t] := by
    rw [hold]
    rfl
  refine ⟨h.flag,h.kept,?_,?_,?_⟩
  · have hwaiting := h.waiting
    rw [hw,List.reverse_cons] at hwaiting
    exact (List.sublist_append_left rest.reverse [t]).trans hwaiting
  · have hupdate := total_update Worker.account s.workers i ⟨.holding t,(s.workers i).log⟩
    have haccount : Worker.account ⟨.holding t,(s.workers i).log⟩ = {t}+(s.workers i).account := by
      rw [← tasks_account,hnew,← Multiset.coe_add,tasks_account,add_comm]
      rfl
    rw [haccount,← add_assoc,← h.taken] at hupdate
    exact (add_right_cancel hupdate).symm
  · intro j
    change (Function.update s.workers i ⟨.holding t,(s.workers i).log⟩ j).tasks.Sublist (s.taken++[t])
    by_cases hj : j = i
    · rw [hj,Function.update_self,hnew]
      exact (h.tasks i).append_right [t]
    · rw [Function.update_of_ne hj]
      exact (h.tasks j).trans (List.sublist_append_left s.taken [t])

lemma Served.lockSection {i : Fin n} (hpc : (s.workers i).pc = .top ∨ (s.workers i).pc = .woken) :
    Served (threadLoopSection s i) := by
  have hheld : (s.workers i).pc.held = [] := by
    cases hpc with
    | inl hpc => rw [hpc,Pc.held]; simp
    | inr hpc => rw [hpc,Pc.held]; simp
  unfold threadLoopSection
  split
  · exact h.setPc hheld.symm
  · split
    · exact h.setPc hheld.symm
    · split
      · exact h.setPc hheld.symm
      · rename_i t rest hw
        exact h.take hw hheld

lemma Served.push (call : φ) (arg : α) (finish : Option φ) (malloc : Bool) (woken : List (Fin n)) :
    Served (threadPoolPush s call arg finish malloc woken).1 := by
  cases malloc with
  | false => exact h
  | true =>
    have hw : Served { s with workers := fun i => if i ∈ woken then (s.workers i).wake else s.workers i } := by
      apply h.move
      intro i
      split
      · exact wake_tasks _
      · rfl
    refine ⟨hw.flag,hw.kept,?_,hw.taken,hw.tasks⟩
    simp only [threadPoolPush,if_true,List.reverse_cons]
    exact h.waiting.append_right _

/-- One event keeps the order. -/
theorem Served.step (hstep : Pool.step s e = some s') : Served s' := by
  cases step_cases hstep with
  | push hidle => exact h.push _ _ _ _ _
  | wake hpc => exact h.setPc (by rw [hpc]; rfl)
  | lock hpc => exact h.lockSection hpc
  | @call i t hpc =>
    apply h.setWorker
    simp [Worker.tasks,hpc,Pc.held,calledTasks]
  | @finish i t hpc =>
    apply h.setWorker
    cases hf : t.finish <;> simp [Worker.tasks,hpc,Pc.held,calledTasks,Task.finishing,hf]
  | @free i t hpc =>
    apply h.setWorker
    simp [Worker.tasks,hpc,Pc.held,calledTasks]
  | quit hidle =>
    have hw : Served { s with workers := fun i => (s.workers i).wake } := h.move fun i => wake_tasks _
    exact ⟨fun _ => rfl,fun hq => absurd hq (by simp),hw.waiting,hw.taken,hw.tasks⟩
  | joinOne hd hpc => exact ⟨fun _ => h.flag (by simp [hd]),h.kept,h.waiting,h.taken,h.tasks⟩
  | joinAll hd hi => exact ⟨fun _ => h.flag (by simp [hd]),h.kept,h.waiting,h.taken,h.tasks⟩
  | @freeOne t rest hd hw =>
    have hquit := h.flag (by simp [hd])
    have hwaiting := h.waiting
    rw [hw,List.reverse_cons] at hwaiting
    have hrest := (List.sublist_append_left rest.reverse [t]).trans hwaiting
    exact ⟨h.flag,fun hq => absurd hq (by simp [hquit]),hrest,h.taken,h.tasks⟩
  | freeAll hd hw => exact ⟨fun _ => h.flag (by simp [hd]),h.kept,h.waiting,h.taken,h.tasks⟩

end Steps

section Records
variable {s s' : State n φ α} {e : Event n φ α}

/-- What the section of a worker under the lock adds to the records: nothing, or the first task that waits. -/
lemma Sound.lock_records (hs : Sound s) (i : Fin n) : (threadLoopSection s i).accepted = s.accepted ∧
    ((¬(s.quitFlag = false ∧ 0 < s.taskNums) ∧ (threadLoopSection s i).taken = s.taken) ∨
      ∃ t rest, s.quitFlag = false ∧ 0 < s.taskNums ∧ s.waitTasks = t::rest ∧
        (threadLoopSection s i).taken = s.taken++[t]) := by
  unfold threadLoopSection
  split
  · rename_i hquit
    exact ⟨rfl,Or.inl ⟨by simp [hquit],rfl⟩⟩
  · rename_i hquit
    split
    · rename_i hnone
      exact ⟨rfl,Or.inl ⟨fun h => absurd h.2 hnone.not_gt,rfl⟩⟩
    · rename_i hpos
      split
      · rename_i hw
        have hzero : s.taskNums = 0 := by
          rw [hs.count,hw]
          exact show wrap 32 0 = 0 by decide
        exact absurd hzero.le hpos
      · rename_i t rest hw
        exact ⟨rfl,Or.inr ⟨t,rest,Bool.not_eq_true _ ▸ hquit,not_le.mp hpos,hw,rfl⟩⟩

/-- Tasks are only added to the records, behind those that are there. -/
lemma Sound.step_grows (hs : Sound s) (hstep : Pool.step s e = some s') :
    s.accepted <+: s'.accepted ∧ s.taken <+: s'.taken := by
  cases step_cases hstep with
  | @push call arg finish malloc woken hidle =>
    cases malloc with
    | false => exact ⟨List.prefix_rfl,List.prefix_rfl⟩
    | true => exact ⟨List.prefix_append ..,List.prefix_rfl⟩
  | @lock i hpc =>
    obtain ⟨haccepted,hnone | ⟨t,rest,_,_,_,htaken⟩⟩ := hs.lock_records i
    · exact ⟨haccepted ▸ List.prefix_rfl,hnone.2 ▸ List.prefix_rfl⟩
    · exact ⟨haccepted ▸ List.prefix_rfl,htaken ▸ List.prefix_append ..⟩
  | _ => exact ⟨List.prefix_rfl,List.prefix_rfl⟩

end Records

section Pending
variable {s s' : State n φ α} (hs : Sound s) (h : Served s)
include hs h

lemma Served.places : (s.accepted : Multiset (Task φ α)) = s.waitTasks+s.taken+s.freed := by
  rw [hs.conserved,h.taken]

/-- Until the pool is told to quit, the tasks that have been taken and those that wait are all that have been
accepted, without repetition. -/
lemma Served.split (hquit : s.quitFlag = false) : (s.accepted : Multiset (Task φ α)) = s.waitTasks+s.taken ∧
    Disjoint (s.waitTasks : Multiset (Task φ α)) s.taken := by
  have hplaces := h.places hs
  rw [h.kept hquit,Multiset.coe_nil,add_zero] at hplaces
  refine ⟨hplaces,?_⟩
  have hnodup : (s.accepted : Multiset (Task φ α)).Nodup := hs.nodup
  rw [hplaces] at hnodup
  exact (Multiset.nodup_add.mp hnodup).2.2

/-- If the first tasks have been taken, those that wait are the others. -/
lemma Served.pending (hquit : s.quitFlag = false) (hinit : s.taken <+: s.accepted) :
    s.accepted = s.taken++s.waitTasks.reverse := by
  obtain ⟨rest,hrest⟩ := hinit
  obtain ⟨hsplit,hdisjoint⟩ := h.split hs hquit
  have hwaiting := h.waiting
  rw [← hrest,List.sublist_append_iff] at hwaiting
  obtain ⟨as,bs,heq,has,hbs⟩ := hwaiting
  have hnone : as = [] := by
    apply List.eq_nil_iff_forall_not_mem.mpr
    intro t ht
    have hin : t ∈ s.waitTasks.reverse := heq ▸ List.mem_append_left bs ht
    exact Multiset.disjoint_left.mp hdisjoint (List.mem_reverse.mp hin) (has.subset ht)
  have hlength : rest.length = s.waitTasks.length := by
    have hcard := congrArg Multiset.card hsplit
    rw [← hrest] at hcard
    simp only [Multiset.card_add,Multiset.coe_card,List.length_append] at hcard
    omega
  rw [hnone,List.nil_append] at heq
  rw [← hrest,heq,hbs.eq_of_length (by rw [← heq,List.length_reverse,hlength])]

lemma Served.sorted {t t' : Task φ α} {rest : List (Task φ α)} (hw : s.waitTasks = t::rest) (ht' : t' ∈ rest) :
    t'.serial < t.serial := by
  have hserials : s.accepted.Pairwise fun a b => a.serial < b.serial := by
    rw [← List.pairwise_map,hs.serials]
    exact List.pairwise_lt_range
  have hwaiting := hserials.sublist h.waiting
  rw [hw,List.reverse_cons,List.pairwise_append] at hwaiting
  exact hwaiting.2.2 t' (List.mem_reverse.mpr ht') t (List.mem_singleton_self t)

/-- The first task that waits is the newest: each one accepted later has been taken. -/
lemma Served.newest {t : Task φ α} {rest : List (Task φ α)} (hquit : s.quitFlag = false)
    (hw : s.waitTasks = t::rest) :
    ∀ t' ∈ s.accepted, t.serial < t'.serial → t' ∈ s.taken := by
  intro t' ht' hlater
  have hin : t' ∈ (s.accepted : Multiset (Task φ α)) := ht'
  rw [(h.split hs hquit).1,Multiset.mem_add,hw] at hin
  cases hin with
  | inl hwaits =>
    cases List.mem_cons.mp hwaits with
    | inl heq => exact absurd (heq ▸ hlater) (lt_irrefl _)
    | inr hrest => exact absurd (h.sorted hs hw hrest) hlater.not_gt
  | inr htaken => exact htaken

/-- Taking a task keeps the order of pushes exactly if no other one waits. -/
lemma Served.prefix_iff {t : Task φ α} {rest : List (Task φ α)} (hquit : s.quitFlag = false)
    (hw : s.waitTasks = t::rest) (hinit : s.taken <+: s.accepted) : s.taken++[t] <+: s.accepted ↔ rest = [] := by
  rw [h.pending hs hquit hinit,hw,List.reverse_cons,List.prefix_append_right_inj]
  constructor
  · intro hfirst
    cases hrev : rest.reverse with
    | nil => exact List.reverse_eq_nil_iff.mp hrev
    | cons a as =>
      rw [hrev,List.cons_append,List.cons_prefix_cons] at hfirst
      have hin : t ∈ rest.reverse := by
        rw [hrev,hfirst.1]
        exact List.mem_cons_self
      exact absurd (h.sorted hs hw (List.mem_reverse.mp hin)) (lt_irrefl _)
  · intro hrest
    rw [hrest]
    exact List.prefix_rfl

/-- One event keeps the order of pushes exactly if it does not take a task while another one waits. -/
lemma Served.prefix_step {e : Event n φ α} (hinit : s.taken <+: s.accepted) (hstep : Pool.step s e = some s') :
    s'.taken <+: s'.accepted ↔ TakesOnly s e := by
  have hsame : s'.taken = s.taken → s'.taken <+: s'.accepted := by
    intro heq
    rw [heq]
    exact hinit.trans (hs.step_grows hstep).1
  cases step_cases hstep with
  | @push call arg finish malloc woken hidle =>
    refine iff_of_true (hsame ?_) trivial
    cases malloc <;> rfl
  | @lock i hpc =>
    obtain ⟨haccepted,hnone | ⟨t,rest,hquit,hpos,hw,htaken⟩⟩ := hs.lock_records i
    · exact iff_of_true (hsame hnone.2) fun hquit hpos => absurd ⟨hquit,hpos⟩ hnone.1
    · rw [haccepted,htaken,h.prefix_iff hs hquit hw hinit]
      simp [TakesOnly,hquit,hpos,hw]
  | _ => exact iff_of_true (hsame rfl) trivial

/-- A task that has been overtaken stays overtaken. -/
lemma Served.not_prefix_step {e : Event n φ α} (hover : ¬s.taken <+: s.accepted)
    (hstep : Pool.step s e = some s') :
    ¬s'.taken <+: s'.accepted := by
  intro hinit
  obtain ⟨haccepted,htaken⟩ := hs.step_grows hstep
  have hle : s.taken.length ≤ s.accepted.length := by
    have hcard := congrArg Multiset.card (h.places hs)
    simp only [Multiset.card_add,Multiset.coe_card] at hcard
    omega
  exact hover (List.prefix_of_prefix_length_le (htaken.trans hinit) haccepted hle)

omit hs in
/-- A single worker calls all tasks that have been taken. -/
lemma Served.single (hn : n = 1) (i : Fin n) : (s.workers i).tasks = s.taken := by
  subst hn
  apply (h.tasks i).eq_of_length
  have htaken := h.taken
  rw [total,Fintype.sum_subsingleton _ i,← tasks_account] at htaken
  exact congrArg Multiset.card htaken.symm

/-- The task that an event takes is the newest of those that wait. -/
lemma Served.step_newest {e : Event n φ α} {t : Task φ α} (hstep : Pool.step s e = some s')
    (htake : s'.taken = s.taken++[t]) :
    s.waitTasks.head? = some t ∧ ∀ t' ∈ s.accepted, t.serial < t'.serial → t' ∈ s.taken := by
  have hne : s'.taken ≠ s.taken := by
    rw [htake]
    exact fun heq => by simpa using congrArg List.length heq
  cases step_cases hstep with
  | @push call arg finish malloc woken hidle => cases malloc <;> exact absurd rfl hne
  | @lock i hpc =>
    obtain ⟨_,hnone | ⟨t₁,rest,hquit,_,hw,htaken⟩⟩ := hs.lock_records i
    · exact absurd hnone.2 hne
    · rw [htaken] at htake
      obtain rfl : t₁ = t := by simpa using htake
      exact ⟨by rw [hw]; rfl,h.newest hs hquit hw⟩
  | _ => exact absurd rfl hne

end Pending

/-- In every run the tasks that wait are those that have been accepted and not taken, the newest first, and the
one that a worker takes is the newest of them: all that were accepted after it have been taken. Each worker calls
its tasks in the order in which it has taken them, a single worker all of them. The order in which tasks are taken
is that of the pushes exactly if none is taken while another one waits. -/
theorem pool_newest_first (es : List (Event n φ α)) (s : State n φ α)
    (hrun : run step (threadPoolNew n φ α) es = some s) :
    (s.quitFlag = false → (s.accepted : Multiset (Task φ α)) = s.waitTasks+s.taken) ∧
      s.waitTasks.reverse.Sublist s.accepted ∧
      (∀ e s' t, step s e = some s' → s'.taken = s.taken++[t] →
        s.waitTasks.head? = some t ∧ ∀ t' ∈ s.accepted, t.serial < t'.serial → t' ∈ s.taken) ∧
      (∀ i, (s.workers i).tasks.Sublist s.taken) ∧ (n = 1 → ∀ i, (s.workers i).tasks = s.taken) ∧
      (s.taken <+: s.accepted ↔ Always step TakesOnly (threadPoolNew n φ α) es) := by
  have hkeeps : ∀ (s : State n φ α) e s', Sound s ∧ Served s → step s e = some s' →
      Sound s' ∧ Served s' :=
    fun s e s' hs hstep => ⟨hs.1.step hstep,hs.2.step hstep⟩
  have hstart : Sound (threadPoolNew n φ α) ∧ Served (threadPoolNew n φ α) :=
    ⟨threadPoolNew_sound,threadPoolNew_served⟩
  obtain ⟨hs,h⟩ := run_invariant hkeeps hstart hrun
  refine ⟨fun hquit => (h.split hs hquit).1,h.waiting,?_,h.tasks,h.single,?_⟩
  · intro e s' t hstep htake
    exact h.step_newest hs hstep htake
  · apply run_until_iff hkeeps _ _ hstart List.nil_prefix hrun
    · intro s e s' hs hover hstep
      exact hs.2.not_prefix_step hs.1 hover hstep
    · intro s e s' hs hinit hstep
      exact hs.2.prefix_step hs.1 hinit hstep

/-- A worker treats one task before the next one is pushed, then two are pushed, and the worker takes the second. -/
def overtakingRun : List (Event 1 ℕ ℕ) :=
  [.push 1 10 none true [],.lock 0,.call 0,.finish 0,.free 0,.push 1 11 none true [],.push 1 12 none true [],.lock 0,
    .call 0,.finish 0,.free 0,.lock 0,.call 0]

lemma overtakingRun_ends : (run step (threadPoolNew 1 ℕ ℕ) overtakingRun).isSome := by decide +kernel

theorem pool_newest_first_overtaking : ∃ s, run step (threadPoolNew 1 ℕ ℕ) overtakingRun = some s ∧
    s.waitTasks.reverse.Sublist s.accepted ∧ (s.workers 0).tasks = s.taken ∧
    ¬Always step TakesOnly (threadPoolNew 1 ℕ ℕ) overtakingRun := by
  have hrun := (Option.some_get overtakingRun_ends).symm
  obtain ⟨_,hwaiting,_,_,hsingle,hiff⟩ := pool_newest_first overtakingRun _ hrun
  exact ⟨_,hrun,hwaiting,hsingle rfl 0,hiff.not.mp (by decide +kernel)⟩

/-- With one worker and no shutdown, the task pushed last is called before the one pushed before it. -/
theorem pool_overtakes : ∃ s, run step (threadPoolNew 1 ℕ ℕ) overtakingRun = some s ∧ s.destroy = .idle ∧
    s.accepted.map Task.arg = [10,11,12] ∧ s.taken.map Task.arg = [10,12,11] ∧
    (calledTasks (s.workers 0).log).map Task.arg = [10,12,11] := by
  have hrun := (Option.some_get overtakingRun_ends).symm
  exact ⟨_,hrun,by decide +kernel,by decide +kernel,by decide +kernel,by decide +kernel⟩

end JustKit.Pool
