import JustKit.Pool.Invariant

/-! Every accepted task is called at most once, and when the pool is destroyed it has either been called
or freed. -/
namespace JustKit.Pool
open Foundations Foundations.Transition
variable {n : ℕ} {φ α : Type}

/-- All calls of tasks that the workers have made. -/
def State.calls (s : State n φ α) : Multiset (Task φ α) :=
  total (fun w : Worker (Task φ α) => (calledTasks w.log : Multiset (Task φ α))) s.workers

section Sound
variable {s : State n φ α} (h : Sound s)
include h

lemma Sound.nodup : s.accepted.Nodup := by
  apply List.Nodup.of_map Task.serial
  rw [h.serials]
  exact List.nodup_range

/-- Accepted tasks are waiting, taken but not called, called, or freed. -/
lemma Sound.places : (s.accepted : Multiset (Task φ α)) =
    s.waitTasks+total (fun w : Worker (Task φ α) => w.pc.untouched) s.workers+s.calls+s.freed := by
  have hsplit : total Worker.account s.workers = total (fun w : Worker (Task φ α) => w.pc.untouched)
      s.workers+s.calls :=
    total_add _ _ _
  rw [h.conserved,hsplit,← add_assoc]

theorem Sound.calls_once : s.calls.Nodup ∧ s.calls ≤ s.accepted := by
  have hle : s.calls ≤ s.accepted := by
    rw [h.places,add_assoc,add_comm s.calls,← add_assoc]
    exact Multiset.le_add_left _ _
  exact ⟨Multiset.nodup_of_le hle h.nodup,hle⟩

/-- When `jk_thread_pool_destroy` returns, no worker has a task in hand and none is left in the list. -/
theorem Sound.destroyed (hd : s.destroy = .done) :
    (s.accepted : Multiset (Task φ α)) = s.calls+s.freed ∧
      ∀ i, ∃ done : List (Task φ α), (s.workers i).log = done.flatMap Task.treatment := by
  have hexit : ∀ i, (s.workers i).pc = .exited := fun i => h.joined i (by rw [hd]; trivial)
  constructor
  · have hzero : total (fun w : Worker (Task φ α) => w.pc.untouched) s.workers = 0 :=
      total_eq_zero _ fun i => by simp [hexit i,Pc.untouched]
    rw [h.places,hzero,h.done hd]
    simp
  · intro i
    obtain ⟨done,hl⟩ := h.orderly i
    exact ⟨done,by simpa [hexit i,Pc.begun] using hl⟩

end Sound

/-- In every run the counter is the length of the list, no worker pops from an empty list, every task is
called at most once, by one worker, with its finish right after it, and once the pool is destroyed every
accepted task has either been treated completely, once, or been freed without a call. -/
theorem pool_exactly_once (es : List (Event n φ α)) (s : State n φ α)
    (hrun : run step (threadPoolNew n φ α) es = some s) (hpending : s.waitTasks.length < 2^31) :
    s.taskNums = s.waitTasks.length ∧ (∀ i, (s.workers i).pc ≠ .faulted) ∧
      (∀ i, (s.workers i).Orderly) ∧ s.calls.Nodup ∧ s.calls ≤ s.accepted ∧
      (s.destroy = .done →
      (∀ i, ∃ done : List (Task φ α), (s.workers i).log = done.flatMap Task.treatment) ∧
        s.freed.Nodup ∧ ∀ t ∈ s.accepted, Xor (t ∈ s.calls) (t ∈ s.freed)) := by
  have h := run_sound hrun
  obtain ⟨hnodup,hle⟩ := h.calls_once
  refine ⟨?_,h.safe,h.orderly,hnodup,hle,fun hd => ?_⟩
  · rw [h.count]
    exact wrap_of_range (w := 31) (by omega) (by exact_mod_cast hpending)
  · obtain ⟨heq,hlogs⟩ := h.destroyed hd
    have hall : (s.calls+s.freed).Nodup := heq ▸ h.nodup
    obtain ⟨_,hfreed,hdisjoint⟩ := Multiset.nodup_add.mp hall
    refine ⟨hlogs,hfreed,fun t ht => ?_⟩
    have hmem : t ∈ s.calls ∨ t ∈ s.freed := by
      have hm : t ∈ (s.accepted : Multiset (Task φ α)) := ht
      rwa [heq,Multiset.mem_add] at hm
    rcases hmem with hc | hf
    · exact Or.inl ⟨hc,Multiset.disjoint_left.mp hdisjoint hc⟩
    · exact Or.inr ⟨hf,Multiset.disjoint_right.mp hdisjoint hf⟩

/-- Three tasks and two workers: one task is finished, one is in hand when the pool is told to quit, and
one is left. -/
def leftoverRun : List (Event 2 ℕ ℕ) :=
  [.lock 0,.lock 1,.wake 1,.lock 1,.push 1 10 (some 2) true [0],.lock 0,.push 1 11 none true [],
    .push 1 12 (some 2) true [1],.push 1 13 none false [],.call 0,.finish 0,.free 0,.lock 0,.quit,.lock 1,.call 0,
    .finish 0,.free 0,.lock 0,.join,.join,.join,.freeLeft,.freeLeft]

lemma leftoverRun_ends : (run step (threadPoolNew 2 ℕ ℕ) leftoverRun).isSome := by decide +kernel

theorem pool_exactly_once_leftover : ∃ s, run step (threadPoolNew 2 ℕ ℕ) leftoverRun = some s ∧
    s.destroy = .done ∧ s.taskNums = s.waitTasks.length ∧ (∀ i, (s.workers i).pc ≠ .faulted) ∧
      (∀ i, (s.workers i).Orderly) ∧ s.calls.Nodup ∧ s.calls ≤ s.accepted ∧
      (s.destroy = .done →
      (∀ i, ∃ done : List (Task ℕ ℕ), (s.workers i).log = done.flatMap Task.treatment) ∧
        s.freed.Nodup ∧ ∀ t ∈ s.accepted, Xor (t ∈ s.calls) (t ∈ s.freed)) := by
  have hrun := (Option.some_get leftoverRun_ends).symm
  exact ⟨_,hrun,by decide +kernel,pool_exactly_once leftoverRun _ hrun (by decide +kernel)⟩

end JustKit.Pool
