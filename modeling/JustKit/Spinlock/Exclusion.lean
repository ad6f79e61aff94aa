import JustKit.Spinlock.Model

/-! The lock word always names the thread that holds the lock, so no two threads hold it. -/
namespace JustKit.Spinlock
open Foundations Foundations.Transition
variable {ι : Type} [DecidableEq ι] {which : ι → ℤ} {s s' : State ι}

/-- A thread holds the lock exactly when the word is its identifier. -/
def Owned (which : ι → ℤ) (s : State ι) : Prop := ∀ i, s.pc i = .holding ↔ s.word = which i

omit [DecidableEq ι] in
lemma start_owned (hzero : ∀ i, which i ≠ 0) (ncpu : ℤ) : Owned which (start ι ncpu) := by
  intro i
  simp [start,(hzero i).symm]

lemma innerLoop_ne (n : ℤ) : innerLoop n ≠ .holding := by
  unfold innerLoop
  split <;> simp

lemma afterTry_ne (ncpu : ℤ) : afterTry ncpu ≠ .holding := by
  unfold afterTry
  split
  · exact innerLoop_ne 1
  · simp

/-- A step of a thread moves it, or tries to swap its identifier in; only the swap can lead to the lock. -/
lemma spinlockStep_cases {i : ι} {word : ℤ} (h : spinlockStep s i word = some s') : s.pc i ≠ .holding ∧
    ((∃ pc, pc ≠ .holding ∧ s' = s.setPc i pc) ∨ ∃ failed, failed ≠ .holding ∧
    s' = trySwap s i word failed) := by
  cases hpc : s.pc i with
  | idle | holding => simp [spinlockStep,hpc] at h
  | read =>
    simp only [spinlockStep,hpc,Option.some.injEq] at h
    refine ⟨by simp,Or.inl ⟨_,?_,h.symm⟩⟩
    split
    · simp
    · exact afterTry_ne s.ncpu
  | swap =>
    simp only [spinlockStep,hpc,Option.some.injEq] at h
    exact ⟨by simp,Or.inr ⟨_,afterTry_ne s.ncpu,h.symm⟩⟩
  | pause n k =>
    simp only [spinlockStep,hpc,Option.some.injEq] at h
    refine ⟨by simp,Or.inl ⟨_,?_,h.symm⟩⟩
    split <;> simp
  | innerRead n =>
    simp only [spinlockStep,hpc,Option.some.injEq] at h
    refine ⟨by simp,Or.inl ⟨_,?_,h.symm⟩⟩
    split
    · simp
    · exact innerLoop_ne n
  | innerSwap n =>
    simp only [spinlockStep,hpc,Option.some.injEq] at h
    exact ⟨by simp,Or.inr ⟨_,innerLoop_ne n,h.symm⟩⟩
  | yield =>
    simp only [spinlockStep,hpc,Option.some.injEq] at h
    exact ⟨by simp,Or.inl ⟨.read,by simp,h.symm⟩⟩

section Steps
variable (h : Owned which s)
include h

/-- A thread that does not hold the lock goes on without it. -/
lemma Owned.setPc {i : ι} {pc : Pc} (hi : s.pc i ≠ .holding) (hpc : pc ≠ .holding) :
    Owned which (s.setPc i pc) := by
  intro j
  by_cases hj : j = i
  · subst hj
    have hword : s.word ≠ which j := fun e => hi ((h j).mpr e)
    simp [State.setPc,hpc,hword]
  · simpa [State.setPc,hj] using h j

/-- The word is zero, so no thread holds the lock when this one takes it. -/
lemma Owned.trySwap (hinj : Function.Injective which) (hzero : ∀ i, which i ≠ 0) {i : ι} {failed : Pc}
    (hi : s.pc i ≠ .holding) (hfailed : failed ≠ .holding) : Owned which (trySwap s i (which i) failed) := by
  by_cases hword : s.word = 0
  · have htaken : Spinlock.trySwap s i (which i) failed = { s.setPc i .holding with word := which i } := by
      simp [Spinlock.trySwap,compareAndSwap,hword]
    rw [htaken]
    intro j
    by_cases hj : j = i
    · subst hj
      simp [State.setPc]
    · have hfree : s.pc j ≠ .holding := fun e => hzero j ((h j).mp e ▸ hword)
      have hother : which i ≠ which j := fun e => hj (hinj e).symm
      simp [State.setPc,hj,hfree,hother]
  · have hleft : Spinlock.trySwap s i (which i) failed = s.setPc i failed := by
      simp [Spinlock.trySwap,compareAndSwap,hword]
    rw [hleft]
    exact h.setPc hi hfailed

/-- A call by the owner frees the lock, any other call does nothing. -/
lemma Owned.spinunlock (hinj : Function.Injective which) (hzero : ∀ i, which i ≠ 0) (i : ι) :
    Owned which (spinunlock s i (which i)) := by
  intro j
  by_cases hi : s.pc i = .holding
  · have hword := (h i).mp hi
    by_cases hj : j = i
    · subst hj
      simp [Spinlock.spinunlock,compareAndSwap,hi,hword,(hzero j).symm]
    · have hother : which i ≠ which j := fun e => hj (hinj e).symm
      have hfree : s.pc j ≠ .holding := fun e => hother (hword.symm.trans ((h j).mp e))
      simp [Spinlock.spinunlock,compareAndSwap,hi,hword,hj,hfree,(hzero j).symm]
  · have hword : s.word ≠ which i := fun e => hi ((h i).mpr e)
    simpa [Spinlock.spinunlock,compareAndSwap,hi,hword] using h j

lemma Owned.spinlockStep (hinj : Function.Injective which) (hzero : ∀ i, which i ≠ 0) {i : ι}
    (hstep : spinlockStep s i (which i) = some s') : Owned which s' := by
  obtain ⟨hi,hmoved | hswapped⟩ := spinlockStep_cases hstep
  · obtain ⟨pc,hpc,rfl⟩ := hmoved
    exact h.setPc hi hpc
  · obtain ⟨failed,hfailed,rfl⟩ := hswapped
    exact h.trySwap hinj hzero hi hfailed

/-- One event of any thread keeps the word and its owner together. -/
theorem Owned.step (hinj : Function.Injective which) (hzero : ∀ i, which i ≠ 0) {e : Event ι}
    (hstep : Spinlock.step which s e = some s') : Owned which s' := by
  cases e with
  | init online =>
    obtain rfl := Option.some.inj hstep
    exact h
  | lock i =>
    simp only [Spinlock.step] at hstep
    split at hstep
    · rename_i hpc
      obtain rfl := Option.some.inj hstep
      exact h.setPc (by simp [hpc]) (by simp)
    · cases hstep
  | tick i => exact h.spinlockStep hinj hzero hstep
  | unlock i =>
    obtain rfl := Option.some.inj hstep
    exact h.spinunlock hinj hzero i

end Steps

/-- In every run of threads with distinct identifiers other than zero, at most one holds the lock, and
then the lock word is its identifier. -/
theorem spinlock_exclusive (which : ι → ℤ) (hinj : Function.Injective which) (hzero : ∀ i, which i ≠ 0)
    (ncpu : ℤ) (es : List (Event ι)) (s : State ι) (hrun : run (step which) (start ι ncpu) es = some s) :
    (∀ i j, s.pc i = .holding → s.pc j = .holding → i = j) ∧ ∀ i, s.pc i = .holding →
    s.word = which i := by
  have h : Owned which s :=
    run_invariant (fun _ _ _ h hstep => h.step hinj hzero hstep) (start_owned hzero ncpu) hrun
  refine ⟨?_,fun i hi => (h i).mp hi⟩
  intro i j hi hj
  exact hinj (((h i).mp hi).symm.trans ((h j).mp hj))

/-- Two threads race for the lock: both read zero, one swap succeeds, the other thread goes through the
inner loop until the lock is free; unlocks without the lock do nothing. -/
def raceRun (i j : ι) : List (Event ι) :=
  [.init 4,.unlock j,.lock i,.lock j,.tick i,.tick j,.tick j,.tick i,.unlock i,.tick i,.tick i,.unlock j,
    .tick i,.tick i]

lemma raceRun_ends :
    (run (step fun b : Bool => if b then 7 else -3) (start Bool 0) (raceRun true false)).isSome := by
  decide +kernel

theorem spinlock_exclusive_race :
    ∃ s, run (step fun b : Bool => if b then 7 else -3) (start Bool 0) (raceRun true false) = some s ∧
      s.pc true = .holding ∧ (∀ i j, s.pc i = .holding → s.pc j = .holding → i = j) ∧
      ∀ i, s.pc i = .holding → s.word = if i then 7 else -3 := by
  have hrun := (Option.some_get raceRun_ends).symm
  exact ⟨_,hrun,by decide +kernel,
    spinlock_exclusive (fun b : Bool => if b then 7 else -3) (by decide) (by decide) 0 (raceRun true false) _ hrun⟩

end JustKit.Spinlock
