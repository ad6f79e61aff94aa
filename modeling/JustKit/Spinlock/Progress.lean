import JustKit.Spinlock.BackOff

/-! The lock is not lost: when nobody holds it and some threads are in `jk_spinlock`, one of them gets it after a
bounded number of steps, whichever of them take the steps. -/
namespace JustKit.Spinlock
open Foundations Foundations.Transition
variable {ι : Type} [DecidableEq ι] {which : ι → ℤ} {s s' : State ι} {i : ι}

/-- The places that a thread can be at: `n` is 1 throughout. -/
inductive Reached : Pc → Prop
  | idle : Reached .idle
  | read : Reached .read
  | swap : Reached .swap
  | yield : Reached .yield
  | stuck {pc : Pc} (h : Stuck pc) : Reached pc

/-- In `jk_spinlock`, and not with the lock yet. -/
def Pc.Waits (pc : Pc) : Prop := pc ≠ .idle ∧ pc ≠ .holding

instance (pc : Pc) : Decidable pc.Waits := inferInstanceAs (Decidable (_ ∧ _))

/-- The steps that a thread takes until its swap, if the word stays zero. -/
def Pc.left : Pc → ℕ
  | .idle | .holding => 0
  | .swap | .innerSwap _ => 1
  | .read | .innerRead _ => 2
  | .yield => 3
  | .pause _ k => if k ≤ 0 then 4 else 3

lemma afterTry_reached (ncpu : ℤ) : Reached (afterTry ncpu) := by
  unfold afterTry
  split
  · exact .stuck .begin
  · exact .yield

lemma Reached.left_le {pc : Pc} (h : Reached pc) : pc.left ≤ 4 := by
  cases h with
  | stuck h => cases h <;> simp [Pc.left]
  | _ => simp [Pc.left]

section Thread
variable (ncpu word : ℤ)

lemma threadStep_read : threadStep ncpu .read word = if word = 0 then .swap else afterTry ncpu := by
  simp [threadStep,spinlockStep,setPc_pc]

lemma threadStep_swap : threadStep ncpu .swap word = if word = 0 then .holding else afterTry ncpu := by
  simp [threadStep,spinlockStep,trySwap_pc]

lemma Reached.threadStep {pc : Pc} (h : Reached pc) : Reached (threadStep ncpu pc word) := by
  cases h with
  | idle => exact .idle
  | read =>
    rw [threadStep_read]
    split
    · exact .swap
    · exact afterTry_reached ncpu
  | swap =>
    rw [threadStep_swap]
    split
    · exact .stuck .taken
    · exact afterTry_reached ncpu
  | yield => exact .read
  | stuck h => exact .stuck (h.step word)

/-- A step of a waiting thread while the word is zero: it takes the lock, or gets nearer to its swap. -/
lemma Reached.nearer {pc : Pc} (h : Reached pc) (hw : pc.Waits) :
    Spinlock.threadStep ncpu pc 0 = .holding ∨
      (Spinlock.threadStep ncpu pc 0).left+1 = pc.left := by
  cases h with
  | idle => exact absurd rfl hw.1
  | read =>
    rw [threadStep_read,if_pos rfl]
    simp [Pc.left]
  | swap =>
    rw [threadStep_swap,if_pos rfl]
    exact Or.inl rfl
  | yield => exact Or.inr (by simp [Spinlock.threadStep,spinlockStep,setPc_pc,Pc.left])
  | stuck h =>
    cases h with
    | begin => exact Or.inr (by simp [Spinlock.threadStep,spinlockStep,setPc_pc,Pc.left])
    | paused => exact Or.inr (by simp [Spinlock.threadStep,spinlockStep,setPc_pc,Pc.left])
    | read =>
      rw [threadStep_innerRead,if_pos rfl]
      simp [Pc.left]
    | swap =>
      rw [threadStep_innerSwap,if_pos rfl]
      exact Or.inl rfl
    | taken => exact absurd rfl hw.2

end Thread

/-! ### All threads -/

/-- The word is zero unless a thread holds the lock. -/
structure Sane (which : ι → ℤ) (s : State ι) : Prop where
  owned : Owned which s
  word : s.word = 0 ∨ ∃ i, s.pc i = .holding
  reached : ∀ i, Reached (s.pc i)

omit [DecidableEq ι] in
lemma start_sane (hzero : ∀ i, which i ≠ 0) (ncpu : ℤ) : Sane which (start ι ncpu) :=
  ⟨start_owned hzero ncpu,Or.inl rfl,fun _ => .idle⟩

/-- A step of a thread leaves the word as it is, or takes the lock. -/
lemma spinlockStep_word {word : ℤ} (h : spinlockStep s i word = some s') : s'.word = s.word ∨
    s'.pc i = .holding := by
  obtain ⟨_,⟨pc,_,rfl⟩ | ⟨failed,_,rfl⟩⟩ := spinlockStep_cases h
  · exact Or.inl rfl
  · unfold trySwap compareAndSwap
    by_cases hword : s.word = 0
    · right
      simp [hword,State.setPc]
    · left
      simp [hword,State.setPc]

section Steps
variable (h : Sane which s)
include h

omit [DecidableEq ι] in
lemma Sane.word_eq (hfree : ∀ i, s.pc i ≠ .holding) : s.word = 0 :=
  h.word.resolve_right fun ⟨i,hi⟩ => hfree i hi

lemma Sane.tick (hinj : Function.Injective which) (hzero : ∀ i, which i ≠ 0)
    (hstep : spinlockStep s i (which i) = some s') :
    Sane which s' := by
  refine ⟨h.owned.spinlockStep hinj hzero hstep,?_,fun j => ?_⟩
  · rcases spinlockStep_word hstep with hword | htaken
    · rw [hword]
      refine h.word.imp id ?_
      rintro ⟨j,hj⟩
      have hne : j ≠ i := fun he => (spinlockStep_cases hstep).1 (he ▸ hj)
      exact ⟨j,(spinlockStep_other hne hstep).trans hj⟩
    · exact Or.inr ⟨i,htaken⟩
  · by_cases hj : j = i
    · subst hj
      rw [spinlockStep_pc hstep]
      exact (h.reached j).threadStep s.ncpu s.word
    · rw [spinlockStep_other hj hstep]
      exact h.reached j

lemma Sane.lock (hidle : s.pc i = .idle) : Sane which (s.setPc i .read) := by
  refine ⟨h.owned.setPc (by simp [hidle]) (by simp),h.word.imp id ?_,fun j => ?_⟩
  · rintro ⟨j,hj⟩
    have hne : j ≠ i := by
      rintro rfl
      rw [hidle] at hj
      cases hj
    exact ⟨j,(setPc_other s hne _).trans hj⟩
  · by_cases hj : j = i
    · rw [hj,setPc_pc]
      exact .read
    · rw [setPc_other s hj]
      exact h.reached j

lemma Sane.unlock (hinj : Function.Injective which) (hzero : ∀ i, which i ≠ 0) (i : ι) :
    Sane which (spinunlock s i (which i)) := by
  refine ⟨h.owned.spinunlock hinj hzero i,?_,fun j => ?_⟩
  · by_cases hi : s.pc i = .holding
    · left
      simp [spinunlock,compareAndSwap,(h.owned i).mp hi]
    · have hword : s.word ≠ which i := fun he => hi ((h.owned i).mpr he)
      simpa [spinunlock,compareAndSwap,hword,hi] using h.word
  · change Reached ((if s.pc i = .holding then Function.update s.pc i .idle else s.pc) j)
    split
    · by_cases hj : j = i
      · rw [hj,Function.update_self]
        exact .idle
      · rw [Function.update_of_ne hj]
        exact h.reached j
    · exact h.reached j

theorem Sane.step (hinj : Function.Injective which) (hzero : ∀ i, which i ≠ 0) {e : Event ι}
    (hstep : Spinlock.step which s e = some s') : Sane which s' := by
  cases e with
  | init online =>
    obtain rfl := Option.some.inj hstep
    exact ⟨h.owned,h.word,h.reached⟩
  | lock i =>
    simp only [Spinlock.step] at hstep
    split at hstep
    · rename_i hpc
      obtain rfl := Option.some.inj hstep
      exact h.lock hpc
    · cases hstep
  | tick i => exact h.tick hinj hzero hstep
  | unlock i =>
    obtain rfl := Option.some.inj hstep
    exact h.unlock hinj hzero i

end Steps

/-! ### What is left to do -/

def Event.isTick : Event ι → Bool
  | .tick _ => true
  | _ => false

def Event.isLock : Event ι → Bool
  | .lock _ => true
  | _ => false

section Work
variable [Fintype ι]

/-- The steps that the threads take at most until one of them swaps. -/
def State.work (s : State ι) : ℕ := total Pc.left s.pc

/-- The number of threads in `jk_spinlock` that do not hold the lock. -/
def State.waiting (s : State ι) : ℕ := (Finset.univ.filter fun i => (s.pc i).Waits).card

omit [DecidableEq ι] in
lemma Sane.work_le (h : Sane which s) : s.work ≤ 4*s.waiting := by
  have hle : s.work ≤ total (fun pc : Pc => 4*if pc.Waits then 1 else 0) s.pc := by
    apply Finset.sum_le_sum
    intro i _
    have hle := (h.reached i).left_le
    by_cases hw : (s.pc i).Waits
    · simpa [hw] using hle
    · cases hpc : s.pc i <;> simp_all [Pc.Waits,Pc.left]
  refine hle.trans_eq ?_
  unfold total State.waiting
  rw [← Finset.mul_sum,Finset.card_filter]

lemma work_setPc (s : State ι) (i : ι) (pc : Pc) : (s.setPc i pc).work+(s.pc i).left = s.work+pc.left :=
  total_update Pc.left s.pc i pc

/-- While nobody gets the lock, every step of a thread uses up work, and only calls of `jk_spinlock` add some. -/
lemma Sane.step_work (h : Sane which s) (hfree : ∀ i, s.pc i ≠ .holding) {e : Event ι}
    (hstep : Spinlock.step which s e = some s') (hfree' : ∀ i, s'.pc i ≠ .holding) :
    (if e.isTick then 1 else 0)+s'.work ≤ s.work+2*(if e.isLock then 1 else 0) := by
  cases e with
  | init online =>
    obtain rfl := Option.some.inj hstep
    exact (Nat.zero_add _).le
  | lock i =>
    simp only [Spinlock.step] at hstep
    split at hstep
    · rename_i hpc
      obtain rfl := Option.some.inj hstep
      have hwork := work_setPc s i .read
      rw [hpc] at hwork
      simp only [Pc.left,Nat.add_zero] at hwork
      simp [Event.isTick,Event.isLock,hwork]
    · cases hstep
  | tick i =>
    have hpc := spinlockStep_pc hstep
    have hword := h.word_eq hfree
    obtain ⟨hi,⟨pc,_,rfl⟩ | ⟨failed,_,rfl⟩⟩ := spinlockStep_cases hstep
    · have hwaits : (s.pc i).Waits := by
        refine ⟨?_,hi⟩
        intro hidle
        simp [Spinlock.step,spinlockStep,hidle] at hstep
      rw [setPc_pc,hword] at hpc
      have hnear := ((h.reached i).nearer s.ncpu hwaits).resolve_left fun htaken => hfree' i
        (by rw [setPc_pc,hpc,htaken])
      rw [← hpc] at hnear
      have hwork := work_setPc s i pc
      simp only [Event.isTick,Event.isLock,if_true]
      simp only [Bool.false_eq_true,if_false]
      omega
    · exact absurd (by rw [trySwap_pc,if_pos hword]) (hfree' i)
  | unlock i =>
    obtain rfl := Option.some.inj hstep
    have hsame : (spinunlock s i (which i)).pc = s.pc := if_neg (hfree i)
    simp [Event.isTick,Event.isLock,State.work,hsame]

/-- A run in which nobody ever has the lock. -/
theorem Sane.run_work (hinj : Function.Injective which) (hzero : ∀ i, which i ≠ 0) {ts : List (Event ι)}
    (h : Sane which s) (hrun : run (Spinlock.step which) s ts = some s')
    (hfree : ∀ pre t i, pre <+: ts → run (Spinlock.step which) s pre = some t → t.pc i ≠ .holding) :
    ts.countP Event.isTick+s'.work ≤ s.work+2*ts.countP Event.isLock := by
  induction ts generalizing s with
  | nil =>
    obtain rfl := Option.some.inj hrun
    simp
  | cons e ts ih =>
    obtain ⟨t,ht,hrest⟩ := Option.bind_eq_some_iff.mp hrun
    have hfree' : ∀ pre u i, pre <+: ts → run (Spinlock.step which) t pre = some u → u.pc i ≠ .holding := by
      intro pre u i hpre hu
      apply hfree (e::pre) u i (List.cons_prefix_cons.mpr ⟨rfl,hpre⟩)
      rw [run,ht]
      exact hu
    have hone :=
      h.step_work (fun i => hfree [] s i (List.nil_prefix) rfl) ht (fun i => hfree' [] t i List.nil_prefix rfl)
    have hall := ih (h.step hinj hzero ht) hrest hfree'
    rw [List.countP_cons,List.countP_cons]
    omega

/-- From every state of every run: a thread in `jk_spinlock` can always take its next step; and among more than four
steps for each of these threads, and two for each later call of `jk_spinlock`, there is a state in which a thread
has the lock, whatever the order of the steps. -/
theorem spinlock_lock_free (which : ι → ℤ) (hinj : Function.Injective which) (hzero : ∀ i, which i ≠ 0)
    (ncpu : ℤ) (es : List (Event ι)) (s : State ι) (hrun : run (step which) (start ι ncpu) es = some s) :
    (∀ i, (s.pc i).Waits → (step which s (.tick i)).isSome) ∧
      ∀ ts s', run (step which) s ts = some s' →
      4*s.waiting+2*ts.countP Event.isLock < ts.countP Event.isTick →
        ∃ pre t i, pre <+: ts ∧ run (step which) s pre = some t ∧ t.pc i = .holding := by
  have h : Sane which s := run_invariant (fun _ _ _ h hstep => h.step hinj hzero hstep) (start_sane hzero ncpu) hrun
  refine ⟨fun i hi => ?_,fun ts s' hts hmany => ?_⟩
  · cases hpc : s.pc i with
    | idle => exact absurd hpc hi.1
    | holding => exact absurd hpc hi.2
    | _ => simp [step,spinlockStep,hpc]
  · by_contra hnone
    push Not at hnone
    have hwork := h.run_work hinj hzero hts hnone
    have hle := h.work_le
    omega

end Work

lemma twoCalls_end :
    (run (step fun b : Bool => if b then 7 else -3) (start Bool 4) [.lock true,.lock false]).isSome := by
  decide +kernel

/-- Two threads have called `jk_spinlock`. -/
theorem spinlock_lock_free_two :
    ∃ s, run (step fun b : Bool => if b then 7 else -3) (start Bool 4) [.lock true,.lock false] = some s ∧
    (∀ i, (s.pc i).Waits → (step (fun b : Bool => if b then 7 else -3) s (.tick i)).isSome) ∧
    ∀ ts s', run (step fun b : Bool => if b then 7 else -3) s ts = some s' →
      4*s.waiting+2*ts.countP Event.isLock < ts.countP Event.isTick →
        ∃ pre t i, pre <+: ts ∧ run (step fun b : Bool => if b then 7 else -3) s pre = some t ∧
        t.pc i = .holding := by
  have hrun := (Option.some_get twoCalls_end).symm
  exact ⟨_,hrun,spinlock_lock_free (fun b : Bool => if b then 7 else -3) (by decide) (by decide) 4
    [.lock true,.lock false] _
    hrun⟩

end JustKit.Spinlock
