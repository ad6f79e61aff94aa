import JustKit.Spinlock.Exclusion

/-! The back-off loop of one thread, against any values of the lock word that it may see. Its header says
`n << 1`, which has no effect. -/
namespace JustKit.Spinlock
open Foundations Foundations.Transition
variable {ι : Type} [DecidableEq ι] {which : ι → ℤ} {s s' : State ι} {i : ι}

/-! ### The places of one thread -/

/-- Where the next step of a thread leads if the lock word is `word`. -/
def threadStep (ncpu : ℤ) (pc : Pc) (word : ℤ) : Pc :=
  ((spinlockStep ⟨word,ncpu,fun _ => pc⟩ () 1).map fun s : State Unit => s.pc ()).getD pc

/-- The place after `k` steps, if the word at step `j` is `obs j`. -/
def path (ncpu : ℤ) (obs : ℕ → ℤ) (pc : Pc) (k : ℕ) : Pc :=
  ((List.range k).map obs).foldl (threadStep ncpu) pc

lemma path_succ (ncpu : ℤ) (obs : ℕ → ℤ) (pc : Pc) (k : ℕ) :
    path ncpu obs pc (k+1) = threadStep ncpu (path ncpu obs pc k) (obs k) := by
  unfold path
  rw [List.range_succ,List.map_append,List.foldl_append]
  rfl

lemma trySwap_pc (s : State ι) (i : ι) (which : ℤ) (failed : Pc) :
    (trySwap s i which failed).pc i = if s.word = 0 then .holding else failed := by
  unfold trySwap compareAndSwap
  by_cases hword : s.word = 0 <;> simp [hword,State.setPc]

lemma setPc_pc (s : State ι) (i : ι) (pc : Pc) : (s.setPc i pc).pc i = pc := Function.update_self _ _ _

/-- In the system of all threads, the steps of one depend on the others through the word only. -/
lemma spinlockStep_pc (h : spinlockStep s i (which i) = some s') : s'.pc i = threadStep s.ncpu (s.pc i) s.word := by
  unfold threadStep
  cases hpc : s.pc i with
  | idle | holding => simp [spinlockStep,hpc] at h
  | read | pause | innerRead | yield =>
    simp only [spinlockStep,hpc,Option.some.injEq] at h
    rw [← h,setPc_pc]
    simp [spinlockStep,setPc_pc]
  | swap | innerSwap =>
    simp only [spinlockStep,hpc,Option.some.injEq] at h
    rw [← h,trySwap_pc]
    simp [spinlockStep,trySwap_pc]

/-- The value of the lock word that thread `i` sees in an event. -/
def seen (i : ι) (s : State ι) : Event ι → List ℤ
  | .tick j => if j = i then [s.word] else []
  | _ => []

/-- The values that it sees in a run. -/
def observed (which : ι → ℤ) (i : ι) (s : State ι) : List (Event ι) → List ℤ
  | [] => []
  | e::es =>
    seen i s e++
      match step which s e with
      | none => []
      | some s' => observed which i s' es

/-- An event that is not a call by thread `i`, and does not count the processors. -/
def Event.Inside (i : ι) : Event ι → Prop
  | .init _ => False
  | .lock j => j ≠ i
  | .tick _ => True
  | .unlock j => j ≠ i

lemma setPc_other (s : State ι) {i j : ι} (hij : i ≠ j) (pc : Pc) : (s.setPc j pc).pc i = s.pc i :=
  Function.update_of_ne hij _ _

lemma trySwap_other (s : State ι) {i j : ι} (hij : i ≠ j) (which : ℤ) (failed : Pc) :
    (trySwap s j which failed).pc i = s.pc i := by
  unfold trySwap compareAndSwap
  by_cases hword : s.word = 0 <;> simp [hword,State.setPc,hij]

lemma trySwap_ncpu (s : State ι) (j : ι) (which : ℤ) (failed : Pc) :
    (trySwap s j which failed).ncpu = s.ncpu := by
  unfold trySwap compareAndSwap
  by_cases hword : s.word = 0 <;> simp [hword,State.setPc]

/-- A step of another thread does not move this one. -/
lemma spinlockStep_other {j : ι} (hij : i ≠ j) (h : spinlockStep s j (which j) = some s') : s'.pc i = s.pc i := by
  obtain ⟨_,⟨pc,_,rfl⟩ | ⟨failed,_,rfl⟩⟩ := spinlockStep_cases h
  · exact setPc_other s hij pc
  · exact trySwap_other s hij _ failed

lemma spinlockStep_ncpu {j : ι} (h : spinlockStep s j (which j) = some s') : s'.ncpu = s.ncpu := by
  obtain ⟨_,⟨pc,_,rfl⟩ | ⟨failed,_,rfl⟩⟩ := spinlockStep_cases h
  · rfl
  · exact trySwap_ncpu s j _ failed

lemma step_seen {e : Event ι} (he : e.Inside i) (h : step which s e = some s') :
    s'.ncpu = s.ncpu ∧ s'.pc i = (seen i s e).foldl (threadStep s.ncpu) (s.pc i) := by
  cases e with
  | init online => exact he.elim
  | lock j =>
    simp only [step] at h
    split at h
    · obtain rfl := Option.some.inj h
      exact ⟨rfl,setPc_other s (Ne.symm he) _⟩
    · cases h
  | tick j =>
    refine ⟨spinlockStep_ncpu h,?_⟩
    by_cases hj : j = i
    · subst hj
      have hseen : seen j s (.tick j) = [s.word] := if_pos rfl
      rw [hseen]
      exact spinlockStep_pc h
    · have hseen : seen i s (.tick j) = [] := if_neg hj
      rw [hseen]
      exact spinlockStep_other (Ne.symm hj) h
  | unlock j =>
    obtain rfl := Option.some.inj h
    refine ⟨rfl,?_⟩
    change (if s.pc j = .holding then Function.update s.pc j .idle else s.pc) i = s.pc i
    split
    · exact Function.update_of_ne (Ne.symm he) _ _
    · rfl

/-- In every run of the system the places of a thread follow from the words that it sees. -/
theorem run_observed {es : List (Event ι)} (hes : ∀ e ∈ es, e.Inside i) (h : run (step which) s es = some s') :
    s'.pc i = (observed which i s es).foldl (threadStep s.ncpu) (s.pc i) := by
  induction es generalizing s with
  | nil => exact Option.some.inj h ▸ rfl
  | cons e es ih =>
    obtain ⟨t,ht,hrest⟩ := Option.bind_eq_some_iff.mp h
    rw [List.forall_mem_cons] at hes
    obtain ⟨hncpu,hpc⟩ := step_seen hes.1 ht
    rw [ih hes.2 hrest,hncpu,hpc,observed,ht,List.foldl_append]

/-! ### A pass through the loop -/

section Places
variable (ncpu word n : ℤ)

lemma threadStep_innerRead :
    threadStep ncpu (.innerRead n) word = if word = 0 then .innerSwap n else innerLoop n := by
  simp [threadStep,spinlockStep,setPc_pc,afterInnerTry]

lemma threadStep_innerSwap : threadStep ncpu (.innerSwap n) word = if word = 0 then .holding else innerLoop n := by
  simp [threadStep,spinlockStep,trySwap_pc,afterInnerTry]

end Places

/-- The places of an iteration after its start. -/
def InIteration (n : ℤ) : Pc → Prop
  | .pause m k => m = n ∧ 0 < k
  | .innerRead m => m = n
  | .innerSwap m => m = n
  | _ => False

/-- The loop as it is meant, from the test of `n` at step `k` on: it ends with `sched_yield` when `n` has reached
129; else it takes the lock in the iteration of `n`, or goes on with `2*n` after it. -/
inductive BacksOff (place : ℕ → Pc) : ℕ → ℤ → Prop
  | yields {k : ℕ} {n : ℤ} (hn : 129 ≤ n) (hend : place k = .yield) : BacksOff place k n
  | takes {k m : ℕ} {n : ℤ} (hn : n < 129) (hbegin : place k = .pause n 0) (hkm : k < m)
    (hin : ∀ j, k < j → j < m → InIteration n (place j)) (hend : place m = .holding) : BacksOff place k n
  | doubles {k m : ℕ} {n : ℤ} (hn : n < 129) (hbegin : place k = .pause n 0) (hkm : k < m)
    (hin : ∀ j, k < j → j < m → InIteration n (place j)) (hrest : BacksOff place m (2*n)) : BacksOff place k n

section Pass
variable {ncpu : ℤ} {obs : ℕ → ℤ}

/-- The places of the loop as it is: `n` stays 1. -/
inductive Stuck : Pc → Prop
  | begin : Stuck (.pause 1 0)
  | paused : Stuck (.pause 1 1)
  | read : Stuck (.innerRead 1)
  | swap : Stuck (.innerSwap 1)
  | taken : Stuck .holding

lemma Stuck.step {pc : Pc} (h : Stuck pc) (word : ℤ) : Stuck (threadStep ncpu pc word) := by
  cases h with
  | begin => exact .paused
  | paused => exact .read
  | read =>
    rw [threadStep_innerRead]
    split
    · exact .swap
    · exact .begin
  | swap =>
    rw [threadStep_innerSwap]
    split
    · exact .taken
    · exact .begin
  | taken => exact .taken

lemma path_stuck (hncpu : 1 < ncpu) (obs : ℕ → ℤ) (k : ℕ) : Stuck (path ncpu obs (afterTry ncpu) k) := by
  induction k with
  | zero =>
    have hstart : afterTry ncpu = .pause 1 0 := if_pos hncpu
    rw [hstart]
    exact .begin
  | succ k ih =>
    rw [path_succ]
    exact ih.step _

/-- The first iteration, if the lock is not taken in it, leads back to its start. -/
lemma path_first (hncpu : 1 < ncpu) (obs : ℕ → ℤ) :
    path ncpu obs (afterTry ncpu) 0 = .pause 1 0 ∧ path ncpu obs (afterTry ncpu) 1 = .pause 1 1 ∧
    path ncpu obs (afterTry ncpu) 2 = .innerRead 1 ∧
    path ncpu obs (afterTry ncpu) 3 = if obs 2 = 0 then .innerSwap 1 else .pause 1 0 := by
  have h0 : path ncpu obs (afterTry ncpu) 0 = .pause 1 0 := if_pos hncpu
  have h1 : path ncpu obs (afterTry ncpu) 1 = .pause 1 1 := by
    rw [path_succ,h0]
    rfl
  have h2 : path ncpu obs (afterTry ncpu) 2 = .innerRead 1 := by
    rw [path_succ,h1]
    rfl
  refine ⟨h0,h1,h2,?_⟩
  rw [path_succ,h2,threadStep_innerRead]
  rfl

/-- Once the loop goes on after the iteration of 1, it does not double. -/
lemma not_backsOff_two (hncpu : 1 < ncpu) (obs : ℕ → ℤ) (k : ℕ) :
    ¬BacksOff (path ncpu obs (afterTry ncpu)) k 2 := by
  intro h
  have hstuck := path_stuck hncpu obs k
  cases h with
  | yields hn => omega
  | takes _ hbegin =>
    rw [hbegin] at hstuck
    cases hstuck
  | doubles _ hbegin =>
    rw [hbegin] at hstuck
    cases hstuck

/-- The swap of the first iteration. -/
lemma path_swap (hncpu : 1 < ncpu) {obs : ℕ → ℤ} (hread : obs 2 = 0) :
    path ncpu obs (afterTry ncpu) 4 = if obs 3 = 0 then .holding else .pause 1 0 := by
  rw [path_succ,(path_first hncpu obs).2.2.2,if_pos hread,threadStep_innerSwap]
  rfl

/-- Where the header is kept, the lock is taken in the first iteration. -/
lemma BacksOff.free (hncpu : 1 < ncpu) {obs : ℕ → ℤ} (h : BacksOff (path ncpu obs (afterTry ncpu)) 0 1) :
    obs 2 = 0 ∧ obs 3 = 0 := by
  obtain ⟨h0,h1,h2,h3⟩ := path_first hncpu obs
  cases h with
  | yields hn => omega
  | @takes _ m _ _ _ hkm hin hend =>
    have hgone (j : ℕ) (hj : 0 < j) (hjm : j ≤ m) : path ncpu obs (afterTry ncpu) j ≠ .pause 1 0 := by
      intro hback
      rcases hjm.lt_or_eq with hlt | rfl
      · have hplace := hin j hj hlt
        rw [hback] at hplace
        exact absurd hplace.2 (lt_irrefl 0)
      · rw [hback] at hend
        cases hend
    have hm1 : m ≠ 1 := by
      rintro rfl
      rw [h1] at hend
      cases hend
    have hm2 : m ≠ 2 := by
      rintro rfl
      rw [h2] at hend
      cases hend
    have hread : obs 2 = 0 := by
      by_contra hbusy
      exact hgone 3 (by omega) (by omega) (h3.trans (if_neg hbusy))
    have hm3 : m ≠ 3 := by
      rintro rfl
      rw [h3,if_pos hread] at hend
      cases hend
    refine ⟨hread,?_⟩
    by_contra hbusy
    exact hgone 4 (by omega) (by omega) ((path_swap hncpu hread).trans (if_neg hbusy))
  | @doubles _ m _ _ _ hkm hin hrest => exact absurd hrest (not_backsOff_two hncpu obs m)

lemma backsOff_of_free (hncpu : 1 < ncpu) {obs : ℕ → ℤ} (hread : obs 2 = 0) (hswap : obs 3 = 0) :
    BacksOff (path ncpu obs (afterTry ncpu)) 0 1 := by
  obtain ⟨h0,h1,h2,h3⟩ := path_first hncpu obs
  refine BacksOff.takes (m := 4) (by decide) h0 (by decide) (fun j hj hjm => ?_)
    ((path_swap hncpu hread).trans (if_pos hswap))
  have hj : j = 1 ∨ j = 2 ∨ j = 3 := by omega
  rcases hj with rfl | rfl | rfl
  · rw [h1]
    exact ⟨rfl,by decide⟩
  · rw [h2]
    rfl
  · rw [h3,if_pos hread]
    rfl

/-- A pass through the loop is as it is meant exactly if the thread finds the lock free at its first try and takes
it: otherwise the loop goes on with `n` as it was. -/
theorem backsOff_iff (hncpu : 1 < ncpu) (obs : ℕ → ℤ) :
    BacksOff (path ncpu obs (afterTry ncpu)) 0 1 ↔ obs 2 = 0 ∧ obs 3 = 0 :=
  ⟨fun h => h.free hncpu,fun h => backsOff_of_free hncpu h.1 h.2⟩

theorem backsOff_free : BacksOff (path 2 (fun _ => 0) (afterTry 2)) 0 1 :=
  (backsOff_iff (by decide) fun _ => 0).mpr ⟨rfl,rfl⟩

/-- No pass ever comes to `sched_yield`. -/
theorem path_ne_yield (hncpu : 1 < ncpu) (obs : ℕ → ℤ) (k : ℕ) :
    path ncpu obs (afterTry ncpu) k ≠ .yield := by
  intro hend
  have hstuck := path_stuck hncpu obs k
  rw [hend] at hstuck
  cases hstuck

/-- While the word is not zero, the loop goes round and round. -/
lemma path_ne_holding (hncpu : 1 < ncpu) {obs : ℕ → ℤ} (hbusy : ∀ k, obs k ≠ 0) (k : ℕ) :
    path ncpu obs (afterTry ncpu) k ≠ .holding := by
  have hround : path ncpu obs (afterTry ncpu) k = .pause 1 0 ∨ path ncpu obs (afterTry ncpu) k = .pause 1 1 ∨
      path ncpu obs (afterTry ncpu) k = .innerRead 1 := by
    induction k with
    | zero => exact Or.inl (if_pos hncpu)
    | succ k ih =>
      rw [path_succ]
      rcases ih with hk | hk | hk
      · rw [hk]
        exact Or.inr (Or.inl rfl)
      · rw [hk]
        exact Or.inr (Or.inr rfl)
      · rw [hk,threadStep_innerRead,if_neg (hbusy k)]
        exact Or.inl rfl
  intro hend
  rw [hend] at hround
  simp at hround

end Pass

/-- Another thread keeps the lock: the loop never ends. -/
theorem backOff_endless : ¬BacksOff (path 2 (fun _ => 7) (afterTry 2)) 0 1 ∧
    ∀ k, path 2 (fun _ => 7) (afterTry 2) k ≠ .yield ∧ path 2 (fun _ => 7) (afterTry 2) k ≠ .holding := by
  constructor
  · intro h
    exact absurd (h.free (by decide)).1 (by decide)
  · intro k
    exact ⟨path_ne_yield (by decide) _ k,path_ne_holding (by decide) (fun _ => by decide) k⟩

end JustKit.Spinlock
