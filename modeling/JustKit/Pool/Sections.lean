import JustKit.Foundations.Blocks
import JustKit.Pool.Threads
import JustKit.Pool.Invariant

/-! What holds between any two accesses to the pool: at most one thread is between lock and unlock, the list of
tasks ends, every block of a task is in the list or with one thread, and the counter is off by what the thread
with the mutex is about to do. -/
namespace JustKit.Pool.Threads
open Foundations Foundations.Transition Foundations.LinkedCells

/-! ### What a program counter says -/

/-- The worker is between lock and unlock. -/
def WorkerPc.inside : WorkerPc → Bool
  | .locked | .checking | .blocking | .testing | .quitting | .taking | .took _ | .unlinking _ _ | .unlinked _
  | .counting _ _ | .counted _ => true
  | .top | .waiting | .woken | .holding _ | .called _ | .finished _ | .exited => false

/-- The task that the worker has taken off the list. -/
def WorkerPc.blocks : WorkerPc → List ℕ
  | .unlinked a | .counting a _ | .counted a | .holding a | .called a | .finished a => [a]
  | _ => []

/-- How far the counter is above the length of the list. -/
def WorkerPc.lag : WorkerPc → ℤ
  | .unlinked _ | .counting _ _ => 1
  | _ => 0

section Pushers
variable {β : Type}

def PusherPc.inside : PusherPc β → Bool
  | .idle | .filled _ _ => false
  | .locked _ _ | .linking _ _ _ | .linked _ _ | .stored _ | .counting _ _ | .counted _ | .signalled => true

/-- The task that is not in the list yet. -/
def PusherPc.blocks : PusherPc β → List ℕ
  | .filled _ a | .locked _ a | .linking _ a _ | .linked _ a => [a]
  | _ => []

def PusherPc.lag : PusherPc β → ℤ
  | .stored _ | .counting _ _ => -1
  | _ => 0

end Pushers

def DestroyerPc.inside : DestroyerPc → Bool
  | .locked | .flagged | .broadcasted => true
  | _ => false

/-- All workers are joined. -/
def DestroyerPc.alone : DestroyerPc → Bool
  | .freeing _ | .dropping _ _ | .dropped _ | .counting _ _ | .done => true
  | _ => false

def DestroyerPc.lag : DestroyerPc → ℤ
  | .dropped _ | .counting _ _ => 1
  | _ => 0

/-- `quit_flag` is set. -/
def DestroyerPc.quits : DestroyerPc → Bool
  | .idle | .called | .locked => false
  | _ => true

/-- Where the thread is in terms of whole sections: the broadcast is the moment of the call. -/
def DestroyerPc.section : DestroyerPc → Destroy
  | .idle | .called | .locked | .flagged => .idle
  | .broadcasted => .joining 0
  | .joining i => .joining i
  | .freeing _ | .dropping _ _ | .dropped _ | .counting _ _ => .freeing
  | .done => .done

variable {n m : ℕ} {φ α β : Type}

def Thread.inside : (x : Thread n m) → x.Pc β → Bool
  | .worker _,pc => WorkerPc.inside pc
  | .pusher _,pc => PusherPc.inside pc
  | .destroyer,pc => DestroyerPc.inside pc

/-- The thread has the list for itself: it has the mutex, or is the only one left. -/
def Thread.busy : (x : Thread n m) → x.Pc β → Bool
  | .worker _,pc => WorkerPc.inside pc
  | .pusher _,pc => PusherPc.inside pc
  | .destroyer,pc => DestroyerPc.inside pc || DestroyerPc.alone pc

def Thread.blocks : (x : Thread n m) → x.Pc β → List ℕ
  | .worker _,pc => WorkerPc.blocks pc
  | .pusher _,pc => PusherPc.blocks pc
  | .destroyer,_ => []

def Thread.lag : (x : Thread n m) → x.Pc β → ℤ
  | .worker _,pc => WorkerPc.lag pc
  | .pusher _,pc => PusherPc.lag pc
  | .destroyer,pc => DestroyerPc.lag pc

/-- Where the list starts that is not freed yet. -/
def State.head (s : State n m φ α) : Option ℕ :=
  match s.destroyer with
  | .freeing p => p
  | .dropping a _ => some a
  | .dropped p => p
  | .counting p _ => p
  | .done => none
  | _ => s.waitTasks

/-- The blocks of the list, and those of each thread. -/
def State.blocks (s : State n m φ α) (xs : List (ℕ × Job φ α)) : Option (Thread n m) → List ℕ
  | none => xs.map Prod.fst
  | some x => x.blocks (s.pc x)

section Fits
variable (s : State n m φ α) (xs : List (ℕ × Job φ α))

/-- The variables of a worker, and what it has found out, are still right. -/
def WorkerPc.Fits : WorkerPc → Prop
  | .checking => s.quitFlag = false
  | .blocking => s.quitFlag = false ∧ s.taskNums ≤ 0
  | .testing => s.quitFlag = false → 0 < s.taskNums
  | .quitting => s.quitFlag = true
  | .taking => s.quitFlag = false ∧ 0 < s.taskNums
  | .took p => s.quitFlag = false ∧ 0 < s.taskNums ∧ p = s.waitTasks
  | .unlinking a p =>
    s.quitFlag = false ∧ 0 < s.taskNums ∧ s.waitTasks = some a ∧ ∃ b, s.tasks a = some ⟨b,p⟩
  | .counting _ k => k = s.taskNums
  | _ => True

/-- The job is the first of the list. -/
def First (job : Job φ α) : Prop := ∃ a rest, xs = (a,job)::rest

def PusherPc.Fits : PusherPc (Job φ α) → Prop
  | .filled job a | .locked job a => ∃ q, s.tasks a = some ⟨job,q⟩
  | .linking job a p => (∃ q, s.tasks a = some ⟨job,q⟩) ∧ p = s.waitTasks
  | .linked job a => s.tasks a = some ⟨job,s.waitTasks⟩
  | .stored job | .counted job => First xs job
  | .counting job k => First xs job ∧ k = s.taskNums
  | _ => True

def DestroyerPc.Fits : DestroyerPc → Prop
  | .dropping a p => ∃ b, s.tasks a = some ⟨b,p⟩
  | .counting _ k => k = s.taskNums
  | _ => True

def Thread.Fits : (x : Thread n m) → x.Pc (Job φ α) → Prop
  | .worker _,pc => WorkerPc.Fits s pc
  | .pusher _,pc => PusherPc.Fits s xs pc
  | .destroyer,pc => DestroyerPc.Fits s pc

end Fits

/-- The order of `jk_thread_pool_destroy`: no push is under way, the flag is set, and each worker joined has
exited. -/
structure Phases (s : State n m φ α) : Prop where
  flag : s.quitFlag = s.destroyer.quits
  joined : ∀ i : Fin n, s.destroyer.section.Joined i → s.worker i = .exited
  quiet : s.destroyer ≠ .idle → ∀ j, s.pusher j = .idle

/-- The invariant, with the blocks and jobs of the list. -/
structure Consistent (s : State n m φ α) (xs : List (ℕ × Job φ α)) : Prop where
  safe : s.fault = false
  path : Path s.tasks s.head xs none
  blocks : Held s.tasks (s.blocks xs)
  mutex : ∀ x : Thread n m, x.inside (s.pc x) = true ↔ s.owner = some x
  fits : ∀ x : Thread n m, x.Fits s xs (s.pc x)
  busy : ∀ x : Thread n m, x.busy (s.pc x) = true → s.taskNums = wrap 32 (xs.length+x.lag (s.pc x))
  count : (∀ x : Thread n m, x.busy (s.pc x) = false) → s.taskNums = wrap 32 xs.length
  phases : Phases s

theorem start_consistent : Consistent (start n m φ α) [] where
  safe := rfl
  path := rfl
  blocks := by
    apply Held.nothing
    rintro (_ | _ | _ | _) <;> rfl
  mutex x := by
    cases x <;> simp [start,Thread.inside,WorkerPc.inside,PusherPc.inside,DestroyerPc.inside]
  fits x := by
    cases x <;> trivial
  busy x hx := by
    cases x <;> cases hx
  count _ := show (0 : ℤ) = wrap 32 0 by decide
  phases := ⟨rfl,fun _ h => h.elim,fun _ _ => rfl⟩

/-! ### One thread moves -/

lemma Thread.busy_of_inside {x : Thread n m} {pc : x.Pc β} (h : x.inside pc = true) : x.busy pc = true := by
  cases x with
  | worker | pusher => exact h
  | destroyer => exact Bool.or_eq_true_iff.mpr (Or.inl h)

lemma Thread.inside_of_not_busy {x : Thread n m} {pc : x.Pc β} (h : x.busy pc = false) : x.inside pc = false := by
  cases hi : x.inside pc with
  | false => rfl
  | true => rw [Thread.busy_of_inside hi] at h; cases h

lemma State.head_eq {s : State n m φ α} (hd : s.destroyer.alone = false) : s.head = s.waitTasks := by
  unfold State.head
  cases h : s.destroyer <;> simp_all [DestroyerPc.alone]

section Consistent
variable {s s' : State n m φ α} {xs xs' : List (ℕ × Job φ α)} {x : Thread n m} {pc : x.Pc (Job φ α)}

/-- Once the workers are joined, no other thread has the list. -/
lemma Phases.alone (h : Phases s) (hd : s.destroyer.alone = true) (hx : x ≠ .destroyer) :
    x.busy (s.pc x) = false := by
  cases x with
  | worker i =>
    have hexit : s.worker i = .exited := by
      apply h.joined i
      cases hdest : s.destroyer <;> simp_all [DestroyerPc.alone,DestroyerPc.section,Destroy.Joined]
    exact congrArg WorkerPc.inside hexit
  | pusher j =>
    have hidle : s.pusher j = .idle := h.quiet (fun hidle => by simp [hidle,DestroyerPc.alone] at hd) j
    exact congrArg PusherPc.inside hidle
  | destroyer => exact absurd rfl hx

/-- One thread has the list at a time. -/
theorem Consistent.turn (h : Consistent s xs) (hx : x.busy (s.pc x) = true) {y : Thread n m} (hy : y ≠ x) :
    y.busy (s.pc y) = false := by
  by_contra hb
  have hb : y.busy (s.pc y) = true := by simpa using hb
  have hcases : ∀ z : Thread n m, z.busy (s.pc z) = true → s.owner = some z ∨ z = .destroyer ∧
      s.destroyer.alone = true := by
    intro z hz
    cases z with
    | worker | pusher => exact Or.inl ((h.mutex _).mp hz)
    | destroyer => exact (Bool.or_eq_true_iff.mp hz).imp (h.mutex _).mp fun ha => ⟨rfl,ha⟩
  rcases hcases x hx with hox | ⟨rfl,ha⟩ <;> rcases hcases y hb with hoy | ⟨rfl,ha'⟩
  · exact hy (Option.some.inj (hoy.symm.trans hox))
  · rw [h.phases.alone ha' (Ne.symm hy)] at hx
    cases hx
  · rw [h.phases.alone ha hy] at hb
    cases hb
  · exact hy rfl

/-- A thread moves, and the others stay where they are. -/
lemma State.pc_of_ne (hpc : s'.pc = Function.update s.pc x pc) {y : Thread n m}
    (hy : y ≠ x) : s'.pc y = s.pc y := by
  rw [hpc,Function.update_of_ne hy]

lemma State.blocks_update (xs xs' : List (ℕ × Job φ α)) (hpc : s'.pc = Function.update s.pc x pc) :
    s'.blocks xs' (some x) = x.blocks pc ∧ ∀ y, y ≠ x → s'.blocks xs' (some y) = s.blocks xs (some y) := by
  constructor
  · simp [State.blocks,hpc]
  · intro y hy
    simp [State.blocks,hpc,hy]

/-- The list and the thread that moves keep their blocks. -/
lemma State.blocks_same (hpc : s'.pc = Function.update s.pc x pc) (hb : x.blocks pc = x.blocks (s.pc x))
    (k : Option (Thread n m)) : s'.blocks xs k = s.blocks xs k := by
  obtain ⟨hx,hrest⟩ := State.blocks_update xs xs hpc
  cases k with
  | none => rfl
  | some y =>
    by_cases hy : y = x
    · subst hy
      exact hx.trans hb
    · exact hrest y hy

/-- What a thread without the list knows depends on its own block only. -/
lemma Thread.Fits.outside (h : x.Fits s xs pc) (hb : x.busy pc = false)
    (htasks : ∀ a ∈ x.blocks pc, s'.tasks a = s.tasks a) : x.Fits s' xs' pc := by
  cases x with
  | worker i =>
    cases (pc : WorkerPc) <;> trivial
  | pusher j =>
    cases (pc : PusherPc (Job φ α)) with
    | filled job a =>
      obtain ⟨q,hq⟩ := h
      exact ⟨q,(htasks a List.mem_cons_self).trans hq⟩
    | idle => trivial
    | _ => cases hb
  | destroyer =>
    cases (pc : DestroyerPc) <;> trivial

/-- The first task of the list. -/
lemma Consistent.first (h : Consistent s xs) (hd : s.destroyer.alone = false) {a : ℕ} (ha : s.waitTasks = some a) :
    ∃ b q rest, xs = (a,b)::rest ∧ s.tasks a = some ⟨b,q⟩ := by
  have hp := h.path
  rw [State.head_eq hd,ha] at hp
  cases xs with
  | nil => cases hp
  | cons c rest =>
    obtain ⟨heq,q,hq,_⟩ := hp
    obtain rfl := Option.some.inj heq
    exact ⟨c.2,q,rest,rfl,hq⟩

/-- The fields that only a thread with the mutex writes are as before. -/
structure Same (s s' : State n m φ α) : Prop where
  owner : s'.owner = s.owner
  waitTasks : s'.waitTasks = s.waitTasks
  taskNums : s'.taskNums = s.taskNums
  quitFlag : s'.quitFlag = s.quitFlag
  fault : s'.fault = s.fault

/-- A thread that has the list does not notice what happens to the blocks of others. -/
lemma Consistent.fits_same (h : Consistent s xs) (hsame : Same s s') (hd : s.destroyer.alone = false)
    (htasks : ∀ a k, a ∈ s.blocks xs k → k ≠ some x → s'.tasks a = s.tasks a) (y : Thread n m)
    (hy : y ≠ x) :
    y.Fits s' xs (s.pc y) := by
  have hfits := h.fits y
  have hown : ∀ a ∈ y.blocks (s.pc y), s'.tasks a = s.tasks a :=
    fun a ha => htasks a (some y) ha fun he => hy (Option.some.inj he)
  cases y with
  | worker i =>
    change WorkerPc.Fits s (s.worker i) at hfits
    change WorkerPc.Fits s' (s.worker i)
    cases hpc : s.worker i with
    | unlinking a p =>
      rw [hpc] at hfits
      obtain ⟨hq,hn,hw,hb⟩ := hfits
      obtain ⟨b,q,rest,rfl,_⟩ := h.first hd hw
      have ha := htasks a none List.mem_cons_self (by simp)
      exact ⟨hsame.quitFlag.trans hq,hsame.taskNums ▸ hn,hsame.waitTasks.trans hw,ha ▸ hb⟩
    | checking | blocking | testing | quitting | taking | took | counting =>
      rw [hpc] at hfits
      simpa only [WorkerPc.Fits,hsame.waitTasks,hsame.taskNums,hsame.quitFlag] using hfits
    | _ => trivial
  | pusher j =>
    change PusherPc.Fits s xs (s.pusher j) at hfits
    change PusherPc.Fits s' xs (s.pusher j)
    change ∀ a ∈ (s.pusher j).blocks, _ at hown
    cases hpc : s.pusher j with
    | filled job a | locked job a | linking job a p | linked job a =>
      rw [hpc] at hfits hown
      have ha := hown a List.mem_cons_self
      simpa only [PusherPc.Fits,hsame.waitTasks,ha] using hfits
    | stored | counting | counted =>
      rw [hpc] at hfits
      simpa only [PusherPc.Fits,hsame.taskNums] using hfits
    | idle | signalled => trivial
  | destroyer =>
    change DestroyerPc.Fits s' s.destroyer
    cases hpc : s.destroyer with
    | dropping | counting => simp [hpc,DestroyerPc.alone] at hd
    | _ => trivial

/-- A thread without the mutex moves. -/
theorem Consistent.outside (h : Consistent s xs) (hsame : Same s s') (hd : s.destroyer.alone = false)
    (hpc : s'.pc = Function.update s.pc x pc) (hx : x.busy (s.pc x) = false) (hx' : x.busy pc = false)
    (htasks : ∀ a k, a ∈ s.blocks xs k → k ≠ some x → s'.tasks a = s.tasks a)
    (hblocks : Held s'.tasks (s'.blocks xs)) (hfits : x.Fits s' xs pc) (hhead : s'.head = s.head)
    (hphases : Phases s') : Consistent s' xs := by
  have hother : ∀ y, y ≠ x → s'.pc y = s.pc y := fun _ => State.pc_of_ne hpc
  have hself : s'.pc x = pc := by rw [hpc,Function.update_self]
  refine ⟨hsame.fault.trans h.safe,?_,hblocks,fun y => ?_,fun y => ?_,fun y hy => ?_,fun hfree => ?_,hphases⟩
  · rw [hhead]
    exact h.path.congr fun a ha => htasks a none ha (by simp)
  · rw [hsame.owner]
    by_cases hy : y = x
    · subst hy
      rw [hself,← h.mutex,Thread.inside_of_not_busy hx',Thread.inside_of_not_busy hx]
    · rw [hother y hy]
      exact h.mutex y
  · by_cases hy : y = x
    · subst hy
      rw [hself]
      exact hfits
    · rw [hother y hy]
      exact h.fits_same hsame hd htasks y hy
  · by_cases hyx : y = x
    · subst hyx
      rw [hself,hx'] at hy
      cases hy
    · rw [hother y hyx] at hy ⊢
      rw [hsame.taskNums]
      exact h.busy y hy
  · rw [hsame.taskNums]
    apply h.count
    intro y
    by_cases hyx : y = x
    · subst hyx
      exact hx
    · rw [← hother y hyx]
      exact hfree y

/-- The thread that has the list moves, and keeps it. -/
theorem Consistent.inside (h : Consistent s xs) (hx : x.busy (s.pc x) = true)
    (hpc : s'.pc = Function.update s.pc x pc) (hx' : x.busy pc = true) (hin : x.inside pc = x.inside (s.pc x))
    (howner : s'.owner = s.owner) (hfault : s'.fault = s.fault)
    (htasks : ∀ y, y ≠ x → ∀ a ∈ y.blocks (s.pc y), s'.tasks a = s.tasks a)
    (hpath : Path s'.tasks s'.head xs' none) (hblocks : Held s'.tasks (s'.blocks xs')) (hfits : x.Fits s' xs' pc)
    (hnums : s'.taskNums = wrap 32 (xs'.length+x.lag pc)) (hphases : Phases s') : Consistent s' xs' := by
  have hother : ∀ y, y ≠ x → s'.pc y = s.pc y := fun _ => State.pc_of_ne hpc
  have hself : s'.pc x = pc := by rw [hpc,Function.update_self]
  refine ⟨hfault.trans h.safe,hpath,hblocks,fun y => ?_,fun y => ?_,fun y hy => ?_,fun hfree => ?_,hphases⟩
  · rw [howner]
    by_cases hy : y = x
    · subst hy
      rw [hself,hin]
      exact h.mutex y
    · rw [hother y hy]
      exact h.mutex y
  · by_cases hy : y = x
    · subst hy
      rw [hself]
      exact hfits
    · rw [hother y hy]
      exact (h.fits y).outside (h.turn hx hy) (htasks y hy)
  · by_cases hyx : y = x
    · subst hyx
      rw [hself]
      exact hnums
    · rw [hother y hyx,h.turn hx hyx] at hy
      cases hy
  · have hbusy := hfree x
    rw [hself,hx'] at hbusy
    cases hbusy

/-- A thread that has the list reads or computes something. -/
theorem Consistent.compute (h : Consistent s xs) (hx : x.busy (s.pc x) = true) (hx' : x.busy pc = true)
    (hin : x.inside pc = x.inside (s.pc x)) (hb : x.blocks pc = x.blocks (s.pc x)) (hlag : x.lag pc = x.lag (s.pc x))
    (hhead : (s.setPc x pc).head = s.head) (hfits : x.Fits (s.setPc x pc) xs pc) (hphases : Phases (s.setPc x pc)) :
    Consistent (s.setPc x pc) xs := by
  apply h.inside hx (show (s.setPc x pc).pc = Function.update s.pc x pc from rfl) hx' hin rfl rfl
    (fun _ _ _ _ => rfl) ?_ ?_
    hfits ?_ hphases
  · rw [hhead]
    exact h.path
  · exact h.blocks.congr (State.blocks_same rfl hb)
  · rw [hlag]
    exact h.busy x hx

/-- A thread gets the mutex. -/
theorem Consistent.acquire (h : Consistent s xs) (hd : s.destroyer.alone = false) (hx : x.busy (s.pc x) = false)
    (hx' : x.inside pc = true) (hb : x.blocks pc = x.blocks (s.pc x)) (hlag : x.lag pc = 0) (hfits : x.Fits s xs pc)
    (hhead : (s.setPc x pc).head = s.head) (hphases : Phases (s.setPc x pc)) (hacq : s.acquire x pc = some s') :
    Consistent s' xs := by
  unfold State.acquire at hacq
  split at hacq
  · rename_i howner
    obtain rfl := Option.some.inj hacq
    have hout : ∀ y : Thread n m, y.inside (s.pc y) = false := by
      intro y
      cases hy : y.inside (s.pc y) with
      | false => rfl
      | true => cases howner.symm.trans ((h.mutex y).mp hy)
    have hfree : ∀ y : Thread n m, y.busy (s.pc y) = false := by
      intro y
      have hy := hout y
      cases y with
      | worker | pusher => exact hy
      | destroyer => exact Bool.or_eq_false_iff.mpr ⟨hy,hd⟩
    have hother : ∀ y, y ≠ x → Function.update s.pc x pc y = s.pc y :=
      fun y hy => Function.update_of_ne hy pc s.pc
    refine ⟨h.safe,?_,h.blocks.congr (State.blocks_same rfl hb),fun y => ?_,fun y => ?_,fun y hy => ?_,
      fun hall => ?_,⟨hphases.flag,hphases.joined,hphases.quiet⟩⟩
    · change Path s.tasks (s.setPc x pc).head xs none
      rw [hhead]
      exact h.path
    · change y.inside (Function.update s.pc x pc y) = true ↔ some x = some y
      by_cases hy : y = x
      · subst hy
        simp [hx']
      · rw [hother y hy,hout y]
        simp [Ne.symm hy]
    · change y.Fits _ xs (Function.update s.pc x pc y)
      by_cases hy : y = x
      · subst hy
        rw [Function.update_self]
        cases y <;> exact hfits
      · rw [hother y hy]
        exact (h.fits y).outside (hfree y) fun _ _ => rfl
    · change y.busy (Function.update s.pc x pc y) = true at hy
      change s.taskNums = wrap 32 (xs.length+y.lag (Function.update s.pc x pc y))
      by_cases hyx : y = x
      · subst hyx
        rw [Function.update_self,hlag,add_zero]
        exact h.count hfree
      · rw [hother y hyx,hfree y] at hy
        cases hy
    · have hbusy : x.busy (Function.update s.pc x pc x) = false := hall x
      rw [Function.update_self,Thread.busy_of_inside hx'] at hbusy
      cases hbusy
  · cases hacq

/-- A thread gives the mutex back. -/
theorem Consistent.release (h : Consistent s xs) (hx : x.inside (s.pc x) = true) (hx' : x.busy pc = false)
    (hb : x.blocks pc = x.blocks (s.pc x)) (hlag : x.lag (s.pc x) = 0) (hfits : x.Fits s xs pc)
    (hhead : (s.setPc x pc).head = s.head) (hphases : Phases (s.setPc x pc)) : Consistent (s.release x pc) xs := by
  have howner := (h.mutex x).mp hx
  have hbusy := Thread.busy_of_inside hx
  rw [State.release,if_pos howner]
  have hother : ∀ y, y ≠ x → Function.update s.pc x pc y = s.pc y :=
    fun y hy => Function.update_of_ne hy pc s.pc
  refine ⟨h.safe,?_,h.blocks.congr (State.blocks_same rfl hb),fun y => ?_,fun y => ?_,fun y hy => ?_,fun _ => ?_,
    ⟨hphases.flag,hphases.joined,hphases.quiet⟩⟩
  · change Path s.tasks (s.setPc x pc).head xs none
    rw [hhead]
    exact h.path
  · change y.inside (Function.update s.pc x pc y) = true ↔ none = some y
    by_cases hy : y = x
    · subst hy
      rw [Function.update_self,Thread.inside_of_not_busy hx']
      simp
    · rw [hother y hy,Thread.inside_of_not_busy (h.turn hbusy hy)]
      simp
  · change y.Fits _ xs (Function.update s.pc x pc y)
    by_cases hy : y = x
    · subst hy
      rw [Function.update_self]
      cases y <;> exact hfits
    · rw [hother y hy]
      exact (h.fits y).outside (h.turn hbusy hy) fun _ _ => rfl
  · change y.busy (Function.update s.pc x pc y) = true at hy
    by_cases hyx : y = x
    · subst hyx
      rw [Function.update_self,hx'] at hy
      cases hy
    · rw [hother y hyx,h.turn hbusy hyx] at hy
      cases hy
  · have hnums := h.busy x hbusy
    rwa [hlag,add_zero] at hnums

end Consistent

end JustKit.Pool.Threads
