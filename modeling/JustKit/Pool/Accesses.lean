import JustKit.Pool.Sections

/-! Every access of a worker, and of a thread that pushes, keeps the invariant. -/
namespace JustKit.Pool.Threads
open Foundations Foundations.Transition Foundations.LinkedCells
variable {n m : ℕ} {φ α : Type}

/-! ### The steps of each thread -/

/-- The list after the next access of a worker. -/
def WorkerPc.after (xs : List (ℕ × Job φ α)) : WorkerPc → List (ℕ × Job φ α)
  | .unlinking _ _ => xs.tail
  | _ => xs

def PusherPc.after (xs : List (ℕ × Job φ α)) : PusherPc (Job φ α) → List (ℕ × Job φ α)
  | .linked job a => (a,job)::xs
  | _ => xs

def DestroyerPc.after (xs : List (ℕ × Job φ α)) : DestroyerPc → List (ℕ × Job φ α)
  | .dropping _ _ => xs.tail
  | _ => xs

section Threads
variable {s s' : State n m φ α} {xs xs' : List (ℕ × Job φ α)} {i : Fin n} {j : Fin m}

lemma State.head_congr (hd : s'.destroyer = s.destroyer) (hw : s'.waitTasks = s.waitTasks) : s'.head = s.head := by
  unfold State.head
  rw [hd,hw]

lemma State.destroyer_worker {pc : WorkerPc} (hpc : s'.pc = Function.update s.pc (.worker i) pc) :
    s'.destroyer = s.destroyer := State.pc_of_ne hpc (y := .destroyer) (by simp)

lemma State.destroyer_pusher {pc : PusherPc (Job φ α)} (hpc : s'.pc = Function.update s.pc (.pusher j) pc) :
    s'.destroyer = s.destroyer := State.pc_of_ne hpc (y := .destroyer) (by simp)

lemma Phases.worker (h : Phases s) {pc : WorkerPc} (hpc : s'.pc = Function.update s.pc (.worker i) pc)
    (hne : s.worker i ≠ .exited) (hq : s'.quitFlag = s.quitFlag) : Phases s' := by
  have hd := State.destroyer_worker hpc
  refine ⟨?_,fun k hk => ?_,fun hk j => ?_⟩
  · rw [hq,hd]
    exact h.flag
  · rw [hd] at hk
    have hki : k ≠ i := fun hki => hne (hki ▸ h.joined k hk)
    exact (State.pc_of_ne hpc (y := .worker k) (by simpa using hki)).trans (h.joined k hk)
  · rw [hd] at hk
    exact (State.pc_of_ne hpc (y := .pusher j) (by simp)).trans (h.quiet hk j)

lemma Phases.pusher (h : Phases s) {pc : PusherPc (Job φ α)} (hpc : s'.pc = Function.update s.pc (.pusher j) pc)
    (hidle : s.destroyer = .idle) (hq : s'.quitFlag = s.quitFlag) : Phases s' := by
  have hd := State.destroyer_pusher hpc
  refine ⟨?_,fun k hk => ?_,fun hk => absurd (hd.trans hidle) hk⟩
  · rw [hq,hd]
    exact h.flag
  · rw [hd] at hk
    exact (State.pc_of_ne hpc (y := .worker k) (by simp)).trans (h.joined k hk)

lemma Phases.running (h : Phases s) (hne : s.worker i ≠ .exited) : s.destroyer.alone = false := by
  cases hd : s.destroyer.alone with
  | false => rfl
  | true =>
    refine absurd (h.joined i ?_) hne
    cases hdest : s.destroyer <;> simp_all [DestroyerPc.alone,DestroyerPc.section,Destroy.Joined]

lemma Phases.open (h : Phases s) (hne : s.pusher j ≠ .idle) : s.destroyer = .idle := by
  by_contra hd
  exact hne (h.quiet hd j)

lemma DestroyerPc.alone_idle {pc : DestroyerPc} (h : pc = .idle) : pc.alone = false := by
  rw [h]
  rfl

/-- How far the counter is off while a worker is in its section. -/
lemma Consistent.worker_nums (h : Consistent s xs) (hx : (s.worker i).inside = true) :
    s.taskNums = wrap 32 (xs.length+(s.worker i).lag) := h.busy (.worker i) hx

lemma Consistent.pusher_nums (h : Consistent s xs) (hx : (s.pusher j).inside = true) :
    s.taskNums = wrap 32 (xs.length+(s.pusher j).lag) := h.busy (.pusher j) hx

/-- A worker in a section reads or computes something. -/
lemma Consistent.worker_compute (h : Consistent s xs) {pc : WorkerPc} (hx : (s.worker i).inside = true)
    (hx' : pc.inside = true) (hb : pc.blocks = (s.worker i).blocks) (hlag : pc.lag = (s.worker i).lag)
    (hfits : pc.Fits s) : Consistent (s.setPc (.worker i) pc) xs := by
  have hne : s.worker i ≠ .exited := fun he => by simp [he,WorkerPc.inside] at hx
  have hd : (s.setPc (.worker i) pc).destroyer = s.destroyer := State.destroyer_worker rfl
  refine h.compute (x := .worker i) (show (Thread.worker i).busy (s.pc (.worker i)) = true from hx) hx' ?_ hb hlag
    (State.head_congr hd rfl) ?_ (h.phases.worker rfl hne rfl)
  · exact hx'.trans hx.symm
  · change pc.Fits (s.setPc (.worker i) pc)
    cases pc <;> exact hfits

lemma Consistent.worker_acquire (h : Consistent s xs) (hx : (s.worker i).inside = false)
    (hne : s.worker i ≠ .exited) (hb : (s.worker i).blocks = [])
    (hacq : s.acquire (.worker i) WorkerPc.locked = some s') : Consistent s' xs := by
  have hd : (s.setPc (.worker i) WorkerPc.locked).destroyer = s.destroyer := State.destroyer_worker rfl
  refine h.acquire (x := .worker i) (h.phases.running hne) hx ?_ ?_ ?_ ?_ (State.head_congr hd rfl)
    (h.phases.worker rfl hne rfl) hacq
  · rfl
  · exact hb.symm
  · rfl
  · trivial

lemma Consistent.worker_release (h : Consistent s xs) {pc : WorkerPc} (hx : (s.worker i).inside = true)
    (hx' : pc.inside = false) (hb : pc.blocks = (s.worker i).blocks) (hlag : (s.worker i).lag = 0)
    (hfits : pc.Fits s) :
    Consistent (s.release (.worker i) pc) xs := by
  have hne : s.worker i ≠ .exited := fun he => by simp [he,WorkerPc.inside] at hx
  have hd : (s.setPc (.worker i) pc).destroyer = s.destroyer := State.destroyer_worker rfl
  exact h.release (x := .worker i) hx hx' hb hlag hfits (State.head_congr hd rfl) (h.phases.worker rfl hne rfl)

/-- The block of a thread is allocated. -/
lemma Consistent.own (h : Consistent s xs) {x : Thread n m} {a : ℕ} (ha : a ∈ x.blocks (s.pc x)) :
    ∃ c, s.tasks a = some c := Option.ne_none_iff_exists'.mp ((h.blocks.covers a).mpr ⟨some x,ha⟩)

/-- A worker goes on with the task in its hand. -/
lemma Consistent.worker_proceed (h : Consistent s xs) {pc : WorkerPc} {as : List (Action (Job φ α))}
    (hx : (s.worker i).inside = false) (hne : s.worker i ≠ .exited) (hx' : pc.inside = false)
    (hb : pc.blocks = (s.worker i).blocks) (hfits : pc.Fits s) : Consistent (s.record i pc as) xs := by
  have hd : (s.record i pc as).destroyer = s.destroyer := State.destroyer_worker rfl
  refine h.outside (x := .worker i) ⟨rfl,rfl,rfl,rfl,rfl⟩ (h.phases.running hne) rfl hx hx'
    (fun _ _ _ _ => rfl) ?_ ?_
    (State.head_congr hd rfl) (h.phases.worker (show (s.record i pc as).pc = _ from rfl) hne rfl)
  · exact h.blocks.congr (State.blocks_same (x := .worker i) rfl hb)
  · change pc.Fits (s.record i pc as)
    cases pc <;> exact hfits

/-- A worker takes the first task off the list. -/
lemma Consistent.unlink (h : Consistent s xs) {a : ℕ} {p : Option ℕ} (hpc : s.worker i = .unlinking a p) :
    Consistent { s.setPc (.worker i) (WorkerPc.unlinked a) with waitTasks := p } xs.tail := by
  have hfits : (s.worker i).Fits s := h.fits (.worker i)
  have hne : s.worker i ≠ .exited := by simp [hpc]
  have hrun := h.phases.running hne
  rw [hpc] at hfits
  obtain ⟨_,_,hw,b,hb⟩ := hfits
  have hpath := h.path
  rw [State.head_eq hrun,hw] at hpath
  cases xs with
  | nil => cases hpath
  | cons c rest =>
    obtain ⟨hc,q,hq,hrest⟩ := hpath
    obtain rfl := Option.some.inj hc
    obtain rfl : p = q := congrArg Cell.next (Option.some.inj (hb.symm.trans hq))
    set s' : State n m φ α := { s.setPc (.worker i) (WorkerPc.unlinked c.1) with waitTasks := p } with hs'
    have hmove : s'.pc = Function.update s.pc (.worker i) (WorkerPc.unlinked c.1) := rfl
    have hd : s'.destroyer = s.destroyer := State.destroyer_worker hmove
    have hinside : (s.worker i).inside = true := by simp [hpc,WorkerPc.inside]
    have hlag : (s.worker i).lag = 0 := by simp [hpc,WorkerPc.lag]
    have hblocks : (s.worker i).blocks = [] := by simp [hpc,WorkerPc.blocks]
    obtain ⟨hself,hother⟩ := State.blocks_update (c::rest) rest hmove
    refine h.inside (x := .worker i) hinside hmove rfl hinside.symm rfl rfl (fun _ _ _ _ => rfl) ?_ ?_ ?_ ?_
      (h.phases.worker hmove hne rfl)
    · rw [State.head_eq (by rwa [hd])]
      exact hrest
    · -- The block goes from the list to the worker.
      apply h.blocks.move (i := none) (k := some (.worker i)) (by simp) rfl
      · change s'.blocks rest (some (.worker i)) = c.1::(s.worker i).blocks
        rw [hself,hblocks]
        rfl
      · intro l hl hlw
        obtain ⟨y,rfl⟩ := Option.ne_none_iff_exists'.mp hl
        exact hother y fun he => hlw (congrArg some he)
    · trivial
    · have hnums := h.worker_nums hinside
      change s.taskNums = wrap 32 ((rest.length : ℤ)+1)
      rw [hnums,hlag,List.length_cons]
      push_cast
      ring_nf

/-- A worker writes the counter back. -/
lemma Consistent.worker_count (h : Consistent s xs) {a : ℕ} {k : ℤ} (hpc : s.worker i = .counting a k) :
    Consistent { s.setPc (.worker i) (WorkerPc.counted a) with taskNums := wrap 32 (k-1) } xs := by
  have hfits : (s.worker i).Fits s := h.fits (.worker i)
  have hne : s.worker i ≠ .exited := by simp [hpc]
  rw [hpc] at hfits
  set s' : State n m φ α := { s.setPc (.worker i) (WorkerPc.counted a) with taskNums := wrap 32 (k-1) } with hs'
  have hmove : s'.pc = Function.update s.pc (.worker i) (WorkerPc.counted a) := rfl
  have hinside : (s.worker i).inside = true := by simp [hpc,WorkerPc.inside]
  have hb : WorkerPc.blocks (.counted a) = (s.worker i).blocks := by simp [hpc,WorkerPc.blocks]
  have hlag : (s.worker i).lag = 1 := by simp [hpc,WorkerPc.lag]
  have hhead : s'.head = s.head := State.head_congr (State.destroyer_worker hmove) rfl
  refine h.inside (x := .worker i) hinside hmove rfl hinside.symm rfl rfl (fun _ _ _ _ => rfl) ?_
    (h.blocks.congr (State.blocks_same hmove hb)) ?_ ?_ (h.phases.worker hmove hne rfl)
  · rw [hhead]
    exact h.path
  · trivial
  · have hnums := h.worker_nums hinside
    change wrap 32 (k-1) = wrap 32 ((xs.length : ℤ)+0)
    rw [show k = s.taskNums from hfits,hnums,hlag,wrap_wrap_sub]
    ring_nf

/-- A worker frees its task. -/
lemma Consistent.worker_free (h : Consistent s xs) {a : ℕ} {as : List (Action (Job φ α))}
    (hpc : s.worker i = .finished a) :
    Consistent { s.record i .top as with tasks := s.tasks.free a } xs := by
  have hne : s.worker i ≠ .exited := by simp [hpc]
  set s' : State n m φ α := { s.record i .top as with tasks := s.tasks.free a } with hs'
  have hmove : s'.pc = Function.update s.pc (.worker i) WorkerPc.top := rfl
  have hout : (s.worker i).inside = false := by simp [hpc,WorkerPc.inside]
  have hblocks : s.blocks xs (some (.worker i)) = [a] := by
    change (s.worker i).blocks = [a]
    rw [hpc]
    rfl
  obtain ⟨hself,hother⟩ := State.blocks_update xs xs hmove
  refine h.outside (x := .worker i) ⟨rfl,rfl,rfl,rfl,rfl⟩ (h.phases.running hne) hmove hout rfl ?_ ?_ ?_
    (State.head_congr (State.destroyer_worker hmove) rfl) (h.phases.worker hmove hne rfl)
  · intro b k hb hk
    apply Mem.free_of_ne
    rintro rfl
    exact hk (h.blocks.alone k (some (.worker i)) b hb (by simp [hblocks]))
  · refine h.blocks.free (i := some (.worker i)) ?_ fun k hk => ?_
    · rw [hself,hblocks]
      rfl
    · cases k with
      | none => rfl
      | some y => exact hother y fun he => hk (congrArg some he)
  · trivial

/-- `quit_flag` is read for the loop. -/
lemma Consistent.worker_enter (h : Consistent s xs) (hpc : s.worker i = .locked) :
    Consistent (s.setPc (.worker i) (if s.quitFlag then WorkerPc.testing else WorkerPc.checking)) xs := by
  apply h.worker_compute
  · simp [hpc,WorkerPc.inside]
  · split <;> rfl
  · split <;> simp [hpc,WorkerPc.blocks]
  · split <;> simp [hpc,WorkerPc.lag]
  · split <;> rename_i hq <;> simp [WorkerPc.Fits,hq]

/-- The counter is read for the loop. -/
lemma Consistent.worker_check (h : Consistent s xs) (hpc : s.worker i = .checking) :
    Consistent (s.setPc (.worker i) (if s.taskNums ≤ 0 then WorkerPc.blocking else WorkerPc.testing)) xs := by
  have hfits : (s.worker i).Fits s := h.fits (.worker i)
  rw [hpc] at hfits
  apply h.worker_compute
  · simp [hpc,WorkerPc.inside]
  · split <;> rfl
  · split <;> simp [hpc,WorkerPc.blocks]
  · split <;> simp [hpc,WorkerPc.lag]
  · split
    · rename_i hn
      exact ⟨hfits,hn⟩
    · rename_i hn
      exact fun _ => not_le.mp hn

/-- `quit_flag` is read after the loop. -/
lemma Consistent.worker_test (h : Consistent s xs) (hpc : s.worker i = .testing) :
    Consistent (s.setPc (.worker i) (if s.quitFlag then WorkerPc.quitting else WorkerPc.taking)) xs := by
  have hfits : (s.worker i).Fits s := h.fits (.worker i)
  rw [hpc] at hfits
  apply h.worker_compute
  · simp [hpc,WorkerPc.inside]
  · split <;> rfl
  · split <;> simp [hpc,WorkerPc.blocks]
  · split <;> simp [hpc,WorkerPc.lag]
  · split
    · rename_i hq
      exact hq
    · rename_i hq
      have hq : s.quitFlag = false := by simpa using hq
      exact ⟨hq,hfits hq⟩

/-- `wait_tasks` is read. -/
lemma Consistent.worker_take (h : Consistent s xs) (hpc : s.worker i = .taking) :
    Consistent (s.setPc (.worker i) (WorkerPc.took s.waitTasks)) xs := by
  have hfits : (s.worker i).Fits s := h.fits (.worker i)
  rw [hpc] at hfits
  exact h.worker_compute (by simp [hpc,WorkerPc.inside]) rfl (by simp [hpc,WorkerPc.blocks])
    (by simp [hpc,WorkerPc.lag])
    ⟨hfits.1,hfits.2,rfl⟩

/-- `next` of the first task is read. The counter is positive, so there is one. -/
lemma Consistent.worker_reach (h : Consistent s xs) {p : Option ℕ} (hpc : s.worker i = .took p) :
    Consistent (s.access p fun a c => s.setPc (.worker i) (WorkerPc.unlinking a c.next)) xs := by
  have hfits : (s.worker i).Fits s := h.fits (.worker i)
  have hnums := h.worker_nums (i := i) (by simp [hpc,WorkerPc.inside])
  have hpath := h.path
  rw [State.head_eq (h.phases.running (i := i) (by simp [hpc]))] at hpath
  rw [hpc] at hfits
  obtain ⟨hq,hn,rfl⟩ := hfits
  cases xs with
  | nil =>
    have hzero : s.taskNums = 0 := by
      rw [hnums,hpc]
      change wrap 32 (0+0) = 0
      decide
    omega
  | cons c rest =>
    obtain ⟨hw,q,hc,_⟩ := hpath
    have hread : s.access s.waitTasks (fun a c => s.setPc (.worker i) (WorkerPc.unlinking a c.next)) =
        s.setPc (.worker i) (WorkerPc.unlinking c.1 q) := by simp [State.access,hw,hc]
    rw [hread]
    exact h.worker_compute (by simp [hpc,WorkerPc.inside]) rfl (by simp [hpc,WorkerPc.blocks])
      (by simp [hpc,WorkerPc.lag]) ⟨hq,hn,hw,c.2,hc⟩

/-- The counter is read, to be written back. -/
lemma Consistent.worker_load (h : Consistent s xs) {a : ℕ} (hpc : s.worker i = .unlinked a) :
    Consistent (s.setPc (.worker i) (WorkerPc.counting a s.taskNums)) xs :=
  h.worker_compute (by simp [hpc,WorkerPc.inside]) rfl (by simp [hpc,WorkerPc.blocks])
    (by simp [hpc,WorkerPc.lag]) rfl

/-- One access of a worker keeps the invariant. -/
theorem Consistent.threadLoop (h : Consistent s xs) (hstep : threadLoop s i = some s') :
    Consistent s' ((s.worker i).after xs) := by
  have hown : ∀ a ∈ (s.worker i).blocks, ∃ c, s.tasks a = some c := fun a ha => h.own (x := .worker i) ha
  unfold Threads.threadLoop at hstep
  cases hpc : s.worker i with
  | top | woken =>
    rw [hpc] at hstep
    exact h.worker_acquire (by simp [hpc,WorkerPc.inside]) (by simp [hpc]) (by simp [hpc,WorkerPc.blocks]) hstep
  | locked =>
    rw [hpc] at hstep
    obtain rfl := Option.some.inj hstep
    exact h.worker_enter hpc
  | checking =>
    rw [hpc] at hstep
    obtain rfl := Option.some.inj hstep
    exact h.worker_check hpc
  | testing =>
    rw [hpc] at hstep
    obtain rfl := Option.some.inj hstep
    exact h.worker_test hpc
  | taking =>
    rw [hpc] at hstep
    obtain rfl := Option.some.inj hstep
    exact h.worker_take hpc
  | took p =>
    rw [hpc] at hstep
    obtain rfl := Option.some.inj hstep
    exact h.worker_reach hpc
  | unlinked a =>
    rw [hpc] at hstep
    obtain rfl := Option.some.inj hstep
    exact h.worker_load hpc
  | unlinking a p =>
    rw [hpc] at hstep
    obtain rfl := Option.some.inj hstep
    exact h.unlink hpc
  | counting a k =>
    rw [hpc] at hstep
    obtain rfl := Option.some.inj hstep
    exact h.worker_count hpc
  | blocking | quitting | counted a =>
    rw [hpc] at hstep
    obtain rfl := Option.some.inj hstep
    exact h.worker_release (by simp [hpc,WorkerPc.inside]) rfl (by simp [hpc,WorkerPc.blocks])
      (by simp [hpc,WorkerPc.lag])
      trivial
  | holding a | called a =>
    rw [hpc] at hstep hown
    obtain rfl := Option.some.inj hstep
    obtain ⟨c,hc⟩ := hown a List.mem_cons_self
    simp only [State.access,hc]
    exact h.worker_proceed (by simp [hpc,WorkerPc.inside]) (by simp [hpc]) rfl
      (by simp [hpc,WorkerPc.blocks]) trivial
  | finished a =>
    rw [hpc] at hstep hown
    obtain rfl := Option.some.inj hstep
    obtain ⟨c,hc⟩ := hown a List.mem_cons_self
    simp only [State.access,hc]
    exact h.worker_free hpc
  | waiting | exited =>
    rw [hpc] at hstep
    cases hstep

/-! ### Pushes -/

lemma Consistent.pusher_compute (h : Consistent s xs) {pc : PusherPc (Job φ α)} (hx : (s.pusher j).inside = true)
    (hx' : pc.inside = true) (hb : pc.blocks = (s.pusher j).blocks) (hlag : pc.lag = (s.pusher j).lag)
    (hfits : pc.Fits s xs) : Consistent (s.setPc (.pusher j) pc) xs := by
  have hne : s.pusher j ≠ .idle := fun he => by simp [he,PusherPc.inside] at hx
  have hd : (s.setPc (.pusher j) pc).destroyer = s.destroyer := State.destroyer_pusher rfl
  refine h.compute (x := .pusher j) (show (Thread.pusher j).busy (s.pc (.pusher j)) = true from hx) hx' ?_ hb hlag
    (State.head_congr hd rfl) ?_ (h.phases.pusher rfl (h.phases.open hne) rfl)
  · exact hx'.trans hx.symm
  · change pc.Fits (s.setPc (.pusher j) pc) xs
    cases pc <;> exact hfits

/-- The block is allocated and filled. -/
lemma Consistent.push (h : Consistent s xs) {job : Job φ α} {block : Option (ℕ × Option ℕ)}
    (hd : s.destroyer = .idle) (hpc : s.pusher j = .idle)
    (hstep : threadPoolPush s j job block = some s') : Consistent s' xs := by
  cases block with
  | none =>
    obtain rfl := Option.some.inj hstep
    exact h
  | some b =>
    obtain ⟨a,next⟩ := b
    obtain ⟨ha,heq⟩ := Option.ite_none_right_eq_some.mp hstep
    obtain rfl := Option.some.inj heq
    set s' : State n m φ α :=
      { s.setPc (.pusher j) (PusherPc.filled job a) with tasks := s.tasks.put a ⟨job,next⟩ } with hs'
    have hmove : s'.pc = Function.update s.pc (.pusher j) (PusherPc.filled job a) := rfl
    have hblocks : s.blocks xs (some (.pusher j)) = [] := by
      change (s.pusher j).blocks = []
      rw [hpc]
      rfl
    have hout : (s.pusher j).inside = false := by simp [hpc,PusherPc.inside]
    obtain ⟨hself,hother⟩ := State.blocks_update xs xs hmove
    refine h.outside (x := .pusher j) ⟨rfl,rfl,rfl,rfl,rfl⟩ (DestroyerPc.alone_idle hd) hmove hout rfl ?_ ?_ ?_
      (State.head_congr (State.destroyer_pusher hmove) rfl) (h.phases.pusher hmove hd rfl)
    · intro b k hb _
      apply Mem.put_of_ne
      rintro rfl
      exact (h.blocks.covers b).mpr ⟨k,hb⟩ ha
    · refine h.blocks.alloc (i := some (.pusher j)) ha _ ?_ fun k hk => ?_
      · rw [hself,hblocks]
        rfl
      · cases k with
        | none => rfl
        | some y => exact hother y fun he => hk (congrArg some he)
    · exact ⟨next,Mem.put_same s.tasks a _⟩

/-- The pointer to the list is written to the new block. -/
lemma Consistent.link (h : Consistent s xs) {job : Job φ α} {a : ℕ}
    (hpc : s.pusher j = .linking job a s.waitTasks) {q : Option ℕ}
    (ha : s.tasks a = some ⟨job,q⟩) : Consistent
      { s.setPc (.pusher j) (PusherPc.linked job a) with tasks := s.tasks.put a ⟨job,s.waitTasks⟩ } xs := by
  set s' : State n m φ α :=
    { s.setPc (.pusher j) (PusherPc.linked job a) with tasks := s.tasks.put a ⟨job,s.waitTasks⟩ } with hs'
  have hmove : s'.pc = Function.update s.pc (.pusher j) (PusherPc.linked job a) := rfl
  have hd := h.phases.open (j := j) (by simp [hpc])
  have hinside : (s.pusher j).inside = true := by simp [hpc,PusherPc.inside]
  have hb : PusherPc.blocks (.linked job a) = (s.pusher j).blocks := by simp [hpc,PusherPc.blocks]
  have hin : a ∈ s.blocks xs (some (.pusher j)) := by
    change a ∈ (s.pusher j).blocks
    rw [hpc]
    exact List.mem_cons_self
  have hapart : ∀ k, k ≠ some (.pusher j) → ∀ b ∈ s.blocks xs k, s'.tasks b = s.tasks b := by
    intro k hk b hbk
    apply Mem.put_of_ne
    rintro rfl
    exact hk (h.blocks.alone k _ b hbk hin)
  have hhead : s'.head = s.head := State.head_congr (State.destroyer_pusher hmove) rfl
  refine h.inside (x := .pusher j) hinside hmove rfl hinside.symm rfl rfl ?_ ?_ ?_ ?_ ?_
    (h.phases.pusher hmove hd rfl)
  · exact fun y hy => hapart (some y) fun he => hy (Option.some.inj he)
  · rw [hhead]
    exact h.path.congr (hapart none (by simp))
  · exact (h.blocks.congr (State.blocks_same hmove hb)).put (i := some (.pusher j))
      (by rw [State.blocks_same hmove hb]; exact hin) _
  · exact Mem.put_same s.tasks a _
  · have hnums := h.pusher_nums hinside
    rw [hpc] at hnums
    exact hnums

/-- The new block becomes the first of the list. -/
lemma Consistent.store (h : Consistent s xs) {job : Job φ α} {a : ℕ} (hpc : s.pusher j = .linked job a) :
    Consistent { s.setPc (.pusher j) (PusherPc.stored job) with waitTasks := some a } ((a,job)::xs) := by
  have hfits : (s.pusher j).Fits s xs := h.fits (.pusher j)
  rw [hpc] at hfits
  set s' : State n m φ α := { s.setPc (.pusher j) (PusherPc.stored job) with waitTasks := some a } with hs'
  have hmove : s'.pc = Function.update s.pc (.pusher j) (PusherPc.stored job) := rfl
  have hd := h.phases.open (j := j) (by simp [hpc])
  have hd' : s'.destroyer = .idle := (State.destroyer_pusher hmove).trans hd
  have hinside : (s.pusher j).inside = true := by simp [hpc,PusherPc.inside]
  have hblocks : s.blocks xs (some (.pusher j)) = [a] := by
    change (s.pusher j).blocks = [a]
    rw [hpc]
    rfl
  obtain ⟨hself,hother⟩ := State.blocks_update xs ((a,job)::xs) hmove
  refine h.inside (x := .pusher j) hinside hmove rfl hinside.symm rfl rfl (fun _ _ _ _ => rfl) ?_ ?_
    ⟨a,xs,rfl⟩ ?_
    (h.phases.pusher hmove hd rfl)
  · have hpath := h.path
    rw [State.head_eq (DestroyerPc.alone_idle hd)] at hpath
    rw [State.head_eq (DestroyerPc.alone_idle hd')]
    exact ⟨rfl,s.waitTasks,hfits,hpath⟩
  · -- The block goes from the thread to the list.
    apply h.blocks.move (i := some (.pusher j)) (k := none) (by simp)
    · rw [hself]
      exact hblocks
    · rfl
    · intro l hl hln
      obtain ⟨y,rfl⟩ := Option.ne_none_iff_exists'.mp hln
      exact hother y fun he => hl (congrArg some he)
  · have hnums := h.pusher_nums hinside
    change s.taskNums = wrap 32 ((((a,job)::xs).length : ℤ)+(-1))
    rw [hnums,hpc,List.length_cons]
    change wrap 32 ((xs.length : ℤ)+0) = _
    push_cast
    ring_nf

lemma Consistent.pusher_count (h : Consistent s xs) {job : Job φ α} {k : ℤ}
    (hpc : s.pusher j = .counting job k) :
    Consistent { s.setPc (.pusher j) (PusherPc.counted job) with taskNums := wrap 32 (k+1) } xs := by
  have hfits : (s.pusher j).Fits s xs := h.fits (.pusher j)
  rw [hpc] at hfits
  set s' : State n m φ α := { s.setPc (.pusher j) (PusherPc.counted job) with taskNums := wrap 32 (k+1) } with hs'
  have hmove : s'.pc = Function.update s.pc (.pusher j) (PusherPc.counted job) := rfl
  have hd := h.phases.open (j := j) (by simp [hpc])
  have hinside : (s.pusher j).inside = true := by simp [hpc,PusherPc.inside]
  have hb : PusherPc.blocks (.counted job) = (s.pusher j).blocks := by simp [hpc,PusherPc.blocks]
  have hlag : (s.pusher j).lag = -1 := by simp [hpc,PusherPc.lag]
  have hhead : s'.head = s.head := State.head_congr (State.destroyer_pusher hmove) rfl
  refine h.inside (x := .pusher j) hinside hmove rfl hinside.symm rfl rfl (fun _ _ _ _ => rfl) ?_
    (h.blocks.congr (State.blocks_same hmove hb)) hfits.1 ?_ (h.phases.pusher hmove hd rfl)
  · rw [hhead]
    exact h.path
  · have hnums := h.pusher_nums hinside
    change wrap 32 (k+1) = wrap 32 ((xs.length : ℤ)+0)
    rw [hfits.2,hnums,hlag,wrap_wrap_add]
    ring_nf

/-- Some waiting workers wake up. -/
lemma Consistent.wake (h : Consistent s xs) (woken : List (Fin n)) :
    Consistent { s with pc := s.wake woken } xs := by
  have hworker (i : Fin n) : (s.wake woken (.worker i) = s.worker i) ∨
      s.worker i = .waiting ∧ s.wake woken (.worker i) = WorkerPc.woken := by
    by_cases hi : woken.contains i ∧ s.worker i = .waiting
    · exact Or.inr ⟨hi.2,if_pos hi⟩
    · exact Or.inl (if_neg hi)
  have hsame (x : Thread n m) : x.inside (s.wake woken x) = x.inside (s.pc x) ∧
      x.busy (s.wake woken x) = x.busy (s.pc x) ∧
      x.blocks (s.wake woken x) = x.blocks (s.pc x) ∧ x.lag (s.wake woken x) = x.lag (s.pc x) := by
    cases x with
    | worker i =>
      rcases hworker i with hi | ⟨hw,hi⟩
      · rw [hi]
        exact ⟨rfl,rfl,rfl,rfl⟩
      · rw [hi,show s.pc (.worker i) = WorkerPc.waiting from hw]
        exact ⟨rfl,rfl,rfl,rfl⟩
    | pusher | destroyer => exact ⟨rfl,rfl,rfl,rfl⟩
  refine ⟨h.safe,h.path,h.blocks.congr fun k => ?_,fun x => ?_,fun x => ?_,fun x hx => ?_,
    fun hfree => h.count fun x => ?_,h.phases.flag,fun i hi => ?_,h.phases.quiet⟩
  · cases k with
    | none => rfl
    | some x => exact (hsame x).2.2.1
  · rw [← h.mutex x,← (hsame x).1]
  · have hfits := h.fits x
    cases x with
    | worker i =>
      change WorkerPc.Fits _ (s.wake woken (.worker i))
      rcases hworker i with hi | ⟨_,hi⟩
      · rw [hi]
        exact hfits
      · rw [hi]
        trivial
    | pusher j =>
      change PusherPc.Fits s xs (s.pusher j) at hfits
      change PusherPc.Fits _ xs (s.pusher j)
      cases hpc : s.pusher j <;> rw [hpc] at hfits <;> exact hfits
    | destroyer => exact hfits
  · change x.busy (s.wake woken x) = true at hx
    rw [(hsame x).2.1] at hx
    change s.taskNums = wrap 32 ((xs.length : ℤ)+x.lag (s.wake woken x))
    rw [(hsame x).2.2.2]
    exact h.busy x hx
  · rw [← (hsame x).2.1]
    exact hfree x
  · have hexit := h.phases.joined i hi
    rcases hworker i with hw | ⟨hw,_⟩
    · exact hw.trans hexit
    · cases hw.symm.trans hexit

/-- The signal. -/
lemma Consistent.signal (h : Consistent s xs) {job : Job φ α} (hpc : s.pusher j = .counted job)
    (woken : List (Fin n)) (jobs : List (Job φ α)) : Consistent { s with
      pc := Function.update (s.wake woken) (.pusher j) PusherPc.signalled, accepted := jobs } xs := by
  have hw := h.wake woken
  set s₁ : State n m φ α := { s with pc := s.wake woken } with hs₁
  have hpc₁ : s₁.pusher j = .counted job := hpc
  set s' : State n m φ α := { s with
    pc := Function.update (s.wake woken) (.pusher j) PusherPc.signalled, accepted := jobs } with hs'
  have hmove : s'.pc = Function.update s₁.pc (.pusher j) PusherPc.signalled := rfl
  have hinside : (s₁.pusher j).inside = true := by simp [hpc₁,PusherPc.inside]
  have hb : (PusherPc.signalled : PusherPc (Job φ α)).blocks = (s₁.pusher j).blocks :=
    by simp [hpc₁,PusherPc.blocks]
  have hhead : s'.head = s₁.head := State.head_congr (State.destroyer_pusher hmove) rfl
  refine hw.inside (x := .pusher j) hinside hmove rfl hinside.symm rfl rfl (fun _ _ _ _ => rfl) ?_
    (hw.blocks.congr (State.blocks_same hmove hb)) trivial ?_
    (hw.phases.pusher hmove (hw.phases.open (j := j) (by simp [hpc₁])) rfl)
  · rw [hhead]
    exact hw.path
  · have hnums := hw.pusher_nums hinside
    rw [hpc₁] at hnums
    exact hnums

lemma Consistent.pusher_acquire (h : Consistent s xs) {job : Job φ α} {a : ℕ} (hpc : s.pusher j = .filled job a)
    (hacq : s.acquire (.pusher j) (PusherPc.locked job a) = some s') : Consistent s' xs := by
  have hfits : (s.pusher j).Fits s xs := h.fits (.pusher j)
  have hd := h.phases.open (j := j) (by simp [hpc])
  have hhead : (s.setPc (.pusher j) (PusherPc.locked job a)).head = s.head :=
    State.head_congr (State.destroyer_pusher rfl) rfl
  rw [hpc] at hfits
  refine h.acquire (x := .pusher j) (DestroyerPc.alone_idle hd) ?_ ?_ ?_ ?_ ?_ hhead
    (h.phases.pusher rfl hd rfl) hacq
  · change (s.pusher j).inside = false
    rw [hpc]
    rfl
  · rfl
  · change [a] = (s.pusher j).blocks
    rw [hpc]
    rfl
  · rfl
  · exact hfits

lemma Consistent.pusher_release (h : Consistent s xs) (hpc : s.pusher j = .signalled) :
    Consistent (s.release (.pusher j) PusherPc.idle) xs := by
  have hd := h.phases.open (j := j) (by simp [hpc])
  have hhead : (s.setPc (.pusher j) (PusherPc.idle : PusherPc (Job φ α))).head = s.head :=
    State.head_congr (State.destroyer_pusher rfl) rfl
  refine h.release (x := .pusher j) ?_ rfl ?_ ?_ trivial hhead (h.phases.pusher rfl hd rfl)
  · change (s.pusher j).inside = true
    rw [hpc]
    rfl
  · change [] = (s.pusher j).blocks
    rw [hpc]
    rfl
  · change (s.pusher j).lag = 0
    rw [hpc]
    rfl

/-- One access of a thread in `jk_thread_pool_push` keeps the invariant. -/
theorem Consistent.pushing (h : Consistent s xs) {woken : List (Fin n)} (hstep : pushing s j woken = some s') :
    Consistent s' ((s.pusher j).after xs) := by
  have hfits : (s.pusher j).Fits s xs := h.fits (.pusher j)
  unfold Threads.pushing at hstep
  cases hpc : s.pusher j with
  | idle =>
    rw [hpc] at hstep
    cases hstep
  | filled job a =>
    rw [hpc] at hstep
    exact h.pusher_acquire hpc hstep
  | locked job a =>
    rw [hpc] at hstep hfits
    obtain rfl := Option.some.inj hstep
    exact h.pusher_compute (by simp [hpc,PusherPc.inside]) rfl (by simp [hpc,PusherPc.blocks])
      (by simp [hpc,PusherPc.lag])
      ⟨hfits,rfl⟩
  | linking job a p =>
    rw [hpc] at hstep hfits
    obtain rfl := Option.some.inj hstep
    obtain ⟨⟨q,hq⟩,rfl⟩ := hfits
    simp only [State.access,hq]
    exact h.link hpc hq
  | linked job a =>
    rw [hpc] at hstep
    obtain rfl := Option.some.inj hstep
    exact h.store hpc
  | stored job =>
    rw [hpc] at hstep hfits
    obtain rfl := Option.some.inj hstep
    exact h.pusher_compute (by simp [hpc,PusherPc.inside]) rfl (by simp [hpc,PusherPc.blocks])
      (by simp [hpc,PusherPc.lag])
      ⟨hfits,rfl⟩
  | counting job k =>
    rw [hpc] at hstep
    obtain rfl := Option.some.inj hstep
    exact h.pusher_count hpc
  | counted job =>
    rw [hpc] at hstep
    obtain ⟨_,heq⟩ := Option.ite_none_right_eq_some.mp hstep
    obtain rfl := Option.some.inj heq
    exact h.signal hpc woken _
  | signalled =>
    rw [hpc] at hstep
    obtain rfl := Option.some.inj hstep
    exact h.pusher_release hpc

end Threads

end JustKit.Pool.Threads
