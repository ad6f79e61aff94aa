import JustKit.Pool.Accesses

/-! Every access of the thread that destroys the pool keeps the invariant, and so does every event. -/
namespace JustKit.Pool.Threads
open Foundations Foundations.Transition Foundations.LinkedCells
variable {n m : ℕ} {φ α : Type}

section Threads
variable {s s' : State n m φ α} {xs xs' : List (ℕ × Job φ α)} {i : Fin n} {j : Fin m}

lemma State.worker_destroyer {pc : DestroyerPc} (hpc : s'.pc = Function.update s.pc .destroyer pc) :
    (∀ i, s'.worker i = s.worker i) ∧ (∀ j, s'.pusher j = s.pusher j) ∧ s'.destroyer = pc := by
  refine ⟨fun i => State.pc_of_ne hpc (y := .worker i) (by simp),fun j => State.pc_of_ne hpc (y := .pusher j)
    (by simp),?_⟩
  rw [State.destroyer,hpc,Function.update_self]

/-- Until the workers are joined, the list starts at `wait_tasks`. -/
lemma State.head_same (hd : s.destroyer.alone = false) (hd' : s'.destroyer.alone = false)
    (hw : s'.waitTasks = s.waitTasks) : s'.head = s.head := by rw [State.head_eq hd',State.head_eq hd,hw]

/-- The thread that destroys the pool goes on. -/
lemma Phases.destroyer (h : Phases s) {pc : DestroyerPc} (hpc : s'.pc = Function.update s.pc .destroyer pc)
    (hidle : s.destroyer ≠ .idle) (hq : s'.quitFlag = pc.quits)
    (hjoined : ∀ i : Fin n, pc.section.Joined i → s.destroyer.section.Joined i) : Phases s' := by
  obtain ⟨hworker,hpusher,hd⟩ := State.worker_destroyer hpc
  refine ⟨hd ▸ hq,fun i hi => ?_,fun _ j => ?_⟩
  · rw [hworker]
    exact h.joined i (hjoined i (hd ▸ hi))
  · rw [hpusher]
    exact h.quiet hidle j

/-- It moves while it has the list. -/
lemma Consistent.destroyer_inside (h : Consistent s xs) {pc : DestroyerPc}
    (hpc : s'.pc = Function.update s.pc .destroyer pc) (hx : s.destroyer.inside = true ∨ s.destroyer.alone = true)
    (hx' : (pc.inside || pc.alone) = true) (hin : pc.inside = s.destroyer.inside) (howner : s'.owner = s.owner)
    (hfault : s'.fault = s.fault)
    (htasks : ∀ x : Thread n m, x ≠ .destroyer → ∀ a ∈ x.blocks (s.pc x), s'.tasks a = s.tasks a)
    (hpath : Path s'.tasks s'.head xs' none) (hblocks : Held s'.tasks (s'.blocks xs')) (hfits : pc.Fits s')
    (hnums : s'.taskNums = wrap 32 (xs'.length+pc.lag)) (hphases : Phases s') : Consistent s' xs' :=
  h.inside (x := .destroyer) (Bool.or_eq_true_iff.mpr hx) hpc hx' hin howner hfault htasks hpath hblocks
    hfits hnums hphases

lemma Consistent.destroyer_count (h : Consistent s xs)
    (hx : s.destroyer.inside = true ∨ s.destroyer.alone = true) :
    s.taskNums = wrap 32 (xs.length+s.destroyer.lag) := h.busy .destroyer (Bool.or_eq_true_iff.mpr hx)

/-- Alone it is after the joins. -/
lemma DestroyerPc.joined_of_alone {pc : DestroyerPc} (h : pc.alone = true) (i : Fin n) : pc.section.Joined i := by
  cases pc <;> simp_all [DestroyerPc.alone,DestroyerPc.section,Destroy.Joined]

/-- The broadcast. -/
lemma Consistent.broadcast (h : Consistent s xs) (hpc : s.destroyer = .flagged) (woken : List (Fin n)) :
    Consistent { s with pc := Function.update (s.wake woken) .destroyer DestroyerPc.broadcasted } xs := by
  have hw := h.wake woken
  set s₁ : State n m φ α := { s with pc := s.wake woken } with hs₁
  have hpc₁ : s₁.destroyer = .flagged := hpc
  set s' : State n m φ α :=
    { s with pc := Function.update (s.wake woken) .destroyer DestroyerPc.broadcasted } with hs'
  have hmove : s'.pc = Function.update s₁.pc .destroyer DestroyerPc.broadcasted := rfl
  obtain ⟨_,_,hd⟩ := State.worker_destroyer hmove
  have hx : s₁.destroyer.inside = true := by simp [hpc₁,DestroyerPc.inside]
  have hhead : s'.head = s₁.head :=
    State.head_same (by simp [hpc₁,DestroyerPc.alone]) (by simp [hd,DestroyerPc.alone]) rfl
  refine hw.destroyer_inside hmove (Or.inl hx) rfl hx.symm rfl rfl (fun _ _ _ _ => rfl) ?_ ?_ trivial ?_ ?_
  · rw [hhead]
    exact hw.path
  · exact hw.blocks.congr (State.blocks_same (x := .destroyer) hmove rfl)
  · have hnums := hw.destroyer_count (Or.inl hx)
    rw [hpc₁] at hnums
    exact hnums
  · refine hw.phases.destroyer hmove (by simp [hpc₁]) ?_ fun i hi => absurd hi (Nat.not_lt_zero _)
    have hflag := hw.phases.flag
    rw [hpc₁] at hflag
    exact hflag

/-- A block of the list is freed. -/
lemma Consistent.drop (h : Consistent s xs) {a : ℕ} {p : Option ℕ} (hpc : s.destroyer = .dropping a p)
    (jobs : List (Job φ α)) : Consistent
      { s.setPc .destroyer (DestroyerPc.dropped p) with tasks := s.tasks.free a, freed := jobs } xs.tail := by
  have hfits : s.destroyer.Fits s := h.fits .destroyer
  have halone : s.destroyer.alone = true := by simp [hpc,DestroyerPc.alone]
  rw [hpc] at hfits
  obtain ⟨b,hb⟩ := hfits
  have hpath := h.path
  rw [State.head,hpc] at hpath
  cases xs with
  | nil => cases hpath
  | cons c rest =>
    obtain ⟨hc,q,hq,hrest⟩ := hpath
    obtain rfl := Option.some.inj hc
    obtain rfl : p = q := congrArg Cell.next (Option.some.inj (hb.symm.trans hq))
    set s' : State n m φ α :=
      { s.setPc .destroyer (DestroyerPc.dropped p) with tasks := s.tasks.free c.1, freed := jobs } with hs'
    have hmove : s'.pc = Function.update s.pc .destroyer (DestroyerPc.dropped p) := rfl
    obtain ⟨_,_,hd⟩ := State.worker_destroyer hmove
    obtain ⟨_,hother⟩ := State.blocks_update (c::rest) rest hmove
    have hin : c.1 ∈ s.blocks (c::rest) none := List.mem_cons_self
    have hapart : ∀ a ∈ rest.map Prod.fst, a ≠ c.1 := by
      rintro a ha rfl
      exact (List.nodup_cons.mp (h.blocks.nodup none)).1 ha
    have hnums := h.destroyer_count (Or.inr halone)
    rw [hpc] at hnums
    refine h.destroyer_inside hmove (Or.inr halone) rfl ?_ rfl rfl ?_ ?_ ?_ trivial ?_ ?_
    · simp [hpc,DestroyerPc.inside]
    · intro x _ a ha
      apply Mem.free_of_ne
      rintro rfl
      exact Option.some_ne_none x (h.blocks.alone (some x) none c.1 ha hin)
    · have hhead : s'.head = p := by simp [State.head,hd]
      rw [hhead]
      exact hrest.congr fun a ha => Mem.free_of_ne (hapart a ha) s.tasks
    · refine h.blocks.free (i := none) rfl fun k hk => ?_
      obtain ⟨x,rfl⟩ := Option.ne_none_iff_exists'.mp hk
      by_cases hx : x = .destroyer
      · subst hx
        rfl
      · exact hother x hx
    · change s.taskNums = wrap 32 ((rest.length : ℤ)+1)
      rw [hnums,List.length_cons]
      change wrap 32 (((rest.length+1 : ℕ) : ℤ)+0) = _
      push_cast
      ring_nf
    · refine h.phases.destroyer hmove (by simp [hpc]) ?_ fun i _ => by rw [hpc]; trivial
      have hflag := h.phases.flag
      rw [hpc] at hflag
      exact hflag

/-- All workers are joined, and nobody else has the list. -/
lemma Consistent.retire (h : Consistent s xs) {i : ℕ} (hpc : s.destroyer = .joining i) (hi : n ≤ i) :
    Consistent (s.setPc .destroyer (DestroyerPc.freeing s.waitTasks)) xs := by
  set s' : State n m φ α := s.setPc .destroyer (DestroyerPc.freeing s.waitTasks) with hs'
  have hmove : s'.pc = Function.update s.pc .destroyer (DestroyerPc.freeing s.waitTasks) := rfl
  obtain ⟨_,_,hd⟩ := State.worker_destroyer hmove
  have hfree : ∀ x : Thread n m, x.busy (s.pc x) = false := by
    intro x
    cases x with
    | worker k =>
      have hexit : s.worker k = .exited := h.phases.joined k (by rw [hpc]; exact k.isLt.trans_le hi)
      exact congrArg WorkerPc.inside hexit
    | pusher j => exact congrArg PusherPc.inside (h.phases.quiet (by simp [hpc]) j)
    | destroyer =>
      change (s.destroyer.inside || s.destroyer.alone) = false
      rw [hpc]
      rfl
  have hother : ∀ y, y ≠ .destroyer → s'.pc y = s.pc y := fun _ => State.pc_of_ne hmove
  refine ⟨h.safe,?_,h.blocks.congr (State.blocks_same (x := .destroyer) hmove rfl),fun y => ?_,fun y => ?_,
    fun y hy => ?_,
    fun hall => ?_,h.phases.destroyer hmove (by simp [hpc]) ?_ fun k _ => ?_⟩
  · have hhead : s'.head = s.head := by
      rw [State.head_eq (show s.destroyer.alone = false by simp [hpc,DestroyerPc.alone])]
      simp [State.head,hd]
    rw [hhead]
    exact h.path
  · change _ ↔ s.owner = some y
    rw [← h.mutex y,Thread.inside_of_not_busy (hfree y)]
    by_cases hy : y = .destroyer
    · subst hy
      change (s'.destroyer.inside = true ↔ _)
      rw [hd]
      exact Iff.rfl
    · rw [hother y hy,Thread.inside_of_not_busy (hfree y)]
  · by_cases hy : y = .destroyer
    · subst hy
      change s'.destroyer.Fits s'
      rw [hd]
      trivial
    · rw [hother y hy]
      exact (h.fits y).outside (hfree y) fun _ _ => rfl
  · by_cases hyd : y = .destroyer
    · subst hyd
      change s.taskNums = wrap 32 ((xs.length : ℤ)+s'.destroyer.lag)
      rw [hd,h.count hfree]
      exact congrArg (wrap 32) (add_zero _).symm
    · rw [hother y hyd,hfree y] at hy
      cases hy
  · have hbusy : (s'.destroyer.inside || s'.destroyer.alone) = false := hall .destroyer
    rw [hd] at hbusy
    cases hbusy
  · have hflag := h.phases.flag
    rw [hpc] at hflag
    exact hflag
  · rw [hpc]
    exact k.isLt.trans_le hi

/-- The mutex is locked. -/
lemma Consistent.destroyer_acquire (h : Consistent s xs) (hpc : s.destroyer = .called)
    (hacq : s.acquire .destroyer DestroyerPc.locked = some s') : Consistent s' xs := by
  have hmove : (s.setPc .destroyer DestroyerPc.locked).pc = Function.update s.pc .destroyer DestroyerPc.locked := rfl
  obtain ⟨_,_,hd⟩ := State.worker_destroyer hmove
  have hflag := h.phases.flag
  rw [hpc] at hflag
  refine h.acquire (x := .destroyer) (by simp [hpc,DestroyerPc.alone]) ?_ ?_ ?_ ?_ ?_ ?_ ?_ hacq
  · change (s.destroyer.inside || s.destroyer.alone) = false
    rw [hpc]
    rfl
  · rfl
  · rfl
  · rfl
  · trivial
  · exact State.head_same (by simp [hpc,DestroyerPc.alone]) (by simp [hd,DestroyerPc.alone]) rfl
  · exact h.phases.destroyer rfl (by simp [hpc]) hflag fun _ hi => hi.elim

/-- `quit_flag` is set. -/
lemma Consistent.setQuit (h : Consistent s xs) (hpc : s.destroyer = .locked) :
    Consistent { s.setPc .destroyer DestroyerPc.flagged with quitFlag := true } xs := by
  set s' : State n m φ α := { s.setPc .destroyer DestroyerPc.flagged with quitFlag := true } with hs'
  have hmove : s'.pc = Function.update s.pc .destroyer DestroyerPc.flagged := rfl
  obtain ⟨_,_,hd⟩ := State.worker_destroyer hmove
  have hx : s.destroyer.inside = true := by simp [hpc,DestroyerPc.inside]
  refine h.destroyer_inside hmove (Or.inl hx) rfl hx.symm rfl rfl (fun _ _ _ _ => rfl) ?_
    (h.blocks.congr (State.blocks_same (x := .destroyer) hmove rfl)) trivial ?_
    (h.phases.destroyer hmove (by simp [hpc]) rfl fun _ hi => hi.elim)
  · have hhead : s'.head = s.head :=
      State.head_same (by simp [hpc,DestroyerPc.alone]) (by simp [hd,DestroyerPc.alone]) rfl
    rw [hhead]
    exact h.path
  · have hnums := h.destroyer_count (Or.inl hx)
    rw [hpc] at hnums
    exact hnums

/-- The mutex is unlocked. -/
lemma Consistent.destroyer_release (h : Consistent s xs) (hpc : s.destroyer = .broadcasted) :
    Consistent (s.release .destroyer (DestroyerPc.joining 0)) xs := by
  have hmove : (s.setPc .destroyer (DestroyerPc.joining 0)).pc =
      Function.update s.pc .destroyer (DestroyerPc.joining 0) := rfl
  obtain ⟨_,_,hd⟩ := State.worker_destroyer hmove
  have hflag := h.phases.flag
  rw [hpc] at hflag
  refine h.release (x := .destroyer) ?_ rfl rfl ?_ trivial ?_ ?_
  · change s.destroyer.inside = true
    rw [hpc]
    rfl
  · change s.destroyer.lag = 0
    rw [hpc]
    rfl
  · exact State.head_same (by simp [hpc,DestroyerPc.alone]) (by simp [hd,DestroyerPc.alone]) rfl
  · exact h.phases.destroyer rfl (by simp [hpc]) hflag fun _ hi => absurd hi (Nat.not_lt_zero _)

/-- A worker that has left its loop is joined. -/
lemma Consistent.join (h : Consistent s xs) {k : ℕ} (hpc : s.destroyer = .joining k) (hk : k < n)
    (hexit : s.worker ⟨k,hk⟩ = .exited) : Consistent (s.setPc .destroyer (DestroyerPc.joining (k+1))) xs := by
  set s' : State n m φ α := s.setPc .destroyer (DestroyerPc.joining (k+1)) with hs'
  have hmove : s'.pc = Function.update s.pc .destroyer (DestroyerPc.joining (k+1)) := rfl
  obtain ⟨hworker,hpusher,hd⟩ := State.worker_destroyer hmove
  have hrun : s.destroyer.alone = false := by simp [hpc,DestroyerPc.alone]
  have hflag := h.phases.flag
  rw [hpc] at hflag
  refine h.outside (x := .destroyer) ⟨rfl,rfl,rfl,rfl,rfl⟩ hrun hmove ?_ rfl (fun _ _ _ _ => rfl)
    (h.blocks.congr (State.blocks_same (x := .destroyer) hmove rfl)) trivial ?_ ⟨?_,fun i hi => ?_,fun _ j => ?_⟩
  · change (s.destroyer.inside || s.destroyer.alone) = false
    rw [hpc]
    rfl
  · exact State.head_same hrun (by simp [hd,DestroyerPc.alone]) rfl
  · rw [hd]
    exact hflag
  · rw [hd] at hi
    change (i : ℕ) < k+1 at hi
    rw [hworker]
    rcases Nat.lt_succ_iff_lt_or_eq.mp hi with hlt | heq
    · exact h.phases.joined i (by rw [hpc]; exact hlt)
    · obtain rfl : i = ⟨k,hk⟩ := Fin.ext heq
      exact hexit
  · rw [hpusher]
    exact h.phases.quiet (by simp [hpc]) j

/-- Once it is alone, nobody is in a section. -/
lemma Consistent.unlocked (h : Consistent s xs) (halone : s.destroyer.alone = true) : s.owner = none := by
  cases ho : s.owner with
  | none => rfl
  | some x =>
    have hin := (h.mutex x).mpr ho
    by_cases hx : x = .destroyer
    · subst hx
      change s.destroyer.inside = true at hin
      cases hpc : s.destroyer <;> simp [hpc,DestroyerPc.alone,DestroyerPc.inside] at halone hin
    · rw [Thread.inside_of_not_busy (h.phases.alone halone hx)] at hin
      cases hin

/-- The thread reads or computes something while it goes through the tasks left. -/
lemma Consistent.destroyer_read (h : Consistent s xs) {pc : DestroyerPc} (halone : s.destroyer.alone = true)
    (halone' : pc.alone = true) (hin : pc.inside = s.destroyer.inside) (hlag : pc.lag = s.destroyer.lag)
    (hhead : (s.setPc .destroyer pc).head = s.head) (hfits : pc.Fits (s.setPc .destroyer pc))
    (hquits : pc.quits = s.destroyer.quits) : Consistent (s.setPc .destroyer pc) xs := by
  have hmove : (s.setPc .destroyer pc).pc = Function.update s.pc .destroyer pc := rfl
  have hbusy : (pc.inside || pc.alone) = true := Bool.or_eq_true_iff.mpr (Or.inr halone')
  have hne : s.destroyer ≠ .idle := by
    intro hidle
    rw [DestroyerPc.alone_idle hidle] at halone
    cases halone
  refine h.destroyer_inside hmove (Or.inr halone) hbusy hin rfl rfl (fun _ _ _ _ => rfl) ?_ ?_ hfits ?_ ?_
  · rw [hhead]
    exact h.path
  · exact h.blocks.congr (State.blocks_same (x := .destroyer) hmove rfl)
  · rw [hlag]
    exact h.destroyer_count (Or.inr halone)
  · refine h.phases.destroyer hmove hne ?_ fun i _ => DestroyerPc.joined_of_alone halone i
    rw [hquits]
    exact h.phases.flag

/-- The tasks left are all freed, and so is the pool. -/
lemma Consistent.finish (h : Consistent s xs) (hpc : s.destroyer = .freeing none) :
    Consistent (s.setPc .destroyer DestroyerPc.done) xs := by
  obtain ⟨_,_,hd⟩ := State.worker_destroyer (show (s.setPc .destroyer DestroyerPc.done).pc = _ from rfl)
  refine h.destroyer_read (by simp [hpc,DestroyerPc.alone]) rfl ?_ ?_ ?_ trivial ?_
  · simp [hpc,DestroyerPc.inside]
  · simp [hpc,DestroyerPc.lag]
  · simp [State.head,hd,hpc]
  · simp [hpc,DestroyerPc.quits]

/-- `next` of the first task left is read. -/
lemma Consistent.reach (h : Consistent s xs) {a : ℕ} {c : Cell (Job φ α)} (hpc : s.destroyer = .freeing (some a))
    (hc : s.tasks a = some c) : Consistent (s.setPc .destroyer (DestroyerPc.dropping a c.next)) xs := by
  obtain ⟨_,_,hd⟩ :=
    State.worker_destroyer (show (s.setPc .destroyer (DestroyerPc.dropping a c.next)).pc = _ from rfl)
  refine h.destroyer_read (by simp [hpc,DestroyerPc.alone]) rfl ?_ ?_ ?_ ⟨c.item,hc⟩ ?_
  · simp [hpc,DestroyerPc.inside]
  · simp [hpc,DestroyerPc.lag]
  · simp [State.head,hd,hpc]
  · simp [hpc,DestroyerPc.quits]

/-- The counter is read. -/
lemma Consistent.load (h : Consistent s xs) {p : Option ℕ} (hpc : s.destroyer = .dropped p) :
    Consistent (s.setPc .destroyer (DestroyerPc.counting p s.taskNums)) xs := by
  obtain ⟨_,_,hd⟩ :=
    State.worker_destroyer (show (s.setPc .destroyer (DestroyerPc.counting p s.taskNums)).pc = _ from rfl)
  refine h.destroyer_read (by simp [hpc,DestroyerPc.alone]) rfl ?_ ?_ ?_ rfl ?_
  · simp [hpc,DestroyerPc.inside]
  · simp [hpc,DestroyerPc.lag]
  · simp [State.head,hd,hpc]
  · simp [hpc,DestroyerPc.quits]

/-- The counter is written back. -/
lemma Consistent.writeBack (h : Consistent s xs) {p : Option ℕ} {k : ℤ} (hpc : s.destroyer = .counting p k) :
    Consistent { s.setPc .destroyer (DestroyerPc.freeing p) with taskNums := wrap 32 (k-1) } xs := by
  have hfits : s.destroyer.Fits s := h.fits .destroyer
  have halone : s.destroyer.alone = true := by simp [hpc,DestroyerPc.alone]
  have hflag := h.phases.flag
  rw [hpc] at hfits hflag
  set s' : State n m φ α := { s.setPc .destroyer (DestroyerPc.freeing p) with taskNums := wrap 32 (k-1) } with hs'
  have hmove : s'.pc = Function.update s.pc .destroyer (DestroyerPc.freeing p) := rfl
  obtain ⟨_,_,hd⟩ := State.worker_destroyer hmove
  refine h.destroyer_inside hmove (Or.inr halone) rfl (by simp [hpc,DestroyerPc.inside]) rfl rfl
    (fun _ _ _ _ => rfl) ?_
    (h.blocks.congr (State.blocks_same (x := .destroyer) hmove rfl)) trivial ?_
    (h.phases.destroyer hmove (by simp [hpc]) hflag fun i _ => DestroyerPc.joined_of_alone halone i)
  · have hhead : s'.head = s.head := by simp [State.head,hd,hpc]
    rw [hhead]
    exact h.path
  · have hnums := h.destroyer_count (Or.inr halone)
    rw [hpc] at hnums
    change wrap 32 (k-1) = wrap 32 ((xs.length : ℤ)+0)
    rw [show k = s.taskNums from hfits,hnums]
    change wrap 32 (wrap 32 ((xs.length : ℤ)+1)-1) = _
    rw [wrap_wrap_sub]
    ring_nf

/-- One access of the thread in `jk_thread_pool_destroy` keeps the invariant. -/
theorem Consistent.threadPoolDestroy (h : Consistent s xs) (hstep : threadPoolDestroy s = some s') :
    Consistent s' (s.destroyer.after xs) := by
  have hpath := h.path
  unfold Threads.threadPoolDestroy at hstep
  cases hpc : s.destroyer with
  | idle | done =>
    rw [hpc] at hstep
    cases hstep
  | called =>
    rw [hpc] at hstep
    exact h.destroyer_acquire hpc hstep
  | locked =>
    rw [hpc] at hstep
    obtain rfl := Option.some.inj hstep
    exact h.setQuit hpc
  | flagged =>
    rw [hpc] at hstep
    obtain rfl := Option.some.inj hstep
    exact h.broadcast hpc _
  | broadcasted =>
    rw [hpc] at hstep
    obtain rfl := Option.some.inj hstep
    exact h.destroyer_release hpc
  | joining k =>
    rw [hpc] at hstep
    simp only at hstep
    split at hstep
    · rename_i hk
      split at hstep
      · rename_i hexit
        obtain rfl := Option.some.inj hstep
        exact h.join hpc hk hexit
      · cases hstep
    · rename_i hk
      obtain rfl := Option.some.inj hstep
      exact h.retire hpc (not_lt.mp hk)
  | freeing p =>
    rw [State.head,hpc] at hpath
    rw [hpc] at hstep
    cases p with
    | none =>
      simp only [h.unlocked (by simp [hpc,DestroyerPc.alone]),if_true] at hstep
      obtain rfl := Option.some.inj hstep
      exact h.finish hpc
    | some a =>
      cases xs with
      | nil => cases hpath
      | cons c rest =>
        obtain ⟨hc,q,hq,_⟩ := hpath
        obtain rfl := Option.some.inj hc
        obtain rfl := Option.some.inj hstep
        simp only [State.access,hq]
        exact h.reach hpc hq
  | dropping a p =>
    have hfits : s.destroyer.Fits s := h.fits .destroyer
    rw [hpc] at hstep hfits
    obtain ⟨b,hb⟩ := hfits
    obtain rfl := Option.some.inj hstep
    simp only [State.access,hb]
    exact h.drop hpc _
  | dropped p =>
    rw [hpc] at hstep
    obtain rfl := Option.some.inj hstep
    exact h.load hpc
  | counting p k =>
    rw [hpc] at hstep
    obtain rfl := Option.some.inj hstep
    exact h.writeBack hpc

/-! ### Runs -/

/-- The list after an event. -/
def State.listed (s : State n m φ α) (xs : List (ℕ × Job φ α)) : Event n m φ α → List (ℕ × Job φ α)
  | .worker i => (s.worker i).after xs
  | .pusher j _ => (s.pusher j).after xs
  | .destroyer => s.destroyer.after xs
  | .wake _ | .push _ _ _ | .destroy => xs

/-- A thread that runs when the pool is gone has nothing to do. -/
lemma Consistent.gone (h : Consistent s xs) (hd : s.destroyer = .done) :
    (∀ i, s.worker i = .exited) ∧ ∀ j, s.pusher j = .idle :=
  ⟨fun i => h.phases.joined i (by rw [hd]; trivial),h.phases.quiet (by simp [hd])⟩

lemma Consistent.worker_eq (h : Consistent s xs) (i : Fin n) : Threads.step s (.worker i) = Threads.threadLoop s i :=
  if_neg fun hgone => hgone.2 ((h.gone hgone.1).1 i)

lemma Consistent.pusher_eq (h : Consistent s xs) (j : Fin m) (woken : List (Fin n)) :
    Threads.step s (.pusher j woken) = Threads.pushing s j woken :=
  if_neg fun hgone => hgone.2 ((h.gone hgone.1).2 j)

theorem Consistent.step (h : Consistent s xs) {e : Event n m φ α} (hstep : step s e = some s') :
    Consistent s' (s.listed xs e) := by
  cases e with
  | worker i =>
    rw [h.worker_eq] at hstep
    exact h.threadLoop hstep
  | wake i =>
    obtain ⟨hw,heq⟩ := Option.ite_none_right_eq_some.mp hstep
    obtain rfl := Option.some.inj heq
    have hne : s.worker i ≠ .exited := by simp [hw]
    have hmove : (s.setPc (.worker i) WorkerPc.woken).pc = Function.update s.pc (.worker i) WorkerPc.woken := rfl
    have hb : WorkerPc.blocks .woken = (s.worker i).blocks := by simp [hw,WorkerPc.blocks]
    refine h.outside (x := .worker i) ⟨rfl,rfl,rfl,rfl,rfl⟩ (h.phases.running hne) hmove ?_ rfl
      (fun _ _ _ _ => rfl)
      (h.blocks.congr (State.blocks_same hmove hb)) trivial (State.head_congr (State.destroyer_worker hmove) rfl)
      (h.phases.worker hmove hne rfl)
    change (s.worker i).inside = false
    rw [hw]
    rfl
  | push j job block =>
    obtain ⟨⟨hd,hpc⟩,heq⟩ := Option.ite_none_right_eq_some.mp hstep
    exact h.push hd hpc heq
  | pusher j woken =>
    rw [h.pusher_eq] at hstep
    exact h.pushing hstep
  | destroy =>
    obtain ⟨⟨hd,hidle⟩,heq⟩ := Option.ite_none_right_eq_some.mp hstep
    obtain rfl := Option.some.inj heq
    have hmove : (s.setPc .destroyer DestroyerPc.called).pc =
      Function.update s.pc .destroyer DestroyerPc.called := rfl
    obtain ⟨hworker,hpusher,hd'⟩ := State.worker_destroyer hmove
    have hrun := DestroyerPc.alone_idle hd
    refine h.outside (x := .destroyer) ⟨rfl,rfl,rfl,rfl,rfl⟩ hrun hmove ?_ rfl (fun _ _ _ _ => rfl)
      (h.blocks.congr (State.blocks_same (x := .destroyer) hmove rfl)) trivial ?_
        ⟨?_,fun i hi => ?_,fun _ j => ?_⟩
    · change (s.destroyer.inside || s.destroyer.alone) = false
      rw [hd]
      rfl
    · exact State.head_same hrun (by simp [hd',DestroyerPc.alone]) rfl
    · have hflag := h.phases.flag
      rw [hd] at hflag
      rw [hd']
      exact hflag
    · rw [hd'] at hi
      exact hi.elim
    · rw [hpusher]
      exact hidle j
  | destroyer => exact h.threadPoolDestroy hstep

end Threads

end JustKit.Pool.Threads
