import JustKit.Pool.Atomic

/-! Pushes and the end of the pool in terms of whole sections, and with them every run. -/
namespace JustKit.Pool.Threads
open Foundations Foundations.Transition Foundations.LinkedCells
variable {n m : ℕ} {φ α : Type}

section Steps
variable {s s' : State n m φ α} {xs xs' : List (ℕ × Job φ α)} {t t' : Pool.State n φ α}
  {i : Fin n} {j : Fin m}

/-! ### Pushes -/

lemma State.pusher_moves {pc : PusherPc (Job φ α)} (hpc : s'.pc = Function.update s.pc (.pusher j) pc) :
    s'.pusher j = pc ∧ (∀ k, k ≠ j → s'.pusher k = s.pusher k) ∧ (∀ i, s'.worker i = s.worker i) ∧
      s'.destroyer = s.destroyer := by
  refine ⟨?_,fun k hk => State.pc_of_ne hpc (y := .pusher k) (by simpa using hk),
    fun i => State.pc_of_ne hpc (y := .worker i) (by simp),State.destroyer_pusher hpc⟩
  rw [State.pusher,hpc,Function.update_self]

/-- A thread in `jk_thread_pool_push` moves, which does not show. -/
lemma Matches.pusher_stay (hm : Matches s xs t) {pc : PusherPc (Job φ α)}
    (hpc : s'.pc = Function.update s.pc (.pusher j) pc) (hahead : pc.ahead = (s.pusher j).ahead)
    (htasks : ∀ i, ∀ a ∈ (s.worker i).blocks, s'.tasks a = s.tasks a) (hlog : s'.log = s.log)
    (haccepted : s'.accepted = s.accepted) (hfreed : s'.freed = s.freed) :
    ∃ ds t', run strictStep t ds = some t' ∧ Matches s' xs t' := by
  obtain ⟨hself,hother,hworker,hd⟩ := State.pusher_moves hpc
  apply hm.stay _ hlog _ (by rw [hd]) haccepted hfreed
  · intro i
    rw [hworker]
    exact (hm.workers i).congr (htasks i)
  · intro k
    by_cases hk : k = j
    · subst hk
      rw [hself,hahead]
    · rw [hother k hk]

/-- The task is in the list before the pool has accepted it. -/
lemma Matches.store (hm : Matches s xs t) (h : Consistent s xs) {b : Job φ α} {a : ℕ}
    (hpc : s.pusher j = .linked b a)
    (hs' : s' = { s.setPc (.pusher j) (PusherPc.stored b) with waitTasks := some a }) :
    ∃ ds t', run strictStep t ds = some t' ∧ Matches s' ((a,b)::xs) t' := by
  have hmove : s'.pc = Function.update s.pc (.pusher j) (PusherPc.stored b) := by rw [hs']; rfl
  obtain ⟨hself,_,hworker,hd⟩ := State.pusher_moves hmove
  have hx : (s.pusher j).inside = true := by simp [hpc,PusherPc.inside]
  have hnone := h.none_ahead (x := .pusher j) hx fun k hk => by
    obtain rfl : j = k := by simpa using hk
    simp [hpc,PusherPc.ahead]
  refine ⟨[],t,rfl,fun i => ?_,fun i => ?_,fun hall => ?_,fun _ _ => hm.listed hnone,hm.quits,?_,?_,?_,hm.sound⟩
  · rw [hworker,hs']
    exact hm.workers i
  · rw [hs']
    exact hm.logs i
  · have hstored := hall j
    rw [hself] at hstored
    cases hstored
  · rw [hd]
    exact hm.destroy
  · rw [hs']
    exact hm.accepted
  · rw [hs']
    exact hm.freed

/-- Workers woken by the same signal. -/
lemma Matches.woken (hm : Matches s xs t) (woken : List (Fin n)) (i : Fin n) :
    WorkerPc.Follows s.tasks (s.wake woken (.worker i)) (if i ∈ woken then (t.workers i).wake
      else t.workers i).pc := by
  have hfollows := hm.workers i
  by_cases hi : i ∈ woken
  · by_cases hw : s.worker i = .waiting
    · rw [hw] at hfollows
      have hp : (t.workers i).pc = .waiting := hfollows
      rw [show s.wake woken (.worker i) = WorkerPc.woken from if_pos ⟨List.contains_iff_mem.mpr hi,hw⟩,
        if_pos hi,Worker.wake,hp]
      rfl
    · have hne : (t.workers i).wake = t.workers i := by
        cases hpc : s.worker i <;> rw [hpc] at hfollows <;>
          first
          | exact absurd hpc hw
          | (obtain ⟨_,_,hp,_⟩ := hfollows; simp [Worker.wake,hp])
          | (rcases hfollows with hp | hp <;> simp [Worker.wake,hp])
          | (have hp : (t.workers i).pc = _ := hfollows; simp [Worker.wake,hp])
      rw [show s.wake woken (.worker i) = s.worker i from if_neg fun h => hw h.2,if_pos hi,hne]
      exact hfollows
  · rw [show s.wake woken (.worker i) = s.worker i from if_neg fun h => hi (List.contains_iff_mem.mp h.1),if_neg hi]
    exact hfollows

lemma Matches.waiting_iff (hm : Matches s xs t) (i : Fin n) : s.worker i = .waiting ↔
    (t.workers i).pc = .waiting := by
  have hfollows := hm.workers i
  constructor
  · intro hw
    rw [hw] at hfollows
    exact hfollows
  · intro hp
    rw [hp] at hfollows
    cases hpc : s.worker i <;> rw [hpc] at hfollows <;> first | rfl | simp [WorkerPc.Follows] at hfollows

/-- The signal is the moment of the push. -/
lemma Matches.signal (hm : Matches s xs t) (h : Consistent s xs) {b : Job φ α} {woken : List (Fin n)}
    (hpc : s.pusher j = .counted b) (hsignals : s.Signals woken)
    (hs' : s' = { s with
      pc := Function.update (s.wake woken) (.pusher j) PusherPc.signalled, accepted := s.accepted++[b] }) :
    ∃ ds t', run strictStep t ds = some t' ∧ Matches s' xs t' := by
  have hidle : t.destroy = .idle := by
    rw [hm.destroy,h.phases.open (j := j) (by simp [hpc])]
    rfl
  have hfits : (s.pusher j).Fits s xs := h.fits (.pusher j)
  rw [hpc] at hfits
  obtain ⟨a,rest,rfl⟩ := hfits
  have hlist := hm.ahead j (by simp [hpc,PusherPc.ahead])
  have hsignalled : Signalled t (.push b.call b.arg b.finish true woken) := by
    rintro _ ⟨i,hi⟩
    obtain ⟨k,hk,hw⟩ := hsignals ⟨i,(hm.waiting_iff i).mpr (isWaiting_iff.mp hi)⟩
    exact ⟨k,hk,isWaiting_iff.mpr ((hm.waiting_iff k).mp hw)⟩
  have hstep : Pool.step t (.push b.call b.arg b.finish true woken) =
      some (Pool.threadPoolPush t b.call b.arg b.finish true woken).1 := if_pos hidle
  have hpc' : ∀ x, x ≠ .pusher j → s'.pc x = s.wake woken x := by
    intro x hx
    rw [hs']
    exact Function.update_of_ne hx _ _
  have hworker : ∀ i, s'.worker i = s.wake woken (.worker i) := fun i => hpc' (.worker i) (by simp)
  have hd : s'.destroyer = s.destroyer := hpc' .destroyer (by simp)
  have hself : s'.pusher j = .signalled := by
    rw [hs']
    exact Function.update_self _ _ _
  refine ⟨_,_,run_one hsignalled hstep,fun i => ?_,fun i => ?_,fun _ => ?_,fun k hk => ?_,hm.quits,?_,?_,?_,
    hm.sound.step hstep⟩
  · rw [hworker,hs']
    exact hm.woken woken i
  · have hlog : ((if i ∈ woken then (t.workers i).wake else t.workers i).log) = (t.workers i).log := by
      split
      · unfold Worker.wake
        split <;> rfl
      · rfl
    rw [hs']
    change (if i ∈ woken then (t.workers i).wake else t.workers i).log.map _ = _
    rw [hlog]
    exact hm.logs i
  · exact congrArg (b::·) hlist
  · -- No other thread is in a section.
    by_cases hkj : k = j
    · rw [hkj,hself] at hk
      cases hk
    · have hk' : s'.pusher k = s.pusher k := hpc' (.pusher k) (by simpa using hkj)
      have hout : (s.pusher k).inside = false := h.turn (x := .pusher j) (y := .pusher k)
        (show (s.pusher j).inside = true by simp [hpc,PusherPc.inside]) (by simpa using hkj)
      rw [hk',PusherPc.not_ahead hout] at hk
      cases hk
  · rw [hd]
    exact hm.destroy
  · rw [hs']
    change (t.accepted++[_]).map job = s.accepted++[b]
    rw [List.map_append,hm.accepted]
    rfl
  · rw [hs']
    exact hm.freed

theorem Matches.pushing (hm : Matches s xs t) (h : Consistent s xs) {woken : List (Fin n)}
    (hstep : pushing s j woken = some s') :
    ∃ ds t', run strictStep t ds = some t' ∧ Matches s' ((s.pusher j).after xs) t' := by
  have hfits : (s.pusher j).Fits s xs := h.fits (.pusher j)
  have hmove := fun (pc : PusherPc (Job φ α)) (hahead : pc.ahead = (s.pusher j).ahead) (s' : State n m φ α)
    (hpc : s'.pc = Function.update s.pc (.pusher j) pc) => hm.pusher_stay hpc hahead
  unfold Threads.pushing at hstep
  cases hpc : s.pusher j with
  | idle =>
    rw [hpc] at hstep
    cases hstep
  | filled b a =>
    rw [hpc] at hstep hmove
    obtain ⟨_,heq⟩ := Option.ite_none_right_eq_some.mp hstep
    obtain rfl := Option.some.inj heq
    exact hmove (.locked b a) rfl _ rfl (fun _ _ _ => rfl) rfl rfl rfl
  | locked b a =>
    rw [hpc] at hstep hmove
    obtain rfl := Option.some.inj hstep
    exact hmove (.linking b a s.waitTasks) rfl _ rfl (fun _ _ _ => rfl) rfl rfl rfl
  | linking b a p =>
    rw [hpc] at hstep hmove hfits
    obtain rfl := Option.some.inj hstep
    obtain ⟨⟨q,hq⟩,_⟩ := hfits
    simp only [State.access,hq]
    refine hmove (.linked b a) rfl _ rfl (fun i c hc => ?_) rfl rfl rfl
    apply Mem.put_of_ne
    rintro rfl
    have hin : c ∈ s.blocks xs (some (.pusher j)) := by
      change c ∈ (s.pusher j).blocks
      rw [hpc]
      exact List.mem_cons_self
    have hsame := h.blocks.alone (some (.worker i)) (some (.pusher j)) c hc hin
    simp at hsame
  | linked b a =>
    rw [hpc] at hstep
    exact hm.store h hpc (Option.some.inj hstep).symm
  | stored b =>
    rw [hpc] at hstep hmove
    obtain rfl := Option.some.inj hstep
    exact hmove (.counting b s.taskNums) rfl _ rfl (fun _ _ _ => rfl) rfl rfl rfl
  | counting b k =>
    rw [hpc] at hstep hmove
    obtain rfl := Option.some.inj hstep
    exact hmove (.counted b) rfl _ rfl (fun _ _ _ => rfl) rfl rfl rfl
  | counted b =>
    rw [hpc] at hstep
    obtain ⟨hsignals,heq⟩ := Option.ite_none_right_eq_some.mp hstep
    exact hm.signal h hpc hsignals (Option.some.inj heq).symm
  | signalled =>
    rw [hpc] at hstep hmove
    obtain rfl := Option.some.inj hstep
    rw [h.release_eq (x := .pusher j) (show (s.pusher j).inside = true by simp [hpc,PusherPc.inside])]
    exact hmove .idle rfl _ rfl (fun _ _ _ => rfl) rfl rfl rfl

/-! ### The end of the pool -/

/-- The thread that destroys the pool moves, which does not show. -/
lemma Matches.destroyer_stay (hm : Matches s xs t) {pc : DestroyerPc}
    (hpc : s'.pc = Function.update s.pc .destroyer pc)
    (hsection : pc.section = s.destroyer.section) (htasks : s'.tasks = s.tasks) (hlog : s'.log = s.log)
    (haccepted : s'.accepted = s.accepted) (hfreed : s'.freed = s.freed) :
    ∃ ds t', run strictStep t ds = some t' ∧ Matches s' xs t' := by
  obtain ⟨hworker,hpusher,hd⟩ := State.worker_destroyer hpc
  apply hm.stay _ hlog (fun j => by rw [hpusher]) (by rw [hd,hsection]) haccepted hfreed
  intro i
  rw [hworker,htasks]
  exact hm.workers i

/-- It moves, and so does the pool. -/
lemma Matches.destroyer_does (hm : Matches s xs t) {pc : DestroyerPc} {d : Pool.Event n φ α}
    (hpc : s'.pc = Function.update s.pc .destroyer pc) (hd : Signalled t d) (hstep : Pool.step t d = some t')
    (hw : t'.workers = t.workers) (htasks : ∀ i, ∀ a ∈ (s.worker i).blocks, s'.tasks a = s.tasks a)
    (hlog : s'.log = s.log) (hquiet : ∀ j, s.pusher j = .idle)
    (hlisted : t'.waitTasks.map job = xs'.map Prod.snd)
    (hquits : t'.quitFlag = true ↔ t'.destroy ≠ .idle) (hdestroy : t'.destroy = pc.section)
    (haccepted : t'.accepted = t.accepted ∧ s'.accepted = s.accepted) (hfreed : t'.freed.map job = s'.freed) :
    ∃ ds t', run strictStep t ds = some t' ∧ Matches s' xs' t' := by
  obtain ⟨hworker,hpusher,hdest⟩ := State.worker_destroyer hpc
  refine ⟨[d],t',run_one hd hstep,fun i => ?_,fun i => ?_,fun _ => hlisted,fun j hj => ?_,hquits,?_,?_,hfreed,
    hm.sound.step hstep⟩
  · rw [hworker,hw]
    exact (hm.workers i).congr (htasks i)
  · rw [hw,hlog]
    exact hm.logs i
  · rw [hpusher,hquiet] at hj
    cases hj
  · rw [hdest]
    exact hdestroy
  · rw [haccepted.1,haccepted.2]
    exact hm.accepted

/-- The broadcast is the moment of the call. -/
lemma Matches.broadcast (hm : Matches s xs t) (h : Consistent s xs) (hpc : s.destroyer = .flagged)
    (hs' : s' = { s with pc := Function.update (s.wake (List.finRange n)) .destroyer DestroyerPc.broadcasted }) :
    ∃ ds t', run strictStep t ds = some t' ∧ Matches s' xs t' := by
  have hidle : t.destroy = .idle := by
    rw [hm.destroy,hpc]
    rfl
  have hstep : Pool.step t .quit = some { t with
      quitFlag := true, workers := fun i => (t.workers i).wake, destroy := .joining 0 } := if_pos hidle
  have hpc' : ∀ x, x ≠ .destroyer → s'.pc x = s.wake (List.finRange n) x := by
    intro x hx
    rw [hs']
    exact Function.update_of_ne hx _ _
  have hworker : ∀ i, s'.worker i = s.wake (List.finRange n) (.worker i) := fun i => hpc' (.worker i) (by simp)
  have hpusher : ∀ j, s'.pusher j = .idle :=
    fun j => (hpc' (.pusher j) (by simp)).trans (h.phases.quiet (by simp [hpc]) j)
  have hd : s'.destroyer = .broadcasted := by
    rw [hs']
    exact Function.update_self Thread.destroyer DestroyerPc.broadcasted (s.wake (List.finRange n))
  have hlist := hm.listed fun j => by rw [h.phases.quiet (by simp [hpc]) j]; rfl
  refine ⟨_,_,run_one (show Signalled t .quit from trivial) hstep,fun i => ?_,fun i => ?_,fun _ => hlist,
    fun j hj => ?_,
    by simp,?_,?_,?_,hm.sound.step hstep⟩
  · have hfollows := hm.woken (List.finRange n) i
    rw [if_pos (List.mem_finRange i)] at hfollows
    rw [hworker,hs']
    exact hfollows
  · have hlog : (t.workers i).wake.log = (t.workers i).log := by
      unfold Worker.wake
      split <;> rfl
    rw [hs']
    change (t.workers i).wake.log.map _ = _
    rw [hlog]
    exact hm.logs i
  · rw [hpusher] at hj
    cases hj
  · rw [hd]
    rfl
  · rw [hs']
    exact hm.accepted
  · rw [hs']
    exact hm.freed

/-- After the call no thread is in `jk_thread_pool_push`, and the lists agree. -/
lemma Matches.left (hm : Matches s xs t) (h : Consistent s xs) (hne : s.destroyer ≠ .idle) :
    t.waitTasks.map job = xs.map Prod.snd := by
  apply hm.listed
  intro j
  rw [h.phases.quiet hne j]
  rfl

/-- Past the broadcast the pool is told to quit. -/
lemma Matches.told (hm : Matches s xs t) (hne : s.destroyer.section ≠ .idle) : t.quitFlag = true :=
  hm.quits.mpr (by rwa [hm.destroy])

/-- A worker that has left its loop is joined. -/
lemma Matches.join (hm : Matches s xs t) (h : Consistent s xs) {k : ℕ} (hpc : s.destroyer = .joining k)
    (hk : k < n) (hexit : s.worker ⟨k,hk⟩ = .exited) :
    ∃ ds t', run strictStep t ds = some t' ∧ Matches (s.setPc .destroyer (DestroyerPc.joining (k+1))) xs t' := by
  have hne : s.destroyer ≠ .idle := by simp [hpc]
  have hquit := hm.told (by simp [hpc,DestroyerPc.section])
  have hjoining := hm.destroy
  have hfollows := hm.workers ⟨k,hk⟩
  rw [hpc] at hjoining
  rw [hexit] at hfollows
  have hp : (t.workers ⟨k,hk⟩).pc = .exited := hfollows
  have hjoin : Pool.step t .join = some { t with destroy := .joining (k+1) } := by
    simp [Pool.step,hjoining,DestroyerPc.section,hk,hp]
  exact hm.destroyer_does rfl (show Signalled t .join from trivial) hjoin rfl (fun _ _ _ => rfl) rfl
    (h.phases.quiet hne)
    (hm.left h hne) (by simp [hquit]) rfl ⟨rfl,rfl⟩ hm.freed

/-- All workers are joined. -/
lemma Matches.retire (hm : Matches s xs t) (h : Consistent s xs) {k : ℕ} (hpc : s.destroyer = .joining k)
    (hk : ¬k < n) :
    ∃ ds t', run strictStep t ds = some t' ∧
      Matches (s.setPc .destroyer (DestroyerPc.freeing s.waitTasks)) xs t' := by
  have hne : s.destroyer ≠ .idle := by simp [hpc]
  have hquit := hm.told (by simp [hpc,DestroyerPc.section])
  have hjoining := hm.destroy
  rw [hpc] at hjoining
  have hjoin : Pool.step t .join = some { t with destroy := .freeing } := by
    simp [Pool.step,hjoining,DestroyerPc.section,hk]
  exact hm.destroyer_does rfl (show Signalled t .join from trivial) hjoin rfl (fun _ _ _ => rfl) rfl
    (h.phases.quiet hne)
    (hm.left h hne) (by simp [hquit]) rfl ⟨rfl,rfl⟩ hm.freed

/-- The tasks left are all freed. -/
lemma Matches.finish (hm : Matches s xs t) (h : Consistent s xs) (hpc : s.destroyer = .freeing none) :
    ∃ ds t', run strictStep t ds = some t' ∧ Matches (s.setPc .destroyer DestroyerPc.done) xs t' := by
  have hne : s.destroyer ≠ .idle := by simp [hpc]
  have hlist := hm.left h hne
  have hquit := hm.told (by simp [hpc,DestroyerPc.section])
  have hfreeing := hm.destroy
  have hpath := h.path
  rw [State.head,hpc] at hpath
  rw [hpc] at hfreeing
  cases xs with
  | cons c rest => exact absurd hpath.1 (by simp)
  | nil =>
    have hempty : t.waitTasks = [] := List.map_eq_nil_iff.mp hlist
    have hfree : Pool.step t .freeLeft = some { t with destroy := .done } := by
      simp [Pool.step,hfreeing,DestroyerPc.section,hempty]
    exact hm.destroyer_does rfl (show Signalled t .freeLeft from trivial) hfree rfl (fun _ _ _ => rfl) rfl
      (h.phases.quiet hne) hlist (by simp [hquit]) rfl ⟨rfl,rfl⟩ hm.freed

/-- A task left is freed. -/
lemma Matches.drop (hm : Matches s xs t) (h : Consistent s xs) {a : ℕ} {p : Option ℕ}
    (hpc : s.destroyer = .dropping a p) (hs' : s' = s.access (some a) fun a c =>
      { s.setPc .destroyer (DestroyerPc.dropped p) with tasks := s.tasks.free a, freed := s.freed++[c.item] }) :
    ∃ ds t', run strictStep t ds = some t' ∧ Matches s' xs.tail t' := by
  subst hs'
  have hne : s.destroyer ≠ .idle := by simp [hpc]
  have hlist := hm.left h hne
  have hfreeing := hm.destroy
  have hpath := h.path
  rw [State.head,hpc] at hpath
  rw [hpc] at hfreeing
  cases xs with
  | nil => cases hpath
  | cons c rest =>
    obtain ⟨hc,q,hq,_⟩ := hpath
    obtain rfl := Option.some.inj hc
    cases hwait : t.waitTasks with
    | nil =>
      rw [hwait] at hlist
      cases hlist
    | cons task ts =>
      rw [hwait] at hlist
      obtain ⟨hjob,hts⟩ := List.cons.inj hlist
      have hfree : Pool.step t .freeLeft = some { t with
          waitTasks := ts, taskNums := wrap 32 (t.taskNums-1), freed := t.freed++[task] } := by
        simp [Pool.step,hfreeing,DestroyerPc.section,hwait]
      simp only [State.access,hq]
      refine hm.destroyer_does rfl (show Signalled t .freeLeft from trivial) hfree rfl ?_ rfl
        (h.phases.quiet hne) hts
        hm.quits hfreeing ⟨rfl,rfl⟩ ?_
      · intro i b hb
        apply Mem.free_of_ne
        rintro rfl
        exact Option.some_ne_none _ (h.blocks.alone (some (.worker i)) none c.1 hb List.mem_cons_self)
      · change (t.freed++[task]).map job = s.freed++[c.2]
        rw [List.map_append,hm.freed,List.map_singleton,hjob]

theorem Matches.threadPoolDestroy (hm : Matches s xs t) (h : Consistent s xs)
    (hstep : threadPoolDestroy s = some s') :
    ∃ ds t', run strictStep t ds = some t' ∧ Matches s' (s.destroyer.after xs) t' := by
  have hpath := h.path
  have hmove := fun (pc : DestroyerPc) (hsection : pc.section = s.destroyer.section) (s' : State n m φ α)
    (hpc : s'.pc = Function.update s.pc .destroyer pc) => hm.destroyer_stay hpc hsection
  unfold Threads.threadPoolDestroy at hstep
  cases hpc : s.destroyer with
  | idle | done =>
    rw [hpc] at hstep
    cases hstep
  | called =>
    rw [hpc] at hstep hmove
    obtain ⟨_,heq⟩ := Option.ite_none_right_eq_some.mp hstep
    obtain rfl := Option.some.inj heq
    exact hmove .locked rfl _ rfl rfl rfl rfl rfl
  | locked =>
    rw [hpc] at hstep hmove
    obtain rfl := Option.some.inj hstep
    exact hmove .flagged rfl _ rfl rfl rfl rfl rfl
  | flagged =>
    rw [hpc] at hstep
    exact hm.broadcast h hpc (Option.some.inj hstep).symm
  | broadcasted =>
    rw [hpc] at hstep hmove
    obtain rfl := Option.some.inj hstep
    rw [h.release_eq (x := .destroyer) (show s.destroyer.inside = true by simp [hpc,DestroyerPc.inside])]
    exact hmove (.joining 0) rfl _ rfl rfl rfl rfl rfl
  | joining k =>
    rw [hpc] at hstep
    simp only at hstep
    split at hstep
    · rename_i hk
      split at hstep
      · rename_i hexit
        obtain rfl := Option.some.inj hstep
        exact hm.join h hpc hk hexit
      · cases hstep
    · rename_i hk
      obtain rfl := Option.some.inj hstep
      exact hm.retire h hpc hk
  | freeing p =>
    rw [State.head,hpc] at hpath
    rw [hpc] at hstep hmove
    cases p with
    | none =>
      simp only [h.unlocked (by simp [hpc,DestroyerPc.alone]),if_true] at hstep
      obtain rfl := Option.some.inj hstep
      exact hm.finish h hpc
    | some a =>
      cases xs with
      | nil => cases hpath
      | cons c rest =>
        obtain ⟨hc,q,hq,_⟩ := hpath
        obtain rfl := Option.some.inj hc
        obtain rfl := Option.some.inj hstep
        simp only [State.access,hq]
        exact hmove (.dropping c.1 q) rfl _ rfl rfl rfl rfl rfl
  | dropping a p =>
    rw [hpc] at hstep
    exact hm.drop h hpc (Option.some.inj hstep).symm
  | dropped p =>
    rw [hpc] at hstep hmove
    obtain rfl := Option.some.inj hstep
    exact hmove (.counting p s.taskNums) rfl _ rfl rfl rfl rfl rfl
  | counting p k =>
    rw [hpc] at hstep hmove
    obtain rfl := Option.some.inj hstep
    exact hmove (.freeing p) rfl _ rfl rfl rfl rfl rfl

/-! ### Runs -/

theorem Matches.step (hm : Matches s xs t) (h : Consistent s xs) {e : Event n m φ α} (hstep : step s e = some s') :
    ∃ ds t', run strictStep t ds = some t' ∧ Matches s' (s.listed xs e) t' := by
  cases e with
  | worker i =>
    rw [h.worker_eq] at hstep
    exact hm.threadLoop h hstep
  | wake i =>
    obtain ⟨hw,heq⟩ := Option.ite_none_right_eq_some.mp hstep
    obtain rfl := Option.some.inj heq
    have hp := (hm.waiting_iff i).mp hw
    have hwoken : WorkerPc.woken.Follows s.tasks (.woken : Pool.Pc (Task φ α)) := rfl
    have hdo : Pool.step t (.wake i) = some (t.setWorker i ⟨.woken,(t.workers i).log++[]⟩) := by
      simp [Pool.step,hp,Pool.State.setPc]
    refine hm.worker_acts rfl (show Signalled t (.wake i) from trivial) hdo hwoken (fun _ _ _ _ => rfl) ?_
      ⟨rfl,rfl⟩
    simp only [List.map_nil,List.append_nil,Function.update_eq_self]
    rfl
  | push j b block =>
    obtain ⟨⟨_,hpc⟩,heq⟩ := Option.ite_none_right_eq_some.mp hstep
    cases block with
    | none =>
      obtain rfl := Option.some.inj heq
      exact ⟨[],t,rfl,hm⟩
    | some c =>
      obtain ⟨a,next⟩ := c
      obtain ⟨ha,heq⟩ := Option.ite_none_right_eq_some.mp heq
      obtain rfl := Option.some.inj heq
      have hahead : (PusherPc.filled b a).ahead = (s.pusher j).ahead := by
        rw [hpc]
        rfl
      refine hm.pusher_stay rfl hahead (fun i c hc => ?_) rfl rfl rfl
      apply Mem.put_of_ne
      rintro rfl
      exact (h.blocks.covers c).mpr ⟨some (.worker i),hc⟩ ha
  | pusher j woken =>
    rw [h.pusher_eq] at hstep
    exact hm.pushing h hstep
  | destroy =>
    obtain ⟨⟨hd,_⟩,heq⟩ := Option.ite_none_right_eq_some.mp hstep
    obtain rfl := Option.some.inj heq
    have hsection : DestroyerPc.called.section = s.destroyer.section := by
      rw [hd]
      rfl
    exact hm.destroyer_stay rfl hsection rfl rfl rfl rfl
  | destroyer => exact hm.threadPoolDestroy h hstep

/-- The pool of sections that a state of the threads stands for. -/
def Refines (s : State n m φ α) (t : Pool.State n φ α) : Prop := ∃ xs, Consistent s xs ∧ Matches s xs t

theorem run_refines {es : List (Event n m φ α)} (hrun : run step (start n m φ α) es = some s) :
    ∃ ds t, run strictStep (threadPoolNew n φ α) ds = some t ∧ Refines s t := by
  refine run_simulates (R := Refines) (F := fun _ => True) (fun _ _ _ _ _ => trivial) ?_
    ⟨[],start_consistent,start_matches⟩ hrun trivial
  rintro s e s' t ⟨xs,h,hm⟩ _ hstep
  obtain ⟨ds,t',hds,hm'⟩ := hm.step h hstep
  exact ⟨ds,t',hds,_,h.step hstep,hm'⟩

end Steps

end JustKit.Pool.Threads
