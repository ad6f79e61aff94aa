import JustKit.Aio.EventLoop
import JustKit.Aio.Results
import JustKit.Pool.Progress

/-! Every request is delivered. The workers and the thread that repeats `jk_aio_wait` and `jk_aio_poll` run in any
order, and `pthread_cond_signal` wakes a waiting worker if there is one. What is left to do is bounded, whatever the
order; and when no thread can go on, with the loop blocked in `select`, nothing is left. -/
namespace JustKit.Aio
open Foundations Foundations.Transition
variable {n m : ℕ} {ψ : Type}

/-- The signal of a push reaches a waiting worker, if there is one. -/
def Signalled (s : Loop n m ψ) : LoopEvent n m ψ → Prop
  | .aio (.push _ malloc woken) => malloc = true → s.aio.pool.Signals woken
  | _ => True

instance signalledDecidable (s : Loop n m ψ) (e : LoopEvent n m ψ) : Decidable (Signalled s e) := by
  cases e with
  | write => exact inferInstanceAs (Decidable True)
  | aio e =>
    cases e with
    | push r malloc woken => exact inferInstanceAs (Decidable (_ → _))
    | _ => exact inferInstanceAs (Decidable True)

/-- What the observer of the library writes down. -/
def Ledger.watch (l : Ledger ψ) (s : Loop n m ψ) : LoopEvent n m ψ → Ledger ψ
  | .aio e => l.record s.aio e
  | .write => l

/-- One event of the loop, of a worker or of a submission, with the observer. -/
def deliverStep (j : Fin m) (p : Loop n m ψ × Ledger ψ) (e : LoopEvent n m ψ) :
    Option (Loop n m ψ × Ledger ψ) :=
  if Signalled p.1 e then (loopStep j p.1 e).map fun s' => (s',p.2.watch p.1 e) else none

/-- Everything but a new request, a wake-up that nobody has signalled, and a `select` that times out or fails. -/
def LoopEvent.Advances : LoopEvent n m ψ → Prop
  | .aio (.submit _ _) | .aio (.wake _) => False
  | .aio (.select _ ret) => 0 < ret
  | .aio _ | .write => True

/-! ### What is left to do -/

/-- The work of the pool, of `jk_aio_submit` and of `jk_aio_poll`. The weights leave room for what a step gives
the others to do: a push may wake every worker, and an append leads to a byte and a request to poll. -/
def State.ahead (s : State n m ψ) : ℕ :=
  10*s.pool.work+(10*n+41)*s.submitting.length+s.refused.length+3*(s.appended.length-s.dequeued.length)

/-- The work of the loop: a byte in the pipe costs it a round. The first byte is paid for when it leaves
`select`. -/
def Loop.round (j : Fin m) (s : Loop n m ψ) : ℕ :=
  match s.aio.threads j with
  | .idle => 5*s.aio.pipe+if s.turn = .poll then 2 else 0
  | .reading count => if count = 0 ∧ 0 < s.aio.pipe then 5*s.aio.pipe-1 else 5*s.aio.pipe+3
  | .polling _ => 5*s.aio.pipe+1
  | .finishing _ _ => 5*s.aio.pipe+3
  | .destroying _ _ => 5*s.aio.pipe+2

def Loop.work (j : Fin m) (s : Loop n m ψ) : ℕ := s.aio.ahead+(if s.writing then 6 else 0)+s.round j

/-- A push adds four steps for its task and wakes at most all workers. -/
lemma push_work_le (p : Pool.State n Fn ℕ) (r : ℕ) (woken : List (Fin n)) :
    (Pool.threadPoolPush p Fn.execute r (some .fininsh) true woken).1.work ≤ p.work+4+n := by
  have hle : total (fun w : Pool.Worker (Pool.Task Fn ℕ) => w.pc.work)
      (fun i => if i ∈ woken then (p.workers i).wake else p.workers i) ≤
        total (fun w : Pool.Worker (Pool.Task Fn ℕ) => w.pc.work+1) p.workers := by
    refine Finset.sum_le_sum fun i _ => ?_
    dsimp only
    split
    · exact Pool.wake_work_le (p.workers i)
    · exact Nat.le_succ _
  have hadd : total (fun w : Pool.Worker (Pool.Task Fn ℕ) => w.pc.work+1) p.workers =
      total (fun w : Pool.Worker (Pool.Task Fn ℕ) => w.pc.work) p.workers+n := by
    simp [total,Finset.sum_add_distrib]
  simp only [Pool.State.work,Pool.threadPoolPush,if_true,List.length_cons]
  omega

section Ahead
variable {s s' : State n m ψ} {list : List ℕ}

lemma push_ahead {r : ℕ} (hr : r ∈ s.submitting) (malloc : Bool) (woken : List (Fin n)) :
    (aioPush s r malloc woken).ahead < s.ahead := by
  obtain ⟨k,hk⟩ : ∃ k, s.submitting.length = k+1 :=
    ⟨_,(Nat.succ_pred_eq_of_pos (List.length_pos_of_mem hr)).symm⟩
  have hlen : (s.submitting.erase r).length = k := by rw [List.length_erase_of_mem hr,hk]; rfl
  have hmul : (10*n+41)*(k+1) = (10*n+41)*k+(10*n+41) := Nat.mul_succ _ _
  cases malloc with
  | false =>
    change 10*s.pool.work+(10*n+41)*(s.submitting.erase r).length+(s.refused.length+1)+
      3*(s.appended.length-s.dequeued.length) < _
    rw [State.ahead,hlen,hk]
    omega
  | true =>
    have hle := push_work_le s.pool r woken
    change 10*(Pool.threadPoolPush s.pool Fn.execute r (some .fininsh) true woken).1.work+
      (10*n+41)*(s.submitting.erase r).length+s.refused.length+3*(s.appended.length-s.dequeued.length) < _
    rw [State.ahead,hlen,hk]
    omega

lemma rollback_ahead {r : ℕ} (hr : r ∈ s.refused) : (aioRollback s r).ahead < s.ahead := by
  have hlen := List.length_erase_of_mem hr
  have hpos := List.length_pos_of_mem hr
  change 10*s.pool.work+(10*n+41)*s.submitting.length+(s.refused.erase r).length+
    3*(s.appended.length-s.dequeued.length) < _
  rw [State.ahead]
  omega

/-- Submissions and workers elsewhere use up work. -/
lemma Sound.elsewhere_ahead (h : Sound s list) {e : Event n m ψ} (he : e.Elsewhere)
    (hadv : (LoopEvent.aio e).Advances) (hstep : Aio.step s e = some s') : s'.ahead < s.ahead := by
  have hpool {pool : Pool.State n Fn ℕ} (hlt : pool.work < s.pool.work) :
    State.ahead { s with pool := pool } < s.ahead := by
    unfold State.ahead
    dsimp only
    omega
  cases step_cases hstep with
  | submit | wake => exact hadv.elim
  | push hr => exact push_ahead hr _ _
  | rollback hr => exact rollback_ahead hr
  | @lock i pool hp => exact hpool (Pool.step_work (e := .lock i) trivial hp)
  | @free i pool hp => exact hpool (Pool.step_work (e := .free i) trivial hp)
  | @call i result error t pool hpc hp =>
    have hlt := hpool (Pool.step_work (e := .call i) trivial hp)
    have hload : t.arg ∈ s.pool.load.map Pool.Task.arg := Multiset.mem_map_of_mem _ (Pool.mem_load (Or.inl hpc))
    obtain ⟨reqs,hexec,_⟩ := aioExecute_spec (s := { s with pool := pool }) (h.live_load hload) result error
    rw [(h.tasks t (Pool.mem_load (Or.inl hpc))).1,Fn.invoke,hexec]
    exact hlt
  | _ => exact he.elim

/-- An append leaves at least seven less to do. -/
lemma Sound.append_ahead (h : Sound s list) {i : Fin n} (hstep : Aio.step s (.finish i) = some s') :
    s'.ahead+7 ≤ s.ahead ∧ s'.threads = s.threads ∧ Pool.step s.pool (.finish i) = some s'.pool := by
  cases step_cases hstep with
  | @finish i t pool f hpc hf hp =>
    have hlt : pool.work < s.pool.work := Pool.step_work (e := .finish i) trivial hp
    obtain rfl : f = .fininsh := Option.some.inj (hf.symm.trans (h.called hpc))
    obtain ⟨reqs,heq,_⟩ := h.fininsh_spec hpc pool
    have hinvoke : Fn.fininsh.invoke { s with pool := pool } t.arg 0 0 = _ := heq
    rw [hinvoke]
    refine ⟨?_,rfl,hp⟩
    simp only [State.orFault,Option.getD_some,State.ahead,List.length_append,List.length_singleton]
    omega
  | noFinish hpc hf => cases hf.symm.trans (h.called hpc)

end Ahead

section Work
variable {j : Fin m} {s s' : Loop n m ψ}

/-- A byte more costs the loop at most five steps. -/
lemma round_byte_le (j : Fin m) (s : Loop n m ψ) (writing : Bool) :
    Loop.round j ⟨{ s.aio with pipe := s.aio.pipe+1 },s.turn,writing⟩ ≤ s.round j+5 := by
  unfold Loop.round
  dsimp only
  cases s.aio.threads j with
  | reading count =>
    dsimp only
    split <;> split <;> omega
  | _ => dsimp only; omega

lemma write_work (hw : s.writing = true) : Loop.work j { s with
    aio := { s.aio with pipe := if s.aio.pipe < s.aio.capacity then s.aio.pipe+1 else s.aio.pipe },
    writing := false } < s.work j := by
  have hbyte := round_byte_le j s false
  have hround : Loop.round j { s with
      aio := { s.aio with pipe := if s.aio.pipe < s.aio.capacity then s.aio.pipe+1 else s.aio.pipe },
      writing := false } ≤ s.round j+5 := by
    split
    · exact hbyte
    · exact Nat.le_add_right _ _
  unfold Loop.work
  rw [hw]
  change s.aio.ahead+0+_ < s.aio.ahead+6+_
  omega

/-- Only the thread of the loop has moved. -/
lemma setThread_work {t : Thread} {turn : Turn}
    (hround : Loop.round j { s with aio := s.aio.setThread j t, turn := turn } < s.round j) :
    Loop.work j { s with aio := s.aio.setThread j t, turn := turn } < s.work j := by
  unfold Loop.work
  change s.aio.ahead+(if s.writing then 6 else 0)+_ < _
  omega

/-- What happens elsewhere does not change the work of the loop. -/
lemma elsewhere_work {list : List ℕ} (h : Sound s.aio list) {e : Event n m ψ} (he : e.Elsewhere)
    (hadv : (LoopEvent.aio e).Advances) (hact : s.act e s.turn = some s') : s'.work j < s.work j := by
  obtain ⟨aio,hstep,rfl⟩ := Option.map_eq_some_iff.mp hact
  have hu := h.elsewhere he hstep
  have hlt := h.elsewhere_ahead he hadv hstep
  have hround : Loop.round j { s with aio := aio, turn := s.turn } = s.round j := by
    unfold Loop.round
    dsimp only
    rw [hu.threads,hu.pipe]
  unfold Loop.work
  rw [hround]
  dsimp only
  omega

lemma append_work {list : List ℕ} (h : Sound s.aio list) {i : Fin n} {aio : State n m ψ} (hw : s.writing = false)
    (hstep : Aio.step s.aio (.finish i) = some aio) :
    Loop.work j { s with aio := { aio with pipe := s.aio.pipe }, writing := true } < s.work j := by
  obtain ⟨hle,hthreads,_⟩ := h.append_ahead hstep
  have hround : Loop.round j { s with aio := { aio with pipe := s.aio.pipe }, writing := true } = s.round j := by
    unfold Loop.round
    dsimp only
    rw [hthreads]
  unfold Loop.work
  rw [hround,hw]
  change aio.ahead+6+_ < s.aio.ahead+0+_
  omega

lemma select_work {ret : ℤ} (hret : 0 < ret) (hturn : s.turn = .wait)
    (hact : s.act (.select j ret) (if ret ≤ 0 then .poll else .wait) = some s') : s'.work j < s.work j := by
  obtain ⟨aio,hstep,rfl⟩ := Option.map_eq_some_iff.mp hact
  cases step_cases hstep with
  | noInput _ hle => exact absurd hret (not_lt.mpr hle)
  | select hj _ hpipe =>
    apply setThread_work
    unfold Loop.round
    rw [hj,hturn]
    simp only [State.setThread,Function.update_self,hpipe,true_and,if_true]
    simp only [reduceCtorEq,if_false]
    omega

lemma read_work (hact : s.act (.read j) (if 0 < s.aio.pipe then .wait else .poll) = some s') :
    s'.work j < s.work j := by
  obtain ⟨aio,hstep,rfl⟩ := Option.map_eq_some_iff.mp hact
  cases step_cases hstep with
  | @read _ count hj hpipe =>
    have hround : Loop.round j { s with
        aio := { s.aio.setThread j (.reading (count+1)) with pipe := s.aio.pipe-1 },
        turn := if 0 < s.aio.pipe then .wait else .poll } < s.round j := by
      unfold Loop.round
      rw [hj]
      simp only [State.setThread,Function.update_self,Nat.add_one_ne_zero,false_and,if_false]
      split <;> omega
    unfold Loop.work
    change s.aio.ahead+(if s.writing then 6 else 0)+_ < _
    omega
  | @readAll _ count hj hpipe =>
    have hround : Loop.round j { s with
        aio := { s.aio.setThread j .idle with counts := s.aio.counts++[count] },
        turn := if 0 < s.aio.pipe then .wait else .poll } < s.round j := by
      unfold Loop.round
      rw [hj]
      simp only [State.setThread,Function.update_self,hpipe,and_false,if_false,if_true]
      omega
    unfold Loop.work
    change s.aio.ahead+(if s.writing then 6 else 0)+_ < _
    omega

lemma poll_work (hturn : s.turn = .poll) (hact : s.act (.poll j) .poll = some s') : s'.work j < s.work j := by
  obtain ⟨aio,hstep,rfl⟩ := Option.map_eq_some_iff.mp hact
  cases step_cases hstep with
  | poll hj =>
    apply setThread_work
    unfold Loop.round
    rw [hj,hturn]
    simp only [State.setThread,Function.update_self,if_true]
    omega

lemma dequeue_work {list : List ℕ} (h : Sound s.aio list)
    (hact : s.act (.dequeue j) (if s.aio.rhead = none then .wait else .poll) = some s') : s'.work j < s.work j := by
  obtain ⟨aio,hstep,rfl⟩ := Option.map_eq_some_iff.mp hact
  cases step_cases hstep with
  | @dequeue _ processed hj =>
    cases hr : s.aio.rhead with
    | none =>
      simp only [aioPollSection,hr,State.orFault,Option.getD_some,if_true]
      apply setThread_work
      unfold Loop.round
      rw [hj]
      simp [State.setThread]
    | some r =>
      obtain ⟨next,rest,hnext,rfl,_⟩ :=
        (hr ▸ h.queue : LinkedList.Queue (nextOf s.aio.reqs) (some r) s.aio.rtail list).pop
      obtain ⟨q,hq,_⟩ := Option.map_eq_some_iff.mp hnext
      -- There is a request to take off the list.
      have hlen : s.aio.dequeued.length < s.aio.appended.length := by
        rw [h.order,List.length_append,List.length_cons]
        omega
      have hround : Loop.round j { s with aio := s.aio.setThread j (.finishing r processed), turn := .poll }+1 =
          s.round j+3 := by
        unfold Loop.round
        rw [hj]
        simp [State.setThread]
      simp only [aioPollSection,hr,hq,State.orFault,Option.bind_eq_bind,Option.bind_some]
      unfold Loop.work
      change 10*s.aio.pool.work+(10*n+41)*s.aio.submitting.length+s.aio.refused.length+
        3*(s.aio.appended.length-(s.aio.dequeued++[r]).length)+(if s.writing then 6 else 0)+
          Loop.round j { s with aio := s.aio.setThread j (.finishing r processed), turn := .poll } < _
      rw [List.length_append,List.length_singleton,State.ahead]
      omega

lemma callback_work {list : List ℕ} (h : Sound s.aio list) (hact : s.act (.callback j) .poll = some s') :
    s'.work j < s.work j := by
  obtain ⟨aio,hstep,rfl⟩ := Option.map_eq_some_iff.mp hact
  cases step_cases hstep with
  | @callback _ r processed hj =>
    obtain ⟨q,hq⟩ := Option.ne_none_iff_exists'.mp (h.live_held (j := j) (r := r) (by simp [hj,Thread.holds])).1
    have hround : Loop.round j { s with aio := s.aio.setThread j (.destroying r processed), turn := .poll } <
        s.round j := by
      unfold Loop.round
      rw [hj]
      simp [State.setThread]
    rw [aioCallback,hq]
    exact setThread_work hround

lemma destory_work {list : List ℕ} (h : Sound s.aio list) (hact : s.act (.destory j) .poll = some s') :
    s'.work j < s.work j := by
  obtain ⟨aio,hstep,rfl⟩ := Option.map_eq_some_iff.mp hact
  cases step_cases hstep with
  | @destory _ r processed hj =>
    obtain ⟨q,hq⟩ := Option.ne_none_iff_exists'.mp (h.live_held (j := j) (r := r) (by simp [hj,Thread.holds])).1
    have hround : Loop.round j { s with aio := s.aio.setThread j (.polling (processed+1)), turn := .poll } <
        s.round j := by
      unfold Loop.round
      rw [hj]
      simp [State.setThread]
    rw [aioDestory,hq]
    exact setThread_work hround

/-- Every event that advances uses up work. -/
theorem loopStep_work {list : List ℕ} (h : Sound s.aio list) {e : LoopEvent n m ψ} (he : e.Advances)
    (hstep : loopStep j s e = some s') : s'.work j < s.work j := by
  cases e with
  | write =>
    obtain ⟨hw,hs⟩ := Option.ite_none_right_eq_some.mp hstep
    obtain rfl := Option.some.inj hs
    exact write_work hw
  | aio e =>
    cases e with
    | submit | wake => exact he.elim
    | rollback r =>
      exact elsewhere_work h (e := .rollback r) trivial trivial (Option.ite_none_left_eq_some.mp hstep).2
    | push r malloc woken => exact elsewhere_work h (e := .push r malloc woken) trivial trivial hstep
    | lock i => exact elsewhere_work h (e := .lock i) trivial trivial hstep
    | call i result error => exact elsewhere_work h (e := .call i result error) trivial trivial hstep
    | free i => exact elsewhere_work h (e := .free i) trivial trivial hstep
    | finish i =>
      obtain ⟨hw,hs⟩ := Option.ite_none_left_eq_some.mp hstep
      obtain ⟨aio,ha,rfl⟩ := Option.map_eq_some_iff.mp hs
      exact append_work h (Bool.eq_false_iff.mpr hw) ha
    | select k ret =>
      obtain ⟨⟨rfl,hturn⟩,hact⟩ := Option.ite_none_right_eq_some.mp hstep
      exact select_work he hturn hact
    | read k =>
      obtain ⟨rfl,hact⟩ := Option.ite_none_right_eq_some.mp hstep
      exact read_work hact
    | poll k =>
      obtain ⟨⟨rfl,hturn⟩,hact⟩ := Option.ite_none_right_eq_some.mp hstep
      exact poll_work hturn hact
    | dequeue k =>
      obtain ⟨⟨rfl,_⟩,hact⟩ := Option.ite_none_right_eq_some.mp hstep
      exact dequeue_work h hact
    | callback k =>
      obtain ⟨rfl,hact⟩ := Option.ite_none_right_eq_some.mp hstep
      exact callback_work h hact
    | destory k =>
      obtain ⟨rfl,hact⟩ := Option.ite_none_right_eq_some.mp hstep
      exact destory_work h hact

end Work

/-! ### What holds in every state -/

/-- The thread that an event is a step of, if it is one in `jk_aio_wait` or `jk_aio_poll`. -/
def Event.thread : Event n m ψ → Option (Fin m)
  | .select j _ | .read j | .poll j | .dequeue j | .callback j | .destory j => some j
  | _ => none

section Frames
variable {s s' : State n m ψ} {list : List ℕ}

lemma pollSection_frame (s : State n m ψ) (j : Fin m) (processed : ℕ) :
    (s.orFault (aioPollSection s j processed)).pool = s.pool ∧
      ∀ k ≠ j, (s.orFault (aioPollSection s j processed)).threads k = s.threads k := by
  unfold aioPollSection
  cases s.rhead with
  | none => exact ⟨rfl,fun k hk => Function.update_of_ne hk ..⟩
  | some r =>
    cases hr : s.reqs r with
    | none => simp [hr,State.orFault]
    | some q =>
      simp only [hr,State.orFault,Option.bind_eq_bind,Option.bind_some]
      exact ⟨rfl,fun k hk => Function.update_of_ne hk ..⟩

lemma callback_frame (s : State n m ψ) (j : Fin m) (r processed : ℕ) :
    (s.orFault (aioCallback s j r processed)).pool = s.pool ∧
      ∀ k ≠ j, (s.orFault (aioCallback s j r processed)).threads k = s.threads k := by
  unfold aioCallback
  cases s.reqs r with
  | none => exact ⟨rfl,fun _ _ => rfl⟩
  | some q => exact ⟨rfl,fun k hk => Function.update_of_ne hk ..⟩

lemma destory_frame (s : State n m ψ) (j : Fin m) (r processed : ℕ) :
    (s.orFault (aioDestory s j r processed)).pool = s.pool ∧
      ∀ k ≠ j, (s.orFault (aioDestory s j r processed)).threads k = s.threads k := by
  unfold aioDestory
  cases s.reqs r with
  | none => exact ⟨rfl,fun _ _ => rfl⟩
  | some q => exact ⟨rfl,fun k hk => Function.update_of_ne hk ..⟩

/-- A thread moves by its own events only. -/
lemma Sound.other_thread (h : Sound s list) {e : Event n m ψ} {k : Fin m} (hk : e.thread ≠ some k)
    (hstep : Aio.step s e = some s') : s'.threads k = s.threads k := by
  have hne (j : Fin m) (hj : (some j : Option (Fin m)) ≠ some k) : k ≠ j := fun e => hj (congrArg some e.symm)
  cases step_cases hstep with
  | submit | push | rollback | wake | lock | free | noInput => rfl
  | @call i => rw [(h.elsewhere (e := .call i _ _) trivial hstep).threads]
  | finish => rw [(h.append_ahead hstep).2.1]
  | noFinish hpc hf => cases hf.symm.trans (h.called hpc)
  | select | read | readAll | poll => exact Function.update_of_ne (hne _ hk) ..
  | dequeue => exact (pollSection_frame s _ _).2 k (hne _ hk)
  | callback => exact (callback_frame s _ _ _).2 k (hne _ hk)
  | destory => exact (destory_frame s _ _ _).2 k (hne _ hk)

/-- The pool makes one of its own steps, or none. -/
lemma Sound.pool_step (h : Sound s list) {e : Event n m ψ} (hstep : Aio.step s e = some s')
    (hopen : Pool.Open s.pool) (hsignals : ∀ r malloc woken, e = .push r malloc woken → malloc = true →
    s.pool.Signals woken) :
    Pool.Open s'.pool := by
  obtain ⟨list',h'⟩ := h.step hstep
  have hown (pe : Pool.Event n Fn ℕ) {pool : Pool.State n Fn ℕ} (hpe : pe.OfShutdown)
      (hp : Pool.step s.pool pe = some pool) (heq : s'.pool = pool) : Pool.Open s'.pool :=
    hopen.step ((Pool.signalStep_eq hpe).trans (heq ▸ hp)) h.idle h'.idle
  have hsame (heq : s'.pool = s.pool) : Pool.Open s'.pool := heq ▸ hopen
  cases step_cases hstep with
  | submit | rollback | noInput | select | read | readAll | poll => exact hopen
  | @push r malloc woken =>
    apply hopen.step (e := .push Fn.execute r (some .fininsh) malloc woken) _ h.idle h'.idle
    exact if_pos ⟨by simp [h.idle],hsignals r malloc woken rfl⟩
  | @wake i pool hp => exact hopen.step (e := .wake i) hp h.idle h'.idle
  | @lock i pool hp => exact hown (.lock i) trivial hp rfl
  | @free i pool hp => exact hown (.free i) trivial hp rfl
  | @call i result error t pool hpc hp =>
    have hload : t.arg ∈ s.pool.load.map Pool.Task.arg := Multiset.mem_map_of_mem _ (Pool.mem_load (Or.inl hpc))
    obtain ⟨reqs,hexec,_⟩ := aioExecute_spec (s := { s with pool := pool }) (h.live_load hload) result error
    apply hown (.call i) trivial hp
    rw [(h.tasks t (Pool.mem_load (Or.inl hpc))).1,Fn.invoke,hexec]
    rfl
  | @finish i => exact hown (.finish i) trivial (h.append_ahead hstep).2.2 rfl
  | noFinish hpc hf => cases hf.symm.trans (h.called hpc)
  | dequeue => exact hsame (pollSection_frame s _ _).1
  | callback => exact hsame (callback_frame s _ _ _).1
  | destory => exact hsame (destory_frame s _ _ _).1

end Frames

/-- The loop is awake, the pool open, and the observer's notes are right. -/
structure Live (j : Fin m) (s : Loop n m ψ) (l : Ledger ψ) : Prop where
  awake : Awake j s
  pool : Pool.Open s.aio.pool
  others : ∀ k ≠ j, s.aio.threads k = .idle
  recorded : Recorded s.aio l

theorem loopInit_live {capacity : ℕ} (hcap : 0 < capacity) (j : Fin m) :
    Live j (loopInit n m ψ capacity) ⟨[],[],[]⟩ :=
  ⟨loopInit_awake hcap j,Pool.threadPoolNew_open,fun _ _ => rfl,aioInit_recorded n m ψ capacity⟩

/-- An event of the loop is one of the library, but for the byte that is not written yet, and if a thread moves,
it is the one of the loop. -/
lemma loopStep_aio {j : Fin m} {s s' : Loop n m ψ} {e : Event n m ψ} (hstep : loopStep j s (.aio e) = some s') :
    (∃ aio pipe, Aio.step s.aio e = some aio ∧ s'.aio = { aio with pipe := pipe }) ∧
    ∀ k ≠ j, e.thread ≠ some k := by
  have hact {turn : Turn} (h : s.act e turn = some s') :
      ∃ aio pipe, Aio.step s.aio e = some aio ∧ s'.aio = { aio with pipe := pipe } := by
    obtain ⟨aio,ha,rfl⟩ := Option.map_eq_some_iff.mp h
    exact ⟨aio,aio.pipe,ha,rfl⟩
  have hown (k : Fin m) (hk : k ≠ j) : (some j : Option (Fin m)) ≠ some k := fun e => hk (Option.some.inj e).symm
  cases e with
  | submit | rollback => exact ⟨hact (Option.ite_none_left_eq_some.mp hstep).2,fun _ _ => nofun⟩
  | push | wake | lock | call | free => exact ⟨hact hstep,fun _ _ => nofun⟩
  | finish i =>
    obtain ⟨_,hs⟩ := Option.ite_none_left_eq_some.mp hstep
    obtain ⟨aio,ha,rfl⟩ := Option.map_eq_some_iff.mp hs
    exact ⟨⟨aio,s.aio.pipe,ha,rfl⟩,fun _ _ => nofun⟩
  | select k ret =>
    obtain ⟨⟨rfl,_⟩,ha⟩ := Option.ite_none_right_eq_some.mp hstep
    exact ⟨hact ha,hown⟩
  | read k | callback k | destory k =>
    obtain ⟨rfl,ha⟩ := Option.ite_none_right_eq_some.mp hstep
    exact ⟨hact ha,hown⟩
  | poll k | dequeue k =>
    obtain ⟨⟨rfl,_⟩,ha⟩ := Option.ite_none_right_eq_some.mp hstep
    exact ⟨hact ha,hown⟩

theorem Live.step {j : Fin m} {s s' : Loop n m ψ} {l : Ledger ψ} (h : Live j s l) {e : LoopEvent n m ψ}
    (hsignal : Signalled s e) (hstep : loopStep j s e = some s') : Live j s' (l.watch s e) := by
  have hawake := h.awake.step hstep
  obtain ⟨list,hs⟩ := h.awake.sound
  cases e with
  | write =>
    obtain ⟨_,heq⟩ := Option.ite_none_right_eq_some.mp hstep
    obtain rfl := Option.some.inj heq
    exact ⟨hawake,h.pool,h.others,{ h.recorded with }⟩
  | aio e =>
    obtain ⟨⟨aio,pipe,ha,heq⟩,hthread⟩ := loopStep_aio hstep
    have hpool : Pool.Open aio.pool := by
      apply hs.pool_step ha h.pool
      rintro r malloc woken rfl
      exact hsignal
    have hrecorded := h.recorded.step hs ha
    refine ⟨hawake,?_,fun k hk => ?_,?_⟩
    · rw [heq]
      exact hpool
    · rw [heq]
      exact (hs.other_thread (hthread k hk) ha).trans (h.others k hk)
    · rw [heq]
      exact { hrecorded with }

/-! ### The library at rest -/

/-- `jk_aio_nreqs`: a difference of 64 bits in an `int`. -/
def aioNreqs (s : State n m ψ) : ℤ := wrap 32 (s.nreqs-s.ncoms).toNat

/-- Every request that was counted and not rolled back has been executed, dequeued and released, and called back if
it was submitted with a callback. -/
structure Delivered (s : State n m ψ) (l : Ledger ψ) : Prop where
  submitting : s.submitting = []
  refused : s.refused = []
  waiting : s.pool.waitTasks = []
  executed : (s.executed : Multiset ℕ) = s.counted
  destroyed : (s.destroyed : Multiset ℕ) = s.counted
  returned : ((l.returned.map Prod.fst : List ℕ) : Multiset ℕ) = (s.counted : Multiset ℕ).filter l.Wants
  nreqs : aioNreqs s = 0

section Rest
variable {j : Fin m} {s : Loop n m ψ} {l : Ledger ψ}

/-- No thread can go on, and `select` does not time out. -/
def AtRest (j : Fin m) (s : Loop n m ψ) : Prop := ∀ e : LoopEvent n m ψ, e.Advances → Signalled s e →
    loopStep j s e = none

lemma rests_iff : Rests (deliverStep j) (fun _ e => e.Advances) (s,l) ↔ AtRest j s := by
  refine forall₂_congr fun e _ => ?_
  by_cases hsignal : Signalled s e
  · simp [deliverStep,hsignal]
  · simp [deliverStep,hsignal]

variable (h : Live j s l) (hrest : AtRest j s)
include hrest

lemma AtRest.not_writing : s.writing = false := by
  have hwrite := hrest .write trivial trivial
  exact Bool.eq_false_iff.mpr (by simpa [loopStep] using hwrite)

lemma AtRest.submissions : s.aio.submitting = [] ∧ s.aio.refused = [] := by
  constructor
  · refine List.eq_nil_iff_forall_not_mem.mpr fun r hr => ?_
    have hpush := hrest (.aio (.push r false [])) trivial nofun
    simp [loopStep,Loop.act,step,hr] at hpush
  · refine List.eq_nil_iff_forall_not_mem.mpr fun r hr => ?_
    have hrollback := hrest (.aio (.rollback r)) trivial trivial
    simp [loopStep,Loop.act,step,hr,hrest.not_writing] at hrollback

/-- No worker can go on. -/
lemma AtRest.workers : Rests Pool.step (fun _ e => e.OfWorker) s.aio.pool := by
  intro e he
  cases e with
  | lock i =>
    have hlock := hrest (.aio (.lock i)) trivial trivial
    exact Option.eq_none_iff_forall_ne_some.mpr (by simpa [loopStep,Loop.act,step,workerStep] using hlock)
  | call i =>
    have hcall := hrest (.aio (.call i 0 0)) trivial trivial
    cases hpc : (s.aio.pool.workers i).pc with
    | holding t => simp [loopStep,Loop.act,step,workerStep,hpc,Pool.step] at hcall
    | _ => simp [Pool.step,hpc]
  | finish i =>
    have hfinish := hrest (.aio (.finish i)) trivial trivial
    cases hpc : (s.aio.pool.workers i).pc with
    | called t =>
      cases hf : t.finish <;> simp [loopStep,step,workerStep,hpc,hf,Pool.step,hrest.not_writing] at hfinish
    | _ => simp [Pool.step,hpc]
  | free i =>
    have hfree := hrest (.aio (.free i)) trivial trivial
    exact Option.eq_none_iff_forall_ne_some.mpr (by simpa [loopStep,Loop.act,step,workerStep] using hfree)
  | _ => exact he.elim

/-- The thread of the loop is blocked in `select`. -/
lemma AtRest.blocked : s.AtSelect j ∧ s.aio.pipe = 0 := by
  have hturn : s.aio.threads j = .idle := by
    cases hj : s.aio.threads j with
    | idle => rfl
    | reading count =>
      have hread := hrest (.aio (.read j)) trivial trivial
      by_cases hpipe : 0 < s.aio.pipe <;> simp [loopStep,Loop.act,step,hj,hpipe] at hread
    | polling processed =>
      have hdequeue := hrest (.aio (.dequeue j)) trivial trivial
      simp [loopStep,Loop.act,step,hj,hrest.not_writing] at hdequeue
    | finishing r processed =>
      have hcallback := hrest (.aio (.callback j)) trivial trivial
      simp [loopStep,Loop.act,step,hj] at hcallback
    | destroying r processed =>
      have hdestory := hrest (.aio (.destory j)) trivial trivial
      simp [loopStep,Loop.act,step,hj] at hdestory
  have hwait : s.turn = .wait := by
    cases ht : s.turn with
    | wait => rfl
    | poll =>
      have hpoll := hrest (.aio (.poll j)) trivial trivial
      simp [loopStep,Loop.act,step,hturn,ht] at hpoll
  refine ⟨⟨hwait,hturn⟩,?_⟩
  by_contra hpipe
  have hselect := hrest (.aio (.select j 1)) Int.one_pos trivial
  simp [loopStep,Loop.act,step,hturn,hwait,Nat.pos_of_ne_zero hpipe] at hselect

include h

/-- At rest nothing is left to deliver. -/
theorem Live.delivered (hn : 0 < n) (hpending : s.aio.pool.waitTasks.length < 2^31) : Delivered s.aio l := by
  obtain ⟨list,hs⟩ := h.awake.sound
  obtain ⟨hsubmitting,hrefused⟩ := hrest.submissions
  have hserved := h.pool.served hn hpending hrest.workers
  obtain ⟨hselect,hpipe⟩ := hrest.blocked
  have hidle : ∀ k, s.aio.threads k = .idle := by
    intro k
    by_cases hk : k = j
    · exact hk ▸ hselect.2
    · exact h.others k hk
  have hnone : ∀ i, (s.aio.pool.workers i).pc.inHand = 0 ∧ (s.aio.pool.workers i).pc.underway = 0 := by
    intro i
    rcases Pool.at_rest (i := i) hrest.workers with hw | he | hf
    · simp [hw,Pool.Pc.inHand,Pool.Pc.underway]
    · simp [he,Pool.Pc.inHand,Pool.Pc.underway]
    · simp [hf,Pool.Pc.inHand,Pool.Pc.underway]
  have hload : s.aio.pool.load = 0 := by
    have hzero : total (fun w : Pool.Worker (Pool.Task Fn ℕ) => w.pc.inHand) s.aio.pool.workers = 0 :=
      total_eq_zero _ fun i => (hnone i).1
    rw [Pool.State.load,hserved.empty,hzero]
    rfl
  have hunderway : s.aio.pool.underway = 0 := total_eq_zero _ fun i => (hnone i).2
  -- A request in the list would come with a byte in the pipe.
  have hlist : list = [] := by
    by_contra hne
    have hhead : s.aio.rhead ≠ none := by
      rw [hs.queue.chain.head]
      simpa using hne
    have hbyte := h.awake.byte hselect hrest.not_writing hhead
    omega
  have hcounted : (s.aio.counted : Multiset ℕ) = s.aio.appended := by
    rw [hs.counted,hsubmitting,hrefused,hload]
    simp
  have horder : s.aio.appended = s.aio.dequeued := by
    rw [hs.order,hlist,List.append_nil]
  have hdestroyed : (s.aio.dequeued : Multiset ℕ) = s.aio.destroyed := by
    have hzero : total Thread.holds s.aio.threads = 0 := total_eq_zero _ fun k => by simp [hidle k,Thread.holds]
    rw [hs.dequeued,hzero,zero_add]
  have hpast : total Thread.past s.aio.threads = 0 := total_eq_zero _ fun k => by simp [hidle k,Thread.past]
  refine ⟨hsubmitting,hrefused,hserved.empty,?_,?_,?_,?_⟩
  · rw [hs.executed,hunderway,hcounted]
    simp
  · rw [← hdestroyed,hcounted,horder]
  · rw [h.recorded.callbacks,h.recorded.due,hpast,zero_add,← hdestroyed,hcounted,horder]
  · have hlen : s.aio.counted.length = s.aio.dequeued.length := by
      have hcard := congrArg Multiset.card (hcounted.trans (congrArg _ horder))
      simpa using hcard
    rw [aioNreqs,hs.pending.2,hlen,Nat.sub_self]
    decide

end Rest

/-- Only a submission asks for something. -/
lemma watch_asked (l : Ledger ψ) (s : Loop n m ψ) {e : LoopEvent n m ψ} (he : e.Advances) :
    (l.watch s e).asked = l.asked := by
  cases e with
  | write => rfl
  | aio e =>
    cases e with
    | submit => exact he.elim
    | call i result error =>
      simp only [Ledger.watch,Ledger.record]
      split <;> rfl
    | callback k =>
      simp only [Ledger.watch,Ledger.record]
      split
      · split
        · split <;> rfl
        · rfl
      · rfl
    | _ => rfl

/-- From any state of any run, the workers, the submissions under way and the loop come to rest if no request is
added: in any order they make at most `s.work j` steps. And at rest, every request has been delivered. -/
theorem aio_delivers (hn : 0 < n) {capacity : ℕ} (hcap : 1 ≤ capacity) (j : Fin m) (es : List (LoopEvent n m ψ))
    (s : Loop n m ψ) (l : Ledger ψ)
    (hrun : run (deliverStep j) (loopInit n m ψ capacity,⟨[],[],[]⟩) es = some (s,l)) :
    (∃ ws s' l', (∀ e ∈ ws, e.Advances) ∧ run (deliverStep j) (s,l) ws = some (s',l') ∧ AtRest j s') ∧
      ∀ ws s' l', (∀ e ∈ ws, e.Advances) → run (deliverStep j) (s,l) ws = some (s',l') →
        ws.length+s'.work j ≤ s.work j ∧ l'.asked = l.asked ∧
          (AtRest j s' → s'.aio.pool.waitTasks.length < 2^31 → Delivered s'.aio l') := by
  have hlive : ∀ (p : Loop n m ψ × Ledger ψ) e p', Live j p.1 p.2 → deliverStep j p e = some p' →
      Live j p'.1 p'.2 := by
    rintro ⟨s,l⟩ e p' h hstep
    obtain ⟨hsignal,hs⟩ := Option.ite_none_right_eq_some.mp hstep
    obtain ⟨s',hs',rfl⟩ := Option.map_eq_some_iff.mp hs
    exact h.step hsignal hs'
  have hwork : ∀ (p : Loop n m ψ × Ledger ψ) e p', Live j p.1 p.2 → e.Advances → deliverStep j p e =
      some p' → p'.1.work j < p.1.work j := by
    rintro ⟨s,l⟩ e p' h he hstep
    obtain ⟨_,hs⟩ := Option.ite_none_right_eq_some.mp hstep
    obtain ⟨s',hs',rfl⟩ := Option.map_eq_some_iff.mp hs
    obtain ⟨list,hsound⟩ := h.awake.sound
    exact loopStep_work hsound he hs'
  have hasked : ∀ (p : Loop n m ψ × Ledger ψ) e p', p.2.asked = l.asked → e.Advances →
      deliverStep j p e = some p' → p'.2.asked = l.asked := by
    rintro ⟨s,l'⟩ e p' h he hstep
    obtain ⟨_,hs⟩ := Option.ite_none_right_eq_some.mp hstep
    obtain ⟨s',_,rfl⟩ := Option.map_eq_some_iff.mp hs
    exact (watch_asked l' s he).trans h
  have hstart : Live j s l := run_invariant (P := fun p => Live j p.1 p.2) hlive (loopInit_live hcap j) hrun
  have hkeeps : ∀ (p : Loop n m ψ × Ledger ψ) e p', Live j p.1 p.2 → e.Advances → deliverStep j p e =
      some p' → Live j p'.1 p'.2 :=
    fun p e p' h _ => hlive p e p' h
  constructor
  · obtain ⟨ws,⟨s',l'⟩,hall,hrun',hrest⟩ := exists_run_rests
      (P := fun p : Loop n m ψ × Ledger ψ => Live j p.1 p.2) (s := (s,l)) hkeeps hwork hstart
    exact ⟨ws,s',l',(always_const_iff hrun').mp hall,hrun',rests_iff.mp hrest⟩
  · intro ws s' l' hws hrun'
    have hall := (always_const_iff hrun').mpr hws
    have hend := run_invariant_when (P := fun p => Live j p.1 p.2) hkeeps hstart hrun' hall
    have hnone := run_invariant_when (P := fun p => p.2.asked = l.asked) hasked rfl hrun' hall
    have hbound := run_length_le (P := fun p => Live j p.1 p.2) hkeeps hwork hstart hrun' hall
    exact ⟨hbound,hnone,fun hrest hpending => hend.delivered hrest hn hpending⟩

lemma sleeperRun_head : (run (deliverStep 0) (loopInit 2 1 ℕ 1,⟨[],[],[]⟩) (sleeperRun 0 1 0)).map
    (fun p => p.1.aio.rhead) = some (some 2) := by decide +kernel

theorem aio_delivers_sleeper :
    ∃ s l, run (deliverStep 0) (loopInit 2 1 ℕ 1,⟨[],[],[]⟩) (sleeperRun 0 1 0) = some (s,l) ∧
    s.aio.rhead = some 2 ∧
    (∃ ws s' l', (∀ e ∈ ws, e.Advances) ∧ run (deliverStep 0) (s,l) ws = some (s',l') ∧ AtRest 0 s') ∧
      ∀ ws s' l', (∀ e ∈ ws, e.Advances) → run (deliverStep 0) (s,l) ws = some (s',l') →
        ws.length+s'.work 0 ≤ s.work 0 ∧ l'.asked = l.asked ∧
          (AtRest 0 s' → s'.aio.pool.waitTasks.length < 2^31 → Delivered s'.aio l') := by
  obtain ⟨⟨s,l⟩,hrun,hhead⟩ := Option.map_eq_some_iff.mp sleeperRun_head
  exact ⟨s,l,hrun,hhead,aio_delivers (by decide) le_rfl 0 (sleeperRun 0 1 0) s l hrun⟩

end JustKit.Aio
