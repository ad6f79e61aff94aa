import JustKit.Aio.EventLoop

/-! What `jk_aio_wait` counts. As in the event loop the write to the pipe is an event of its own; here any
threads wait and poll at any time. -/
namespace JustKit.Aio
open Foundations Foundations.Transition
variable {n m : ℕ} {ψ : Type}

/-- `writing` as for `Loop`. -/
structure Piped (n m : ℕ) (ψ : Type) where
  aio : State n m ψ
  writing : Bool

def pipedInit (n m : ℕ) (ψ : Type) (capacity : ℕ) : Piped n m ψ := ⟨aioInit n m ψ capacity,false⟩

/-- The sections under `aio.lock`. -/
def Event.locks : Event n m ψ → Bool
  | .submit _ _ | .rollback _ | .finish _ | .dequeue _ => true
  | _ => false

def pipedStep (s : Piped n m ψ) : LoopEvent n m ψ → Option (Piped n m ψ)
  | .write =>
    if s.writing then
      some ⟨{ s.aio with pipe := if s.aio.pipe < s.aio.capacity then s.aio.pipe+1 else s.aio.pipe },false⟩
    else none
  | .aio e =>
    if s.writing = true ∧ e.locks = true then none
    else
      match e with
      | .finish i => (Aio.step s.aio (.finish i)).map fun aio => ⟨{ aio with pipe := s.aio.pipe },true⟩
      | e => (Aio.step s.aio e).map fun aio => ⟨aio,s.writing⟩

/-- `count` of a call of `jk_aio_wait`. -/
def Thread.count : Thread → ℕ
  | .reading count => count
  | _ => 0

/-- What the calls of `jk_aio_wait` have returned, and what those under way have counted. -/
def State.bytesRead (s : State n m ψ) : ℕ := s.counts.sum+total Thread.count s.threads

/-- The completions whose byte has not been read and is not in the pipe. -/
def State.missing (s : State n m ψ) : ℤ := s.appended.length-(s.bytesRead+s.pipe)

/-- The byte of a completion that is going to be written is not missing yet. -/
def Piped.missing (s : Piped n m ψ) : ℤ := s.aio.missing-if s.writing then 1 else 0

/-- The write meets a full pipe. -/
def Drops (s : Piped n m ψ) : LoopEvent n m ψ → Prop
  | .write => s.aio.capacity ≤ s.aio.pipe
  | .aio _ => False

/-! ### The steps of the library -/

section State
variable {s s' : State n m ψ} {list : List ℕ}

lemma missing_setThread {j : Fin m} {t : Thread} (h : t.count = (s.threads j).count) :
    (s.setThread j t).missing = s.missing := by
  have htotal : total Thread.count (s.setThread j t).threads = total Thread.count s.threads :=
    total_update_same Thread.count s.threads j h
  unfold State.missing State.bytesRead
  rw [htotal]
  rfl

/-- A thread reads a byte. -/
lemma missing_read {j : Fin m} {count : ℕ} (hj : s.threads j = .reading count) (hpipe : 0 < s.pipe) :
    State.missing { s.setThread j (.reading (count+1)) with pipe := s.pipe-1 } = s.missing := by
  have htotal := total_update Thread.count s.threads j (.reading (count+1))
  rw [hj] at htotal
  change total Thread.count (s.setThread j (.reading (count+1))).threads+count = _+(count+1) at htotal
  unfold State.missing State.bytesRead
  dsimp only [State.setThread] at htotal ⊢
  omega

/-- A thread leaves `jk_aio_wait`. -/
lemma missing_readAll {j : Fin m} {count : ℕ} (hj : s.threads j = .reading count) :
    State.missing { s.setThread j .idle with counts := s.counts++[count] } = s.missing := by
  have htotal := total_update Thread.count s.threads j .idle
  rw [hj] at htotal
  change total Thread.count (s.setThread j .idle).threads+count = _+0 at htotal
  unfold State.missing State.bytesRead
  dsimp only [State.setThread] at htotal ⊢
  rw [List.sum_append,List.sum_singleton]
  omega

lemma missing_pollSection {j : Fin m} {processed : ℕ} (hj : s.threads j = .polling processed) :
    (s.orFault (aioPollSection s j processed)).missing = s.missing := by
  have hsame (t : Thread) (ht : t.count = 0) : (s.setThread j t).missing = s.missing :=
    missing_setThread (by rw [hj,ht]; rfl)
  unfold aioPollSection
  cases s.rhead with
  | none => exact hsame .idle rfl
  | some r =>
    cases hr : s.reqs r with
    | none => simp [hr,State.orFault,State.missing,State.bytesRead]
    | some q =>
      simp only [hr,Option.bind_eq_bind,Option.bind_some]
      exact hsame (.finishing r processed) rfl

lemma missing_callback {j : Fin m} {r processed : ℕ} (hj : s.threads j = .finishing r processed) :
    (s.orFault (aioCallback s j r processed)).missing = s.missing := by
  have hsame : (s.setThread j (.destroying r processed)).missing = s.missing := missing_setThread (by rw [hj]; rfl)
  unfold aioCallback
  cases s.reqs r with
  | none => rfl
  | some q => exact hsame

lemma missing_destory {j : Fin m} {r processed : ℕ} (hj : s.threads j = .destroying r processed) :
    (s.orFault (aioDestory s j r processed)).missing = s.missing := by
  have hsame : (s.setThread j (.polling (processed+1))).missing = s.missing := missing_setThread (by rw [hj]; rfl)
  unfold aioDestory
  cases s.reqs r with
  | none => rfl
  | some q => exact hsame

lemma missing_execute (s : State n m ψ) (r : ℕ) (result error : ℤ) :
    (s.orFault (Fn.execute.invoke s r result error)).missing = s.missing := by
  unfold Fn.invoke aioExecute
  cases s.reqs.modify r fun q => { q with result := result, error := error } with
  | none => rfl
  | some reqs => rfl

/-- Only a worker that appends a request changes the balance. -/
lemma Sound.missing_step (h : Sound s list) {e : Event n m ψ} (he : ∀ i, e ≠ .finish i)
    (hstep : Aio.step s e = some s') : s'.missing = s.missing := by
  cases step_cases hstep with
  | submit | rollback | wake | lock | free | noInput => rfl
  | push => rfl
  | @call i result error t pool hpc =>
    rw [(h.tasks t (Pool.mem_load (Or.inl hpc))).1]
    exact missing_execute { s with pool := pool } t.arg result error
  | @finish i => exact absurd rfl (he i)
  | @noFinish i => exact absurd rfl (he i)
  | select hj => exact missing_setThread (by rw [hj]; rfl)
  | read hj hpipe => exact missing_read hj hpipe
  | readAll hj => exact missing_readAll hj
  | poll hj => exact missing_setThread (by rw [hj]; rfl)
  | dequeue hj => exact missing_pollSection hj
  | callback hj => exact missing_callback hj
  | destory hj => exact missing_destory hj

/-- The append, without the write to the pipe. -/
lemma Sound.missing_append (h : Sound s list) {i : Fin n} (hstep : Aio.step s (.finish i) = some s') :
    State.missing { s' with pipe := s.pipe } = s.missing+1 := by
  cases step_cases hstep with
  | @finish i t pool f hpc hf =>
    obtain rfl : f = .fininsh := Option.some.inj (hf.symm.trans (h.called hpc))
    obtain ⟨reqs,heq,_⟩ := h.fininsh_spec hpc pool
    have hinvoke : Fn.fininsh.invoke { s with pool := pool } t.arg 0 0 = _ := heq
    rw [hinvoke]
    have hlength : ((s.appended++[t.arg]).length : ℤ) = s.appended.length+1 := by simp
    exact (congrArg (·-((s.bytesRead : ℤ)+s.pipe)) hlength).trans (add_sub_right_comm _ _ _)
  | noFinish hpc hf => cases hf.symm.trans (h.called hpc)

end State

/-! ### Runs -/

section Piped
variable {s s' : Piped n m ψ} {list : List ℕ}

/-- Every event but the append is the same step of the library. -/
lemma piped_other {e : Event n m ψ} (he : ∀ i, e ≠ .finish i) (h : pipedStep s (.aio e) = some s') :
    ∃ aio, Aio.step s.aio e = some aio ∧ s' = ⟨aio,s.writing⟩ := by
  obtain ⟨_,hstep⟩ := Option.ite_none_left_eq_some.mp h
  cases e with
  | finish i => exact absurd rfl (he i)
  | _ =>
    obtain ⟨aio,ha,hs⟩ := Option.map_eq_some_iff.mp hstep
    exact ⟨aio,ha,hs.symm⟩

lemma piped_finish {i : Fin n} (h : pipedStep s (.aio (.finish i)) = some s') :
    s.writing = false ∧ ∃ aio, Aio.step s.aio (.finish i) = some aio ∧
      s' = ⟨{ aio with pipe := s.aio.pipe },true⟩ := by
  obtain ⟨hfree,hstep⟩ := Option.ite_none_left_eq_some.mp h
  obtain ⟨aio,ha,hs⟩ := Option.map_eq_some_iff.mp hstep
  exact ⟨Bool.eq_false_iff.mpr fun hw => hfree ⟨hw,rfl⟩,aio,ha,hs.symm⟩

lemma piped_write (h : pipedStep s .write = some s') : s.writing = true ∧
    s' = ⟨{ s.aio with pipe := if s.aio.pipe < s.aio.capacity then s.aio.pipe+1 else s.aio.pipe },false⟩ := by
  obtain ⟨hw,hs⟩ := Option.ite_none_right_eq_some.mp h
  exact ⟨hw,(Option.some.inj hs).symm⟩

lemma event_cases (e : Event n m ψ) : (∃ i, e = .finish i) ∨ ∀ i, e ≠ .finish i := by
  cases e with
  | finish i => exact Or.inl ⟨i,rfl⟩
  | _ => exact Or.inr fun _ => nofun

lemma piped_sound {e : LoopEvent n m ψ} (h : ∃ list, Sound s.aio list) (hstep : pipedStep s e = some s') :
    ∃ list, Sound s'.aio list := by
  obtain ⟨list,h⟩ := h
  cases e with
  | write =>
    obtain ⟨_,rfl⟩ := piped_write hstep
    exact ⟨list,{ h with }⟩
  | aio e =>
    rcases event_cases e with ⟨i,rfl⟩ | he
    · obtain ⟨_,aio,ha,rfl⟩ := piped_finish hstep
      obtain ⟨list',h'⟩ := h.step ha
      exact ⟨list',{ h' with }⟩
    · obtain ⟨aio,ha,rfl⟩ := piped_other he hstep
      exact h.step ha

/-- A byte goes missing when the pipe is full, and at no other time. -/
lemma piped_missing {e : LoopEvent n m ψ} (h : ∃ list, Sound s.aio list) (hstep : pipedStep s e = some s') :
    s.missing ≤ s'.missing ∧ (s'.missing = s.missing ↔ ¬Drops s e) := by
  obtain ⟨list,h⟩ := h
  cases e with
  | write =>
    obtain ⟨hw,rfl⟩ := piped_write hstep
    have hold : s.missing = s.aio.appended.length-(s.aio.bytesRead+s.aio.pipe)-1 := by
      rw [Piped.missing,if_pos hw]
      rfl
    have hnew (pipe : ℕ) : Piped.missing ⟨{ s.aio with pipe := pipe },false⟩ =
        s.aio.appended.length-(s.aio.bytesRead+pipe) := sub_zero _
    rw [hold,hnew,Drops]
    split
    · push_cast
      omega
    · omega
  | aio e =>
    have hsame : s'.missing = s.missing := by
      rcases event_cases e with ⟨i,rfl⟩ | he
      · obtain ⟨hfree,aio,ha,rfl⟩ := piped_finish hstep
        have happend := h.missing_append ha
        simp [Piped.missing,happend,hfree]
      · obtain ⟨aio,ha,rfl⟩ := piped_other he hstep
        simp [Piped.missing,h.missing_step he ha]
    exact ⟨hsame.ge,iff_of_true hsame id⟩

end Piped

/-- Whenever no worker is in `jk_aio_fininsh`, the counts of `jk_aio_wait` and the bytes in the pipe together are the
number of completions exactly if no write of the run has met a full pipe. -/
theorem wait_counts_iff {capacity : ℕ} {es : List (LoopEvent n m ψ)} {s : Piped n m ψ}
    (hrun : run pipedStep (pipedInit n m ψ capacity) es = some s) (hfree : s.writing = false) :
    s.aio.bytesRead+s.aio.pipe = s.aio.appended.length ↔
      Always pipedStep (fun s e => ¬Drops s e) (pipedInit n m ψ capacity) es := by
  have hsound : ∃ list, Sound (pipedInit n m ψ capacity).aio list := ⟨[],aioInit_sound n m ψ capacity⟩
  have hstart : (pipedInit n m ψ capacity).missing = 0 := by
    have htotal : total Thread.count (pipedInit n m ψ capacity).aio.threads = 0 := total_eq_zero _ fun _ => rfl
    unfold Piped.missing State.missing State.bytesRead
    rw [htotal]
    rfl
  obtain ⟨_,hiff⟩ := run_same_iff (q := Piped.missing) (fun _ _ _ h hs => piped_sound h hs)
    (fun _ _ _ h hs => piped_missing h hs) hsound hrun
  rw [← hiff,hstart]
  unfold Piped.missing State.missing
  rw [hfree]
  simp only [Bool.false_eq_true,if_false]
  omega

/-- Two requests; the second one is finished while the first byte is still in the pipe, and written after it is
read. -/
def countedRun (i i' : Fin n) (j : Fin m) : List (LoopEvent n m ℕ) :=
  [.aio (.submit .read (some 7)),.aio (.push 0 true []),.aio (.submit .write none),.aio (.push 1 true []),
    .aio (.lock i),.aio (.lock i'),.aio (.call i 5 0),.aio (.call i' 3 0),.aio (.finish i),.write,.aio (.select j 1),
    .aio (.finish i'),.aio (.read j),.write]

lemma countedRun_ends : (run pipedStep (pipedInit 2 1 ℕ 1) (countedRun 0 1 0)).isSome := by decide +kernel

theorem wait_counts_small : ∃ s, run pipedStep (pipedInit 2 1 ℕ 1) (countedRun 0 1 0) = some s ∧
    (s.aio.bytesRead+s.aio.pipe = s.aio.appended.length ↔
      Always pipedStep (fun s e => ¬Drops s e) (pipedInit 2 1 ℕ 1) (countedRun 0 1 0)) ∧
    s.aio.bytesRead = 1 ∧ s.aio.pipe = 1 ∧ s.aio.appended = [1,0] := by
  have hrun := (Option.some_get countedRun_ends).symm
  exact ⟨_,hrun,wait_counts_iff hrun (by decide +kernel),by decide +kernel,by decide +kernel,by decide +kernel⟩

/-- The same requests, and the thread reads after both writes: it counts one completion. -/
def droppedRun (i i' : Fin n) (j : Fin m) : List (LoopEvent n m ℕ) :=
  [.aio (.submit .read (some 7)),.aio (.push 0 true []),.aio (.submit .write none),.aio (.push 1 true []),
    .aio (.lock i),.aio (.lock i'),.aio (.call i 5 0),.aio (.call i' 3 0),.aio (.finish i),.write,.aio (.finish i'),
    .write,.aio (.select j 1),.aio (.read j),.aio (.read j)]

theorem wait_counts_dropped : ((run pipedStep (pipedInit 2 1 ℕ 1) (droppedRun 0 1 0)).map fun s =>
    (s.writing,s.aio.counts,s.aio.bytesRead+s.aio.pipe,s.aio.appended.length)) = some (false,[1],1,2) := by
  decide +kernel

end JustKit.Aio
