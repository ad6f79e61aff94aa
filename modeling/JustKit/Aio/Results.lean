import JustKit.Aio.Conservation

/-! What a callback is given. The requests go through the lists of the pool and of `aio` and through the hands
of several threads; a callback still finds in its request what was asked for and what the system call made for it
has given. -/
namespace JustKit.Aio
open Foundations Foundations.Transition
variable {n m : ℕ} {ψ : Type}

/-- What an observer writes down: what was asked for, in the order of the requests, what the system calls have
given, by request, and the records that the callbacks were given. -/
structure Ledger (ψ : Type) where
  asked : List (Operate × Option ψ)
  given : List (ℕ × ℤ × ℤ)
  returned : List (ℕ × Request ψ)

/-- The observer sees an event. -/
def Ledger.record (l : Ledger ψ) (s : State n m ψ) : Event n m ψ → Ledger ψ
  | .submit type finish => { l with asked := l.asked++[(type,finish)] }
  | .call i result error =>
    match (s.pool.workers i).pc with
    | .holding t => { l with given := l.given++[(t.arg,result,error)] }
    | _ => l
  | .callback j =>
    match s.threads j with
    | .finishing r _ =>
      match s.reqs r with
      | some q => if q.finish.isSome then { l with returned := l.returned++[(r,q)] } else l
      | none => l
    | _ => l
  | _ => l

/-- One event, with the observer. -/
def observedStep (s : State n m ψ × Ledger ψ) (e : Event n m ψ) : Option (State n m ψ × Ledger ψ) :=
  (step s.1 e).map fun s' => (s',s.2.record s.1 e)

/-- The request was submitted with a callback. -/
def Ledger.Wants (l : Ledger ψ) (r : ℕ) : Prop := ((l.asked[r]?).bind Prod.snd).isSome = true

instance (l : Ledger ψ) : DecidablePred l.Wants := fun _ => inferInstanceAs (Decidable (_ = true))

/-- What a request is about, the pointer to the next one apart. -/
def Request.contents (q : Request ψ) : (Operate × Option ψ) × ℤ × ℤ := ((q.type,q.finish),q.result,q.error)

/-- What the observer has written down about the requests in memory. -/
structure Recorded (s : State n m ψ) (l : Ledger ψ) : Prop where
  fresh : l.asked.length = s.fresh
  asked : ∀ r q, s.reqs r = some q → l.asked[r]? = some (q.type,q.finish)
  given : l.given.map Prod.fst = s.executed
  results : ∀ r q, s.reqs r = some q → r ∈ s.executed → (r,q.result,q.error) ∈ l.given
  returned : ∀ p ∈ l.returned, l.asked[p.1]? = some (p.2.type,p.2.finish) ∧
    (p.1,p.2.result,p.2.error) ∈ l.given
  callbacks : l.returned.map Prod.fst = s.callbacks
  due : (s.callbacks : Multiset ℕ) = (total Thread.past s.threads+s.destroyed).filter l.Wants

theorem aioInit_recorded (n m : ℕ) (ψ : Type) (capacity : ℕ) :
    Recorded (aioInit n m ψ capacity) ⟨[],[],[]⟩ where
  fresh := rfl
  asked _ _ hq := nomatch hq
  given := rfl
  results _ _ hq := nomatch hq
  returned _ hp := nomatch hp
  callbacks := rfl
  due := by
    have hzero : total Thread.past (aioInit n m ψ capacity).threads = 0 := total_eq_zero _ fun _ => rfl
    rw [hzero]
    rfl

section Steps
variable {s s' : State n m ψ} {list : List ℕ} {l : Ledger ψ}

/-- Only the pointers between the requests change. -/
lemma aioFininsh_contents {r : ℕ} (h : aioFininsh s r = some s') (b : ℕ) :
    (s'.reqs b).map Request.contents = (s.reqs b).map Request.contents := by
  obtain ⟨reqs,hr,hs⟩ := Option.bind_eq_some_iff.mp h
  have hkeep : ∀ next (q : Request ψ), Request.contents { q with next := next } = q.contents := fun _ _ => rfl
  have hfirst := Mem.modify_map (hkeep none) hr b
  cases ht : s.rtail with
  | none =>
    simp only [ht] at hs
    obtain rfl := Option.some.inj hs
    exact hfirst
  | some t =>
    simp only [ht] at hs
    obtain ⟨reqs',hr',hs⟩ := Option.bind_eq_some_iff.mp hs
    obtain rfl := Option.some.inj hs
    exact (Mem.modify_map (hkeep (some r)) hr' b).trans hfirst

/-- Requests with the same contents are described by the same notes. -/
lemma Recorded.sameContents (h : Recorded s l) {reqs : Mem (Request ψ)}
    (hsame : ∀ b, (reqs b).map Request.contents = (s.reqs b).map Request.contents) :
    (∀ r q, reqs r = some q → l.asked[r]? = some (q.type,q.finish)) ∧
      ∀ r q, reqs r = some q → r ∈ s.executed → (r,q.result,q.error) ∈ l.given := by
  have hold : ∀ r q, reqs r = some q → ∃ p, s.reqs r = some p ∧ p.contents = q.contents := by
    intro r q hq
    have hr := hsame r
    rw [hq] at hr
    exact Option.map_eq_some_iff.mp hr.symm
  constructor
  · intro r q hq
    obtain ⟨p,hp,hc⟩ := hold r q hq
    rw [h.asked r p hp]
    exact congrArg (fun c => some c.1) hc
  · intro r q hq hr
    obtain ⟨p,hp,hc⟩ := hold r q hq
    obtain ⟨_,hres⟩ := Prod.ext_iff.mp hc
    have hin := h.results r p hp hr
    change (r,p.contents.2) ∈ l.given at hin
    rw [hres] at hin
    exact hin

/-- A thread moves, and has called back the same requests. -/
lemma Recorded.setThread (h : Recorded s l) {j : Fin m} {t : Thread} (ht : t.past = (s.threads j).past) :
    Recorded (s.setThread j t) l := by
  refine { h with due := ?_ }
  rw [State.setThread,total_update_same Thread.past s.threads j ht]
  exact h.due

/-- A new request. -/
lemma Recorded.request (h : Recorded s l) (hs : Sound s list) (type : Operate) (finish : Option ψ) :
    Recorded (aioRequest s type finish) { l with asked := l.asked++[(type,finish)] } := by
  have hnew : s.fresh ∉ s.executed :=
    fun hm => (hs.fresh _ (Multiset.mem_of_le hs.underway_le (Multiset.mem_coe.mpr hm))).false
  have hold : ∀ (r : ℕ) x, l.asked[r]? = some x → (l.asked++[(type,finish)])[r]? = some x := by
    intro r x hx
    rw [List.getElem?_append_left (List.getElem?_eq_some_iff.mp hx).1]
    exact hx
  refine { h with fresh := ?_, asked := ?_, results := ?_, returned := ?_, due := ?_ }
  · simp [aioRequest,h.fresh]
  · intro r q hq
    by_cases hr : r = s.fresh
    · subst hr
      obtain rfl : (⟨type,0,0,finish,none⟩ : Request ψ) = q := by simpa [aioRequest] using hq
      rw [← h.fresh]
      simp
    · exact hold r _ (h.asked r q (by simpa [aioRequest,hr] using hq))
  · intro r q hq hr
    have hne : r ≠ s.fresh := fun e => hnew (e ▸ hr)
    exact h.results r q (by simpa [aioRequest,hne] using hq) hr
  · intro p hp
    exact ⟨hold p.1 _ (h.returned p hp).1,(h.returned p hp).2⟩
  · refine h.due.trans (Multiset.filter_congr fun r hr => ?_)
    have hlt : r < l.asked.length := by
      rw [h.fresh]
      apply hs.fresh
      apply hs.mem_counted
      apply Or.inr
      apply hs.dequeued_appended
      rw [← Multiset.mem_coe,hs.dequeued]
      apply Multiset.mem_of_le (Multiset.add_le_add_right _) hr
      apply total_le
      intro j
      cases s.threads j <;> simp [Thread.past,Thread.holds]
    simp only [Ledger.Wants]
    rw [List.getElem?_append_left hlt]

/-- A task in hand has been called or not. -/
lemma inHand_split {τ : Type} (pc : Pool.Pc τ) : pc.inHand = pc.underway+pc.untouched := by
  cases pc <;> simp [Pool.Pc.inHand,Pool.Pc.underway,Pool.Pc.untouched]

/-- A request that a worker has taken and not called has not been executed. -/
lemma Sound.held_not_executed (hs : Sound s list) {i : Fin n} {t : Pool.Task Fn ℕ}
    (hpc : (s.pool.workers i).pc = .holding t) : t.arg ∉ s.executed := by
  have hmem : t.arg ∈ s.pool.load.map Pool.Task.arg := Multiset.mem_map_of_mem _ (Pool.mem_load (Or.inl hpc))
  have hsplit : total (fun w : Pool.Worker (Pool.Task Fn ℕ) => w.pc.inHand) s.pool.workers =
      s.pool.underway+total (fun w : Pool.Worker (Pool.Task Fn ℕ) => w.pc.untouched) s.pool.workers := by
    rw [Pool.State.underway,← total_add]
    exact Finset.sum_congr rfl fun k _ => inHand_split (s.pool.workers k).pc
  have huntouched : t ∈ total (fun w : Pool.Worker (Pool.Task Fn ℕ) => w.pc.untouched) s.pool.workers :=
    Multiset.mem_sum.mpr ⟨i,Finset.mem_univ i,by simp [hpc,Pool.Pc.untouched]⟩
  have hnodup : (s.pool.load.map Pool.Task.arg).Nodup := by
    apply Multiset.nodup_of_le _ (Multiset.coe_nodup.mpr hs.nodup)
    rw [hs.counted,add_right_comm]
    exact Multiset.le_add_left _ _
  rw [Pool.State.load,hsplit,← add_assoc,Multiset.map_add,Multiset.map_add] at hnodup
  obtain ⟨_,_,hapart⟩ := Multiset.nodup_add.mp hnodup
  rw [← Multiset.mem_coe,hs.executed,Multiset.mem_add]
  rintro (hunder | happended)
  · exact Multiset.disjoint_left.mp hapart (Multiset.mem_add.mpr (Or.inr hunder))
      (Multiset.mem_map_of_mem _ huntouched)
  · exact hs.load_not_appended hmem (Multiset.mem_coe.mp happended)

/-- A system call is made for a request for the first time. -/
lemma Recorded.execute (h : Recorded s l) {r : ℕ} {result error : ℤ} (hnew : r ∉ s.executed)
    (hexec : aioExecute s r result error = some s') :
    Recorded s' { l with given := l.given++[(r,result,error)] } := by
  obtain ⟨reqs,hr,hs⟩ := Option.bind_eq_some_iff.mp hexec
  obtain ⟨x,hx,_⟩ := Option.map_eq_some_iff.mp hr
  rw [Mem.modify_eq hx] at hr
  obtain rfl := Option.some.inj hr
  obtain rfl := Option.some.inj hs
  refine { h with asked := ?_, given := ?_, results := ?_, returned := ?_ }
  · intro b q hq
    by_cases hb : b = r
    · subst hb
      obtain rfl := Option.some.inj ((Mem.put_same ..).symm.trans hq)
      exact h.asked b x hx
    · exact h.asked b q ((Mem.put_of_ne hb ..).symm.trans hq)
  · simp [h.given]
  · intro b q hq hb
    by_cases hbr : b = r
    · subst hbr
      obtain rfl := Option.some.inj ((Mem.put_same ..).symm.trans hq)
      exact List.mem_append_right _ (List.mem_singleton_self _)
    · have hmem : b ∈ s.executed := by simpa [hbr] using hb
      exact List.mem_append_left _ (h.results b q ((Mem.put_of_ne hbr ..).symm.trans hq) hmem)
  · intro p hp
    exact ⟨(h.returned p hp).1,List.mem_append_left _ (h.returned p hp).2⟩

lemma Recorded.pollSection (h : Recorded s l) {j : Fin m} {processed : ℕ} (hj : s.threads j = .polling processed) :
    Recorded (s.orFault (aioPollSection s j processed)) l := by
  have hmove (t : Thread) (ht : t.past = 0) : Recorded (s.setThread j t) l := h.setThread (by rw [hj,ht]; rfl)
  unfold aioPollSection
  cases s.rhead with
  | none => exact hmove .idle rfl
  | some r =>
    cases hr : s.reqs r with
    | none =>
      simp only [hr,State.orFault]
      exact { h with }
    | some q =>
      simp only [hr,State.orFault]
      exact { hmove (.finishing r processed) rfl with }

/-- The callback finds in its request what the observer has written down. -/
lemma Recorded.callback (h : Recorded s l) (hs : Sound s list) {j : Fin m} {r processed : ℕ}
    (hj : s.threads j = .finishing r processed) :
    Recorded (s.orFault (aioCallback s j r processed)) (l.record s (.callback j)) := by
  obtain ⟨hlive,hdeq,_⟩ := hs.live_held (j := j) (r := r) (by simp [hj,Thread.holds])
  obtain ⟨q,hq⟩ := Option.ne_none_iff_exists'.mp hlive
  have hexec : r ∈ s.executed :=
    Multiset.mem_coe.mp (Multiset.mem_of_le hs.callbacks_le.2 (Multiset.mem_coe.mpr hdeq))
  have hasked := h.asked r q hq
  have hwants : l.Wants r ↔ q.finish.isSome = true := by rw [Ledger.Wants,hasked]; rfl
  have hpast := total_update Thread.past s.threads j (.destroying r processed)
  rw [hj] at hpast
  have hin : total Thread.past (Function.update s.threads j (.destroying r processed)) =
      total Thread.past s.threads+{r} := (add_zero _).symm.trans hpast
  have hdue :
      (total Thread.past (Function.update s.threads j (.destroying r processed))+s.destroyed).filter l.Wants =
      (s.callbacks : Multiset ℕ)+({r} : Multiset ℕ).filter l.Wants := by
    rw [hin,add_right_comm,Multiset.filter_add,h.due]
  rw [aioCallback,hq]
  simp only [Ledger.record,hj,hq]
  by_cases hf : q.finish.isSome = true
  · rw [if_pos hf]
    refine { h with returned := ?_, callbacks := ?_, due := ?_ }
    · intro p hp
      rcases List.mem_append.mp hp with hp | hp
      · exact h.returned p hp
      · obtain rfl := List.mem_singleton.mp hp
        exact ⟨hasked,h.results r q hq hexec⟩
    · change (l.returned++[(r,q)]).map Prod.fst = if q.finish.isSome then s.callbacks++[r] else s.callbacks
      rw [if_pos hf,List.map_append,h.callbacks]
      rfl
    · change ((if q.finish.isSome then s.callbacks++[r] else s.callbacks : List ℕ) : Multiset ℕ) =
        (total Thread.past (Function.update s.threads j (.destroying r processed))+s.destroyed).filter l.Wants
      rw [hdue,if_pos hf,Multiset.filter_singleton,if_pos (hwants.mpr hf),← Multiset.coe_add,
        Multiset.coe_singleton]
  · rw [if_neg hf]
    refine { h with callbacks := ?_, due := ?_ }
    · change l.returned.map Prod.fst = if q.finish.isSome then s.callbacks++[r] else s.callbacks
      rw [if_neg hf,h.callbacks]
    · change ((if q.finish.isSome then s.callbacks++[r] else s.callbacks : List ℕ) : Multiset ℕ) =
        (total Thread.past (Function.update s.threads j (.destroying r processed))+s.destroyed).filter l.Wants
      rw [hdue,if_neg hf,Multiset.filter_singleton,if_neg (mt hwants.mp hf)]
      simp

lemma Recorded.destory (h : Recorded s l) (hs : Sound s list) {j : Fin m} {r processed : ℕ}
    (hj : s.threads j = .destroying r processed) : Recorded (s.orFault (aioDestory s j r processed)) l := by
  obtain ⟨q,hq⟩ := Option.ne_none_iff_exists'.mp (hs.live_held (j := j) (r := r) (by simp [hj,Thread.holds])).1
  have hpast := total_update Thread.past s.threads j (.polling (processed+1))
  rw [hj] at hpast
  have hout : total Thread.past s.threads =
      total Thread.past (Function.update s.threads j (.polling (processed+1)))+{r} := (hpast.trans (add_zero _)).symm
  have hfree : ∀ b p, s.reqs.free r b = some p → s.reqs b = some p := by
    intro b p hp
    by_cases hb : b = r
    · subst hb
      simp at hp
    · rwa [Mem.free_of_ne hb] at hp
  rw [aioDestory,hq]
  refine { h with asked := ?_, results := ?_, due := ?_ }
  · exact fun b p hp => h.asked b p (hfree b p hp)
  · exact fun b p hp hb => h.results b p (hfree b p hp) hb
  · change (s.callbacks : Multiset ℕ) = (total Thread.past (Function.update s.threads j (.polling (processed+1)))+
      (s.destroyed++[r] : List ℕ)).filter l.Wants
    rw [h.due,hout,← Multiset.coe_add,Multiset.coe_singleton]
    congr 1
    abel

/-- One event keeps the notes of the observer right. -/
theorem Recorded.step (h : Recorded s l) (hs : Sound s list) {e : Event n m ψ} (hstep : Aio.step s e = some s') :
    Recorded s' (l.record s e) := by
  cases step_cases hstep with
  | submit => exact h.request hs _ _
  | push | rollback | wake | lock | free | noInput => exact { h with }
  | @call i result error t pool hpc =>
    obtain ⟨hcall,_⟩ := hs.tasks t (Pool.mem_load (Or.inl hpc))
    have hload : t.arg ∈ s.pool.load.map Pool.Task.arg := Multiset.mem_map_of_mem _ (Pool.mem_load (Or.inl hpc))
    obtain ⟨reqs,hexec,_⟩ := aioExecute_spec (s := { s with pool := pool }) (hs.live_load hload) result error
    simp only [Ledger.record,hpc,hcall,Fn.invoke]
    rw [hexec]
    exact Recorded.execute (s := { s with pool := pool }) { h with } (hs.held_not_executed hpc) hexec
  | @finish i t pool f hpc hf =>
    obtain rfl : f = .fininsh := Option.some.inj (hf.symm.trans (hs.called hpc))
    obtain ⟨reqs,heq,_⟩ := hs.fininsh_spec hpc pool
    have hinvoke : Fn.fininsh.invoke { s with pool := pool } t.arg 0 0 = _ := heq
    rw [hinvoke]
    have hcontents := aioFininsh_contents (s := { s with pool := pool }) heq
    obtain ⟨hasked,hresults⟩ := h.sameContents hcontents
    exact { h with asked := hasked, results := hresults }
  | noFinish hpc hf => cases hf.symm.trans (hs.called hpc)
  | select hj | read hj | readAll hj | poll hj => exact { h.setThread (t := _) (by rw [hj]; rfl) with }
  | dequeue hj => exact h.pollSection hj
  | callback hj => exact h.callback hs hj
  | destory hj => exact h.destory hs hj

end Steps

/-- The observer does not disturb the run. -/
theorem observed_run {s s' : State n m ψ} {l l' : Ledger ψ} {es : List (Event n m ψ)}
    (hrun : run observedStep (s,l) es = some (s',l')) : run step s es = some s' := by
  induction es generalizing s l with
  | nil => exact congrArg (Option.map Prod.fst) hrun
  | cons e es ih =>
    obtain ⟨t,ht,hrest⟩ := Option.bind_eq_some_iff.mp hrun
    obtain ⟨u,hu,rfl⟩ := Option.map_eq_some_iff.mp ht
    change step s e = some u at hu
    rw [run,hu]
    exact ih hrest

/-- The notes are right in every run. -/
theorem run_recorded {capacity : ℕ} {es : List (Event n m ψ)} {s : State n m ψ} {l : Ledger ψ}
    (hrun : run observedStep (aioInit n m ψ capacity,⟨[],[],[]⟩) es = some (s,l)) :
    (∃ list, Sound s list) ∧ Recorded s l := by
  apply run_invariant (P := fun p : State n m ψ × Ledger ψ => (∃ list, Sound p.1 list) ∧ Recorded p.1 p.2) _
    ⟨⟨[],aioInit_sound n m ψ capacity⟩,aioInit_recorded n m ψ capacity⟩ hrun
  rintro ⟨s,l⟩ e p ⟨⟨list,hs⟩,h⟩ hstep
  obtain ⟨s',hs',rfl⟩ := Option.map_eq_some_iff.mp hstep
  exact ⟨hs.step hs',h.step hs hs'⟩

/-- In every run, one system call at most is made for a request, and its callback is called once at most. The
record it is given is that of the request: the operation and the callback that were asked for, with the result and
the error of the system call that was made for this request. And no request that was submitted with a callback is
released before it has been called. -/
theorem callbacks_see_results (capacity : ℕ) (es : List (Event n m ψ)) (s : State n m ψ) (l : Ledger ψ)
    (hrun : run observedStep (aioInit n m ψ capacity,⟨[],[],[]⟩) es = some (s,l)) :
    (l.given.map Prod.fst).Nodup ∧ (l.returned.map Prod.fst).Nodup ∧
      (∀ p ∈ l.returned, l.asked[p.1]? = some (p.2.type,p.2.finish) ∧
      (p.1,p.2.result,p.2.error) ∈ l.given) ∧ ∀ r ∈ s.destroyed, l.Wants r →
      r ∈ l.returned.map Prod.fst := by
  obtain ⟨⟨list,hs⟩,h⟩ := run_recorded hrun
  obtain ⟨hcalls,hdeq⟩ := hs.callbacks_le
  have hexec : (s.executed : Multiset ℕ).Nodup :=
    Multiset.nodup_of_le hs.underway_le (Multiset.coe_nodup.mpr hs.nodup)
  have hback : (s.callbacks : Multiset ℕ).Nodup := Multiset.nodup_of_le (hcalls.trans hdeq) hexec
  rw [h.given,h.callbacks]
  refine ⟨Multiset.coe_nodup.mp hexec,Multiset.coe_nodup.mp hback,h.returned,fun r hr hw => ?_⟩
  rw [← Multiset.mem_coe,h.due,Multiset.mem_filter,Multiset.mem_add]
  exact ⟨Or.inr hr,hw⟩

lemma observedRun_ends :
    (run observedStep (aioInit 2 1 ℕ 1,⟨[],[],[]⟩) (pollingRun 0 1 0)).isSome := by decide +kernel

theorem callbacks_see_results_polling : ∃ s l,
    run observedStep (aioInit 2 1 ℕ 1,⟨[],[],[]⟩) (pollingRun 0 1 0) = some (s,l) ∧
    l.returned.map Prod.fst = [2,0] ∧
      (l.given.map Prod.fst).Nodup ∧ (l.returned.map Prod.fst).Nodup ∧
      (∀ p ∈ l.returned, l.asked[p.1]? = some (p.2.type,p.2.finish) ∧
      (p.1,p.2.result,p.2.error) ∈ l.given) ∧ ∀ r ∈ s.destroyed, l.Wants r →
      r ∈ l.returned.map Prod.fst := by
  have hrun := (Option.some_get observedRun_ends).symm
  exact ⟨_,_,hrun,by decide +kernel,callbacks_see_results 1 (pollingRun 0 1 0) _ _ hrun⟩

end JustKit.Aio
