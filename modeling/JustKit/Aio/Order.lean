import JustKit.Aio.Results

/-! The order of the callbacks. The workers append to the list of completed requests under the lock, and while one
thread polls, it takes them off and calls back in the same order. -/
namespace JustKit.Aio
open Foundations Foundations.Transition
variable {n m : ℕ} {ψ : Type} {j : Fin m}

/-- The thread is in `jk_aio_poll`. -/
def Thread.polls : Thread → Bool
  | .polling _ | .finishing _ _ | .destroying _ _ => true
  | _ => false

/-- The request that the thread calls back next. -/
def Thread.upcoming : Thread → List ℕ
  | .finishing r _ => [r]
  | _ => []

/-- No other thread than `j` calls `jk_aio_poll`. -/
def Event.PolledBy (j : Fin m) : Event n m ψ → Prop
  | .poll i => i = j
  | _ => True

/-- One thread polls, and it has called back, or is about to, what it has taken off the list, in that order. -/
structure InOrder (j : Fin m) (s : State n m ψ) (l : Ledger ψ) : Prop where
  alone : ∀ i, i ≠ j → (s.threads i).polls = false
  order : s.callbacks++(s.threads j).upcoming.filter l.Wants = s.dequeued.filter l.Wants

lemma aioInit_inOrder (j : Fin m) (capacity : ℕ) : InOrder j (aioInit n m ψ capacity) ⟨[],[],[]⟩ :=
  ⟨fun _ _ => rfl,rfl⟩

lemma Ledger.wants_append (l : Ledger ψ) {r : ℕ} (hr : r < l.asked.length) (ask : Operate × Option ψ) :
    ({ l with asked := l.asked++[ask] } : Ledger ψ).Wants r ↔ l.Wants r := by
  unfold Ledger.Wants
  rw [List.getElem?_append_left hr]

lemma Thread.upcoming_holds {t : Thread} {r : ℕ} (hr : r ∈ t.upcoming) : r ∈ t.holds := by
  cases t with
  | finishing => simpa [Thread.upcoming,Thread.holds] using hr
  | _ => cases hr

section Steps
variable {s s' : State n m ψ} {list : List ℕ} {l : Ledger ψ} (h : InOrder j s l)
include h

lemma InOrder.setThread {i : Fin m} {t : Thread} (hi : i ≠ j → t.polls = false)
    (ht : i = j → t.upcoming = (s.threads j).upcoming) : InOrder j (s.setThread i t) l := by
  constructor
  · intro k hk
    by_cases hki : k = i
    · subst hki
      simpa [State.setThread] using hi hk
    · simpa [State.setThread,hki] using h.alone k hk
  · by_cases hij : i = j
    · subst hij
      simpa [State.setThread,ht rfl] using h.order
    · simpa [State.setThread,Ne.symm hij] using h.order

/-- A thread in the loop of `jk_aio_poll` is the one that polls. -/
lemma InOrder.eq_of_polls {i : Fin m} (hi : (s.threads i).polls = true) : i = j := by
  by_contra hne
  rw [h.alone i hne] at hi
  cases hi

/-- A new request is none of those that have been completed. -/
lemma InOrder.request (hr : Recorded s l) (hs : Sound s list) (type : Operate) (finish : Option ψ) :
    InOrder j (aioRequest s type finish) { l with asked := l.asked++[(type,finish)] } := by
  have hlt : ∀ r ∈ s.dequeued, r < l.asked.length := by
    intro r hmem
    rw [hr.fresh]
    exact hs.fresh r (hs.mem_counted (Or.inr (hs.dequeued_appended hmem)))
  refine ⟨h.alone,?_⟩
  have hupcoming : (s.threads j).upcoming.filter ({ l with asked := l.asked++[(type,finish)] } : Ledger ψ).Wants =
      (s.threads j).upcoming.filter l.Wants := by
    apply List.filter_congr
    intro r hmem
    rw [decide_eq_decide]
    exact l.wants_append (hlt r (hs.live_held (Thread.upcoming_holds hmem)).2.1) _
  have hdequeued : s.dequeued.filter ({ l with asked := l.asked++[(type,finish)] } : Ledger ψ).Wants =
      s.dequeued.filter l.Wants := by
    apply List.filter_congr
    intro r hmem
    rw [decide_eq_decide]
    exact l.wants_append (hlt r hmem) _
  change s.callbacks++(s.threads j).upcoming.filter _ = s.dequeued.filter _
  rw [hupcoming,hdequeued]
  exact h.order

lemma InOrder.pollSection {processed : ℕ} (hj : s.threads j = .polling processed) :
    InOrder j (s.orFault (aioPollSection s j processed)) l := by
  have horder := h.order
  rw [hj] at horder
  unfold aioPollSection
  cases s.rhead with
  | none => exact h.setThread (fun hne => absurd rfl hne) fun _ => by rw [hj]; rfl
  | some r =>
    cases hr : s.reqs r with
    | none =>
      simp only [hr,State.orFault]
      exact { h with }
    | some q =>
      simp only [hr,State.orFault]
      refine ⟨fun k hk => ?_,?_⟩
      · simpa [State.setThread,hk] using h.alone k hk
      · simpa [State.setThread,Thread.upcoming] using horder

lemma InOrder.callback (hr : Recorded s l) (hs : Sound s list) {r processed : ℕ}
    (hj : s.threads j = .finishing r processed) :
    InOrder j (s.orFault (aioCallback s j r processed)) (l.record s (.callback j)) := by
  obtain ⟨q,hq⟩ := Option.ne_none_iff_exists'.mp (hs.live_held (j := j) (r := r) (by simp [hj,Thread.holds])).1
  have hwants : l.Wants r ↔ q.finish.isSome = true := by rw [Ledger.Wants,hr.asked r q hq]; rfl
  have horder := h.order
  rw [hj] at horder
  have hsame : (l.record s (.callback j)).asked = l.asked := by
    simp only [Ledger.record,hj,hq]
    split <;> rfl
  have hfilter : ∀ xs : List ℕ, xs.filter (l.record s (.callback j)).Wants = xs.filter l.Wants := by
    intro xs
    apply List.filter_congr
    intro x _
    rw [decide_eq_decide,Ledger.Wants,Ledger.Wants,hsame]
  rw [aioCallback,hq]
  refine ⟨fun k hk => ?_,?_⟩
  · simpa [State.orFault,State.setThread,hk] using h.alone k hk
  · rw [hfilter,hfilter]
    change (if q.finish.isSome then s.callbacks++[r] else s.callbacks)++
      ((Function.update s.threads j (.destroying r processed)) j).upcoming.filter l.Wants = s.dequeued.filter l.Wants
    rw [Function.update_self,← horder]
    by_cases hf : q.finish.isSome = true
    · simp [Thread.upcoming,hf,hwants.mpr hf]
    · simp [Thread.upcoming,hf,mt hwants.mp hf]

lemma InOrder.destory (hs : Sound s list) {r processed : ℕ} (hj : s.threads j = .destroying r processed) :
    InOrder j (s.orFault (aioDestory s j r processed)) l := by
  obtain ⟨q,hq⟩ := Option.ne_none_iff_exists'.mp (hs.live_held (j := j) (r := r) (by simp [hj,Thread.holds])).1
  rw [aioDestory,hq]
  exact { h.setThread (t := .polling (processed+1)) (fun hne => absurd rfl hne) (fun _ => by rw [hj]; rfl) with }

/-- One event keeps the order, if no other thread starts to poll. -/
theorem InOrder.step (hr : Recorded s l) (hs : Sound s list) {e : Event n m ψ} (he : e.PolledBy j)
    (hstep : Aio.step s e = some s') : InOrder j s' (l.record s e) := by
  cases step_cases hstep with
  | submit => exact h.request hr hs _ _
  | push | rollback | wake | lock | free | noInput => exact { h with }
  | @call i result error t pool hpc =>
    obtain ⟨hcall,_⟩ := hs.tasks t (Pool.mem_load (Or.inl hpc))
    have hload : t.arg ∈ s.pool.load.map Pool.Task.arg := Multiset.mem_map_of_mem _ (Pool.mem_load (Or.inl hpc))
    obtain ⟨reqs,hexec,_⟩ := aioExecute_spec (s := { s with pool := pool }) (hs.live_load hload) result error
    simp only [Ledger.record,hpc,hcall,Fn.invoke]
    rw [hexec]
    exact { h with }
  | @finish i t pool f hpc hf =>
    obtain rfl : f = .fininsh := Option.some.inj (hf.symm.trans (hs.called hpc))
    obtain ⟨reqs,heq,_⟩ := hs.fininsh_spec hpc pool
    have hinvoke : Fn.fininsh.invoke { s with pool := pool } t.arg 0 0 = _ := heq
    rw [hinvoke]
    exact { h with }
  | noFinish hpc hf => cases hf.symm.trans (hs.called hpc)
  | select hi | read hi | readAll hi =>
    refine { h.setThread (fun _ => rfl) (fun hij => ?_) with }
    rw [← hij,hi]
    rfl
  | poll hi =>
    obtain rfl : _ = j := he
    exact h.setThread (fun hne => absurd rfl hne) fun _ => by rw [hi]; rfl
  | dequeue hi =>
    obtain rfl := h.eq_of_polls (congrArg Thread.polls hi)
    exact h.pollSection hi
  | callback hi =>
    obtain rfl := h.eq_of_polls (congrArg Thread.polls hi)
    exact h.callback hr hs hi
  | destory hi =>
    obtain rfl := h.eq_of_polls (congrArg Thread.polls hi)
    exact h.destory hs hi

end Steps

/-- In every run in which one thread polls, whatever the workers and the other threads do: the callbacks come in
the order in which the workers have completed the requests that have one, and none is passed over. When
`jk_aio_poll` finds the list empty, all of them have been called. -/
theorem callbacks_in_order (capacity : ℕ) (j : Fin m) (es : List (Event n m ψ))
    (hone : ∀ e ∈ es, e.PolledBy j) (s : State n m ψ) (l : Ledger ψ)
    (hrun : run observedStep (aioInit n m ψ capacity,⟨[],[],[]⟩) es = some (s,l)) :
    s.callbacks <+: s.appended.filter l.Wants ∧
      (s.rhead = none → (s.threads j).holds = 0 → s.callbacks = s.appended.filter l.Wants) := by
  have h : ((∃ list, Sound s list) ∧ Recorded s l) ∧ InOrder j s l := by
    apply run_invariant_when (P := fun p : State n m ψ × Ledger ψ =>
      ((∃ list, Sound p.1 list) ∧ Recorded p.1 p.2) ∧ InOrder j p.1 p.2)
      (C := fun _ e => e.PolledBy j) _
      ⟨⟨⟨[],aioInit_sound n m ψ capacity⟩,aioInit_recorded n m ψ capacity⟩,
        aioInit_inOrder j capacity⟩ hrun
      ((always_const_iff hrun).mpr hone)
    rintro ⟨s,l⟩ e p ⟨⟨⟨list,hs⟩,hr⟩,h⟩ he hstep
    obtain ⟨s',hs',rfl⟩ := Option.map_eq_some_iff.mp hstep
    exact ⟨⟨hs.step hs',hr.step hs hs'⟩,h.step hr hs he hs'⟩
  obtain ⟨⟨⟨list,hs⟩,_⟩,horder⟩ := h
  rw [hs.order,List.filter_append,← horder.order,List.append_assoc]
  refine ⟨List.prefix_append _ _,fun hempty hholds => ?_⟩
  have hlist : list = [] := by
    have hhead := hs.queue.chain.head
    rw [hempty] at hhead
    exact List.head?_eq_none_iff.mp hhead.symm
  have hupcoming : (s.threads j).upcoming = [] := by
    apply List.eq_nil_iff_forall_not_mem.mpr
    intro r hr
    have hmem := Thread.upcoming_holds hr
    rw [hholds] at hmem
    exact absurd hmem (Multiset.notMem_zero r)
  rw [hlist,hupcoming]
  simp

theorem callbacks_in_order_polling : ∃ s l,
    run observedStep (aioInit 2 1 ℕ 1,⟨[],[],[]⟩) (pollingRun 0 1 0) = some (s,l) ∧
      s.callbacks <+: s.appended.filter l.Wants ∧
      (s.rhead = none → (s.threads 0).holds = 0 → s.callbacks = s.appended.filter l.Wants) := by
  have hrun := (Option.some_get observedRun_ends).symm
  refine ⟨_,_,hrun,callbacks_in_order 1 0 (pollingRun 0 1 0) (fun e he => ?_) _ _ hrun⟩
  cases e with
  | poll i => exact Subsingleton.elim i 0
  | _ => trivial

end JustKit.Aio
