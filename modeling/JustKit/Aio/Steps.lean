import JustKit.Aio.Invariant

/-! Every event keeps the requests sound. -/
namespace JustKit.Aio
open Foundations Foundations.Transition Foundations.LinkedList
variable {n m : ℕ} {ψ : Type} {s : State n m ψ} {list : List ℕ}

lemma coe_erase {r : ℕ} {rs : List ℕ} (h : r ∈ rs) : (rs : Multiset ℕ) = {r}+(rs.erase r : List ℕ) := by
  rw [Multiset.singleton_add,Multiset.cons_coe]
  exact Multiset.coe_eq_coe.mpr (List.perm_cons_erase h)

/-! ### Submission -/

theorem Sound.request (h : Sound s list) (type : Operate) (finish : Option ψ)
    (hroom : s.counted.length-s.dequeued.length+1 < 2^64) : Sound (aioRequest s type finish) list := by
  have hnew : s.fresh ∉ s.counted := fun hm => (h.fresh _ hm).false
  refine { h with fresh := ?_, nodup := ?_, allocated := ?_, counted := ?_, queue := ?_, nreqs := ?_, room := ?_ }
  · intro r hr
    rcases List.mem_append.mp hr with hr | hr
    · exact (h.fresh r hr).trans (Nat.lt_succ_self _)
    · exact (List.mem_singleton.mp hr) ▸ Nat.lt_succ_self _
  · exact List.nodup_append.mpr ⟨h.nodup,List.nodup_singleton _,fun r hr t ht e =>
      hnew (List.mem_singleton.mp ht ▸ e ▸ hr)⟩
  · intro r hr hd
    by_cases hrf : r = s.fresh
    · simp [aioRequest,hrf]
    · have hlt : r < s.fresh := lt_of_le_of_ne (Nat.lt_succ_iff.mp hr) hrf
      simpa [aioRequest,hrf] using h.allocated r hlt hd
  · have hc := h.counted
    simp only [aioRequest,← Multiset.coe_add] at hc ⊢
    rw [hc]
    abel
  · apply h.queue.congr
    intro b hb
    have hbf : b ≠ s.fresh := fun e => hnew (e ▸ h.mem_counted (Or.inr (h.list_appended hb)))
    simp [aioRequest,nextOf,hbf]
  · simp [aioRequest,h.nreqs,UInt64.ofNat_add]
  · simp only [aioRequest,List.length_append,List.length_singleton]
    omega

theorem Sound.push (h : Sound s list) {r : ℕ} (hr : r ∈ s.submitting) (malloc : Bool) (woken : List (Fin n)) :
    Sound (aioPush s r malloc woken) list := by
  have hc := h.counted
  rw [coe_erase hr] at hc
  have hpool := h.pool.push Fn.execute r (some .fininsh) malloc woken h.idle
  cases malloc with
  | false =>
    refine { h with counted := ?_ }
    change (s.counted : Multiset ℕ) = (s.submitting.erase r : List ℕ)+(r::s.refused : List ℕ)+
      s.pool.load.map Pool.Task.arg+s.appended
    rw [hc,← Multiset.cons_coe,← Multiset.singleton_add]
    abel
  | true =>
    obtain ⟨hload,hunder⟩ := Pool.push_load s.pool Fn.execute r (some .fininsh) woken
    refine { h with pool := hpool, idle := h.idle, tasks := ?_, counted := ?_, executed := ?_ }
    · intro t ht
      change t ∈ (Pool.threadPoolPush s.pool Fn.execute r (some .fininsh) true woken).1.load at ht
      rw [hload,Multiset.mem_add,Multiset.mem_singleton] at ht
      rcases ht with rfl | ht
      · exact ⟨rfl,rfl⟩
      · exact h.tasks t ht
    · change (s.counted : Multiset ℕ) = (s.submitting.erase r : List ℕ)+s.refused+
        (Pool.threadPoolPush s.pool Fn.execute r (some .fininsh) true woken).1.load.map Pool.Task.arg+s.appended
      rw [hload,hc,Multiset.map_add,Multiset.map_singleton]
      abel
    · change (s.executed : Multiset ℕ) =
        (Pool.threadPoolPush s.pool Fn.execute r (some .fininsh) true woken).1.underway.map Pool.Task.arg+s.appended
      rw [hunder,h.executed]

theorem Sound.rollback (h : Sound s list) {r : ℕ} (hr : r ∈ s.refused) : Sound (aioRollback s r) list := by
  have hc := h.counted
  rw [coe_erase hr] at hc
  have hmem : r ∈ s.counted := by
    rw [← Multiset.mem_coe,hc]
    simp
  have hlen := List.length_erase_of_mem hmem
  have hpos := List.length_pos_of_mem hmem
  refine { h with fresh := ?_, nodup := ?_, counted := ?_, nreqs := ?_, room := ?_ }
  · exact fun b hb => h.fresh b (List.mem_of_mem_erase hb)
  · exact h.nodup.erase r
  · rw [coe_erase hmem] at hc
    apply add_left_cancel (a := ({r} : Multiset ℕ))
    change {r}+((s.counted.erase r : List ℕ) : Multiset ℕ) = {r}+(s.submitting+(s.refused.erase r : List ℕ)+
      s.pool.load.map Pool.Task.arg+s.appended)
    rw [hc]
    abel
  · change s.nreqs-1 = UInt64.ofNat (s.counted.erase r).length
    rw [h.nreqs,hlen]
    obtain ⟨k,hk⟩ : ∃ k, s.counted.length = k+1 := ⟨_,(Nat.succ_pred_eq_of_pos hpos).symm⟩
    rw [hk,UInt64.ofNat_add]
    exact UInt64.add_sub_cancel _ 1
  · have hroom := h.room
    change (s.counted.erase r).length-s.dequeued.length < 2^64
    omega

/-! ### Workers -/

/-- Events of the pool that leave its tasks alone. -/
theorem Sound.quiet (h : Sound s list) {pool : Pool.State n Fn ℕ} (hp : Pool.Sound pool)
    (hq : Pool.Quiet s.pool pool) :
    Sound { s with pool := pool } list := by
  refine { h with pool := hp, idle := hq.destroy.trans h.idle, tasks := ?_, counted := ?_, executed := ?_ }
  · intro t ht
    exact h.tasks t (hq.load ▸ ht)
  · rw [h.counted,hq.load]
  · rw [h.executed,hq.underway]

/-- `jk_aio_execute` leaves the pointers of its request alone. -/
lemma aioExecute_spec {r : ℕ} (hr : s.reqs r ≠ none) (result error : ℤ) :
    ∃ reqs, aioExecute s r result error = some { s with reqs := reqs, executed := s.executed++[r] } ∧
      (∀ b, reqs b = none ↔ s.reqs b = none) ∧ nextOf reqs = nextOf s.reqs := by
  obtain ⟨q,hq⟩ := Option.ne_none_iff_exists'.mp hr
  refine ⟨_,by rw [aioExecute,Mem.modify_eq hq]; rfl,fun b => ?_,?_⟩
  · by_cases hb : b = r
    · simp [hb,hq]
    · simp [hb]
  · funext b
    by_cases hb : b = r
    · simp [nextOf,hb,hq]
    · simp [nextOf,hb]

theorem Sound.execute (h : Sound s list) {i : Fin n} {t : Pool.Task Fn ℕ}
    (hpc : (s.pool.workers i).pc = .holding t) {pool : Pool.State n Fn ℕ} (hp : Pool.Sound pool)
    (hpool : pool = s.pool.setWorker i ⟨.called t,(s.pool.workers i).log++[.call t]⟩) (result error : ℤ) :
    Sound (State.orFault { s with pool := pool } (t.call.invoke { s with pool := pool } t.arg result error))
      list := by
  obtain ⟨hload,hunder⟩ := Pool.call_load hpc ((s.pool.workers i).log++[.call t])
  rw [← hpool] at hload hunder
  have ht : t ∈ s.pool.load := Pool.mem_load (Or.inl hpc)
  have hlive := h.live_load (Multiset.mem_map_of_mem Pool.Task.arg ht)
  obtain ⟨reqs,he,hsame,hnext⟩ := aioExecute_spec (s := { s with pool := pool }) hlive result error
  rw [(h.tasks t ht).1,Fn.invoke,he]
  refine { h with pool := hp, idle := ?_, tasks := ?_, allocated := ?_, counted := ?_, executed := ?_, queue := ?_ }
  · rw [hpool]
    exact h.idle
  · intro t' ht'
    exact h.tasks t' (hload ▸ ht')
  · intro b hb hd
    exact fun hn => h.allocated b hb hd ((hsame b).mp hn)
  · exact h.counted.trans (by rw [← hload]; rfl)
  · change ((s.executed++[t.arg] : List ℕ) : Multiset ℕ) = pool.underway.map Pool.Task.arg+s.appended
    rw [hunder,← Multiset.coe_add,h.executed,Multiset.map_add,Multiset.map_singleton,Multiset.coe_singleton]
    abel
  · change Queue (nextOf reqs) s.rhead s.rtail list
    rw [hnext]
    exact h.queue

/-- `jk_aio_fininsh` puts its request behind the last one. -/
lemma aioFininsh_spec {r : ℕ} (hq : Queue (nextOf s.reqs) s.rhead s.rtail list) (hn : list.Nodup) (hr : r ∉ list)
    (hlr : s.reqs r ≠ none) (hlive : ∀ b ∈ list, s.reqs b ≠ none) :
    ∃ reqs, aioFininsh s r = some { s with
        reqs := reqs, rhead := if s.rhead = none then some r else s.rhead, rtail := some r,
        pipe := if s.pipe < s.capacity then s.pipe+1 else s.pipe, appended := s.appended++[r] } ∧
      (∀ b, reqs b = none ↔ s.reqs b = none) ∧
      Queue (nextOf reqs) (if s.rhead = none then some r else s.rhead) (some r) (list++[r]) := by
  obtain ⟨q,hqr⟩ := Option.ne_none_iff_exists'.mp hlr
  cases ht : s.rtail with
  | none =>
    refine ⟨s.reqs.put r { q with next := none },by rw [aioFininsh,Mem.modify_eq hqr,ht]; rfl,fun b => ?_,?_⟩
    · by_cases hb : b = r
      · simp [hb,hqr]
      · simp [hb]
    · apply hq.push hn hr
      · simp [nextOf]
      · simp [ht]
      · intro c _ hcr
        simp [nextOf,hcr]
  | some t =>
    have htl : t ∈ list := List.mem_of_getLast? (hq.tail.symm.trans ht)
    have htr : t ≠ r := fun e => hr (e ▸ htl)
    obtain ⟨p,hp⟩ := Option.ne_none_iff_exists'.mp (hlive t htl)
    have hp' : s.reqs.put r { q with next := none } t = some p := by rw [Mem.put_of_ne htr,hp]
    refine ⟨(s.reqs.put r { q with next := none }).put t { p with next := some r },
      by rw [aioFininsh,Mem.modify_eq hqr,ht]; simp [Mem.modify_eq hp'],fun b => ?_,?_⟩
    · by_cases hb : b = t
      · simp [hb,hp]
      · by_cases hbr : b = r
        · simp [hbr,htr.symm,hqr]
        · simp [hb,hbr]
    · apply hq.push hn hr
      · simp [nextOf,htr.symm]
      · intro t' ht'
        obtain rfl := Option.some.inj (ht.symm.trans ht')
        simp [nextOf]
      · intro c hct hcr
        have hct' : c ≠ t := fun e => hct (e ▸ ht)
        simp [nextOf,hct',hcr]

/-- The request that a worker finishes is in memory, and not in the list. -/
lemma Sound.fininsh_spec (h : Sound s list) {i : Fin n} {t : Pool.Task Fn ℕ}
    (hpc : (s.pool.workers i).pc = .called t) (pool : Pool.State n Fn ℕ) :
    ∃ reqs, aioFininsh { s with pool := pool } t.arg = some { s with
        pool := pool, reqs := reqs, rhead := if s.rhead = none then some t.arg else s.rhead, rtail := some t.arg,
        pipe := if s.pipe < s.capacity then s.pipe+1 else s.pipe, appended := s.appended++[t.arg] } ∧
      (∀ b, reqs b = none ↔ s.reqs b = none) ∧
      Queue (nextOf reqs) (if s.rhead = none then some t.arg else s.rhead) (some t.arg) (list++[t.arg]) := by
  have harg : t.arg ∈ s.pool.load.map Pool.Task.arg := Multiset.mem_map_of_mem _ (Pool.mem_load (Or.inr hpc))
  have hnew : t.arg ∉ list := fun hm => h.load_not_appended harg (h.list_appended hm)
  have hnodup : list.Nodup := by
    have hn := h.appended_nodup
    rw [h.order] at hn
    exact hn.of_append_right
  exact aioFininsh_spec (s := { s with pool := pool }) h.queue hnodup hnew (h.live_load harg) fun b hb =>
    h.live_list hb

theorem Sound.fininsh (h : Sound s list) {i : Fin n} {t : Pool.Task Fn ℕ} (hpc : (s.pool.workers i).pc = .called t)
    {pool : Pool.State n Fn ℕ} (hp : Pool.Sound pool)
    (hpool : pool = s.pool.setWorker i ⟨.finished t,(s.pool.workers i).log++t.finishing⟩) (result error : ℤ) :
    Sound (State.orFault { s with pool := pool } (Fn.fininsh.invoke { s with pool := pool } t.arg result error))
      (list++[t.arg]) := by
  obtain ⟨hload,hunder⟩ := Pool.finish_load hpc ((s.pool.workers i).log++t.finishing)
  rw [← hpool] at hload hunder
  obtain ⟨reqs,he,hsame,hqueue⟩ := h.fininsh_spec hpc pool
  rw [Fn.invoke,he]
  refine { h with
    pool := hp, idle := ?_, tasks := ?_, allocated := ?_, counted := ?_, executed := ?_, order := ?_,
    queue := hqueue }
  · rw [hpool]
    exact h.idle
  · intro t' ht'
    apply h.tasks t'
    rw [hload]
    exact Multiset.mem_add.mpr (Or.inr ht')
  · intro b hb hd
    exact fun hn => h.allocated b hb hd ((hsame b).mp hn)
  · change (s.counted : Multiset ℕ) =
      s.submitting+s.refused+pool.load.map Pool.Task.arg+(s.appended++[t.arg] : List ℕ)
    rw [h.counted,hload,Multiset.map_add,Multiset.map_singleton,← Multiset.coe_add,Multiset.coe_singleton]
    abel
  · change (s.executed : Multiset ℕ) = pool.underway.map Pool.Task.arg+(s.appended++[t.arg] : List ℕ)
    rw [h.executed,hunder,Multiset.map_add,Multiset.map_singleton,← Multiset.coe_add,Multiset.coe_singleton]
    abel
  · exact (congrArg (·++[t.arg]) h.order).trans (List.append_assoc _ _ _)

/-! ### Threads that wait or poll -/

/-- A thread without a request before and after. -/
theorem Sound.setThread (h : Sound s list) {j : Fin m} {t : Thread}
    (hb : (s.threads j).holds = 0 ∧ (s.threads j).past = 0) (ht : t.holds = 0 ∧ t.past = 0) :
    Sound (s.setThread j t) list := by
  refine { h with dequeued := ?_, callbacks := ?_ }
  · rw [State.setThread,total_update_same Thread.holds s.threads j (ht.1.trans hb.1.symm)]
    exact h.dequeued
  · rw [State.setThread,total_update_same Thread.past s.threads j (ht.2.trans hb.2.symm)]
    exact h.callbacks

theorem Sound.pollSection (h : Sound s list) {j : Fin m} {processed : ℕ} (hj : s.threads j = .polling processed) :
    ∃ list', Sound (s.orFault (aioPollSection s j processed)) list' := by
  cases hr : s.rhead with
  | none =>
    rw [aioPollSection,hr]
    exact ⟨list,h.setThread (by simp [hj,Thread.holds,Thread.past]) ⟨rfl,rfl⟩⟩
  | some r =>
    obtain ⟨next,rest,hnext,rfl,hqueue⟩ := (hr ▸ h.queue : Queue (nextOf s.reqs) (some r) s.rtail list).pop
    obtain ⟨q,hq,hqn⟩ := Option.map_eq_some_iff.mp hnext
    have hholds := total_update Thread.holds s.threads j (.finishing r processed)
    have hpast := total_update Thread.past s.threads j (.finishing r processed)
    rw [hj] at hholds hpast
    rw [aioPollSection,hr]
    simp only [hq,Option.bind_eq_bind,Option.bind_some,hqn]
    refine ⟨rest,{ h with
      order := ?_, queue := hqueue, dequeued := ?_, callbacks := ?_, ncoms := ?_, room := ?_ }⟩
    · exact h.order.trans (List.append_cons _ _ _)
    · change ((s.dequeued++[r] : List ℕ) : Multiset ℕ) =
        total Thread.holds (Function.update s.threads j (.finishing r processed))+s.destroyed
      have hin : total Thread.holds (Function.update s.threads j (.finishing r processed)) =
          total Thread.holds s.threads+{r} := (add_zero _).symm.trans hholds
      rw [hin,← Multiset.coe_add,h.dequeued,Multiset.coe_singleton]
      abel
    · have hsame : total Thread.past (Function.update s.threads j (.finishing r processed)) =
          total Thread.past s.threads := add_right_cancel hpast
      exact h.callbacks.trans (by rw [← hsame]; rfl)
    · change s.ncoms+1 = UInt64.ofNat (s.dequeued++[r]).length
      rw [h.ncoms,List.length_append,UInt64.ofNat_add]
      rfl
    · have hroom := h.room
      change s.counted.length-(s.dequeued++[r]).length < 2^64
      rw [List.length_append]
      omega

theorem Sound.callback (h : Sound s list) {j : Fin m} {r processed : ℕ}
    (hj : s.threads j = .finishing r processed) :
    Sound (s.orFault (aioCallback s j r processed)) list := by
  obtain ⟨q,hq⟩ := Option.ne_none_iff_exists'.mp (h.live_held (j := j) (r := r) (by simp [hj,Thread.holds])).1
  have hsame : total Thread.holds (Function.update s.threads j (.destroying r processed)) =
      total Thread.holds s.threads := total_update_same _ _ _ (by rw [hj]; rfl)
  have hpast := total_update Thread.past s.threads j (.destroying r processed)
  rw [hj] at hpast
  have hin : total Thread.past (Function.update s.threads j (.destroying r processed)) =
      total Thread.past s.threads+{r} := (add_zero _).symm.trans hpast
  rw [aioCallback,hq]
  refine { h with dequeued := ?_, callbacks := ?_ }
  · exact h.dequeued.trans (by rw [← hsame]; rfl)
  · change ((if q.finish.isSome then s.callbacks++[r] else s.callbacks : List ℕ) : Multiset ℕ) ≤
      total Thread.past (Function.update s.threads j (.destroying r processed))+s.destroyed
    rw [hin,add_right_comm]
    split
    · rw [← Multiset.coe_add,Multiset.coe_singleton]
      exact Multiset.add_le_add_right h.callbacks
    · exact h.callbacks.trans (Multiset.le_add_right _ _)

theorem Sound.destory (h : Sound s list) {j : Fin m} {r processed : ℕ}
    (hj : s.threads j = .destroying r processed) :
    Sound (s.orFault (aioDestory s j r processed)) list := by
  obtain ⟨hlive,hdeq,_⟩ := h.live_held (j := j) (r := r) (by simp [hj,Thread.holds])
  obtain ⟨q,hq⟩ := Option.ne_none_iff_exists'.mp hlive
  have hholds := total_update Thread.holds s.threads j (.polling (processed+1))
  have hpast := total_update Thread.past s.threads j (.polling (processed+1))
  rw [hj] at hholds hpast
  have hout : total Thread.holds s.threads =
      total Thread.holds (Function.update s.threads j (.polling (processed+1)))+{r} :=
      (hholds.trans (add_zero _)).symm
  have hout' : total Thread.past s.threads =
      total Thread.past (Function.update s.threads j (.polling (processed+1)))+{r} := (hpast.trans (add_zero _)).symm
  rw [aioDestory,hq]
  refine { h with allocated := ?_, queue := ?_, dequeued := ?_, callbacks := ?_ }
  · intro b hb hd
    change b ∉ s.destroyed++[r] at hd
    have hbd : b ∉ s.destroyed ∧ b ≠ r := by simpa using hd
    change s.reqs.free r b ≠ none
    rw [Mem.free_of_ne hbd.2]
    exact h.allocated b hb hbd.1
  · apply h.queue.congr
    intro b hb
    have hbr : b ≠ r := fun e => h.list_not_dequeued hb (e ▸ hdeq)
    change ((s.reqs.free r) b).map Request.next = (s.reqs b).map Request.next
    rw [Mem.free_of_ne hbr]
  · change (s.dequeued : Multiset ℕ) = total Thread.holds (Function.update s.threads j (.polling (processed+1)))+
      (s.destroyed++[r] : List ℕ)
    rw [h.dequeued,hout,← Multiset.coe_add,Multiset.coe_singleton]
    abel
  · change (s.callbacks : Multiset ℕ) ≤ total Thread.past
      (Function.update s.threads j (.polling (processed+1)))+
      (s.destroyed++[r] : List ℕ)
    have hc := h.callbacks
    rw [hout',add_assoc] at hc
    rwa [← Multiset.coe_add,Multiset.coe_singleton,add_comm (s.destroyed : Multiset ℕ)]

end JustKit.Aio
