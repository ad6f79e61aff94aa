import JustKit.Aio.Model
import JustKit.Foundations.LinkedList
import JustKit.Pool.Invariant
import JustKit.Pool.Load

/-! What holds of the asynchronous requests in every state: every request counted is in one place, and
the list of completed requests is well formed. -/
namespace JustKit.Aio
open Foundations Foundations.Transition Foundations.LinkedList
variable {n m : ℕ} {ψ : Type}

/-- The request that a thread has called back and not released. -/
def Thread.past : Thread → Multiset ℕ
  | .destroying r _ => {r}
  | _ => 0

/-- Read `r->next`. -/
def nextOf (reqs : Mem (Request ψ)) (r : ℕ) : Option (Option ℕ) := (reqs r).map Request.next

/-- `list` are the requests that are completed and not dequeued. -/
structure Sound (s : State n m ψ) (list : List ℕ) : Prop where
  pool : Pool.Sound s.pool
  idle : s.pool.destroy = .idle
  tasks : ∀ t ∈ s.pool.load, t.call = .execute ∧ t.finish = some .fininsh
  fault : s.fault = false
  fresh : ∀ r ∈ s.counted, r < s.fresh
  nodup : s.counted.Nodup
  allocated : ∀ r < s.fresh, r ∉ s.destroyed → s.reqs r ≠ none
  counted : (s.counted : Multiset ℕ) = s.submitting+s.refused+s.pool.load.map Pool.Task.arg+s.appended
  executed : (s.executed : Multiset ℕ) = s.pool.underway.map Pool.Task.arg+s.appended
  order : s.appended = s.dequeued++list
  queue : Queue (nextOf s.reqs) s.rhead s.rtail list
  dequeued : (s.dequeued : Multiset ℕ) = total Thread.holds s.threads+s.destroyed
  callbacks : (s.callbacks : Multiset ℕ) ≤ total Thread.past s.threads+s.destroyed
  nreqs : s.nreqs = UInt64.ofNat s.counted.length
  ncoms : s.ncoms = UInt64.ofNat s.dequeued.length
  room : s.counted.length-s.dequeued.length < 2^64

theorem aioInit_sound (n m : ℕ) (ψ : Type) (capacity : ℕ) : Sound (aioInit n m ψ capacity) [] := by
  have hload : (aioInit n m ψ capacity).pool.load = 0 := by
    have hz : total (fun w : Pool.Worker (Pool.Task Fn ℕ) => w.pc.inHand)
        (aioInit n m ψ capacity).pool.workers = 0 :=
      total_eq_zero _ fun _ => rfl
    rw [Pool.State.load,hz]
    rfl
  have hunder : (aioInit n m ψ capacity).pool.underway = 0 := total_eq_zero _ fun _ => rfl
  have hthreads (f : Thread → Multiset ℕ) (hf : f .idle = 0) : total f (aioInit n m ψ capacity).threads = 0 :=
    total_eq_zero _ fun _ => hf
  constructor
  · exact Pool.threadPoolNew_sound
  · rfl
  · simp [hload]
  · rfl
  · simp [aioInit]
  · exact List.nodup_nil
  · simp [aioInit]
  · rw [hload]
    rfl
  · rw [hunder]
    rfl
  · rfl
  · exact ⟨rfl,rfl⟩
  · rw [hthreads _ rfl]
    rfl
  · exact Multiset.zero_le _
  · rfl
  · rfl
  · simp [aioInit]

section Facts
variable {s : State n m ψ} {list : List ℕ} (h : Sound s list)
include h

lemma Sound.mem_counted {r : ℕ} (hr : r ∈ s.pool.load.map Pool.Task.arg ∨ r ∈ s.appended) :
    r ∈ s.counted := by
  rw [← Multiset.mem_coe,h.counted]
  simp only [Multiset.mem_add,Multiset.mem_coe]
  tauto

lemma Sound.appended_nodup : s.appended.Nodup := by
  rw [← Multiset.coe_nodup]
  apply Multiset.nodup_of_le _ (Multiset.coe_nodup.mpr h.nodup)
  rw [h.counted]
  exact Multiset.le_add_left _ _

/-- A request in the pool is not appended. -/
lemma Sound.load_not_appended {r : ℕ} (hr : r ∈ s.pool.load.map Pool.Task.arg) : r ∉ s.appended := by
  have hn := Multiset.coe_nodup.mpr h.nodup
  rw [h.counted] at hn
  obtain ⟨_,_,hd⟩ := Multiset.nodup_add.mp hn
  exact fun ha => Multiset.disjoint_left.mp hd (Multiset.mem_add.mpr (Or.inr hr)) ha

lemma Sound.destroyed_dequeued {r : ℕ} (hr : r ∈ s.destroyed) : r ∈ s.dequeued := by
  rw [← Multiset.mem_coe,h.dequeued,Multiset.mem_add]
  exact Or.inr hr

lemma Sound.dequeued_appended {r : ℕ} (hr : r ∈ s.dequeued) : r ∈ s.appended := by
  rw [h.order]
  exact List.mem_append_left _ hr

lemma Sound.list_appended {r : ℕ} (hr : r ∈ list) : r ∈ s.appended := by
  rw [h.order]
  exact List.mem_append_right _ hr

lemma Sound.live_load {r : ℕ} (hr : r ∈ s.pool.load.map Pool.Task.arg) : s.reqs r ≠ none :=
  h.allocated r (h.fresh r (h.mem_counted (Or.inl hr)))
    fun hd => h.load_not_appended hr (h.dequeued_appended (h.destroyed_dequeued hd))

lemma Sound.list_not_dequeued {r : ℕ} (hr : r ∈ list) : r ∉ s.dequeued := by
  have hn := h.appended_nodup
  rw [h.order] at hn
  exact fun hd => List.disjoint_of_nodup_append hn hd hr

lemma Sound.live_list {r : ℕ} (hr : r ∈ list) : s.reqs r ≠ none :=
  h.allocated r (h.fresh r (h.mem_counted (Or.inr (h.list_appended hr))))
    fun hd => h.list_not_dequeued hr (h.destroyed_dequeued hd)

lemma Sound.dequeued_nodup : s.dequeued.Nodup := by
  have hn := h.appended_nodup
  rw [h.order] at hn
  exact hn.of_append_left

/-- A request that a thread holds is dequeued and not released. -/
lemma Sound.live_held {j : Fin m} {r : ℕ} (hr : r ∈ (s.threads j).holds) :
    s.reqs r ≠ none ∧ r ∈ s.dequeued ∧ r ∉ s.destroyed := by
  have hmem : r ∈ total Thread.holds s.threads := Multiset.mem_sum.mpr ⟨j,Finset.mem_univ j,hr⟩
  have hdeq : r ∈ s.dequeued := by
    rw [← Multiset.mem_coe,h.dequeued,Multiset.mem_add]
    exact Or.inl hmem
  have hnot : r ∉ s.destroyed := by
    have hn := Multiset.coe_nodup.mpr h.dequeued_nodup
    rw [h.dequeued] at hn
    obtain ⟨_,_,hd⟩ := Multiset.nodup_add.mp hn
    exact fun hr' => Multiset.disjoint_left.mp hd hmem hr'
  exact ⟨h.allocated r (h.fresh r (h.mem_counted (Or.inr (h.dequeued_appended hdeq)))) hnot,hdeq,hnot⟩

end Facts

end JustKit.Aio
