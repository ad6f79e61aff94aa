import JustKit.Aio.Naming

/-! What the calls come to: each of them makes the system call that it asks for, once, and leaves no memory behind
when its request has been called back. -/
namespace JustKit.Aio.Calls
open Foundations Foundations.Transition
variable {n m : ℕ} {ψ : Type}

/-- In every run, with addresses used again as `malloc` likes, no memory is used that is not allocated, and the
requests can be numbered so that the machine is a run of the system without addresses. -/
theorem machine_refines (capacity : ℕ) (es : List (Machine.Event n m ψ)) (s : Machine n m ψ)
    (hrun : run Machine.step (Machine.init n m ψ capacity) es = some s) :
    s.fault = false ∧ ∃ es' a l, run observedStep (Aio.aioInit n m ψ capacity,⟨[],[],[]⟩) es' =
      some (a,l) ∧ Named s.entry s a l := by
  obtain ⟨es',⟨a,l⟩,hrun',hnamed,_⟩ := run_paired hrun
  exact ⟨hnamed.fault,es',a,l,hrun',hnamed⟩

/-- Two requests at one address, one after the other, and one that the pool refuses. -/
def reusingRun (i : Fin n) (j : Fin m) : List (Machine.Event n m ℕ) :=
  [.enter (.open (some [97]) 2 0 (some 7)) ⟨some 8,some 16,false,[]⟩,.push 8 true [],.lock i,
    .call i 3 0,.finish i,.enter (.mkdir (some [98]) 1 none) ⟨some 24,some 32,false,[]⟩,.push 24 false [],
    .rollback 24,.free i,.enter (.rmdir (some [98]) none) ⟨some 40,none,false,[]⟩,.poll j,.dequeue j,
    .callback j,.destory j,.dequeue j,.enter (.read 3 (some 48) (-1) none) ⟨some 16,none,false,[]⟩,
    .push 16 true [],.lock i,.call i 5 0,.finish i,.free i,.poll j,.dequeue j,.callback j,.destory j,.dequeue j]

lemma reusingRun_ends : (run Machine.step (Machine.init 1 1 ℕ 1) (reusingRun 0 0)).isSome := by decide +kernel

theorem machine_refines_reusing : ∃ s, run Machine.step (Machine.init 1 1 ℕ 1) (reusingRun 0 0) = some s ∧
    s.mem 8 = none ∧ s.mem 16 = none ∧ s.fault = false ∧ ∃ es' a l,
      run observedStep (Aio.aioInit 1 1 ℕ 1,⟨[],[],[]⟩) es' = some (a,l) ∧ Named s.entry s a l := by
  have hrun := (Option.some_get reusingRun_ends).symm
  exact ⟨_,hrun,by decide +kernel,by decide +kernel,machine_refines 1 (reusingRun 0 0) _ hrun⟩

lemma forall₂_mem {α β : Type} {R : α → β → Prop} {as : List α} {bs : List β}
    (h : List.Forall₂ R as bs) {a : α} (ha : a ∈ as) :
    ∃ b, (a,b) ∈ as.zip bs ∧ R a b := by
  induction h with
  | nil => cases ha
  | cons hab _ ih =>
    rcases List.mem_cons.mp ha with rfl | ha
    · exact ⟨_,List.mem_cons_self,hab⟩
    · obtain ⟨b,hb,hr⟩ := ih ha
      exact ⟨b,List.mem_cons_of_mem _ hb,hr⟩

section Paired
variable {s : Machine n m ψ} {a : Aio.State n m ψ} {l : Ledger ψ} (h : Paired s.entry s (a,l))
include h

/-- A request that was counted is one of the calls. -/
lemma Paired.asked {r : ℕ} (hr : r < a.fresh) : s.asked[r]? = some (s.entry r) := by
  rw [h.1.asked]
  simp [hr]

lemma Paired.executed {r : ℕ} (hr : r ∈ a.executed) : r < a.fresh := by
  obtain ⟨list,hs⟩ := h.2.1
  exact hs.fresh r (Multiset.mem_coe.mp (Multiset.mem_of_le hs.underway_le (Multiset.mem_coe.mpr hr)))

lemma Paired.executed_nodup : a.executed.Nodup := by
  obtain ⟨list,hs⟩ := h.2.1
  exact Multiset.coe_nodup.mp (Multiset.nodup_of_le hs.underway_le (Multiset.coe_nodup.mpr hs.nodup))

/-- The system calls are those of the requests that were executed. -/
lemma Paired.made :
    List.Forall₂ (fun r p => ∃ x, s.asked[r]? = some x ∧ x.call.systemCall = some p.1)
    a.executed s.made := by
  rw [← h.2.2.given,List.forall₂_map_left_iff]
  have hasked : ∀ g ∈ l.given, s.asked[g.1]? = some (s.entry g.1) := fun g hg =>
    h.asked (h.executed (h.2.2.given ▸ List.mem_map_of_mem hg))
  refine List.Forall₂.imp ?_ ((List.forall₂_and_left ..).mpr ⟨hasked,h.1.made⟩)
  rintro g p ⟨hg,hcall,_⟩
  exact ⟨_,hg,hcall⟩

/-- A callback is called with the request of its call, and with the results of the system call that was made for
it. -/
lemma Paired.returned :
    List.Forall₂ (fun r q => ∃ x p next, s.asked[r]? = some x ∧ (r,p) ∈ a.executed.zip s.made ∧
    q = { x.record with result := p.2.1, error := p.2.2, next := next }) a.callbacks s.returned := by
  rw [← h.2.2.callbacks,h.1.returned,List.forall₂_map_left_iff,List.forall₂_map_right_iff,List.forall₂_same]
  intro b hb
  have hgiven := (h.2.2.returned b hb).2
  obtain ⟨p,hp,_,hres⟩ := forall₂_mem h.1.made hgiven
  have hzip : (b.1,p) ∈ a.executed.zip s.made := by
    rw [← h.2.2.given,List.zip_map_left]
    exact List.mem_map_of_mem (f := Prod.map Prod.fst id) hp
  have hexec : b.1 ∈ a.executed := h.2.2.given ▸ List.mem_map_of_mem hgiven
  refine ⟨_,p,b.2.next.map (address s.entry),h.asked (h.executed hexec),hzip,?_⟩
  rw [← hres]
  rfl

end Paired

/-- In every run the system calls that are made are those of different calls, with the arguments that each of them
was given (the path as it was when the call was made), and every callback is called with the request of its own
call, with the arguments in it and with the results of the system call made for it. -/
theorem system_calls_as_asked (capacity : ℕ) (es : List (Machine.Event n m ψ)) (s : Machine n m ψ)
    (hrun : run Machine.step (Machine.init n m ψ capacity) es = some s) :
    ∃ made back : List ℕ, made.Nodup ∧ back.Nodup ∧
      List.Forall₂ (fun r p => ∃ x, s.asked[r]? = some x ∧ x.call.systemCall = some p.1) made s.made ∧
      List.Forall₂ (fun r q => ∃ x p next, s.asked[r]? = some x ∧ (r,p) ∈ made.zip s.made ∧
        q = { x.record with result := p.2.1, error := p.2.2, next := next }) back s.returned := by
  obtain ⟨es',⟨a,l⟩,_,h⟩ := run_paired hrun
  obtain ⟨list,hs⟩ := h.2.1
  obtain ⟨hcalls,hdeq⟩ := hs.callbacks_le
  have hnodup : (a.callbacks : Multiset ℕ).Nodup :=
    Multiset.nodup_of_le (hcalls.trans hdeq) (Multiset.coe_nodup.mpr h.executed_nodup)
  exact ⟨a.executed,a.callbacks,h.executed_nodup,Multiset.coe_nodup.mp hnodup,h.made,h.returned⟩

theorem system_calls_as_asked_reusing :
    ∃ s, run Machine.step (Machine.init 1 1 ℕ 1) (reusingRun 0 0) = some s ∧
    s.made = [(.open [97] 2 0,3,0),(.read 3 (some 48) (2^64-1),5,0)] ∧ ∃ made back : List ℕ, made.Nodup ∧
    back.Nodup ∧
      List.Forall₂ (fun r p => ∃ x, s.asked[r]? = some x ∧ x.call.systemCall = some p.1) made s.made ∧
      List.Forall₂ (fun r q => ∃ x p next, s.asked[r]? = some x ∧ (r,p) ∈ made.zip s.made ∧
        q = { x.record with result := p.2.1, error := p.2.2, next := next }) back s.returned := by
  have hrun := (Option.some_get reusingRun_ends).symm
  exact ⟨_,hrun,by decide +kernel,system_calls_as_asked 1 (reusingRun 0 0) _ hrun⟩

end JustKit.Aio.Calls
