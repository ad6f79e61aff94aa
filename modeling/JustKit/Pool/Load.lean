import JustKit.Pool.Model

/-! The tasks that the pool still has to finish, and what each event does to them. -/
namespace JustKit.Pool
open Foundations Foundations.Transition
variable {n : ℕ} {φ α τ : Type}

/-- The task that a worker has taken and not finished yet. -/
def Pc.inHand : Pc τ → Multiset τ
  | .holding t => {t}
  | .called t => {t}
  | _ => 0

/-- The task that a worker has called and not finished yet. -/
def Pc.underway : Pc τ → Multiset τ
  | .called t => {t}
  | _ => 0

def State.load (s : State n φ α) : Multiset (Task φ α) :=
  s.waitTasks+total (fun w : Worker (Task φ α) => w.pc.inHand) s.workers

def State.underway (s : State n φ α) : Multiset (Task φ α) :=
  total (fun w : Worker (Task φ α) => w.pc.underway) s.workers

theorem setWorker_load (s : State n φ α) (i : Fin n) (w : Worker (Task φ α)) :
    (s.setWorker i w).load+(s.workers i).pc.inHand = s.load+w.pc.inHand := by
  have h := total_update (fun w : Worker (Task φ α) => w.pc.inHand) s.workers i w
  unfold State.load
  rw [add_assoc,add_assoc]
  exact congrArg ((s.waitTasks : Multiset (Task φ α))+·) h

theorem setWorker_underway (s : State n φ α) (i : Fin n) (w : Worker (Task φ α)) :
    (s.setWorker i w).underway+(s.workers i).pc.underway = s.underway+w.pc.underway :=
  total_update (fun w : Worker (Task φ α) => w.pc.underway) s.workers i w

/-- The same tasks to finish, and the same under way. -/
structure Quiet (s s' : State n φ α) : Prop where
  load : s'.load = s.load
  underway : s'.underway = s.underway
  destroy : s'.destroy = s.destroy

/-- A worker without a task before and after. -/
lemma setWorker_quiet {s : State n φ α} {i : Fin n} {w : Worker (Task φ α)}
    (hb : (s.workers i).pc.inHand = 0 ∧ (s.workers i).pc.underway = 0)
    (ha : w.pc.inHand = 0 ∧ w.pc.underway = 0) : Quiet s (s.setWorker i w) := by
  refine ⟨?_,?_,rfl⟩
  · simpa [hb.1,ha.1] using setWorker_load s i w
  · simpa [hb.2,ha.2] using setWorker_underway s i w

lemma lockSection_quiet {s : State n φ α} {i : Fin n}
    (hpc : (s.workers i).pc = .top ∨ (s.workers i).pc = .woken) : Quiet s (threadLoopSection s i) := by
  have hb : (s.workers i).pc.inHand = 0 ∧ (s.workers i).pc.underway = 0 := by
    rcases hpc with hpc | hpc <;> simp [hpc,Pc.inHand,Pc.underway]
  unfold threadLoopSection
  split
  · exact setWorker_quiet hb ⟨rfl,rfl⟩
  · split
    · exact setWorker_quiet hb ⟨rfl,rfl⟩
    · split
      · exact setWorker_quiet hb ⟨rfl,rfl⟩
      · rename_i t rest hw
        have hl := total_update (fun w : Worker (Task φ α) => w.pc.inHand) s.workers i
          { s.workers i with pc := .holding t }
        have hu := setWorker_underway s i { s.workers i with pc := .holding t }
        rw [hb.1,add_zero,add_comm] at hl
        rw [hb.2,add_zero] at hu
        refine ⟨?_,hu.trans (add_zero _),rfl⟩
        unfold State.load
        rw [hw,← Multiset.cons_coe,← Multiset.singleton_add,add_comm ({t} : Multiset (Task φ α)),add_assoc]
        exact congrArg ((rest : Multiset (Task φ α))+·) hl

/-- Wake-ups, the section under the lock, and the release of a task. -/
theorem Step.quiet {s s' : State n φ α} {e : Event n φ α} (h : Step s e s') {i : Fin n}
    (he : e = .wake i ∨ e = .lock i ∨ e = .free i) : Quiet s s' := by
  cases h with
  | wake hpc => exact setWorker_quiet (by simp [hpc,Pc.inHand,Pc.underway]) ⟨rfl,rfl⟩
  | lock hpc => exact lockSection_quiet hpc
  | free hpc => exact setWorker_quiet (by simp [hpc,Pc.inHand,Pc.underway]) ⟨rfl,rfl⟩
  | _ => simp at he

/-- A task in the hands of a worker. -/
lemma mem_load {s : State n φ α} {i : Fin n} {t : Task φ α}
    (hpc : (s.workers i).pc = .holding t ∨ (s.workers i).pc = .called t) : t ∈ s.load := by
  have ht : t ∈ (s.workers i).pc.inHand := by rcases hpc with hpc | hpc <;> simp [hpc,Pc.inHand]
  exact Multiset.mem_add.mpr (Or.inr (Multiset.mem_sum.mpr ⟨i,Finset.mem_univ i,ht⟩))

theorem call_load {s : State n φ α} {i : Fin n} {t : Task φ α} (hpc : (s.workers i).pc = .holding t)
    (log : List (Action (Task φ α))) : (s.setWorker i ⟨.called t,log⟩).load = s.load ∧
      (s.setWorker i ⟨.called t,log⟩).underway = {t}+s.underway := by
  have hl := setWorker_load s i ⟨.called t,log⟩
  have hu := setWorker_underway s i ⟨.called t,log⟩
  rw [hpc] at hl hu
  exact ⟨add_right_cancel hl,(add_zero _).symm.trans (hu.trans (add_comm _ _))⟩

theorem finish_load {s : State n φ α} {i : Fin n} {t : Task φ α} (hpc : (s.workers i).pc = .called t)
    (log : List (Action (Task φ α))) : s.load = {t}+(s.setWorker i ⟨.finished t,log⟩).load ∧
      s.underway = {t}+(s.setWorker i ⟨.finished t,log⟩).underway := by
  have hl := setWorker_load s i ⟨.finished t,log⟩
  have hu := setWorker_underway s i ⟨.finished t,log⟩
  rw [hpc] at hl hu
  exact ⟨((add_comm _ _).trans (hl.trans (add_zero _))).symm,((add_comm _ _).trans (hu.trans (add_zero _))).symm⟩

/-- A successful push adds one task. -/
theorem push_load (s : State n φ α) (call : φ) (arg : α) (finish : Option φ) (woken : List (Fin n)) :
    (threadPoolPush s call arg finish true woken).1.load = {⟨s.accepted.length,call,arg,finish⟩}+s.load ∧
      (threadPoolPush s call arg finish true woken).1.underway = s.underway := by
  have hwake {P : Pc (Task φ α) → Multiset (Task φ α)} (hP : P .woken = P .waiting) :
      total (fun w : Worker (Task φ α) => P w.pc) (fun i => if i ∈ woken then (s.workers i).wake
        else s.workers i) = total (fun w : Worker (Task φ α) => P w.pc) s.workers := by
    apply total_congr
    intro i
    split
    · generalize s.workers i = w
      obtain ⟨pc,log⟩ := w
      cases pc <;> first | rfl | exact hP
    · rfl
  refine ⟨?_,hwake rfl⟩
  have hload := hwake (P := Pc.inHand) rfl
  simp only [threadPoolPush,if_true,State.load,← Multiset.cons_coe,← Multiset.singleton_add,hload,add_assoc]

end JustKit.Pool
