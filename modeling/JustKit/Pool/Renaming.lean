import JustKit.Pool.Model

/-! The pool does not look into the arguments of its tasks: whatever is put in their place, it does the same. -/
namespace JustKit.Pool
open Foundations Foundations.Transition
variable {n : ℕ} {φ α β : Type}

def Task.map (g : α → β) (t : Task φ α) : Task φ β := ⟨t.serial,t.call,g t.arg,t.finish⟩

section Workers
variable {τ υ : Type} (g : τ → υ)

def Action.map : Action τ → Action υ
  | .call t => .call (g t)
  | .finish t => .finish (g t)
  | .free t => .free (g t)

def Pc.map : Pc τ → Pc υ
  | .top => .top
  | .waiting => .waiting
  | .woken => .woken
  | .holding t => .holding (g t)
  | .called t => .called (g t)
  | .finished t => .finished (g t)
  | .exited => .exited
  | .faulted => .faulted

def Worker.map (w : Worker τ) : Worker υ := ⟨w.pc.map g,w.log.map (Action.map g)⟩

lemma Worker.wake_map (w : Worker τ) : (w.map g).wake = w.wake.map g := by
  obtain ⟨pc,log⟩ := w
  cases pc <;> rfl

end Workers

/-- The same pool with other arguments. -/
def State.map (g : α → β) (s : State n φ α) : State n φ β where
  workers i := (s.workers i).map (Task.map g)
  waitTasks := s.waitTasks.map (Task.map g)
  taskNums := s.taskNums
  quitFlag := s.quitFlag
  destroy := s.destroy
  accepted := s.accepted.map (Task.map g)
  taken := s.taken.map (Task.map g)
  freed := s.freed.map (Task.map g)

def Event.map (g : α → β) : Event n φ α → Event n φ β
  | .push f arg f' malloc woken => .push f (g arg) f' malloc woken
  | .wake i => .wake i
  | .lock i => .lock i
  | .call i => .call i
  | .finish i => .finish i
  | .free i => .free i
  | .quit => .quit
  | .join => .join
  | .freeLeft => .freeLeft

section Sections
variable (g : α → β) (s : State n φ α)

@[simp] lemma State.map_pc (i : Fin n) : ((s.map g).workers i).pc = (s.workers i).pc.map (Task.map g) := rfl

lemma State.update_map (i : Fin n) (w : Worker (Task φ α)) :
    Function.update (s.map g).workers i (w.map (Task.map g)) =
      fun k => (Function.update s.workers i w k).map (Task.map g) := by
  funext k
  by_cases hk : k = i
  · subst hk
    simp
  · simp [hk,State.map]

lemma State.setWorker_map (i : Fin n) (w : Worker (Task φ α)) :
    (s.map g).setWorker i (w.map (Task.map g)) = (s.setWorker i w).map g := by
  rw [State.setWorker,s.update_map g i w]
  rfl

lemma State.setPc_map (i : Fin n) (pc : Pc (Task φ α)) :
    (s.map g).setPc i (pc.map (Task.map g)) = (s.setPc i pc).map g :=
  s.setWorker_map g i { s.workers i with pc := pc }

lemma threadLoopSection_map (i : Fin n) : threadLoopSection (s.map g) i = (threadLoopSection s i).map g := by
  have hpc (pc : Pc (Task φ α)) := s.setPc_map g i pc
  have hquit : (s.map g).quitFlag = s.quitFlag := rfl
  have hnums : (s.map g).taskNums = s.taskNums := rfl
  have htasks : (s.map g).waitTasks = s.waitTasks.map (Task.map g) := rfl
  rw [threadLoopSection,threadLoopSection,hquit,hnums,htasks]
  split_ifs with hq hn
  · exact hpc .exited
  · exact hpc .waiting
  · cases s.waitTasks with
    | nil => exact hpc .faulted
    | cons t rest =>
      have hholding : (s.map g).setPc i (.holding (t.map g)) = (s.setPc i (.holding t)).map g := hpc (.holding t)
      simp only [List.map_cons,hholding]
      simp [State.map]

theorem threadPoolPush_map (call : φ) (arg : α) (finish : Option φ) (malloc : Bool) (woken : List (Fin n)) :
    threadPoolPush (s.map g) call (g arg) finish malloc woken =
      ((threadPoolPush s call arg finish malloc woken).1.map g,
      (threadPoolPush s call arg finish malloc woken).2) := by
  cases malloc with
  | false => rfl
  | true =>
    have hworkers : (fun i => if i ∈ woken then ((s.map g).workers i).wake else (s.map g).workers i) =
        fun i => (if i ∈ woken then (s.workers i).wake else s.workers i).map (Task.map g) := by
      funext i
      split_ifs
      · exact Worker.wake_map _ _
      · rfl
    simp only [threadPoolPush,hworkers,if_true]
    simp [State.map,Task.map]

end Sections

/-- One event after a change of the arguments is the event with its arguments changed. -/
theorem step_map (g : α → β) (s : State n φ α) (e : Event n φ α) :
    step (s.map g) (e.map g) = (step s e).map (State.map g) := by
  have hpc := s.map_pc g
  cases e with
  | push call arg finish malloc woken =>
    have hidle : (s.map g).destroy = s.destroy := rfl
    simp only [step,Event.map,hidle,threadPoolPush_map]
    split_ifs <;> rfl
  | wake i =>
    simp only [step,Event.map,hpc]
    cases (s.workers i).pc <;> simp only [Pc.map,Option.map_none,Option.map_some]
    exact congrArg some (s.setPc_map g i .woken)
  | lock i =>
    simp only [step,Event.map,hpc]
    cases (s.workers i).pc <;> simp only [Pc.map,Option.map_none,Option.map_some,threadLoopSection_map]
  | call i =>
    simp only [step,Event.map,hpc]
    cases (s.workers i).pc with
    | holding t =>
      have hset := s.setWorker_map g i ⟨.called t,(s.workers i).log++[.call t]⟩
      simp only [Pc.map,Option.map_some,← hset]
      simp [Worker.map,Pc.map,Action.map,State.map]
    | _ => rfl
  | finish i =>
    simp only [step,Event.map,hpc]
    cases (s.workers i).pc with
    | called t =>
      have hset := s.setWorker_map g i ⟨.finished t,(s.workers i).log++t.finishing⟩
      have hlog : (t.map g).finishing = t.finishing.map (Action.map (Task.map g)) := by
        unfold Task.finishing
        change (if t.finish.isSome = true then _ else _) = _
        split_ifs <;> rfl
      simp only [Pc.map,Option.map_some,← hset,hlog]
      simp [Worker.map,Pc.map,State.map]
    | _ => rfl
  | free i =>
    simp only [step,Event.map,hpc]
    cases (s.workers i).pc with
    | finished t =>
      have hset := s.setWorker_map g i ⟨.top,(s.workers i).log++[.free t]⟩
      simp only [Pc.map,Option.map_some,← hset]
      simp [Worker.map,Pc.map,Action.map,State.map]
    | _ => rfl
  | quit =>
    have hidle : (s.map g).destroy = s.destroy := rfl
    have hwake : (fun i => ((s.map g).workers i).wake) = fun i => (s.workers i).wake.map (Task.map g) :=
      funext fun i => Worker.wake_map _ _
    simp only [step,Event.map,hidle,hwake]
    split_ifs <;> rfl
  | join =>
    have hdestroy : (s.map g).destroy = s.destroy := rfl
    simp only [step,Event.map,hdestroy,hpc]
    cases s.destroy with
    | joining i =>
      dsimp only
      split_ifs with hi
      · cases (s.workers ⟨i,hi⟩).pc <;> rfl
      · rfl
    | _ => rfl
  | freeLeft =>
    have hdestroy : (s.map g).destroy = s.destroy := rfl
    have htasks : (s.map g).waitTasks = s.waitTasks.map (Task.map g) := rfl
    simp only [step,Event.map,hdestroy,htasks]
    cases s.destroy with
    | freeing =>
      cases s.waitTasks with
      | nil => rfl
      | cons t rest => simp [State.map]
    | _ => rfl

end JustKit.Pool
