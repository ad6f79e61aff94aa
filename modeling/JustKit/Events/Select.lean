import JustKit.Events.Session

/-! The select backend. It keeps the sets of file descriptors itself, and scans all file descriptors up to the
largest. -/
namespace JustKit.Events
variable {η δ : Type}

/-- `jk_event_context` with select. The sets have room for the file descriptors below `FD_SETSIZE`. -/
structure Select where
  rfds : Finset ℕ
  wfds : Finset ℕ
  maxFd : ℤ
  deriving DecidableEq

/-- The scan of `jk_event_context_del`: the last of the first `n` nodes with an event, or -1. -/
def scanMax (events : ℕ → EventNode η δ) : ℕ → ℤ
  | 0 => -1
  | n+1 => if (events n).event ≠ nevent then n else scanMax events n

/-- `jk_event_context_add` with select. -/
def selectContextAdd (ev : Event Select η δ) (fd : ℕ) (event : BitVec 32) : Select × ℤ :=
  ({ rfds := if Has event revent then insert fd ev.ctx.rfds else ev.ctx.rfds
     wfds := if Has event wevent then insert fd ev.ctx.wfds else ev.ctx.wfds
     maxFd := if ev.ctx.maxFd < fd then fd else ev.ctx.maxFd },0)

/-- `jk_event_context_del` with select. The scan reads the table that the caller has not changed yet. -/
def selectContextDel (ev : Event Select η δ) (fd : ℕ) (event : BitVec 32) : Select × ℤ :=
  let rfds := if Has event revent then ev.ctx.rfds.erase fd else ev.ctx.rfds
  let wfds := if Has event wevent then ev.ctx.wfds.erase fd else ev.ctx.wfds
  ({ rfds := rfds
     wfds := wfds
     maxFd := if fd = ev.ctx.maxFd ∧ fd ∉ rfds ∧ fd ∉ wfds then scanMax ev.events ev.maxEvents
       else ev.ctx.maxFd },0)

/-- The kernel has no part in a change. -/
def select (η δ : Type) : Backend Select Unit η δ := ⟨fun _ => selectContextAdd,fun _ => selectContextDel⟩

/-- `jk_event_new` with empty sets. -/
def selectNew (η δ : Type) (maxEvents : ℕ) : Event Select η δ := eventNew η δ maxEvents ⟨∅,∅,-1⟩

/-- What `select` leaves in `_rfds` and `_wfds`. -/
structure Selected where
  rfds : Finset ℕ
  wfds : Finset ℕ
  deriving DecidableEq

section Process
variable [DecidableEq η]

/-- One pass of the loop of `jk_event_context_process`. -/
def selectServe (sel : Selected) (s : Session Select Unit η δ) (fd : ℕ) : Session Select Unit η δ :=
  let rfired : Bool := Has (s.ev.events fd).event revent ∧ fd ∈ sel.rfds
  let s := if rfired then s.invoke (select η δ) fd .read else s
  let node := s.ev.events fd
  if Has node.event wevent ∧ fd ∈ sel.wfds then
    if ¬rfired ∨ node.revHandler ≠ node.wevHandler then s.invoke (select η δ) fd .write else s
  else s

/-- The loop from `fd` on. It looks at `max_fd` before each pass, for a handler may have changed it. -/
def selectLoop (sel : Selected) : ℕ → ℕ → Session Select Unit η δ → ℤ →
    Session Select Unit η δ × ℤ
  | 0,_,s,nevents => (s,nevents)
  | fuel+1,fd,s,nevents =>
    if (fd : ℤ) ≤ s.ev.ctx.maxFd then selectLoop sel fuel (fd+1) (selectServe sel s fd) (nevents+1)
      else (s,nevents)

/-- `jk_event_context_process`, with the sets that `select` leaves, unless it fails. No file descriptor is as
large as `maxEvents`. -/
def selectProcess (s : Session Select Unit η δ) : Option Selected → Session Select Unit η δ × ℤ
  | none => (s,0)
  | some sel => if 0 < sel.rfds.card + sel.wfds.card then selectLoop sel s.ev.maxEvents 0 s 0 else (s,0)

end Process

/-! ### The bounds of `max_fd` -/

lemma scanMax_lt (events : ℕ → EventNode η δ) (n : ℕ) : scanMax events n < n := by
  induction n with
  | zero => simp [scanMax]
  | succ n ih =>
    unfold scanMax
    split <;> omega

lemma le_scanMax (events : ℕ → EventNode η δ) {n fd : ℕ} (hlt : fd < n)
    (hfd : (events fd).event ≠ nevent) : (fd : ℤ) ≤ scanMax events n := by
  induction n with
  | zero => omega
  | succ n ih =>
    unfold scanMax
    split
    · omega
    · rename_i hn
      have hne : fd ≠ n := by
        intro h
        exact hn (h ▸ hfd)
      exact ih (by omega)

/-- `max_fd` is below the size of the table, and no file descriptor with an event is above it. -/
structure Covers (ev : Event Select η δ) : Prop where
  lt : ev.ctx.maxFd < ev.maxEvents
  le : ∀ fd : ℕ, (ev.events fd).event ≠ nevent → (fd : ℤ) ≤ ev.ctx.maxFd

lemma selectNew_covers (maxEvents : ℕ) : Covers (selectNew η δ maxEvents) where
  lt := by
    change (-1 : ℤ) < maxEvents
    omega
  le _ h := absurd rfl h

lemma selectContextAdd_maxFd (ev : Event Select η δ) (fd : ℕ) (event : BitVec 32) :
    (selectContextAdd ev fd event).1.maxFd = max ev.ctx.maxFd fd := by
  unfold selectContextAdd
  dsimp only
  split <;> omega

/-- A delete leaves `max_fd`, or scans for it. -/
lemma selectContextDel_maxFd (ev : Event Select η δ) (fd : ℕ) (event : BitVec 32) :
    (selectContextDel ev fd event).1.maxFd = ev.ctx.maxFd ∨
      (selectContextDel ev fd event).1.maxFd = scanMax ev.events ev.maxEvents := by
  unfold selectContextDel
  extract_lets rfds wfds
  dsimp only
  split
  · exact Or.inr rfl
  · exact Or.inl rfl

section Steps
variable {ev : Event Select η δ}

/-- A node changes. The new `max_fd` is not below the others and, if the node has an event, not below it. -/
lemma covers_set {fd : ℕ} {node : EventNode η δ} {ctx : Select} (hlt : ctx.maxFd < ev.maxEvents)
    (hle : ∀ fd' : ℕ, (ev.events fd').event ≠ nevent → (fd' : ℤ) ≤ ctx.maxFd)
    (hnode : node.event ≠ nevent → (fd : ℤ) ≤ ctx.maxFd) :
    Covers { ev.setNode fd node with ctx := ctx } := by
  constructor
  · exact hlt
  · intro fd' he
    by_cases heq : fd' = fd
    · subst heq
      apply hnode
      simpa [Event.setNode] using he
    · apply hle fd'
      simpa [Event.setNode,heq] using he

lemma Covers.add (h : Covers ev) {fd : ℕ} (hfd : fd < ev.maxEvents) (event : BitVec 32) (node : EventNode η δ) :
    Covers { ev.setNode fd node with ctx := (selectContextAdd ev fd event).1 } := by
  have hlt := h.lt
  apply covers_set
  · rw [selectContextAdd_maxFd]
    omega
  · intro fd' he
    rw [selectContextAdd_maxFd]
    exact le_max_of_le_left (h.le fd' he)
  · intro _
    rw [selectContextAdd_maxFd]
    exact le_max_right _ _

lemma Covers.del (h : Covers ev) {fd : ℕ} (event : BitVec 32) {node : EventNode η δ}
    (hnode : node.event ≠ nevent → (ev.events fd).event ≠ nevent) :
    Covers { ev.setNode fd node with ctx := (selectContextDel ev fd event).1 } := by
  have hlt := h.lt
  have hle (fd' : ℕ) (he : (ev.events fd').event ≠ nevent) : (fd' : ℤ) ≤
      (selectContextDel ev fd event).1.maxFd := by
    have hold := h.le fd' he
    cases selectContextDel_maxFd ev fd event with
    | inl hmax => exact hmax ▸ hold
    | inr hmax =>
      rw [hmax]
      exact le_scanMax ev.events (by omega) he
  apply covers_set
  · cases selectContextDel_maxFd ev fd event with
    | inl hmax => exact hmax ▸ hlt
    | inr hmax => exact hmax ▸ scanMax_lt ev.events ev.maxEvents
  · exact hle
  · intro he
    exact hle fd (hnode he)

theorem Covers.exec (h : Covers ev) (c : Call Unit η δ) : Covers (c.exec (select η δ) ev).1 := by
  cases c with
  | add fd event handler data kernel =>
    unfold Call.exec eventAdd
    dsimp only
    split
    · exact h
    · rename_i hfd
      exact h.add (by omega) event _
  | del fd event kernel =>
    unfold Call.exec eventDel
    dsimp only
    split
    · exact h
    · apply h.del event
      intro hne hz
      apply hne
      change (ev.events fd).event &&& ~~~event = nevent
      rw [hz]
      exact BitVec.zero_and

end Steps

/-- After any calls `max_fd` covers the table. -/
theorem execAll_covers (maxEvents : ℕ) {calls : List (Call Unit η δ)}
    (hcalls : ∀ c ∈ calls, Proper c.event) :
    Covers (execAll (select η δ) (selectNew η δ maxEvents) calls) := by
  apply execAll_invariant _ (selectNew_covers maxEvents) hcalls
  intro ev c hev _
  exact hev.exec c

end JustKit.Events
