import Mathlib

/-! The table of registrations of `jk_event.c`, which all backends share. A backend is given by the
functions that tell the kernel about a change. -/
namespace JustKit.Events

/-- `JK_EVENT_NEVENT`, `JK_EVENT_REVENT` and `JK_EVENT_WEVENT`. -/
def nevent : BitVec 32 := 0
def revent : BitVec 32 := 1
def wevent : BitVec 32 := 2

/-- `mask & bit`, as a condition. -/
def Has (mask bit : BitVec 32) : Prop := mask &&& bit ≠ 0#32

instance hasDecidable (mask bit : BitVec 32) : Decidable (Has mask bit) :=
  inferInstanceAs (Decidable (mask &&& bit ≠ 0#32))

/-- `jk_event_node_s`. `η` stands for the handlers, `δ` for the objects of the user. -/
structure EventNode (η δ : Type) where
  event : BitVec 32
  revHandler : Option η
  wevHandler : Option η
  data : Option δ
  deriving Repr, DecidableEq

/-- `jk_event_s`; `ctx` is what the backend keeps, with what the kernel keeps for it. The table has
`maxEvents` nodes. -/
structure Event (κ η δ : Type) where
  maxEvents : ℕ
  events : ℕ → EventNode η δ
  ctx : κ

variable {κ η δ : Type}

/-- `jk_event_new`. -/
def eventNew (η δ : Type) (maxEvents : ℕ) (ctx : κ) : Event κ η δ :=
  ⟨maxEvents,fun _ => ⟨nevent,none,none,none⟩,ctx⟩

def Event.setNode (ev : Event κ η δ) (fd : ℕ) (node : EventNode η δ) : Event κ η δ :=
  { ev with events := Function.update ev.events fd node }

/-- What `jk_event_add` stores in the node. -/
def EventNode.register (node : EventNode η δ) (event : BitVec 32) (handler : Option η) (data : Option δ) :
    EventNode η δ where
  event := node.event ||| event
  data := data
  revHandler := if Has event revent then handler else node.revHandler
  wevHandler := if Has event wevent then handler else node.wevHandler

/-- `jk_event_add`, with the `jk_event_context_add` of the backend. -/
def eventAdd (contextAdd : Event κ η δ → ℕ → BitVec 32 → κ × ℤ) (ev : Event κ η δ) (fd : ℕ)
    (event : BitVec 32) (handler : Option η) (data : Option δ) : Event κ η δ × ℤ :=
  if ev.maxEvents ≤ fd then (ev,-1)
  else
    match contextAdd ev fd event with
    | (ctx,ret) =>
      let ev : Event κ η δ := { ev with ctx := ctx }
      if ret = -1 then (ev,-1) else (ev.setNode fd ((ev.events fd).register event handler data),0)

/-- `jk_event_del`, with the `jk_event_context_del` of the backend. -/
def eventDel (contextDel : Event κ η δ → ℕ → BitVec 32 → κ × ℤ) (ev : Event κ η δ) (fd : ℕ)
    (event : BitVec 32) : Event κ η δ × ℤ :=
  if ev.maxEvents ≤ fd then (ev,-1)
  else
    match contextDel ev fd event with
    | (ctx,ret) =>
      let ev : Event κ η δ := { ev with ctx := ctx }
      if ret ≠ 0 then (ev,-1)
      else (ev.setNode fd { ev.events fd with event := (ev.events fd).event &&& ~~~event },0)

/-- A call of `jk_event_add` or `jk_event_del`. `φ` says how the kernel behaves during the call. -/
inductive Call (φ η δ : Type) where
  | add (fd : ℕ) (event : BitVec 32) (handler : Option η) (data : Option δ) (kernel : φ)
  | del (fd : ℕ) (event : BitVec 32) (kernel : φ)
  deriving Repr, DecidableEq

/-- The functions of a backend. -/
structure Backend (κ φ η δ : Type) where
  contextAdd : φ → Event κ η δ → ℕ → BitVec 32 → κ × ℤ
  contextDel : φ → Event κ η δ → ℕ → BitVec 32 → κ × ℤ

variable {φ : Type}

def Call.exec (backend : Backend κ φ η δ) (ev : Event κ η δ) : Call φ η δ → Event κ η δ × ℤ
  | .add fd event handler data kernel => eventAdd (backend.contextAdd kernel) ev fd event handler data
  | .del fd event kernel => eventDel (backend.contextDel kernel) ev fd event

def Call.fd : Call φ η δ → ℕ
  | .add fd _ _ _ _ => fd
  | .del fd _ _ => fd

def Call.event : Call φ η δ → BitVec 32
  | .add _ event _ _ _ => event
  | .del _ event _ => event

/-- What a successful call makes of the node. -/
def Call.update (node : EventNode η δ) : Call φ η δ → EventNode η δ
  | .add _ event handler data _ => node.register event handler data
  | .del _ event _ => { node with event := node.event &&& ~~~event }

/-- A subset of `READ|WRITE` that is not empty. -/
def Proper (event : BitVec 32) : Prop := event = revent ∨ event = wevent ∨ event = revent ||| wevent

/-- The state after a sequence of calls. -/
def execAll (backend : Backend κ φ η δ) (ev : Event κ η δ) (calls : List (Call φ η δ)) : Event κ η δ :=
  calls.foldl (fun ev c => (c.exec backend ev).1) ev

/-- The state after a call. -/
def Backend.step (backend : Backend κ φ η δ) (ev : Event κ η δ) (c : Call φ η δ) : Event κ η δ :=
  (c.exec backend ev).1

/-- A call is refused and leaves the table alone, or it changes its node. -/
theorem exec_events (backend : Backend κ φ η δ) (ev : Event κ η δ) (c : Call φ η δ) :
    ((c.exec backend ev).2 = -1 ∧ (c.exec backend ev).1.events = ev.events) ∨
      ((c.exec backend ev).2 = 0 ∧
        (c.exec backend ev).1.events = Function.update ev.events c.fd (c.update (ev.events c.fd))) := by
  cases c with
  | add fd event handler data kernel =>
    unfold Call.exec eventAdd
    dsimp only
    split
    · exact Or.inl ⟨rfl,rfl⟩
    · split
      · exact Or.inl ⟨rfl,rfl⟩
      · exact Or.inr ⟨rfl,rfl⟩
  | del fd event kernel =>
    unfold Call.exec eventDel
    dsimp only
    split
    · exact Or.inl ⟨rfl,rfl⟩
    · split
      · exact Or.inl ⟨rfl,rfl⟩
      · exact Or.inr ⟨rfl,rfl⟩

/-- A call for a file descriptor that has no node changes nothing. -/
lemma exec_outside (backend : Backend κ φ η δ) {ev : Event κ η δ} {c : Call φ η δ}
    (hfd : ev.maxEvents ≤ c.fd) :
    c.exec backend ev = (ev,-1) := by
  cases c with
  | add fd event handler data kernel => exact if_pos hfd
  | del fd event kernel => exact if_pos hfd

lemma step_outside (backend : Backend κ φ η δ) {ev : Event κ η δ} {c : Call φ η δ}
    (hfd : ev.maxEvents ≤ c.fd) :
    backend.step ev c = ev := congrArg Prod.fst (exec_outside backend hfd)

/-- What a proper call preserves holds after all calls. -/
theorem execAll_invariant {backend : Backend κ φ η δ} {P : Event κ η δ → Prop}
    (hstep : ∀ ev (c : Call φ η δ), P ev → Proper c.event → P (c.exec backend ev).1)
    {ev : Event κ η δ} (h : P ev) {calls : List (Call φ η δ)} (hcalls : ∀ c ∈ calls, Proper c.event) :
    P (execAll backend ev calls) := by
  induction calls generalizing ev with
  | nil => exact h
  | cons c calls ih =>
    apply ih (hstep ev c h (hcalls c List.mem_cons_self))
    intro c' hc'
    exact hcalls c' (List.mem_cons_of_mem c hc')

/-! ### Bits -/

theorem has_or (a b bit : BitVec 32) : Has (a ||| b) bit ↔ Has a bit ∨ Has b bit := by
  unfold Has
  rw [BitVec.and_or_distrib_right,ne_eq,BitVec.or_eq_zero_iff]
  tauto

theorem has_of_has_and {a b bit : BitVec 32} (h : Has (a &&& b) bit) : Has a bit := by
  intro hz
  apply h
  rw [BitVec.and_assoc,BitVec.and_comm b bit,← BitVec.and_assoc,hz,BitVec.zero_and]

theorem has_twoPow (mask : BitVec 32) {i : ℕ} (hi : i < 32) : Has mask (BitVec.twoPow 32 i) ↔
    mask.getLsbD i = true := by
  unfold Has
  rw [BitVec.and_twoPow]
  cases mask.getLsbD i with
  | false => simp
  | true =>
    refine iff_of_true (fun hz => ?_) rfl
    have hbit := congrArg (BitVec.getLsbD · i) hz
    simp [hi] at hbit

/-- One bit, after those of `b` are cleared. -/
theorem has_diff (a b : BitVec 32) {i : ℕ} (hi : i < 32) :
    Has (a &&& ~~~b) (BitVec.twoPow 32 i) ↔ Has a (BitVec.twoPow 32 i) ∧ ¬Has b (BitVec.twoPow 32 i) := by
  simp only [has_twoPow _ hi,BitVec.getLsbD_and,BitVec.getLsbD_not,hi,decide_true,Bool.true_and,Bool.and_eq_true,
    Bool.not_eq_true']
  rw [Bool.not_eq_true]

end JustKit.Events
