import JustKit.Events.Session

/-! The kqueue backend. The kernel keeps a filter for each direction of a file descriptor, and reports each
of them in a record of its own. -/
namespace JustKit.Events
variable {η δ : Type}

/-- The filters that are registered with `kqfd`. -/
structure Kqueue where
  filters : ℕ → Direction → Bool

/-- `EV_ADD` and `EV_DELETE`. -/
inductive KeventFlag where
  | add
  | delete
  deriving Repr, DecidableEq

/-- `kevent` with one change, as it is documented: to delete a filter that is not registered fails; `fails`
stands for all other errors. A failed change has no effect. -/
def keventChange (fails : Bool) (ctx : Kqueue) (fd : ℕ) (filter : Direction) (flag : KeventFlag) : Kqueue × ℤ :=
  if fails then (ctx,-1)
  else
    match flag,ctx.filters fd filter with
    | .add,_ => (⟨Function.update ctx.filters fd (Function.update (ctx.filters fd) filter true)⟩,0)
    | .delete,true => (⟨Function.update ctx.filters fd (Function.update (ctx.filters fd) filter false)⟩,0)
    | .delete,false => (ctx,-1)

/-- What `jk_event_context_add` and `jk_event_context_del` have in common: a change for each direction of
`event`, and a return after the first that fails. `fails` says which of them the kernel refuses. -/
def kqueueChange (flag : KeventFlag) (fails : Direction → Bool) (ctx : Kqueue) (fd : ℕ) (event : BitVec 32) :
    Kqueue × ℤ :=
  let (ctx,ret) := if Has event revent then keventChange (fails .read) ctx fd .read flag else (ctx,0)
  if ret = -1 then (ctx,-1)
  else
    let (ctx,ret) := if Has event wevent then keventChange (fails .write) ctx fd .write flag else (ctx,0)
    if ret = -1 then (ctx,-1) else (ctx,0)

/-- `jk_event_context_add` with kqueue. -/
def kqueueContextAdd (fails : Direction → Bool) (ev : Event Kqueue η δ) (fd : ℕ)
    (event : BitVec 32) : Kqueue × ℤ :=
  kqueueChange .add fails ev.ctx fd event

/-- `jk_event_context_del` with kqueue. -/
def kqueueContextDel (fails : Direction → Bool) (ev : Event Kqueue η δ) (fd : ℕ)
    (event : BitVec 32) : Kqueue × ℤ :=
  kqueueChange .delete fails ev.ctx fd event

def kqueue (η δ : Type) : Backend Kqueue (Direction → Bool) η δ := ⟨kqueueContextAdd,kqueueContextDel⟩

/-- `jk_event_new` with a fresh `kqfd`. -/
def kqueueNew (η δ : Type) (maxEvents : ℕ) : Event Kqueue η δ :=
  eventNew η δ maxEvents ⟨fun _ _ => false⟩

/-- `struct kevent`, as far as it is read: `EVFILT_READ` and `EVFILT_WRITE` are the directions. -/
structure Kevent where
  ident : ℕ
  filter : Direction
  deriving Repr, DecidableEq

def Kevent.pair (e : Kevent) : ℕ × Direction := (e.ident,e.filter)

section Process
variable [DecidableEq η]

/-- One pass of the loop of `jk_event_context_process`. -/
def kqueueServe (s : Session Kqueue (Direction → Bool) η δ) (e : Kevent) :
    Session Kqueue (Direction → Bool) η δ :=
  let rfired : Bool := Has (s.ev.events e.ident).event revent ∧ e.filter = .read
  let s := if rfired then s.invoke (kqueue η δ) e.ident .read else s
  let node := s.ev.events e.ident
  if Has node.event wevent ∧ e.filter = .write then
    if ¬rfired ∨ node.revHandler ≠ node.wevHandler then s.invoke (kqueue η δ) e.ident .write else s
  else s

/-- `jk_event_context_process`, with the records that `kevent` returns, unless it fails. -/
def kqueueProcess (s : Session Kqueue (Direction → Bool) η δ) :
    Option (List Kevent) → Session Kqueue (Direction → Bool) η δ × ℤ
  | none => (s,0)
  | some batch => (batch.foldl kqueueServe s,batch.length)

/-- `rfired` is never set when the write direction is looked at: a record has one filter. -/
lemma kqueueServe_eq (s : Session Kqueue (Direction → Bool) η δ) (e : Kevent) :
    kqueueServe s e =
      if Has (s.ev.events e.ident).event e.filter.bit then s.invoke (kqueue η δ) e.ident e.filter else s := by
  unfold kqueueServe
  cases e.filter with
  | read => by_cases hr : Has (s.ev.events e.ident).event revent <;> simp [Direction.bit,hr]
  | write => by_cases hw : Has (s.ev.events e.ident).event wevent <;> simp [Direction.bit,hw]

end Process

end JustKit.Events
