import JustKit.Events.Model

/-! The epoll backend: the interest set of the kernel mirrors the table after every call, whether it
succeeds or fails. -/
namespace JustKit.Events
variable {η δ : Type}

/-- `EPOLLIN` and `EPOLLOUT`. -/
def epollin : BitVec 32 := 1
def epollout : BitVec 32 := 4

/-- `struct epoll_event`, with `data.fd`. -/
structure EpollEvent where
  events : BitVec 32
  fd : ℕ
  deriving Repr, DecidableEq

inductive EpollOp where
  | add
  | mod
  | del
  deriving Repr, DecidableEq

/-- The interest set that the kernel keeps for `epfd`. -/
structure Epoll where
  interest : ℕ → Option EpollEvent

/-- `epoll_ctl` as it is documented: `EPOLL_CTL_ADD` fails if `fd` is registered, the others if it is
not; `fails` stands for all other errors. A failed call changes nothing. -/
def epollCtl (fails : Bool) (ctx : Epoll) (op : EpollOp) (fd : ℕ) (ee : EpollEvent) : Epoll × ℤ :=
  if fails then (ctx,-1)
  else
    match op,ctx.interest fd with
    | .add,none => (⟨Function.update ctx.interest fd (some ee)⟩,0)
    | .mod,some _ => (⟨Function.update ctx.interest fd (some ee)⟩,0)
    | .del,some _ => (⟨Function.update ctx.interest fd none⟩,0)
    | _,_ => (ctx,-1)

/-- `ee.events` for an event mask. -/
def epollMask (event : BitVec 32) : BitVec 32 :=
  let events : BitVec 32 := 0
  let events := if Has event revent then events ||| epollin else events
  if Has event wevent then events ||| epollout else events

/-- `jk_event_context_add` with epoll. -/
def epollContextAdd (fails : Bool) (ev : Event Epoll η δ) (fd : ℕ) (event : BitVec 32) : Epoll × ℤ :=
  let op := if (ev.events fd).event = nevent then EpollOp.add else .mod
  let event := event ||| (ev.events fd).event
  let (ctx,ret) := epollCtl fails ev.ctx op fd ⟨epollMask event,fd⟩
  if ret = -1 then (ctx,-1) else (ctx,0)

/-- `jk_event_context_del` with epoll. -/
def epollContextDel (fails : Bool) (ev : Event Epoll η δ) (fd : ℕ) (event : BitVec 32) : Epoll × ℤ :=
  let event := (ev.events fd).event &&& ~~~event
  let ee : EpollEvent := ⟨epollMask event,fd⟩
  if event ≠ nevent then epollCtl fails ev.ctx .mod fd ee else epollCtl fails ev.ctx .del fd ee

def epoll (η δ : Type) : Backend Epoll Bool η δ := ⟨epollContextAdd,epollContextDel⟩

/-- `jk_event_new` with a fresh `epfd`. -/
def epollNew (η δ : Type) (maxEvents : ℕ) : Event Epoll η δ := eventNew η δ maxEvents ⟨fun _ => none⟩

/-! ### The mirror -/

/-- What the kernel should keep for a file descriptor with this event mask. -/
def interestOf (event : BitVec 32) (fd : ℕ) : Option EpollEvent :=
  if event = nevent then none else some ⟨epollMask event,fd⟩

/-- The event mask has no bits but `READ` and `WRITE`. -/
def Plain (event : BitVec 32) : Prop := event = nevent ∨ Proper event

structure Mirrors (ev : Event Epoll η δ) : Prop where
  plain : ∀ fd, Plain (ev.events fd).event
  interest : ∀ fd, ev.ctx.interest fd = interestOf (ev.events fd).event fd

lemma epollNew_mirrors (maxEvents : ℕ) : Mirrors (epollNew η δ maxEvents) where
  plain _ := Or.inl rfl
  interest _ := (if_pos rfl).symm

lemma epollCtl_cases (fails : Bool) (ctx : Epoll) (op : EpollOp) (fd : ℕ) (ee : EpollEvent) :
    epollCtl fails ctx op fd ee = (ctx,-1) ∨ epollCtl fails ctx op fd ee =
      (⟨Function.update ctx.interest fd (if op = .del then none else some ee)⟩,0) ∧
        (op = .add ↔ ctx.interest fd = none) := by
  cases fails with
  | true => exact Or.inl rfl
  | false => cases op <;> cases h : ctx.interest fd <;> simp [epollCtl,h]

lemma plain_or {a b : BitVec 32} (ha : Plain a) (hb : Proper b) : Proper (a ||| b) := by
  unfold Plain Proper at *
  rcases ha with rfl | rfl | rfl | rfl <;> rcases hb with rfl | rfl | rfl <;> decide

lemma plain_diff {a b : BitVec 32} (ha : Plain a) (hb : Proper b) : Plain (a &&& ~~~b) := by
  unfold Plain Proper at *
  rcases ha with rfl | rfl | rfl | rfl <;> rcases hb with rfl | rfl | rfl <;> decide

/-- Calls with proper events keep the masks of the table plain. -/
lemma update_plain {φ : Type} {node : EventNode η δ} (h : Plain node.event) {c : Call φ η δ}
    (hc : Proper c.event) :
    Plain (c.update node).event := by
  cases c with
  | add fd event handler data kernel => exact Or.inr (plain_or h hc)
  | del fd event kernel => exact plain_diff h hc

lemma exec_plain {κ φ : Type} (backend : Backend κ φ η δ) {ev : Event κ η δ}
    (h : ∀ fd, Plain (ev.events fd).event) {c : Call φ η δ} (hc : Proper c.event) (fd : ℕ) :
    Plain ((c.exec backend ev).1.events fd).event := by
  rcases exec_events backend ev c with ⟨_,hev⟩ | ⟨_,hev⟩
  · rw [hev]
    exact h fd
  · rw [hev]
    rcases eq_or_ne fd c.fd with rfl | hfd
    · rw [Function.update_self]
      exact update_plain (h c.fd) hc
    · rw [Function.update_of_ne hfd]
      exact h fd

lemma Proper.ne {a : BitVec 32} (h : Proper a) : a ≠ nevent := by
  rcases h with rfl | rfl | rfl <;> decide

/-- `EPOLLIN` and `EPOLLOUT` stand for `READ` and `WRITE`. -/
lemma has_epollMask (event : BitVec 32) : (Has (epollMask event) epollin ↔ Has event revent) ∧
    (Has (epollMask event) epollout ↔ Has event wevent) := by
  unfold epollMask
  dsimp only
  by_cases hr : Has event revent <;> by_cases hw : Has event wevent <;> simp only [hr,hw,if_true,if_false] <;> decide

section Calls
variable {ev : Event Epoll η δ}

lemma epollContextAdd_cases (ev : Event Epoll η δ) (fails : Bool) (fd : ℕ) (event : BitVec 32) :
    epollContextAdd fails ev fd event = (ev.ctx,-1) ∨ epollContextAdd fails ev fd event =
      (⟨Function.update ev.ctx.interest fd (some ⟨epollMask (event ||| (ev.events fd).event),fd⟩)⟩,0) := by
  unfold epollContextAdd
  have hop : (if (ev.events fd).event = nevent then EpollOp.add else .mod) ≠ .del := by split <;> simp
  rcases epollCtl_cases fails ev.ctx (if (ev.events fd).event = nevent then EpollOp.add else .mod) fd
    ⟨epollMask (event ||| (ev.events fd).event),fd⟩ with h | ⟨h,_⟩
  · simp [h]
  · simp [h,hop]

lemma epollContextDel_cases (ev : Event Epoll η δ) (fails : Bool) (fd : ℕ) (event : BitVec 32) :
    epollContextDel fails ev fd event = (ev.ctx,-1) ∨ epollContextDel fails ev fd event =
      (⟨Function.update ev.ctx.interest fd (interestOf ((ev.events fd).event &&& ~~~event) fd)⟩,0) := by
  unfold epollContextDel interestOf
  dsimp only
  generalize (ev.events fd).event &&& ~~~event = rest
  by_cases hrest : rest = nevent
  · rw [if_neg (not_not.mpr hrest),if_pos hrest]
    exact (epollCtl_cases fails ev.ctx .del fd ⟨epollMask rest,fd⟩).imp id And.left
  · rw [if_pos hrest,if_neg hrest]
    exact (epollCtl_cases fails ev.ctx .mod fd ⟨epollMask rest,fd⟩).imp id And.left

/-- A call fails and changes nothing, or it changes the node of `fd` and the interest in it. -/
lemma exec_cases (ev : Event Epoll η δ) (c : Call Bool η δ) : c.exec (epoll η δ) ev = (ev,-1) ∨
    ∃ i, c.exec (epoll η δ) ev = ({ ev.setNode c.fd (c.update (ev.events c.fd)) with
        ctx := ⟨Function.update ev.ctx.interest c.fd i⟩ },0) ∧
      (Plain (ev.events c.fd).event → Proper c.event →
      i = interestOf (c.update (ev.events c.fd)).event c.fd) := by
  cases c with
  | add fd event handler data fails =>
    change eventAdd (epollContextAdd fails) ev fd event handler data = _ ∨
      ∃ i, eventAdd (epollContextAdd fails) ev fd event handler data = _ ∧ _
    by_cases hfd : ev.maxEvents ≤ fd
    · exact Or.inl (if_pos hfd)
    · rcases epollContextAdd_cases ev fails fd event with h | h
      · exact Or.inl (by simp [eventAdd,hfd,h])
      · refine Or.inr ⟨some ⟨epollMask (event ||| (ev.events fd).event),fd⟩,?_,fun hp he => ?_⟩
        · simp [eventAdd,hfd,h,Event.setNode,Call.fd,Call.update]
        · rw [BitVec.or_comm]
          exact (if_neg (plain_or hp he).ne).symm
  | del fd event fails =>
    change eventDel (epollContextDel fails) ev fd event = _ ∨
      ∃ i, eventDel (epollContextDel fails) ev fd event = _ ∧ _
    by_cases hfd : ev.maxEvents ≤ fd
    · exact Or.inl (if_pos hfd)
    · rcases epollContextDel_cases ev fails fd event with h | h
      · exact Or.inl (by simp [eventDel,hfd,h])
      · refine Or.inr ⟨_,?_,fun _ _ => rfl⟩
        simp [eventDel,hfd,h,Event.setNode,Call.fd,Call.update]

/-- The node and the interest in `fd` change together. -/
lemma Mirrors.set (h : Mirrors ev) {fd : ℕ} {node : EventNode η δ} (hplain : Plain node.event) :
    Mirrors { ev.setNode fd node with
      ctx := ⟨Function.update ev.ctx.interest fd (interestOf node.event fd)⟩ } := by
  constructor
  · intro fd'
    by_cases hfd : fd' = fd
    · simpa [Event.setNode,hfd] using hplain
    · simpa [Event.setNode,hfd] using h.plain fd'
  · intro fd'
    by_cases hfd : fd' = fd
    · simp [Event.setNode,hfd]
    · simpa [Event.setNode,hfd] using h.interest fd'

theorem Mirrors.exec (h : Mirrors ev) (c : Call Bool η δ) (hc : Proper c.event) :
    Mirrors (c.exec (epoll η δ) ev).1 := by
  rcases exec_cases ev c with heq | ⟨i,heq,hi⟩
  · rwa [heq]
  · rw [heq,hi (h.plain c.fd) hc]
    exact h.set (update_plain (h.plain c.fd) hc)

/-- A call that returns -1 has changed neither the table nor the interest set. -/
theorem exec_refused (c : Call Bool η δ) (hret : (c.exec (epoll η δ) ev).2 = -1) :
    (c.exec (epoll η δ) ev).1 = ev := by
  rcases exec_cases ev c with heq | ⟨i,heq,_⟩
  · rw [heq]
  · simp [heq] at hret

theorem Mirrors.execAll (h : Mirrors ev) {calls : List (Call Bool η δ)}
    (hcalls : ∀ c ∈ calls, Proper c.event) :
    Mirrors (execAll (epoll η δ) ev calls) := by
  apply execAll_invariant _ h hcalls
  intro ev c hev hc
  exact hev.exec c hc

end Calls

/-- After any calls, successful or not, a file descriptor is in the interest set exactly when the table
has an event for it, with the same directions; and a call that then returns -1 changes nothing. -/
theorem epoll_mirrors (maxEvents : ℕ) (calls : List (Call Bool η δ)) (hcalls : ∀ c ∈ calls, Proper c.event)
    (ev : Event Epoll η δ) (hev : execAll (epoll η δ) (epollNew η δ maxEvents) calls = ev) :
    (∀ fd < maxEvents, (ev.ctx.interest fd ≠ none ↔ (ev.events fd).event ≠ nevent) ∧
      ∀ ee, ev.ctx.interest fd = some ee →
        (Has ee.events epollin ↔ Has (ev.events fd).event revent) ∧
        (Has ee.events epollout ↔ Has (ev.events fd).event wevent)) ∧
    ∀ c : Call Bool η δ, (c.exec (epoll η δ) ev).2 = -1 → (c.exec (epoll η δ) ev).1 = ev := by
  have h : Mirrors ev := hev ▸ (epollNew_mirrors maxEvents).execAll hcalls
  refine ⟨fun fd _ => ?_,fun c hret => exec_refused c hret⟩
  rw [h.interest fd]
  unfold interestOf
  by_cases he : (ev.events fd).event = nevent
  · simp [he]
  · rw [if_neg he]
    refine ⟨by simp [he],fun ee hee => ?_⟩
    obtain rfl := Option.some.inj hee
    exact has_epollMask _

/-- Both directions of a file descriptor, a call that the kernel refuses, deletes of events that are not
registered. -/
def mixedCalls : List (Call Bool ℕ ℕ) :=
  [.add 3 revent (some 1) none false,.add 3 wevent (some 2) (some 7) false,.add 5 (revent ||| wevent) none none true,
    .del 4 wevent false,.add 6 wevent (some 1) none false,.del 6 revent false,.del 3 revent false,
    .add 9 revent none none false,.del 6 (revent ||| wevent) false]

theorem epoll_mirrors_mixed : ∃ ev, execAll (epoll ℕ ℕ) (epollNew ℕ ℕ 8) mixedCalls = ev ∧
    ev.ctx.interest 3 = some ⟨epollout,3⟩ ∧ ev.ctx.interest 6 = none ∧
    (∀ fd < 8, (ev.ctx.interest fd ≠ none ↔ (ev.events fd).event ≠ nevent) ∧
      ∀ ee, ev.ctx.interest fd = some ee →
        (Has ee.events epollin ↔ Has (ev.events fd).event revent) ∧
        (Has ee.events epollout ↔ Has (ev.events fd).event wevent)) ∧
    ∀ c : Call Bool ℕ ℕ, (c.exec (epoll ℕ ℕ) ev).2 = -1 → (c.exec (epoll ℕ ℕ) ev).1 = ev := by
  refine ⟨_,rfl,by decide +kernel,by decide +kernel,?_⟩
  apply epoll_mirrors 8 mixedCalls _ _ rfl
  simp [mixedCalls,Proper,Call.event]

end JustKit.Events
