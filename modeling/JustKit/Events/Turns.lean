import JustKit.Events.EpollDispatch
import JustKit.Foundations.Transition

/-! The turns of `jk_event_context_process` with epoll: for which events of the kernel a handler is called, and
which handler, when the handlers change the table while the batch is served. -/
namespace JustKit.Events
open Foundations.Transition
variable {η δ : Type}

/-! ### The two directions of a turn -/

section Turn
variable [DecidableEq η] (s : Session Epoll Bool η δ) (e : EpollEvent)

/-- `rfired`: the event calls the read handler. -/
def epollFired : Bool := Has e.events epollin ∧ Has (s.ev.events e.fd).event revent

/-- The state in which the turn comes to the write direction. -/
def epollAfterRead : Session Epoll Bool η δ := if epollFired s e then s.invoke (epoll η δ) e.fd .read else s

lemma epollServe_eq : epollServe s e =
    if (Has e.events epollout ∧ Has ((epollAfterRead s e).ev.events e.fd).event wevent) ∧
      (¬epollFired s e ∨
        ((epollAfterRead s e).ev.events e.fd).revHandler ≠ ((epollAfterRead s e).ev.events e.fd).wevHandler)
    then (epollAfterRead s e).invoke (epoll η δ) e.fd .write else epollAfterRead s e :=
  (ite_and _ _ _ _).symm

lemma epollServe_log : (epollAfterRead s e).log <:+ (epollServe s e).log := by
  rw [epollServe_eq]
  split
  · exact (List.suffix_cons _ _).trans (invoke_log _ _ _ _)
  · exact List.suffix_refl _

end Turn

/-! ### Events that no handler is called for -/

/-- `EPOLLERR` and `EPOLLHUP`. -/
def epollerr : BitVec 32 := 8
def epollhup : BitVec 32 := 16

/-- What `epoll_wait` may return: bits that are in the interest set, and `EPOLLERR` and `EPOLLHUP` whether asked
for or not. -/
structure Reported (ctx : Epoll) (e : EpollEvent) : Prop where
  some_bit : e.events ≠ 0#32
  interest : ∃ ee, ctx.interest e.fd = some ee ∧ e.events &&& ~~~(ee.events ||| epollerr ||| epollhup) = 0#32

/-- From `s` to `s'` a handler has been called for a registered direction of `fd`. -/
def Served (s s' : Session Epoll Bool η δ) (fd : ℕ) : Prop :=
  ∃ dir : Direction, Has (s.ev.events fd).event dir.bit ∧
    .called fd dir ((s.ev.events fd).handler dir) (s.ev.events fd).data::s.log <:+ s'.log

/-- The handlers that are going to run leave the registrations as they are. -/
def Unchanging (s : Session Epoll Bool η δ) : Prop :=
  ∀ calls ∈ s.script, execAll (epoll η δ) s.ev calls = s.ev

lemma Reported.has {ctx : Epoll} {e : EpollEvent} (h : Reported ctx e) {i : ℕ} (hi : i < 32)
    (hother : (epollerr ||| epollhup).getLsbD i = false) (hhas : Has e.events (BitVec.twoPow 32 i)) :
    ∃ ee, ctx.interest e.fd = some ee ∧ Has ee.events (BitVec.twoPow 32 i) := by
  obtain ⟨ee,hee,hmask⟩ := h.interest
  refine ⟨ee,hee,?_⟩
  by_contra hno
  have hnone : ¬Has (ee.events ||| epollerr ||| epollhup) (BitVec.twoPow 32 i) := by
    rw [BitVec.or_assoc,has_or]
    apply not_or_intro hno
    rw [has_twoPow _ hi,hother]
    exact Bool.false_ne_true
  apply (has_diff e.events _ hi).mpr ⟨hhas,hnone⟩
  rw [hmask]
  exact BitVec.zero_and

lemma Mirrors.has_of_interest {ev : Event Epoll η δ} (h : Mirrors ev) {fd : ℕ} {ee : EpollEvent}
    (hee : ev.ctx.interest fd = some ee) : ee.events = epollMask (ev.events fd).event := by
  rw [h.interest fd] at hee
  unfold interestOf at hee
  split at hee
  · cases hee
  · exact (congrArg EpollEvent.events (Option.some.inj hee)).symm

/-- A direction that is reported is registered. -/
lemma Mirrors.registered {ev : Event Epoll η δ} (h : Mirrors ev) {e : EpollEvent} (he : Reported ev.ctx e) :
    (Has e.events epollin → Has (ev.events e.fd).event revent) ∧
      (Has e.events epollout → Has (ev.events e.fd).event wevent) := by
  constructor
  · intro hin
    obtain ⟨ee,hee,hhas⟩ := he.has (i := 0) (by decide) (by decide) hin
    rw [h.has_of_interest hee] at hhas
    exact (has_epollMask _).1.mp hhas
  · intro hout
    obtain ⟨ee,hee,hhas⟩ := he.has (i := 2) (by decide) (by decide) hout
    rw [h.has_of_interest hee] at hhas
    exact (has_epollMask _).2.mp hhas

section Serve
variable {s : Session Epoll Bool η δ} {e : EpollEvent}

lemma Unchanging.invoke (h : Unchanging s) (fd : ℕ) (dir : Direction) :
    (s.invoke (epoll η δ) fd dir).ev = s.ev ∧ Unchanging (s.invoke (epoll η δ) fd dir) := by
  have hev : (s.invoke (epoll η δ) fd dir).ev = s.ev := by
    rw [invoke_ev]
    cases hscript : s.script with
    | nil => rfl
    | cons calls script => exact h calls (hscript ▸ List.mem_cons_self)
  refine ⟨hev,fun calls hcalls => ?_⟩
  rw [invoke_script] at hcalls
  rw [hev]
  exact h calls (List.mem_of_mem_tail hcalls)

lemma Unchanging.afterRead (h : Unchanging s) (e : EpollEvent) :
    (epollAfterRead s e).ev = s.ev ∧ Unchanging (epollAfterRead s e) := by
  unfold epollAfterRead
  split
  · exact h.invoke e.fd .read
  · exact ⟨rfl,h⟩

variable [DecidableEq η]

lemma Unchanging.serve (h : Unchanging s) (e : EpollEvent) :
    (epollServe s e).ev = s.ev ∧ Unchanging (epollServe s e) := by
  obtain ⟨hev,hquiet⟩ := h.afterRead e
  rw [epollServe_eq]
  split
  · obtain ⟨hev',hquiet'⟩ := hquiet.invoke e.fd .write
    exact ⟨hev'.trans hev,hquiet'⟩
  · exact ⟨hev,hquiet⟩

/-- A turn serves an event that is reported if and only if `EPOLLIN` or `EPOLLOUT` is set. -/
lemma serve_iff (hmirrors : Mirrors s.ev) (he : Reported s.ev.ctx e) :
    Served s (epollServe s e) e.fd ↔ Has e.events epollin ∨ Has e.events epollout := by
  obtain ⟨hin,hout⟩ := hmirrors.registered he
  constructor
  · rintro ⟨dir,hreg,hlog⟩
    by_contra hnone
    push Not at hnone
    have hfired : epollFired s e = false := decide_eq_false fun h => hnone.1 h.1
    have hsame : epollServe s e = s := by
      rw [epollServe_eq,if_neg fun h => hnone.2 h.1.1]
      simp [epollAfterRead,hfired]
    rw [hsame] at hlog
    have := hlog.length_le
    simp at this
  · intro h
    by_cases hr : Has e.events epollin
    · refine ⟨.read,hin hr,?_⟩
      have hfired : epollFired s e = true := decide_eq_true ⟨hr,hin hr⟩
      have hafter : epollAfterRead s e = s.invoke (epoll η δ) e.fd .read := if_pos hfired
      apply List.IsSuffix.trans _ (epollServe_log s e)
      rw [hafter]
      exact invoke_log _ _ _ _
    · have hw := h.resolve_left hr
      refine ⟨.write,hout hw,?_⟩
      have hfired : epollFired s e = false := decide_eq_false fun h => hr h.1
      have hafter : epollAfterRead s e = s := by simp [epollAfterRead,hfired]
      rw [epollServe_eq,hafter,if_pos ⟨⟨hw,hout hw⟩,Or.inl (by simp [hfired])⟩]
      exact invoke_log _ _ _ _

end Serve

/-- With handlers that change no registrations, every event of a batch is served exactly if each of them has
`EPOLLIN` or `EPOLLOUT` set: those with `EPOLLERR` or `EPOLLHUP` alone are passed over, and come again. -/
theorem epoll_serves_iff [DecidableEq η] {maxEvents : ℕ} {calls : List (Call Bool η δ)}
    (hcalls : ∀ c ∈ calls, Proper c.event) {s : Session Epoll Bool η δ}
    (hs : s.ev = execAll (epoll η δ) (epollNew η δ maxEvents) calls) (hquiet : Unchanging s)
    {batch : List EpollEvent} (hbatch : ∀ e ∈ batch, Reported s.ev.ctx e) :
    Each epollServe (fun s e => Served s (epollServe s e) e.fd) s batch ↔
      ∀ e ∈ batch, Has e.events epollin ∨ Has e.events epollout := by
  have hmirrors : Mirrors s.ev := hs ▸ (epollNew_mirrors maxEvents).execAll hcalls
  rw [← each_const (f := epollServe) (s := s)]
  apply each_iff (P := fun s' => s'.ev = s.ev ∧ Unchanging s') _ _ ⟨rfl,hquiet⟩
  · intro s' ⟨hev,hquiet'⟩ e _ _
    obtain ⟨hev',hquiet''⟩ := hquiet'.serve e
    exact ⟨hev'.trans hev,hquiet''⟩
  · intro s' ⟨hev,_⟩ e he
    apply serve_iff
    · rwa [hev]
    · rw [hev]
      exact hbatch e he

/-- A reader of file descriptor 3 whose handler makes no calls. -/
def oneReader : Session Epoll Bool ℕ ℕ :=
  ⟨execAll (epoll ℕ ℕ) (epollNew ℕ ℕ 8) [.add 3 revent (some 1) none false],[],[]⟩

lemma oneReader_reported {events : BitVec 32} (hsome : events ≠ 0#32)
    (hmask : events &&& ~~~(epollin ||| epollerr ||| epollhup) = 0#32) : Reported oneReader.ev.ctx ⟨events,3⟩ :=
  ⟨hsome,⟨epollin,3⟩,show oneReader.ev.ctx.interest 3 = _ by decide +kernel,hmask⟩

theorem epoll_serves_reader :
    Each epollServe (fun s e => Served s (epollServe s e) e.fd) oneReader [⟨epollin ||| epollhup,3⟩] := by
  have hcalls : oneReader.ev = execAll (epoll ℕ ℕ) (epollNew ℕ ℕ 8) [.add 3 revent (some 1) none false] :=
    rfl
  refine (epoll_serves_iff ?_ hcalls ?_ ?_).mpr ?_
  · simp [Proper,Call.event]
  · intro calls hcalls
    cases hcalls
  · intro e he
    rw [List.mem_singleton.mp he]
    exact oneReader_reported (by decide) (by decide)
  · intro e he
    rw [List.mem_singleton.mp he]
    exact Or.inl (by decide)

/-- The other end hangs up, and no handler hears of it. -/
theorem hangup_unserved : Reported oneReader.ev.ctx ⟨epollhup,3⟩ ∧ Unchanging oneReader ∧
    ¬Each epollServe (fun s e => Served s (epollServe s e) e.fd) oneReader [⟨epollhup,3⟩] := by
  refine ⟨oneReader_reported (by decide) (by decide),fun calls hcalls => ?_,fun h => ?_⟩
  · cases hcalls
  · obtain ⟨dir,_,hlog⟩ := (each_cons.mp h).1
    have hnone : (epollServe oneReader ⟨epollhup,3⟩).log = [] := by decide +kernel
    rw [hnone] at hlog
    exact List.cons_ne_nil _ _ (List.suffix_nil.mp hlog)

end JustKit.Events
