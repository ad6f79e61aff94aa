import JustKit.Events.Turns

/-! A file descriptor that is reported both readable and writable. Its write handler is passed over when it is
the function that has just been run, but the code takes the table's word for which function that was. -/
namespace JustKit.Events
open Foundations.Transition
variable {κ φ η δ : Type}

/-! ### Directions that have been removed -/

/-- Whether the last change of the interest in a direction of `fd` was an add. -/
def lastChange (log : List (Record η δ)) (fd : ℕ) (dir : Direction) : Option Bool :=
  log.findSome? fun r =>
    match r with
    | .added fd' event _ _ => if fd' = fd ∧ Has event dir.bit then some true else none
    | .deleted fd' event => if fd' = fd ∧ Has event dir.bit then some false else none
    | .called _ _ _ _ => none

/-- A direction whose last change was a delete is not registered, and no handler has been called for it. -/
structure Current (s : Session κ φ η δ) : Prop where
  removed : ∀ fd dir, lastChange s.log fd dir = some false → ¬Has (s.ev.events fd).event dir.bit
  called : ∀ pre fd dir handler data, .called fd dir handler data::pre <:+ s.log →
    lastChange pre fd dir ≠ some false

lemma start_current (ev : Event κ η δ) (script : List (List (Call φ η δ))) : Current ⟨ev,[],script⟩ where
  removed fd dir h := by cases h
  called pre fd dir handler data h := by simp at h

lemma lastChange_record (log : List (Record η δ)) (c : Call φ η δ) (fd : ℕ) (dir : Direction) :
    lastChange (c.record::log) fd dir =
      if c.fd = fd ∧ Has c.event dir.bit then some (match c with | .add .. => true | .del .. => false)
      else lastChange log fd dir := by
  unfold lastChange
  rw [List.findSome?_cons]
  by_cases hc : c.fd = fd ∧ Has c.event dir.bit
  · rw [if_pos hc]
    cases c with
    | add fd' event handler data kernel =>
      simp only [Call.record,if_pos (show fd' = fd ∧ Has event dir.bit from hc)]
    | del fd' event kernel => simp only [Call.record,if_pos (show fd' = fd ∧ Has event dir.bit from hc)]
  · rw [if_neg hc]
    cases c with
    | add fd' event handler data kernel =>
      simp only [Call.record,if_neg (show ¬(fd' = fd ∧ Has event dir.bit) from hc)]
    | del fd' event kernel => simp only [Call.record,if_neg (show ¬(fd' = fd ∧ Has event dir.bit) from hc)]

section Steps
variable {s : Session κ φ η δ} (h : Current s)
include h

lemma Current.call (backend : Backend κ φ η δ) (c : Call φ η δ) : Current (s.call backend c) := by
  unfold Session.call
  rcases exec_events backend s.ev c with ⟨hret,hev⟩ | ⟨hret,hev⟩
  · simp only [hret]
    exact ⟨hev ▸ h.removed,h.called⟩
  · simp only [hret]
    refine ⟨fun fd dir hlast => ?_,fun pre fd dir handler data hsuffix => ?_⟩
    · change lastChange (c.record::s.log) fd dir = _ at hlast
      change ¬Has ((c.exec backend s.ev).1.events fd).event dir.bit
      rw [lastChange_record] at hlast
      rw [hev]
      by_cases hfd : c.fd = fd
      · subst hfd
        rw [Function.update_self,update_has]
        cases c with
        | add fd event handler data kernel =>
          by_cases hbit : Has event dir.bit
          · simp [Call.event,hbit] at hlast
          · rw [if_neg fun h => hbit h.2] at hlast
            exact not_or_intro (h.removed _ dir hlast) hbit
        | del fd event kernel =>
          by_cases hbit : Has event dir.bit
          · exact fun hhas => hhas.2 hbit
          · rw [if_neg fun h => hbit h.2] at hlast
            exact fun hhas => h.removed _ dir hlast hhas.1
      · rw [if_neg fun h => hfd h.1] at hlast
        rw [Function.update_of_ne (Ne.symm hfd)]
        exact h.removed fd dir hlast
    · apply h.called pre fd dir handler data
      rcases List.suffix_cons_iff.mp hsuffix with heq | hsuffix
      · cases c <;> cases heq
      · exact hsuffix

lemma Current.calls (backend : Backend κ φ η δ) (calls : List (Call φ η δ)) :
    Current (calls.foldl (Session.call backend) s) := by
  induction calls generalizing s with
  | nil => exact h
  | cons c calls ih => exact ih (h.call backend c)

lemma Current.invoke (backend : Backend κ φ η δ) {fd : ℕ} {dir : Direction}
    (hhas : Has (s.ev.events fd).event dir.bit) : Current (s.invoke backend fd dir) := by
  have hlogged (script : List (List (Call φ η δ))) : Current { s with
      log := .called fd dir ((s.ev.events fd).handler dir) (s.ev.events fd).data::s.log, script := script } := by
    refine ⟨h.removed,fun pre fd' dir' handler data hsuffix => ?_⟩
    rcases List.suffix_cons_iff.mp hsuffix with heq | hsuffix
    · cases heq
      exact fun hlast => h.removed fd dir hlast hhas
    · exact h.called pre fd' dir' handler data hsuffix
  unfold Session.invoke
  dsimp only
  split
  · exact hlogged s.script
  · exact (hlogged _).calls backend _

end Steps

section Epoll
variable {s : Session Epoll Bool η δ}

lemma Current.afterRead (h : Current s) (e : EpollEvent) : Current (epollAfterRead s e) := by
  unfold epollAfterRead
  split
  · rename_i hfired
    exact h.invoke (epoll η δ) (of_decide_eq_true hfired).2
  · exact h

variable [DecidableEq η]

lemma Current.serve (h : Current s) (e : EpollEvent) : Current (epollServe s e) := by
  rw [epollServe_eq]
  split
  · rename_i hw
    exact (h.afterRead e).invoke (epoll η δ) hw.1.2
  · exact h.afterRead e

lemma Current.batch (h : Current s) (batch : List EpollEvent) : Current (batch.foldl epollServe s) := by
  induction batch generalizing s with
  | nil => exact h
  | cons e batch ih => exact ih (h.serve e)

/-! ### Both directions -/

/-- The function that the turn has just run for reading. -/
def justRun (s : Session Epoll Bool η δ) (e : EpollEvent) : Option (Option η) :=
  if epollFired s e then some (s.ev.events e.fd).revHandler else none

/-- A turn with both bits comes to the write direction, which is registered: the write handler is called unless
it is the function that has just been run. -/
def Coalesces (s : Session Epoll Bool η δ) (e : EpollEvent) : Prop :=
  let after := epollAfterRead s e
  let node := after.ev.events e.fd
  Has e.events epollin → Has e.events epollout → Has node.event wevent →
    (.called e.fd .write node.wevHandler node.data::after.log <:+ (epollServe s e).log ↔
      justRun s e ≠ some node.wevHandler)

/-- The calls of the read handler do not make the table disagree with what has been run: the write handler is
the function that was the read handler before them exactly if it is the one that is now. -/
def HandlerKept (s : Session Epoll Bool η δ) (e : EpollEvent) : Prop :=
  let node := (execAll (epoll η δ) s.ev (s.script.headD [])).events e.fd
  Has e.events epollin → Has e.events epollout → Has (s.ev.events e.fd).event revent →
    Has node.event wevent → (node.revHandler = node.wevHandler ↔ (s.ev.events e.fd).revHandler =
    node.wevHandler)

/-- The write handler is called by the comparison that the code makes. -/
lemma write_called_iff {e : EpollEvent} (hout : Has e.events epollout)
    (hreg : Has ((epollAfterRead s e).ev.events e.fd).event wevent) :
    .called e.fd .write ((epollAfterRead s e).ev.events e.fd).wevHandler ((epollAfterRead s e).ev.events e.fd).data::
        (epollAfterRead s e).log <:+ (epollServe s e).log ↔
      ¬epollFired s e ∨
        ((epollAfterRead s e).ev.events e.fd).revHandler ≠ ((epollAfterRead s e).ev.events e.fd).wevHandler := by
  rw [epollServe_eq]
  split
  · rename_i hw
    exact iff_of_true (invoke_log (epoll η δ) (epollAfterRead s e) e.fd .write) hw.2
  · rename_i hw
    refine iff_of_false (fun hlog => ?_) fun hc => hw ⟨⟨hout,hreg⟩,hc⟩
    have := hlog.length_le
    simp at this

lemma coalesces_iff (s : Session Epoll Bool η δ) (e : EpollEvent) : Coalesces s e ↔ HandlerKept s e := by
  unfold Coalesces HandlerKept
  dsimp only
  by_cases hfired : epollFired s e = true
  · have hafter : epollAfterRead s e = s.invoke (epoll η δ) e.fd .read := if_pos hfired
    have hrun : justRun s e = some (s.ev.events e.fd).revHandler := if_pos hfired
    have hev : (epollAfterRead s e).ev = execAll (epoll η δ) s.ev (s.script.headD []) := by rw [hafter,invoke_ev]
    have hread := (of_decide_eq_true hfired).2
    rw [← hev]
    refine forall_congr' fun _ => forall_congr' fun hout => ?_
    rw [forall_prop_of_true hread]
    refine forall_congr' fun hreg => ?_
    rw [write_called_iff hout hreg,hrun]
    simp only [hfired,not_true,false_or,ne_eq,Option.some_inj]
    exact not_iff_not
  · have hrun : justRun s e = none := if_neg hfired
    refine iff_of_true (fun _ hout hreg => ?_) fun hin _ hread => ?_
    · rw [write_called_iff hout hreg,hrun]
      exact iff_of_true (Or.inl hfired) (Option.some_ne_none _).symm
    · exact absurd (decide_eq_true ⟨hin,hread⟩) hfired

/-- In a batch, write handlers are called as they should exactly if no read handler makes the table disagree with
what has been run; and a direction that has been removed in the batch gets no call until it is added again. -/
theorem epoll_coalesces_iff (ev : Event Epoll η δ) (script : List (List (Call Bool η δ)))
    (batch : List EpollEvent) : (Each epollServe Coalesces ⟨ev,[],script⟩ batch ∧
      ∀ pre fd dir handler data, .called fd dir handler data::pre <:+ (batch.foldl epollServe
      ⟨ev,[],script⟩).log →
        lastChange pre fd dir ≠ some false) ↔
      Each epollServe HandlerKept ⟨ev,[],script⟩ batch := by
  have hiff : Each epollServe Coalesces ⟨ev,[],script⟩ batch ↔ Each epollServe HandlerKept
      ⟨ev,[],script⟩ batch :=
    each_iff (P := fun _ => True) (fun _ _ _ _ _ => trivial) (fun s _ e _ => coalesces_iff s e) trivial
  rw [hiff]
  exact and_iff_left ((start_current ev script).batch batch).called

end Epoll

/-- File descriptor 0 has handler 1 for reading and 2 for writing; 1 is going to register 2 for reading. -/
def replacing : Session Epoll Bool ℕ ℕ :=
  ⟨execAll (epoll ℕ ℕ) (epollNew ℕ ℕ 8) [.add 0 revent (some 1) none false,
    .add 0 wevent (some 2) none false],[],[[.add 0 revent (some 2) none false]]⟩

/-- Handler 2 has not been run, and is passed over. -/
theorem replaced_handler_skipped : ¬Each epollServe Coalesces replacing [⟨epollin ||| epollout,0⟩] := by
  rw [each_cons]
  intro h
  have hone := h.1
  unfold Coalesces at hone
  revert hone
  decide +kernel

end JustKit.Events
