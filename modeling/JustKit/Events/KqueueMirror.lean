import JustKit.Events.Kqueue
import JustKit.Foundations.Transition

/-! The filters of the kqueue backend beside the table. A call for both directions is two changes of the kernel,
and only one of the table. -/
namespace JustKit.Events
open Foundations.Transition
variable {η δ : Type}

/-! ### The changes of a call -/

/-- The kernel after a change that succeeds. -/
def Kqueue.set (ctx : Kqueue) (fd : ℕ) (dir : Direction) (b : Bool) : Kqueue :=
  ⟨Function.update ctx.filters fd (Function.update (ctx.filters fd) dir b)⟩

lemma set_filters (ctx : Kqueue) (fd fd' : ℕ) (dir dir' : Direction) (b : Bool) :
    (ctx.set fd dir b).filters fd' dir' = if fd' = fd ∧ dir' = dir then b else ctx.filters fd' dir' := by
  unfold Kqueue.set
  by_cases hfd : fd' = fd
  · subst hfd
    by_cases hdir : dir' = dir
    · simp [hdir]
    · simp [hdir]
  · simp [hfd]

lemma set_self {ctx : Kqueue} {fd : ℕ} {dir : Direction} {b : Bool} (h : ctx.filters fd dir = b) :
    ctx.set fd dir b = ctx := by
  unfold Kqueue.set
  rw [← h,Function.update_eq_self,Function.update_eq_self]

/-- A change of this direction fails. -/
def Refused (flag : KeventFlag) (fails : Direction → Bool) (ctx : Kqueue) (fd : ℕ) (dir : Direction) : Prop :=
  fails dir = true ∨ flag = .delete ∧ ctx.filters fd dir = false

instance refusedDecidable (flag : KeventFlag) (fails : Direction → Bool) (ctx : Kqueue) (fd : ℕ)
    (dir : Direction) :
    Decidable (Refused flag fails ctx fd dir) := inferInstanceAs (Decidable (_ ∨ _ ∧ _))

section Changes
variable (flag : KeventFlag) (fails : Direction → Bool) (ctx : Kqueue) (fd : ℕ)

lemma keventChange_eq (dir : Direction) : keventChange (fails dir) ctx fd dir flag =
    if Refused flag fails ctx fd dir then (ctx,-1) else (ctx.set fd dir (flag = .add),0) := by
  unfold keventChange Refused
  by_cases hfails : fails dir = true
  · simp [hfails]
  · cases flag with
    | add => simp [hfails,Kqueue.set]
    | delete => by_cases hfilter : ctx.filters fd dir = true <;> simp [hfails,hfilter,Kqueue.set]

/-- A call for one direction. -/
lemma kqueueChange_bit (dir : Direction) : kqueueChange flag fails ctx fd dir.bit =
    if Refused flag fails ctx fd dir then (ctx,-1) else (ctx.set fd dir (flag = .add),0) := by
  unfold kqueueChange
  cases dir with
  | read =>
    have hread : Has revent revent := by decide
    have hwrite : ¬Has revent wevent := by decide
    by_cases hr : Refused flag fails ctx fd .read <;> simp [Direction.bit,hread,hwrite,keventChange_eq,hr]
  | write =>
    have hread : ¬Has wevent revent := by decide
    have hwrite : Has wevent wevent := by decide
    by_cases hw : Refused flag fails ctx fd .write <;> simp [Direction.bit,hread,hwrite,keventChange_eq,hw]

lemma refused_set (b : Bool) :
    Refused flag fails (ctx.set fd .read b) fd .write ↔ Refused flag fails ctx fd .write := by
  unfold Refused
  rw [set_filters,if_neg fun h => by cases h.2]

/-- The change of the first direction stays when that of the second fails. -/
lemma kqueueChange_both : kqueueChange flag fails ctx fd (revent ||| wevent) =
    if Refused flag fails ctx fd .read then (ctx,-1)
    else if Refused flag fails ctx fd .write then (ctx.set fd .read (flag = .add),-1)
    else ((ctx.set fd .read (flag = .add)).set fd .write (flag = .add),0) := by
  have hread : Has (revent ||| wevent) revent := by decide
  have hwrite : Has (revent ||| wevent) wevent := by decide
  unfold kqueueChange
  simp only [hread,hwrite,if_true,keventChange_eq]
  by_cases hr : Refused flag fails ctx fd .read
  · simp [hr]
  · by_cases hw : Refused flag fails ctx fd .write
    · simp [hr,hw,refused_set]
    · simp [hr,hw,refused_set]

lemma has_bit (dir dir' : Direction) : Has dir.bit dir'.bit ↔ dir' = dir := by cases dir <;> cases dir' <;> decide

/-- The only change succeeds or changes nothing. -/
lemma kqueueChange_bit_cases (dir : Direction) :
    (∃ ctx', kqueueChange flag fails ctx fd dir.bit = (ctx',0) ∧ ∀ fd' dir', ctx'.filters fd' dir' =
      if fd' = fd ∧ Has dir.bit dir'.bit then decide (flag = .add) else ctx.filters fd' dir') ∨
    kqueueChange flag fails ctx fd dir.bit = (ctx,-1) := by
  rw [kqueueChange_bit]
  by_cases hr : Refused flag fails ctx fd dir
  · exact Or.inr (if_pos hr)
  · refine Or.inl ⟨_,if_neg hr,fun fd' dir' => ?_⟩
    rw [set_filters]
    simp only [has_bit]

/-- All changes succeed, nothing changes, or the first of two changes succeeds. -/
lemma kqueueChange_cases {event : BitVec 32} (he : Proper event) :
    (∃ ctx', kqueueChange flag fails ctx fd event = (ctx',0) ∧ ∀ fd' dir, ctx'.filters fd' dir =
      if fd' = fd ∧ Has event dir.bit then decide (flag = .add) else ctx.filters fd' dir) ∨
    kqueueChange flag fails ctx fd event = (ctx,-1) ∨
    (event = revent ||| wevent ∧ ¬Refused flag fails ctx fd .read ∧ Refused flag fails ctx fd .write ∧
      kqueueChange flag fails ctx fd event = (ctx.set fd .read (flag = .add),-1)) := by
  rcases he with rfl | rfl | rfl
  · exact (kqueueChange_bit_cases flag fails ctx fd .read).imp_right Or.inl
  · exact (kqueueChange_bit_cases flag fails ctx fd .write).imp_right Or.inl
  · rw [kqueueChange_both]
    split
    · exact Or.inr (Or.inl rfl)
    · rename_i hr
      split
      · rename_i hw
        exact Or.inr (Or.inr ⟨rfl,hr,hw,rfl⟩)
      · refine Or.inl ⟨_,rfl,fun fd' dir => ?_⟩
        rw [set_filters,set_filters]
        cases dir <;> simp [Direction.bit,show Has (revent ||| wevent) revent by decide,
          show Has (revent ||| wevent) wevent by decide]

end Changes

/-! ### Calls and the table -/

/-- The filters below `maxEvents` are those of the table. -/
def InStep (ev : Event Kqueue η δ) : Prop :=
  ∀ fd < ev.maxEvents, ∀ dir : Direction, ev.ctx.filters fd dir = true ↔ Has (ev.events fd).event dir.bit

/-- A call for both directions of which the kernel makes the first change and not the second. An add of a
direction that is there changes nothing, and so is not half of a change. -/
def Halved (ev : Event Kqueue η δ) (c : Call (Direction → Bool) η δ) : Prop :=
  c.fd < ev.maxEvents ∧ c.event = revent ||| wevent ∧
    match c with
    | .add fd _ _ _ fails => ¬Has (ev.events fd).event revent ∧ fails .read = false ∧ fails .write = true
    | .del fd _ fails =>
      Has (ev.events fd).event revent ∧ fails .read = false ∧
        (fails .write = true ∨ ¬Has (ev.events fd).event wevent)

def Call.flag : Call (Direction → Bool) η δ → KeventFlag
  | .add _ _ _ _ _ => .add
  | .del _ _ _ => .delete

def Call.kernel : Call (Direction → Bool) η δ → Direction → Bool
  | .add _ _ _ _ fails => fails
  | .del _ _ fails => fails

section Exec
variable {ev : Event Kqueue η δ} {c : Call (Direction → Bool) η δ}

lemma exec_failed (hfd : c.fd < ev.maxEvents) {ctx : Kqueue}
    (h : kqueueChange c.flag c.kernel ev.ctx c.fd c.event = (ctx,-1)) :
    c.exec (kqueue η δ) ev = ({ ev with ctx := ctx },-1) := by
  have hin := not_le.mpr hfd
  cases c with
  | add fd event handler data fails =>
    change eventAdd (kqueueContextAdd fails) ev fd event handler data = _
    have hctx : kqueueContextAdd fails ev fd event = (ctx,-1) := h
    simp [eventAdd,show ¬ev.maxEvents ≤ fd from hin,hctx]
  | del fd event fails =>
    change eventDel (kqueueContextDel fails) ev fd event = _
    have hctx : kqueueContextDel fails ev fd event = (ctx,-1) := h
    simp [eventDel,show ¬ev.maxEvents ≤ fd from hin,hctx]

lemma exec_done (hfd : c.fd < ev.maxEvents) {ctx : Kqueue}
    (h : kqueueChange c.flag c.kernel ev.ctx c.fd c.event = (ctx,0)) :
    c.exec (kqueue η δ) ev = ({ ev.setNode c.fd (c.update (ev.events c.fd)) with ctx := ctx },0) := by
  have hin := not_le.mpr hfd
  cases c with
  | add fd event handler data fails =>
    change eventAdd (kqueueContextAdd fails) ev fd event handler data = _
    have hctx : kqueueContextAdd fails ev fd event = (ctx,0) := h
    simp [eventAdd,show ¬ev.maxEvents ≤ fd from hin,hctx,Event.setNode,Call.fd,Call.update]
  | del fd event fails =>
    change eventDel (kqueueContextDel fails) ev fd event = _
    have hctx : kqueueContextDel fails ev fd event = (ctx,0) := h
    simp [eventDel,show ¬ev.maxEvents ≤ fd from hin,hctx,Event.setNode,Call.fd,Call.update]

/-- What an add or a delete makes of a filter in step with the table. -/
lemma InStep.filter_iff (h : InStep ev) (hfd : c.fd < ev.maxEvents) (dir : Direction) :
    (if Has c.event dir.bit then decide (c.flag = .add) else ev.ctx.filters c.fd dir) = true ↔
      Has (c.update (ev.events c.fd)).event dir.bit := by
  rw [update_has]
  have hold := h c.fd hfd dir
  cases c with
  | add fd event handler data fails =>
    by_cases hbit : Has event dir.bit
    · simp [Call.event,Call.flag,hbit]
    · simpa [Call.event,hbit] using hold
  | del fd event fails =>
    by_cases hbit : Has event dir.bit
    · simp [Call.event,Call.flag,hbit]
    · simpa [Call.event,hbit] using hold

/-- A change that stops half way has changed nothing, unless the call is halved. -/
lemma InStep.half_same (h : InStep ev) (hfd : c.fd < ev.maxEvents) (he : c.event = revent ||| wevent)
    (hr : ¬Refused c.flag c.kernel ev.ctx c.fd .read) (hw : Refused c.flag c.kernel ev.ctx c.fd .write)
    (hwhole : ¬Halved ev c) : ev.ctx.set c.fd .read (c.flag = .add) = ev.ctx := by
  have hread := h c.fd hfd .read
  have hwrite := h c.fd hfd .write
  cases c with
  | add fd event handler data fails =>
    apply set_self
    have hok : fails .read = false := Bool.eq_false_iff.mpr fun hf => hr (Or.inl hf)
    have hno : fails .write = true := hw.resolve_right fun hd => by cases hd.1
    by_contra hset
    exact hwhole ⟨hfd,he,fun hhas => hset (hread.mpr hhas),hok,hno⟩
  | del fd event fails =>
    exfalso
    have hok : fails .read = false := Bool.eq_false_iff.mpr fun hf => hr (Or.inl hf)
    have hset : ev.ctx.filters fd .read = true := Bool.not_eq_false _ ▸ fun hf => hr (Or.inr ⟨rfl,hf⟩)
    refine hwhole ⟨hfd,he,hread.mp hset,hok,hw.imp_right fun hd hhas => ?_⟩
    rw [hwrite.mpr hhas] at hd
    cases hd.2

theorem InStep.exec (h : InStep ev) (hc : Proper c.event) (hwhole : ¬Halved ev c) :
    InStep (c.exec (kqueue η δ) ev).1 ∧
      ((c.exec (kqueue η δ) ev).2 = -1 → (c.exec (kqueue η δ) ev).1 = ev) := by
  by_cases hfd : c.fd < ev.maxEvents
  · rcases kqueueChange_cases c.flag c.kernel ev.ctx c.fd hc with ⟨ctx,hctx,hfilters⟩ | hctx |
      ⟨he,hr,hw,hctx⟩
    · rw [exec_done hfd hctx]
      refine ⟨fun fd hlt dir => ?_,fun hret => by cases hret⟩
      change ctx.filters fd dir = true ↔ Has (Function.update ev.events c.fd _ fd).event dir.bit
      rw [hfilters]
      by_cases heq : fd = c.fd
      · subst heq
        rw [Function.update_self,← h.filter_iff hfd dir]
        simp
      · rw [Function.update_of_ne heq,if_neg fun h => heq h.1]
        exact h fd hlt dir
    · rw [exec_failed hfd hctx]
      exact ⟨h,fun _ => rfl⟩
    · rw [h.half_same hfd he hr hw hwhole] at hctx
      rw [exec_failed hfd hctx]
      exact ⟨h,fun _ => rfl⟩
  · rw [exec_outside _ (not_lt.mp hfd)]
    exact ⟨h,fun _ => rfl⟩

/-- A halved call returns -1 and has changed a filter. -/
lemma Halved.exec (h : InStep ev) (hhalf : Halved ev c) :
    (c.exec (kqueue η δ) ev).2 = -1 ∧ (c.exec (kqueue η δ) ev).1 ≠ ev := by
  obtain ⟨hfd,he,hcall⟩ := hhalf
  have hread := h c.fd hfd .read
  have hwrite := h c.fd hfd .write
  have hparts : ¬Refused c.flag c.kernel ev.ctx c.fd .read ∧ Refused c.flag c.kernel ev.ctx c.fd .write ∧
      ev.ctx.filters c.fd .read ≠ decide (c.flag = .add) := by
    cases c with
    | add fd event handler data fails =>
      obtain ⟨hno,hok,hfails⟩ := hcall
      refine ⟨?_,Or.inl hfails,fun hset => hno (hread.mp hset)⟩
      rintro (hf | ⟨hd,_⟩)
      · exact Bool.false_ne_true (hok.symm.trans hf)
      · cases hd
    | del fd event fails =>
      obtain ⟨hhas,hok,hfails⟩ := hcall
      have hset := hread.mpr hhas
      refine ⟨?_,hfails.imp_right fun hno => ⟨rfl,?_⟩,fun hclear => ?_⟩
      · rintro (hf | ⟨_,hf⟩)
        · exact Bool.false_ne_true (hok.symm.trans hf)
        · exact Bool.false_ne_true (hf.symm.trans hset)
      · exact Bool.eq_false_iff.mpr fun hf => hno (hwrite.mp hf)
      · exact Bool.false_ne_true (hclear.symm.trans hset)
  obtain ⟨hr,hw,hne⟩ := hparts
  have hctx : kqueueChange c.flag c.kernel ev.ctx c.fd c.event = (ev.ctx.set c.fd .read (c.flag = .add),-1) := by
    rw [he,kqueueChange_both,if_neg hr,if_pos hw]
  rw [exec_failed hfd hctx]
  refine ⟨rfl,fun hsame => hne ?_⟩
  have hfilter := congrArg (fun ev : Event Kqueue η δ => ev.ctx.filters c.fd .read) hsame
  change (ev.ctx.set c.fd .read _).filters c.fd .read = _ at hfilter
  rw [set_filters,if_pos ⟨rfl,rfl⟩] at hfilter
  exact hfilter.symm

end Exec

lemma kqueueNew_inStep (maxEvents : ℕ) : InStep (kqueueNew η δ maxEvents) := by
  intro fd _ dir
  refine iff_of_false Bool.false_ne_true fun h => h ?_
  exact BitVec.zero_and

/-- A call that leaves the filters in step, and everything as it was if it returns -1. -/
def Atomic (ev : Event Kqueue η δ) (c : Call (Direction → Bool) η δ) : Prop :=
  InStep (c.exec (kqueue η δ) ev).1 ∧ ((c.exec (kqueue η δ) ev).2 = -1 → (c.exec (kqueue η δ) ev).1 = ev)

lemma atomic_iff {ev : Event Kqueue η δ} (h : InStep ev) {c : Call (Direction → Bool) η δ}
    (hc : Proper c.event) :
    Atomic ev c ↔ ¬Halved ev c := by
  constructor
  · intro hatomic hhalf
    have hexec := hhalf.exec h
    exact hexec.2 (hatomic.2 hexec.1)
  · exact h.exec hc

/-- In a run of calls all of them are atomic exactly if none is halved in the state that it meets. -/
theorem kqueue_atomic_iff {maxEvents : ℕ} {calls : List (Call (Direction → Bool) η δ)}
    (hcalls : ∀ c ∈ calls, Proper c.event) :
    Each (kqueue η δ).step Atomic (kqueueNew η δ maxEvents) calls ↔
      Each (kqueue η δ).step (fun ev c => ¬Halved ev c) (kqueueNew η δ maxEvents) calls :=
  each_iff (fun _ _ _ _ hatomic => hatomic.1) (fun _ h c hc => atomic_iff h (hcalls c hc))
    (kqueueNew_inStep maxEvents)

/-- The kernel refuses some changes, but never the second of two. -/
def wholeCalls : List (Call (Direction → Bool) ℕ ℕ) :=
  [.add 3 (revent ||| wevent) (some 1) none fun _ => false,.add 4 (revent ||| wevent) (some 1) none fun _ => true,
    .del 4 revent fun _ => false,.del 3 (revent ||| wevent) fun _ => false]

theorem kqueue_atomic_whole :
    Each (kqueue ℕ ℕ).step Atomic (kqueueNew ℕ ℕ 8) wholeCalls := by
  refine (kqueue_atomic_iff ?_).mpr ?_
  · simp [wholeCalls,Proper,Call.event]
  · simp only [wholeCalls,each_cons]
    refine ⟨?_,?_,?_,?_,each_nil⟩ <;> rintro ⟨_,he,hcall⟩ <;> revert he hcall <;> decide +kernel

/-- Only `READ` is registered for file descriptor 3. A delete of both directions takes the filter away and fails. -/
theorem delete_both_halved : ¬Each (kqueue ℕ ℕ).step Atomic (kqueueNew ℕ ℕ 8)
    [.add 3 revent (some 1) none fun _ => false,.del 3 (revent ||| wevent) fun _ => false] := by
  intro h
  simp only [each_cons] at h
  have hread := h.2.1.1 3 (by decide) .read
  revert hread
  decide +kernel

end JustKit.Events
