import JustKit.Events.Model

/-! The table in use: calls from outside and from inside handlers, and the calls of handlers. A log keeps
what has happened, newest first. -/
namespace JustKit.Events

inductive Direction where
  | read
  | write
  deriving Repr, DecidableEq

def Direction.bit : Direction → BitVec 32
  | .read => revent
  | .write => wevent

/-- What has happened: a successful call of `jk_event_add` or `jk_event_del`, or a call of a handler. -/
inductive Record (η δ : Type) where
  | added (fd : ℕ) (event : BitVec 32) (handler : Option η) (data : Option δ)
  | deleted (fd : ℕ) (event : BitVec 32)
  | called (fd : ℕ) (dir : Direction) (handler : Option η) (data : Option δ)
  deriving Repr, DecidableEq

variable {κ φ η δ : Type}

def EventNode.handler (node : EventNode η δ) : Direction → Option η
  | .read => node.revHandler
  | .write => node.wevHandler

def Call.record : Call φ η δ → Record η δ
  | .add fd event handler data _ => .added fd event handler data
  | .del fd event _ => .deleted fd event

/-- `script` are the calls that the next handlers are going to make. -/
structure Session (κ φ η δ : Type) where
  ev : Event κ η δ
  log : List (Record η δ)
  script : List (List (Call φ η δ))

def Session.call (backend : Backend κ φ η δ) (s : Session κ φ η δ)
    (c : Call φ η δ) : Session κ φ η δ :=
  match c.exec backend s.ev with
  | (ev,ret) => { s with ev := ev, log := if ret = 0 then c.record::s.log else s.log }

/-- The handler of a direction is called, and makes its calls. -/
def Session.invoke (backend : Backend κ φ η δ) (s : Session κ φ η δ) (fd : ℕ)
    (dir : Direction) : Session κ φ η δ :=
  let node := s.ev.events fd
  let s : Session κ φ η δ := { s with log := .called fd dir (node.handler dir) node.data::s.log }
  match s.script with
  | [] => s
  | calls::script => calls.foldl (Session.call backend) { s with script := script }

/-- The handler and the data of the last add for `fd` with such an event. -/
def lastAdd (log : List (Record η δ)) (fd : ℕ) (p : BitVec 32 → Bool) : Option (Option η × Option δ) :=
  log.findSome? fun r =>
    match r with
    | .added fd' event handler data => if fd' = fd ∧ p event then some (handler,data) else none
    | _ => none

/-- The last add for a direction of `fd`. -/
def lastFor (log : List (Record η δ)) (fd : ℕ) (dir : Direction) : Option (Option η × Option δ) :=
  lastAdd log fd fun event => Has event dir.bit

/-- The last add for `fd`, whatever its event. -/
def lastAny (log : List (Record η δ)) (fd : ℕ) : Option (Option η × Option δ) := lastAdd log fd fun _ => true

/-- The handler comes from the last add for the direction, the data from the last add. -/
def Paired (pre : List (Record η δ)) (fd : ℕ) (dir : Direction) (handler : Option η)
    (data : Option δ) : Prop :=
  (∃ data', lastFor pre fd dir = some (handler,data')) ∧ ∃ handler', lastAny pre fd = some (handler',data)

/-- The table is what the log says, and so was every call of a handler. -/
structure Faithful (s : Session κ φ η δ) : Prop where
  handler : ∀ fd dir, (s.ev.events fd).handler dir = (lastFor s.log fd dir).bind Prod.fst
  data : ∀ fd, (s.ev.events fd).data = (lastAny s.log fd).bind Prod.snd
  registered : ∀ fd dir, Has (s.ev.events fd).event dir.bit → lastFor s.log fd dir ≠ none
  called : ∀ pre fd dir handler data, .called fd dir handler data::pre <:+ s.log → Paired pre fd dir handler data

lemma start_faithful (maxEvents : ℕ) (ctx : κ) (script : List (List (Call φ η δ))) :
    Faithful (⟨eventNew η δ maxEvents ctx,[],script⟩ : Session κ φ η δ) where
  handler fd dir := by cases dir <;> rfl
  data fd := rfl
  registered fd dir h := absurd (BitVec.zero_and) h
  called pre fd dir handler data h := by simp at h

/-! ### The calls of a handler -/

section Handlers
variable (backend : Backend κ φ η δ) (s : Session κ φ η δ)

lemma call_log (c : Call φ η δ) : s.log <:+ (s.call backend c).log := by
  unfold Session.call
  dsimp only
  split
  · exact List.suffix_cons _ _
  · exact List.suffix_refl _

/-- Calls change the table as they do outside of a session, and leave the script. -/
lemma calls_eq (calls : List (Call φ η δ)) :
    (calls.foldl (Session.call backend) s).ev = execAll backend s.ev calls ∧
    (calls.foldl (Session.call backend) s).script = s.script := by
  induction calls generalizing s with
  | nil => exact ⟨rfl,rfl⟩
  | cons c calls ih => exact ih (s.call backend c)

lemma calls_log (calls : List (Call φ η δ)) : s.log <:+ (calls.foldl (Session.call backend) s).log := by
  induction calls generalizing s with
  | nil => exact List.suffix_refl _
  | cons c calls ih => exact (call_log backend s c).trans (ih _)

lemma invoke_ev (fd : ℕ) (dir : Direction) :
    (s.invoke backend fd dir).ev = execAll backend s.ev (s.script.headD []) := by
  unfold Session.invoke
  dsimp only
  split
  · rename_i hscript
    rw [hscript]
    rfl
  · rename_i calls script hscript
    rw [hscript]
    exact (calls_eq backend _ calls).1

lemma invoke_script (fd : ℕ) (dir : Direction) : (s.invoke backend fd dir).script = s.script.tail := by
  unfold Session.invoke
  dsimp only
  split
  · rename_i hscript
    rw [hscript]
    rfl
  · rename_i calls script hscript
    rw [hscript]
    exact (calls_eq backend _ calls).2

lemma invoke_log (fd : ℕ) (dir : Direction) :
    .called fd dir ((s.ev.events fd).handler dir) (s.ev.events fd).data::s.log
      <:+ (s.invoke backend fd dir).log := by
  unfold Session.invoke
  dsimp only
  split
  · exact List.suffix_refl _
  · rename_i calls script _
    exact calls_log backend
      ⟨s.ev,.called fd dir ((s.ev.events fd).handler dir) (s.ev.events fd).data::s.log,script⟩ calls

end Handlers

lemma Direction.bit_eq (dir : Direction) : ∃ i < 32, dir.bit = BitVec.twoPow 32 i := by
  cases dir with
  | read => exact ⟨0,by decide,rfl⟩
  | write => exact ⟨1,by decide,rfl⟩

lemma Direction.has_diff (dir : Direction) (a b : BitVec 32) : Has (a &&& ~~~b) dir.bit ↔ Has a dir.bit ∧
    ¬Has b dir.bit := by
  obtain ⟨i,hi,hbit⟩ := dir.bit_eq
  rw [hbit]
  exact Events.has_diff a b hi

/-- What a call makes of a direction of its node. -/
lemma update_has (node : EventNode η δ) (c : Call φ η δ) (dir : Direction) :
    Has (c.update node).event dir.bit ↔
      match c with
      | .add _ event _ _ _ => Has node.event dir.bit ∨ Has event dir.bit
      | .del _ event _ => Has node.event dir.bit ∧ ¬Has event dir.bit := by
  cases c with
  | add fd event handler data kernel => exact has_or _ _ _
  | del fd event kernel => exact dir.has_diff _ _

/-! ### Records -/

lemma lastAdd_added (log : List (Record η δ)) (fd fd' : ℕ) (event : BitVec 32) (handler : Option η)
    (data : Option δ) (p : BitVec 32 → Bool) : lastAdd (.added fd' event handler data::log) fd p =
      if fd' = fd ∧ p event then some (handler,data) else lastAdd log fd p := by
  unfold lastAdd
  rw [List.findSome?_cons]
  split <;> rename_i h <;> split at h <;> simp_all

lemma lastFor_added (log : List (Record η δ)) (fd fd' : ℕ) (event : BitVec 32) (handler : Option η)
    (data : Option δ) (dir : Direction) : lastFor (.added fd' event handler data::log) fd dir =
      if fd' = fd ∧ Has event dir.bit then some (handler,data) else lastFor log fd dir := by
  unfold lastFor
  rw [lastAdd_added]
  simp only [decide_eq_true_eq]

lemma lastAny_added (log : List (Record η δ)) (fd fd' : ℕ) (event : BitVec 32) (handler : Option η)
    (data : Option δ) :
    lastAny (.added fd' event handler data::log) fd = if fd' = fd then some (handler,data) else lastAny log fd := by
  unfold lastAny
  rw [lastAdd_added]
  simp only [and_true]

lemma lastAny_of_lastFor {log : List (Record η δ)} {fd : ℕ} {dir : Direction} (h : lastFor log fd dir ≠ none) :
    lastAny log fd ≠ none := by
  induction log with
  | nil => exact h
  | cons r log ih =>
    cases r with
    | added fd' event handler data =>
      rw [lastFor_added] at h
      rw [lastAny_added]
      by_cases hfd : fd' = fd
      · simp [hfd]
      · simp only [hfd,false_and,if_false] at h ⊢
        exact ih h
    | deleted fd' event => exact ih h
    | called fd' dir' handler data => exact ih h

lemma register_handler (node : EventNode η δ) (event : BitVec 32) (handler : Option η) (data : Option δ)
    (dir : Direction) :
    (node.register event handler data).handler dir = if Has event dir.bit then handler else node.handler dir := by
  cases dir <;> rfl

section Steps
variable {s : Session κ φ η δ} (h : Faithful s)
include h

/-- A successful add becomes the last one for its file descriptor and its directions. -/
lemma Faithful.added {ev : Event κ η δ} {fd : ℕ} {event : BitVec 32} {handler : Option η} {data : Option δ}
    (hev : ev.events = Function.update s.ev.events fd ((s.ev.events fd).register event handler data)) :
    Faithful { s with ev := ev, log := .added fd event handler data::s.log } := by
  constructor
  · intro fd' dir
    change (ev.events fd').handler dir = (lastFor _ _ _).bind Prod.fst
    rw [hev,lastFor_added]
    by_cases hfd : fd' = fd
    · subst hfd
      rw [Function.update_self,register_handler]
      by_cases hbit : Has event dir.bit
      · simp [hbit]
      · simpa [hbit] using h.handler fd' dir
    · simpa [hfd,Ne.symm hfd] using h.handler fd' dir
  · intro fd'
    change (ev.events fd').data = (lastAny _ _).bind Prod.snd
    rw [hev,lastAny_added]
    by_cases hfd : fd' = fd
    · simp [hfd,EventNode.register]
    · simpa [hfd,Ne.symm hfd] using h.data fd'
  · intro fd' dir hhas
    change Has (ev.events fd').event dir.bit at hhas
    rw [hev] at hhas
    rw [lastFor_added]
    by_cases hfd : fd' = fd
    · subst hfd
      rw [Function.update_self,EventNode.register,has_or] at hhas
      by_cases hbit : Has event dir.bit
      · simp [hbit]
      · simpa [hbit] using h.registered fd' dir (hhas.resolve_right hbit)
    · rw [Function.update_of_ne hfd] at hhas
      simpa [Ne.symm hfd] using h.registered fd' dir hhas
  · intro pre fd' dir handler' data' hsuffix
    apply h.called
    rcases List.suffix_cons_iff.mp hsuffix with heq | hsuffix
    · cases heq
    · exact hsuffix

/-- A delete takes events away, and leaves handlers and data. -/
lemma Faithful.deleted {ev : Event κ η δ} {fd : ℕ} {event : BitVec 32}
    (hev : ev.events =
      Function.update s.ev.events fd { s.ev.events fd with event := (s.ev.events fd).event &&& ~~~event }) :
    Faithful { s with ev := ev, log := .deleted fd event::s.log } := by
  have hsame : ∀ fd' dir, (ev.events fd').handler dir = (s.ev.events fd').handler dir ∧
      (ev.events fd').data = (s.ev.events fd').data ∧
        (Has (ev.events fd').event dir.bit → Has (s.ev.events fd').event dir.bit) := by
    intro fd' dir
    rw [hev]
    by_cases hfd : fd' = fd
    · subst hfd
      rw [Function.update_self]
      exact ⟨by cases dir <;> rfl,rfl,has_of_has_and⟩
    · rw [Function.update_of_ne hfd]
      exact ⟨rfl,rfl,id⟩
  constructor
  · intro fd' dir
    exact (hsame fd' dir).1.trans (h.handler fd' dir)
  · intro fd'
    exact (hsame fd' .read).2.1.trans (h.data fd')
  · intro fd' dir hhas
    exact h.registered fd' dir ((hsame fd' dir).2.2 hhas)
  · intro pre fd' dir handler' data' hsuffix
    apply h.called
    rcases List.suffix_cons_iff.mp hsuffix with heq | hsuffix
    · cases heq
    · exact hsuffix

theorem Faithful.call (backend : Backend κ φ η δ) (c : Call φ η δ) : Faithful (s.call backend c) := by
  unfold Session.call
  rcases exec_events backend s.ev c with ⟨hret,hev⟩ | ⟨hret,hev⟩
  · simp only [hret]
    exact ⟨hev ▸ h.handler,hev ▸ h.data,hev ▸ h.registered,h.called⟩
  · simp only [hret]
    cases c with
    | add fd event handler data kernel => exact h.added hev
    | del fd event kernel => exact h.deleted hev

theorem Faithful.calls (backend : Backend κ φ η δ) (calls : List (Call φ η δ)) :
    Faithful (calls.foldl (Session.call backend) s) := by
  induction calls generalizing s with
  | nil => exact h
  | cons c calls ih => exact ih (h.call backend c)

/-- A handler is called for a registered direction. -/
theorem Faithful.invoke (backend : Backend κ φ η δ) {fd : ℕ} {dir : Direction}
    (hhas : Has (s.ev.events fd).event dir.bit) : Faithful (s.invoke backend fd dir) := by
  have hpaired : Paired s.log fd dir ((s.ev.events fd).handler dir) (s.ev.events fd).data := by
    obtain ⟨a,ha⟩ := Option.ne_none_iff_exists'.mp (h.registered fd dir hhas)
    obtain ⟨b,hb⟩ := Option.ne_none_iff_exists'.mp (lastAny_of_lastFor (h.registered fd dir hhas))
    constructor
    · refine ⟨a.2,?_⟩
      rw [h.handler fd dir,ha]
      rfl
    · refine ⟨b.1,?_⟩
      rw [h.data fd,hb]
      rfl
  have hlogged (script : List (List (Call φ η δ))) : Faithful { s with
      log := .called fd dir ((s.ev.events fd).handler dir) (s.ev.events fd).data::s.log, script := script } := by
    refine ⟨h.handler,h.data,h.registered,fun pre fd' dir' handler' data' hsuffix => ?_⟩
    rcases List.suffix_cons_iff.mp hsuffix with heq | hsuffix
    · cases heq
      exact hpaired
    · exact h.called pre fd' dir' handler' data' hsuffix
  unfold Session.invoke
  dsimp only
  split
  · exact hlogged s.script
  · exact (hlogged _).calls backend _

end Steps

end JustKit.Events
