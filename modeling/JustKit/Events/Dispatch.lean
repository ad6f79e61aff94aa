import JustKit.Events.Backends
import JustKit.Events.Coalescing

/-! One turn of `jk_event_context_process` is the same for all three backends. Whatever the handlers change while a
call is served, it calls the right ones: those that are registered, with what was registered last, at most once for
each direction reported, and no direction is passed over that is reported and stays registered. -/
namespace JustKit.Events
variable {κ φ η δ : Type}

/-! ### Handlers called one after the other -/

/-- From the first session to the second handlers are called, each for a direction registered then. -/
inductive Turns (backend : Backend κ φ η δ) : Session κ φ η δ → Session κ φ η δ → Prop
  | refl (s : Session κ φ η δ) : Turns backend s s
  | invoke {s s' : Session κ φ η δ} (h : Turns backend s s') {fd : ℕ} {dir : Direction}
      (hreg : Has (s'.ev.events fd).event dir.bit) : Turns backend s (s'.invoke backend fd dir)

namespace Turns
variable {backend : Backend κ φ η δ} {s s' s'' : Session κ φ η δ}

lemma trans (h : Turns backend s s') (h' : Turns backend s' s'') : Turns backend s s'' := by
  induction h' with
  | refl => exact h
  | invoke _ hreg ih => exact ih.invoke hreg

/-- What the call of a registered handler keeps. -/
theorem keeps {P : Session κ φ η δ → Prop}
    (hstep : ∀ s fd (dir : Direction), P s → Has (s.ev.events fd).event dir.bit → P (s.invoke backend fd dir))
    (h : Turns backend s s') (hs : P s) : P s' := by
  induction h with
  | refl => exact hs
  | invoke _ hreg ih => exact hstep _ _ _ ih hreg

lemma current (h : Turns backend s s') (hs : Current s) : Current s' :=
  h.keeps (fun _ _ _ hs hreg => hs.invoke backend hreg) hs

/-- What every call of `jk_event_add` and `jk_event_del` keeps. -/
lemma table {P : Event κ η δ → Prop} (hstep : ∀ ev (c : Call φ η δ), P ev → P (c.exec backend ev).1)
    (h : Turns backend s s') (hs : P s.ev) : P s'.ev := by
  apply h.keeps (P := fun s => P s.ev) _ hs
  intro s fd dir hs hreg
  clear hreg
  rw [invoke_ev]
  generalize s.script.headD [] = calls
  induction calls generalizing s with
  | nil => exact hs
  | cons c calls ih => exact ih (s.call backend c) (hstep s.ev c hs)

end Turns

/-- One turn, for a file descriptor that is reported readable or writable. -/
def turn [DecidableEq η] (backend : Backend κ φ η δ) (s : Session κ φ η δ) (fd : ℕ) (read write : Bool) :
    Session κ φ η δ :=
  let rfired : Bool := read ∧ Has (s.ev.events fd).event revent
  let s := if rfired then s.invoke backend fd .read else s
  let node := s.ev.events fd
  if write ∧ Has node.event wevent then
    if ¬rfired ∨ node.revHandler ≠ node.wevHandler then s.invoke backend fd .write else s
  else s

/-- The file descriptor and the direction, if this is a call of a handler. -/
def Record.pair : Record η δ → Option (ℕ × Direction)
  | .called fd dir _ _ => some (fd,dir)
  | _ => none

/-- The handlers called, in order of time. -/
def calledPairs (new : List (Record η δ)) : List (ℕ × Direction) := (new.filterMap Record.pair).reverse

def Calls (new : List (Record η δ)) (fd : ℕ) (dir : Direction) : Prop :=
  ∃ handler data, .called fd dir handler data ∈ new

def Deletes (new : List (Record η δ)) (fd : ℕ) (dir : Direction) : Prop :=
  ∃ event, Has event dir.bit ∧ .deleted fd event ∈ new

/-- The adds name one function for both directions. -/
def SameHandler (log : List (Record η δ)) (fd : ℕ) : Prop :=
  (lastFor log fd .read).bind Prod.fst = (lastFor log fd .write).bind Prod.fst

/-- In the new records, which come after `old`, the handler of a direction is called, or the direction is deleted,
or it is the write direction, and the read handler is called when the adds name one function for both. -/
def Answered (new old : List (Record η δ)) (fd : ℕ) (dir : Direction) : Prop :=
  Calls new fd dir ∨ Deletes new fd dir ∨
    dir = .write ∧ ∃ later earlier, new = later++earlier ∧ Calls earlier fd .read ∧
    SameHandler (earlier++old) fd

lemma calledPairs_append (xs ys : List (Record η δ)) : calledPairs (xs++ys) = calledPairs ys++calledPairs xs := by
  simp [calledPairs]

lemma Deletes.mono {xs ys : List (Record η δ)} {fd : ℕ} {dir : Direction} (h : Deletes xs fd dir)
    (hsub : xs ⊆ ys) :
    Deletes ys fd dir := by
  obtain ⟨event,hbit,hmem⟩ := h
  exact ⟨event,hbit,hsub hmem⟩

lemma Calls.mono {xs ys : List (Record η δ)} {fd : ℕ} {dir : Direction} (h : Calls xs fd dir)
    (hsub : xs ⊆ ys) :
    Calls ys fd dir := by
  obtain ⟨handler,data,hmem⟩ := h
  exact ⟨handler,data,hsub hmem⟩

/-- Later records do not take an answer back. -/
lemma Answered.later {new old : List (Record η δ)} {fd : ℕ} {dir : Direction} (h : Answered new old fd dir)
    (more : List (Record η δ)) : Answered (more++new) old fd dir := by
  rcases h with h | h | ⟨hdir,later,earlier,rfl,hread,hsame⟩
  · exact Or.inl (h.mono (List.subset_append_right _ _))
  · exact Or.inr (Or.inl (h.mono (List.subset_append_right _ _)))
  · exact Or.inr (Or.inr ⟨hdir,more++later,earlier,by rw [List.append_assoc],hread,hsame⟩)

/-- Nor do earlier ones. -/
lemma Answered.earlier {new mid old : List (Record η δ)} {fd : ℕ} {dir : Direction}
    (h : Answered new (mid++old) fd dir) : Answered (new++mid) old fd dir := by
  rcases h with h | h | ⟨hdir,later,earlier,rfl,hread,hsame⟩
  · exact Or.inl (h.mono (List.subset_append_left _ _))
  · exact Or.inr (Or.inl (h.mono (List.subset_append_left _ _)))
  · refine Or.inr (Or.inr ⟨hdir,later,earlier++mid,by rw [List.append_assoc],
      hread.mono (List.subset_append_left _ _),?_⟩)
    rwa [List.append_assoc]

section Handlers
variable (backend : Backend κ φ η δ)

end Handlers

/-! ### Turns and batches -/

/-- From `s` to `s'` what is reported is served: handlers are called for nothing else, in the order of the reports;
no direction is taken away without a record; and each report for a registered direction is answered. -/
structure Serving (s s' : Session κ φ η δ) (reported : List (ℕ × Direction))
    (new : List (Record η δ)) : Prop where
  log : s'.log = new++s.log
  called : (calledPairs new).Sublist reported
  kept : ∀ fd (dir : Direction), Has (s.ev.events fd).event dir.bit →
    Has (s'.ev.events fd).event dir.bit ∨ Deletes new fd dir
  answered : ∀ p ∈ reported, Has (s.ev.events p.1).event p.2.bit → Answered new s.log p.1 p.2

lemma Serving.refl (s : Session κ φ η δ) : Serving s s [] [] :=
  ⟨rfl,List.Sublist.refl _,fun _ _ h => Or.inl h,fun _ hp => absurd hp List.not_mem_nil⟩

lemma Serving.trans {s s' s'' : Session κ φ η δ} {reported reported' : List (ℕ × Direction)}
    {new new' : List (Record η δ)} (h : Serving s s' reported new) (h' : Serving s' s'' reported' new') :
    Serving s s'' (reported++reported') (new'++new) where
  log := by rw [h'.log,h.log,List.append_assoc]
  called := by
    rw [calledPairs_append]
    exact h.called.append h'.called
  kept fd dir hreg := by
    rcases h.kept fd dir hreg with hstill | hdel
    · exact (h'.kept fd dir hstill).imp id fun hdel => hdel.mono (List.subset_append_left _ _)
    · exact Or.inr (hdel.mono (List.subset_append_right _ _))
  answered p hp hreg := by
    rcases List.mem_append.mp hp with hp | hp
    · exact (h.answered p hp hreg).later new'
    · rcases h.kept p.1 p.2 hreg with hstill | hdel
      · have hanswer := h'.answered p hp hstill
        rw [h.log] at hanswer
        exact hanswer.earlier
      · exact Or.inr (Or.inl (hdel.mono (List.subset_append_right _ _)))

section Turn
variable (backend : Backend κ φ η δ) {s : Session κ φ η δ}

/-- The read direction of a turn. -/
def turnRead (s : Session κ φ η δ) (fd : ℕ) (rfired : Bool) : Session κ φ η δ :=
  if rfired then s.invoke backend fd .read else s

lemma turnRead_turns {fd : ℕ} {rfired : Bool} (h : rfired = true → Has (s.ev.events fd).event revent) :
    Turns backend s (turnRead backend s fd rfired) := by
  unfold turnRead
  split
  · rename_i hr
    exact (Turns.refl s).invoke (h hr)
  · exact Turns.refl s

variable [DecidableEq η]

lemma turn_turns (fd : ℕ) (read write : Bool) : Turns backend s (turn backend s fd read write) := by
  unfold turn
  extract_lets rfired s₁ node
  have hread : Turns backend s s₁ := turnRead_turns backend fun hr => (of_decide_eq_true hr).2
  split
  · rename_i hw
    split
    · exact hread.invoke hw.2
    · exact hread
  · exact hread

/-- What is reported for one file descriptor. -/
structure Report where
  fd : ℕ
  read : Bool
  write : Bool

/-- The turns of a batch. -/
def serveAll (s : Session κ φ η δ) (batch : List Report) : Session κ φ η δ :=
  batch.foldl (fun s r => turn backend s r.fd r.read r.write) s

lemma serveAll_turns (batch : List Report) : Turns backend s (serveAll backend s batch) := by
  induction batch generalizing s with
  | nil => exact Turns.refl s
  | cons r batch ih => exact (turn_turns backend r.fd r.read r.write).trans ih

end Turn

/-! ### The three versions -/

section Process
variable [DecidableEq η]

lemma epollServe_turn (s : Session Epoll Bool η δ) (e : EpollEvent) :
    epollServe s e = turn (epoll η δ) s e.fd (Has e.events epollin) (Has e.events epollout) := by
  simp only [epollServe,turn,decide_eq_true_eq]

lemma kqueueServe_turn (s : Session Kqueue (Direction → Bool) η δ) (e : Kevent) :
    kqueueServe s e = turn (kqueue η δ) s e.ident (e.filter = .read) (e.filter = .write) := by
  simp only [kqueueServe,turn,decide_eq_true_eq,and_comm]

lemma selectServe_turn (sel : Selected) (s : Session Select Unit η δ) (fd : ℕ) :
    selectServe sel s fd = turn (select η δ) s fd (fd ∈ sel.rfds) (fd ∈ sel.wfds) := by
  simp only [selectServe,turn,decide_eq_true_eq,and_comm]

/-- What the kernel reports: with epoll a record for each file descriptor, -/
def epollReports : Option (List EpollEvent) → List Report
  | none => []
  | some batch => batch.map fun e => ⟨e.fd,Has e.events epollin,Has e.events epollout⟩

/-- with kqueue a record for each direction, -/
def kqueueReports : Option (List Kevent) → List Report
  | none => []
  | some batch => batch.map fun e => ⟨e.ident,e.filter = .read,e.filter = .write⟩

def selectReport (sel : Selected) (fd : ℕ) : Report := ⟨fd,fd ∈ sel.rfds,fd ∈ sel.wfds⟩

lemma epollProcess_eq (s : Session Epoll Bool η δ) (answer : Option (List EpollEvent)) :
    (epollProcess s answer).1 = serveAll (epoll η δ) s (epollReports answer) := by
  cases answer with
  | none => rfl
  | some batch =>
    simp only [epollProcess,serveAll,epollReports,List.foldl_map]
    congr 1
    funext s e
    exact epollServe_turn s e

lemma kqueueProcess_eq (s : Session Kqueue (Direction → Bool) η δ) (answer : Option (List Kevent)) :
    (kqueueProcess s answer).1 = serveAll (kqueue η δ) s (kqueueReports answer) := by
  cases answer with
  | none => rfl
  | some batch =>
    simp only [kqueueProcess,serveAll,kqueueReports,List.foldl_map]
    congr 1
    funext s e
    exact kqueueServe_turn s e

/-- The loop ends at the end of the table or behind `max_fd`. -/
lemma selectLoop_spec (sel : Selected) (fuel fd : ℕ) (s : Session Select Unit η δ) (n : ℤ) :
    ∃ k ≤ fuel, (selectLoop sel fuel fd s n).1 =
        serveAll (select η δ) s ((List.range' fd k).map (selectReport sel)) ∧
      (k = fuel ∨ (selectLoop sel fuel fd s n).1.ev.ctx.maxFd < (fd+k : ℕ)) := by
  induction fuel generalizing fd s n with
  | zero => exact ⟨0,le_rfl,rfl,Or.inl rfl⟩
  | succ fuel ih =>
    rw [selectLoop]
    split
    · obtain ⟨k,hk,heq,hend⟩ := ih (fd+1) (selectServe sel s fd) (n+1)
      refine ⟨k+1,by omega,?_,?_⟩
      · rw [heq,selectServe_turn]
        rfl
      · rw [show fd+(k+1) = fd+1+k by omega]
        exact hend.imp (congrArg (·+1)) id
    · exact ⟨0,Nat.zero_le _,rfl,Or.inr (by dsimp only; omega)⟩

lemma selectProcess_turns (s : Session Select Unit η δ) (answer : Option Selected) :
    Turns (select η δ) s (selectProcess s answer).1 := by
  cases answer with
  | none => exact Turns.refl s
  | some sel =>
    unfold selectProcess
    dsimp only
    split
    · obtain ⟨k,_,heq,_⟩ := selectLoop_spec sel s.ev.maxEvents 0 s 0
      rw [heq]
      exact serveAll_turns (select η δ) _
    · exact Turns.refl s

end Process

/-! ### Programs -/

/-- What a program does outside of handlers, with what the kernel reports. -/
inductive Deed (φ η δ α : Type) where
  | call (c : Call φ η δ)
  | process (answer : α)

section Programs
variable {α : Type} (backend : Backend κ φ η δ) (process : Session κ φ η δ → α → Session κ φ η δ)

def Deed.exec (s : Session κ φ η δ) : Deed φ η δ α → Session κ φ η δ
  | .call c => s.call backend c
  | .process answer => process s answer

/-- A program on a new table, with the calls that handlers are going to make. -/
def runDeeds (ev : Event κ η δ) (script : List (List (Call φ η δ)))
    (deeds : List (Deed φ η δ α)) : Session κ φ η δ :=
  deeds.foldl (Deed.exec backend process) ⟨ev,[],script⟩

variable {backend process} (hturns : ∀ s answer, Turns backend s (process s answer))
include hturns

lemma deed_keeps {P : Session κ φ η δ → Prop} (hcall : ∀ s c, P s → P (s.call backend c))
    (hinvoke : ∀ s fd (dir : Direction), P s → Has (s.ev.events fd).event dir.bit →
    P (s.invoke backend fd dir))
    {s : Session κ φ η δ} (hs : P s) (deeds : List (Deed φ η δ α)) :
    P (deeds.foldl (Deed.exec backend process) s) := by
  induction deeds generalizing s with
  | nil => exact hs
  | cons d deeds ih =>
    cases d with
    | call c => exact ih (hcall s c hs)
    | process answer => exact ih ((hturns s answer).keeps hinvoke hs)

lemma runDeeds_faithful (maxEvents : ℕ) (ctx : κ) (script : List (List (Call φ η δ)))
    (deeds : List (Deed φ η δ α)) :
    Faithful (runDeeds backend process (eventNew η δ maxEvents ctx) script deeds) :=
  deed_keeps hturns (fun _ c hs => hs.call backend c) (fun _ _ _ hs hreg => hs.invoke backend hreg)
    (start_faithful maxEvents ctx script) deeds

lemma runDeeds_current (ev : Event κ η δ) (script : List (List (Call φ η δ)))
    (deeds : List (Deed φ η δ α)) :
    Current (runDeeds backend process ev script deeds) :=
  deed_keeps hturns (fun _ c hs => hs.call backend c) (fun _ _ _ hs hreg => hs.invoke backend hreg)
    (start_current ev script) deeds

end Programs

/-- Every handler was called for a direction whose last successful change was an add, with the handler of the last
add for this direction, and with the data of the last add for the file descriptor. -/
def Sound (log : List (Record η δ)) : Prop :=
  ∀ pre fd dir handler data, .called fd dir handler data::pre <:+ log →
    lastChange pre fd dir = some true ∧ Paired pre fd dir handler data

/-- An add for a direction is a change of it. -/
lemma lastChange_of_lastFor {log : List (Record η δ)} {fd : ℕ} {dir : Direction}
    (h : lastFor log fd dir ≠ none) :
    lastChange log fd dir ≠ none := by
  induction log with
  | nil => exact absurd rfl h
  | cons r log ih =>
    unfold lastChange
    rw [List.findSome?_cons]
    cases r with
    | added fd' event handler data =>
      rw [lastFor_added] at h
      by_cases hhit : fd' = fd ∧ Has event dir.bit
      · simp only [if_pos hhit]
        exact Option.some_ne_none _
      · rw [if_neg hhit] at h
        simp only [if_neg hhit]
        exact ih h
    | deleted fd' event =>
      by_cases hhit : fd' = fd ∧ Has event dir.bit
      · simp only [if_pos hhit]
        exact Option.some_ne_none _
      · simp only [if_neg hhit]
        exact ih h
    | called fd' dir' handler data => exact ih h

lemma sound_of {s : Session κ φ η δ} (h : Faithful s) (h' : Current s) : Sound s.log := by
  intro pre fd dir handler data hcalled
  have hpaired := h.called pre fd dir handler data hcalled
  refine ⟨?_,hpaired⟩
  obtain ⟨data',hlast⟩ := hpaired.1
  have hsome : lastChange pre fd dir ≠ none := lastChange_of_lastFor (by rw [hlast]; exact Option.some_ne_none _)
  obtain ⟨b,hb⟩ := Option.ne_none_iff_exists'.mp hsome
  cases b with
  | true => exact hb
  | false => exact absurd hb (h'.called pre fd dir handler data hcalled)

section Backends
variable [DecidableEq η]

def epollRun (maxEvents : ℕ) (script : List (List (Call Bool η δ)))
    (deeds : List (Deed Bool η δ (Option (List EpollEvent)))) : Session Epoll Bool η δ :=
  runDeeds (epoll η δ) (fun s answer => (epollProcess s answer).1) (epollNew η δ maxEvents) script deeds

def kqueueRun (maxEvents : ℕ) (script : List (List (Call (Direction → Bool) η δ)))
    (deeds : List (Deed (Direction → Bool) η δ (Option (List Kevent)))) :
    Session Kqueue (Direction → Bool) η δ :=
  runDeeds (kqueue η δ) (fun s answer => (kqueueProcess s answer).1) (kqueueNew η δ maxEvents) script deeds

def selectRun (maxEvents : ℕ) (script : List (List (Call Unit η δ)))
    (deeds : List (Deed Unit η δ (Option Selected))) : Session Select Unit η δ :=
  runDeeds (select η δ) (fun s answer => (selectProcess s answer).1) (selectNew η δ maxEvents) script deeds

lemma epollProcess_turns (s : Session Epoll Bool η δ) (answer : Option (List EpollEvent)) :
    Turns (epoll η δ) s (epollProcess s answer).1 := epollProcess_eq s answer ▸ serveAll_turns (epoll η δ) _

lemma kqueueProcess_turns (s : Session Kqueue (Direction → Bool) η δ) (answer : Option (List Kevent)) :
    Turns (kqueue η δ) s (kqueueProcess s answer).1 :=
  kqueueProcess_eq s answer ▸ serveAll_turns (kqueue η δ) _

lemma epollRun_faithful (maxEvents : ℕ) (script : List (List (Call Bool η δ)))
    (deeds : List (Deed Bool η δ (Option (List EpollEvent)))) : Faithful (epollRun maxEvents script deeds) :=
  runDeeds_faithful epollProcess_turns maxEvents _ script deeds

lemma kqueueRun_faithful (maxEvents : ℕ) (script : List (List (Call (Direction → Bool) η δ)))
    (deeds : List (Deed (Direction → Bool) η δ (Option (List Kevent)))) :
    Faithful (kqueueRun maxEvents script deeds) :=
  runDeeds_faithful kqueueProcess_turns maxEvents _ script deeds

lemma selectRun_faithful (maxEvents : ℕ) (script : List (List (Call Unit η δ)))
    (deeds : List (Deed Unit η δ (Option Selected))) : Faithful (selectRun maxEvents script deeds) :=
  runDeeds_faithful selectProcess_turns maxEvents _ script deeds

/-- Whenever a handler is called for a direction of `fd`, with any of the three backends, it is the handler of the
last successful add for that direction, and it gets the data of the last successful add for `fd`. -/
theorem handler_of_last_add (maxEvents : ℕ) (pre : List (Record η δ)) (fd : ℕ) (dir : Direction)
    (handler : Option η) (data : Option δ) :
    (∀ script deeds, .called fd dir handler data::pre <:+ (epollRun maxEvents script deeds).log →
        Paired pre fd dir handler data) ∧
      (∀ script deeds, .called fd dir handler data::pre <:+ (kqueueRun maxEvents script deeds).log →
        Paired pre fd dir handler data) ∧
      ∀ script deeds, .called fd dir handler data::pre <:+ (selectRun maxEvents script deeds).log →
        Paired pre fd dir handler data := by
  refine ⟨fun script deeds => ?_,fun script deeds => ?_,fun script deeds => ?_⟩
  · exact (epollRun_faithful maxEvents script deeds).called pre fd dir handler data
  · exact (kqueueRun_faithful maxEvents script deeds).called pre fd dir handler data
  · exact (selectRun_faithful maxEvents script deeds).called pre fd dir handler data

/-- The two directions of `fd` are added one after the other, with objects 10 and 20, and an add that is refused. -/
def twoAdds (fd : ℕ) : List (Deed Bool ℕ ℕ (Option (List EpollEvent))) :=
  [.call (.add fd revent (some 1) (some 10) false),.call (.add fd wevent (some 2) (some 20) false),
    .call (.add fd revent (some 3) (some 30) true),.process (some [⟨epollin,fd⟩])]

theorem handler_of_last_add_two :
    ∃ pre, .called 5 .read (some 1) (some 20)::pre <:+ (epollRun 8 [] (twoAdds 5)).log ∧
    Paired pre 5 .read (some 1) (some 20) := by
  have hcalled : .called 5 .read (some 1) (some 20)::
      [.added 5 wevent (some 2) (some 20),.added 5 revent (some 1) (some 10)] <:+
          (epollRun 8 [] (twoAdds 5)).log := by
    decide +kernel
  exact ⟨_,hcalled,(handler_of_last_add 8 _ 5 .read (some 1) (some 20)).1 [] (twoAdds 5) hcalled⟩

/-- The read handler is called with the object of the later add for writing. -/
theorem read_gets_write_data : ∃ pre, ∃ data : Option ℕ,
    .called 5 .read (some 1) data::pre <:+ (epollRun 8 [] (twoAdds 5)).log ∧
    lastFor pre 5 .read ≠ some (some 1,data) := by
  refine ⟨[.added 5 wevent (some 2) (some 20),.added 5 revent (some 1) (some 10)],some 20,?_,?_⟩
  · decide +kernel
  · decide +kernel

/-- In every program over every backend, whatever the kernel reports and the handlers change, no handler is called
for a direction that was removed, or with a handler or data that have been replaced. -/
theorem dispatch_sound (η δ : Type) [DecidableEq η] (maxEvents : ℕ) :
    (∀ script deeds, Sound (epollRun (η := η) (δ := δ) maxEvents script deeds).log) ∧
      (∀ script deeds, Sound (kqueueRun (η := η) (δ := δ) maxEvents script deeds).log) ∧
        ∀ script deeds, Sound (selectRun (η := η) (δ := δ) maxEvents script deeds).log :=
  ⟨fun script deeds => sound_of (epollRun_faithful maxEvents script deeds)
      (runDeeds_current epollProcess_turns _ script deeds),
    fun script deeds => sound_of (kqueueRun_faithful maxEvents script deeds)
      (runDeeds_current kqueueProcess_turns _ script deeds),
    fun script deeds => sound_of (selectRun_faithful maxEvents script deeds)
      (runDeeds_current selectProcess_turns _ script deeds)⟩

end Backends

end JustKit.Events
