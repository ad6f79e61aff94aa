import JustKit.Events.EpollDispatch
import JustKit.Events.Kqueue
import JustKit.Events.Select

/-! The three versions of `jk_event_context_process` on one table, with handlers that make no calls. What they
call and return is compared for the same set of ready directions. -/
namespace JustKit.Events
variable {κ φ η δ : Type}

/-! ### Sessions with quiet handlers -/

/-- The file descriptor and the handler, if this is a call of a handler. -/
def Record.handled : Record η δ → Option (ℕ × Option η)
  | .called fd _ handler _ => some (fd,handler)
  | _ => none

/-- The calls of handlers in a log, in no order. -/
def handled (log : List (Record η δ)) : Multiset (ℕ × Option η) := ↑(log.filterMap Record.handled)

/-- From `s` to `s'` these handlers have been called, and nothing else has happened. -/
structure Serves (s s' : Session κ φ η δ) (called : Multiset (ℕ × Option η)) : Prop where
  ev : s'.ev = s.ev
  script : s'.script = s.script
  log : handled s'.log = called+handled s.log

lemma Serves.refl (s : Session κ φ η δ) : Serves s s 0 := ⟨rfl,rfl,(zero_add _).symm⟩

lemma Serves.trans {s s' s'' : Session κ φ η δ} {called called' : Multiset (ℕ × Option η)}
    (h : Serves s s' called) (h' : Serves s' s'' called') : Serves s s'' (called+called') where
  ev := h'.ev.trans h.ev
  script := h'.script.trans h.script
  log := by rw [h'.log,h.log,← add_assoc,add_comm called]

lemma invoke_serves (backend : Backend κ φ η δ) {s : Session κ φ η δ} (hquiet : s.script = []) (fd : ℕ)
    (dir : Direction) : Serves s (s.invoke backend fd dir) {(fd,(s.ev.events fd).handler dir)} := by
  have heq : s.invoke backend fd dir =
      { s with log := .called fd dir ((s.ev.events fd).handler dir) (s.ev.events fd).data::s.log } := by
    simp only [Session.invoke,hquiet]
  rw [heq]
  exact ⟨rfl,rfl,rfl⟩

/-- A loop whose passes serve according to the table. -/
lemma foldl_serves {α : Type} {serve : Session κ φ η δ → α → Session κ φ η δ}
    {called : α → Multiset (ℕ × Option η)} {ev : Event κ η δ} {l : List α}
    (hserve : ∀ (s : Session κ φ η δ), s.ev = ev → s.script = [] →
    ∀ e ∈ l, Serves s (serve s e) (called e))
    {s : Session κ φ η δ} (hev : s.ev = ev) (hquiet : s.script = []) :
    Serves s (l.foldl serve s) (l.map called).sum := by
  induction l generalizing s with
  | nil => exact Serves.refl s
  | cons e l ih =>
    have hone := hserve s hev hquiet e List.mem_cons_self
    rw [List.map_cons,List.sum_cons]
    apply hone.trans
    apply ih
    · intro s hev hquiet e' he'
      exact hserve s hev hquiet e' (List.mem_cons_of_mem e he')
    · exact hone.ev.trans hev
    · exact hone.script.trans hquiet

/-! ### One file descriptor -/

section Serve
variable [DecidableEq η]

/-- The calls for a file descriptor of which some directions are ready: a handler of both is called once. -/
def dispatch (node : EventNode η δ) (fd : ℕ) (read write : Prop) [Decidable read] [Decidable write] :
    Multiset (ℕ × Option η) :=
  (if read then {(fd,node.revHandler)} else 0) +
    if write ∧ ¬(read ∧ node.revHandler = node.wevHandler) then {(fd,node.wevHandler)} else 0

lemma dispatch_congr (node : EventNode η δ) (fd : ℕ) {read read' write write' : Prop} [Decidable read]
    [Decidable read'] [Decidable write] [Decidable write'] (hread : read ↔ read') (hwrite : write ↔ write') :
    dispatch node fd read write = dispatch node fd read' write' := by
  unfold dispatch
  simp only [hread,hwrite]

lemma dispatch_none (node : EventNode η δ) (fd : ℕ) {read write : Prop} [Decidable read] [Decidable write]
    (hread : ¬read) (hwrite : ¬write) : dispatch node fd read write = 0 := by
  unfold dispatch
  simp [hread,hwrite]

/-- The two ifs in the loops of epoll and select, after the condition of the first has been evaluated. -/
lemma both_serves (backend : Backend κ φ η δ) {s s₁ : Session κ φ η δ} (hquiet : s.script = []) (fd : ℕ)
    (read : Bool) (write : Prop) [Decidable write] (hs₁ : s₁ = if read then s.invoke backend fd .read else s) :
    s₁.ev = s.ev ∧ Serves s
      (if write then
        if ¬read ∨
          (s₁.ev.events fd).revHandler ≠ (s₁.ev.events fd).wevHandler then s₁.invoke backend fd .write
          else s₁
      else s₁)
      (dispatch (s.ev.events fd) fd read write) := by
  have hread : Serves s s₁ (if read then {(fd,(s.ev.events fd).revHandler)} else 0) := by
    rw [hs₁]
    cases read with
    | true => exact invoke_serves backend hquiet fd .read
    | false => exact Serves.refl s
  refine ⟨hread.ev,?_⟩
  have hwrite := invoke_serves backend (hread.script.trans hquiet) fd .write
  rw [hread.ev] at hwrite ⊢
  unfold dispatch
  apply hread.trans
  by_cases hw : write
  · by_cases hsame : read ∧ (s.ev.events fd).revHandler = (s.ev.events fd).wevHandler
    · rw [if_pos hw,if_neg (by tauto),if_neg (by tauto)]
      exact Serves.refl s₁
    · rw [if_pos hw,if_pos (by tauto),if_pos ⟨hw,hsame⟩]
      exact hwrite
  · rw [if_neg hw,if_neg (by tauto)]
    exact Serves.refl s₁

lemma epollServe_serves {s : Session Epoll Bool η δ} (hquiet : s.script = []) (e : EpollEvent) :
    Serves s (epollServe s e) (dispatch (s.ev.events e.fd) e.fd
      (Has e.events epollin ∧ Has (s.ev.events e.fd).event revent)
      (Has e.events epollout ∧ Has (s.ev.events e.fd).event wevent)) := by
  unfold epollServe
  extract_lets rfired s₁ node
  obtain ⟨hev,hserves⟩ := both_serves (epoll η δ) hquiet e.fd rfired
    (Has e.events epollout ∧ Has node.event wevent) rfl
  have hnode : node = s.ev.events e.fd := congrArg (Event.events · e.fd) hev
  rwa [dispatch_congr _ _ decide_eq_true_iff (by rw [hnode])] at hserves

lemma selectServe_serves (sel : Selected) {s : Session Select Unit η δ} (hquiet : s.script = []) (fd : ℕ) :
    Serves s (selectServe sel s fd) (dispatch (s.ev.events fd) fd
      (Has (s.ev.events fd).event revent ∧ fd ∈ sel.rfds)
      (Has (s.ev.events fd).event wevent ∧ fd ∈ sel.wfds)) := by
  unfold selectServe
  extract_lets rfired s₁ node
  obtain ⟨hev,hserves⟩ := both_serves (select η δ) hquiet fd rfired
    (Has node.event wevent ∧ fd ∈ sel.wfds) rfl
  have hnode : node = s.ev.events fd := congrArg (Event.events · fd) hev
  rwa [dispatch_congr _ _ decide_eq_true_iff (by rw [hnode])] at hserves

lemma kqueueServe_serves {s : Session Kqueue (Direction → Bool) η δ} (hquiet : s.script = []) (e : Kevent)
    (hreg : Has (s.ev.events e.ident).event e.filter.bit) :
    Serves s (kqueueServe s e) {(e.ident,(s.ev.events e.ident).handler e.filter)} := by
  rw [kqueueServe_eq,if_pos hreg]
  exact invoke_serves (kqueue η δ) hquiet e.ident e.filter

end Serve

/-! ### A batch -/

/-- The file descriptors of a set of ready directions. -/
def readyFds (ready : Finset (ℕ × Direction)) : Finset ℕ := ready.image Prod.fst

/-- `epoll_wait` returns one record for each ready file descriptor, in any order; `EPOLLIN` and `EPOLLOUT` say
which directions are ready. -/
structure EpollAnswers (ready : Finset (ℕ × Direction)) (batch : List EpollEvent) : Prop where
  nodup : (batch.map EpollEvent.fd).Nodup
  fds : (batch.map EpollEvent.fd).toFinset = readyFds ready
  masks : ∀ e ∈ batch, (Has e.events epollin ↔ (e.fd,.read) ∈ ready) ∧
    (Has e.events epollout ↔ (e.fd,.write) ∈ ready)

/-- `kevent` returns one record for each ready direction, in any order. -/
structure KqueueAnswers (ready : Finset (ℕ × Direction)) (batch : List Kevent) : Prop where
  nodup : (batch.map Kevent.pair).Nodup
  filters : (batch.map Kevent.pair).toFinset = ready

/-- `select` leaves the ready file descriptors in its sets. -/
structure SelectAnswers (ready : Finset (ℕ × Direction)) (sel : Selected) : Prop where
  rfds : ∀ fd, fd ∈ sel.rfds ↔ (fd,.read) ∈ ready
  wfds : ∀ fd, fd ∈ sel.wfds ↔ (fd,.write) ∈ ready

lemma Covers.ready_le {ev : Event Select η δ} (h : Covers ev) {ready : Finset (ℕ × Direction)}
    (hreg : ∀ p ∈ ready, Has (ev.events p.1).event p.2.bit) :
    ∀ fd ∈ readyFds ready, (fd : ℤ) ≤ ev.ctx.maxFd := by
  intro fd hfd
  obtain ⟨p,hp,rfl⟩ := Finset.mem_image.mp hfd
  apply h.le
  intro hz
  apply hreg p hp
  rw [hz]
  exact BitVec.zero_and

section Batch
variable [DecidableEq η] {ready : Finset (ℕ × Direction)}

/-- The calls for all ready file descriptors, with each handler called once for a file descriptor. -/
def dispatchAll (events : ℕ → EventNode η δ) (ready : Finset (ℕ × Direction)) :
    Multiset (ℕ × Option η) :=
  ∑ fd ∈ readyFds ready, dispatch (events fd) fd ((fd,Direction.read) ∈ ready) ((fd,Direction.write) ∈ ready)

lemma mem_readyFds {fd : ℕ} : fd ∈ readyFds ready ↔ (fd,.read) ∈ ready ∨ (fd,.write) ∈ ready := by
  unfold readyFds
  simp only [Finset.mem_image,Prod.exists,exists_and_right,exists_eq_right]
  constructor
  · intro ⟨dir,h⟩
    cases dir with
    | read => exact Or.inl h
    | write => exact Or.inr h
  · intro h
    cases h with
    | inl h => exact ⟨_,h⟩
    | inr h => exact ⟨_,h⟩

theorem epollProcess_serves {s : Session Epoll Bool η δ} (hquiet : s.script = [])
    (hreg : ∀ p ∈ ready, Has (s.ev.events p.1).event p.2.bit) {batch : List EpollEvent}
    (h : EpollAnswers ready batch) :
    Serves s (epollProcess s (some batch)).1 (dispatchAll s.ev.events ready) ∧
      (epollProcess s (some batch)).2 = (readyFds ready).card := by
  constructor
  · have hserve : ∀ s' : Session Epoll Bool η δ, s'.ev = s.ev → s'.script = [] → ∀ e ∈ batch,
        Serves s' (epollServe s' e) (dispatch (s.ev.events e.fd) e.fd ((e.fd,Direction.read) ∈ ready)
          ((e.fd,Direction.write) ∈ ready)) := by
      intro s' hev hq e he
      have hserves := epollServe_serves hq e
      rw [hev] at hserves
      obtain ⟨hin,hout⟩ := h.masks e he
      have hread : Has e.events epollin ∧ Has (s.ev.events e.fd).event revent ↔
          (e.fd,Direction.read) ∈ ready := by
        rw [hin]
        exact and_iff_left_of_imp fun hmem => hreg _ hmem
      have hwrite : Has e.events epollout ∧ Has (s.ev.events e.fd).event wevent ↔
          (e.fd,Direction.write) ∈ ready := by
        rw [hout]
        exact and_iff_left_of_imp fun hmem => hreg _ hmem
      rwa [dispatch_congr _ _ hread hwrite] at hserves
    have hall := foldl_serves hserve rfl hquiet
    unfold dispatchAll
    rw [← h.fds,List.sum_toFinset _ h.nodup,List.map_map]
    exact hall
  · change (batch.length : ℤ) = _
    rw [← h.fds,List.toFinset_card_of_nodup h.nodup,List.length_map]

/-- With kqueue a handler of both directions is called for each of them, and the directions are counted. -/
theorem kqueueProcess_serves {s : Session Kqueue (Direction → Bool) η δ} (hquiet : s.script = [])
    (hreg : ∀ p ∈ ready, Has (s.ev.events p.1).event p.2.bit) {batch : List Kevent}
    (h : KqueueAnswers ready batch) :
    Serves s (kqueueProcess s (some batch)).1 (∑ p ∈ ready, {(p.1,(s.ev.events p.1).handler p.2)}) ∧
      (kqueueProcess s (some batch)).2 = ready.card := by
  constructor
  · have hserve : ∀ s' : Session Kqueue (Direction → Bool) η δ, s'.ev = s.ev → s'.script = [] →
      ∀ e ∈ batch,
        Serves s' (kqueueServe s' e) {(e.ident,(s.ev.events e.ident).handler e.filter)} := by
      intro s' hev hq e he
      rw [← hev]
      apply kqueueServe_serves hq e
      rw [hev]
      apply hreg e.pair
      rw [← h.filters,List.mem_toFinset]
      exact List.mem_map_of_mem he
    have hall := foldl_serves hserve rfl hquiet
    rw [← h.filters,List.sum_toFinset _ h.nodup,List.map_map]
    exact hall
  · change (batch.length : ℤ) = _
    rw [← h.filters,List.toFinset_card_of_nodup h.nodup,List.length_map]

/-- The loop of select passes over all file descriptors up to `max_fd`. -/
lemma selectLoop_eq (sel : Selected) (fuel fd k : ℕ) (s : Session Select Unit η δ)
    (hquiet : s.script = []) (n : ℤ) (hk : s.ev.ctx.maxFd+1 = fd+k) (hfuel : k ≤ fuel) :
    selectLoop sel fuel fd s n = ((List.range' fd k).foldl (selectServe sel) s,n+k) := by
  induction k generalizing fuel fd s n with
  | zero =>
    cases fuel with
    | zero => simp [selectLoop]
    | succ fuel =>
      have hend : ¬(fd : ℤ) ≤ s.ev.ctx.maxFd := by omega
      simp [selectLoop,hend]
  | succ k ih =>
    cases fuel with
    | zero => omega
    | succ fuel =>
      have hpass : (fd : ℤ) ≤ s.ev.ctx.maxFd := by omega
      have hserves := selectServe_serves sel hquiet fd
      rw [selectLoop,if_pos hpass,List.range'_succ,List.foldl_cons]
      rw [ih fuel (fd+1) (selectServe sel s fd) (hserves.script.trans hquiet)]
      · congr 1
        omega
      · rw [hserves.ev]
        omega
      · omega

lemma selectProcess_eq {s : Session Select Unit η δ} (hquiet : s.script = []) (hcovers : Covers s.ev)
    {sel : Selected} (hsome : 0 < sel.rfds.card+sel.wfds.card) {k : ℕ} (hk : s.ev.ctx.maxFd+1 = k) :
    selectProcess s (some sel) = ((List.range' 0 k).foldl (selectServe sel) s,(k : ℤ)) := by
  have hlt := hcovers.lt
  have hloop := selectLoop_eq sel s.ev.maxEvents 0 k s hquiet 0 (by omega) (by omega)
  rw [zero_add] at hloop
  unfold selectProcess
  dsimp only
  rw [if_pos hsome]
  exact hloop

/-- A scan that passes over all ready file descriptors makes all the calls. -/
lemma dispatchAll_eq_sum (events : ℕ → EventNode η δ) {k : ℕ} (hk : ∀ fd ∈ readyFds ready, fd < k) :
    dispatchAll events ready = ((List.range' 0 k).map fun fd =>
      dispatch (events fd) fd ((fd,Direction.read) ∈ ready) ((fd,Direction.write) ∈ ready)).sum := by
  rw [← List.sum_toFinset _ List.nodup_range']
  apply Finset.sum_subset
  · intro fd hfd
    have := hk fd hfd
    rw [List.mem_toFinset,List.mem_range'_1]
    omega
  · intro fd _ hfd
    rw [mem_readyFds] at hfd
    exact dispatch_none _ _ (fun hr => hfd (Or.inl hr)) fun hw => hfd (Or.inr hw)

/-- With select the calls are those of epoll, and all file descriptors up to `max_fd` are counted. -/
theorem selectProcess_serves {s : Session Select Unit η δ} (hquiet : s.script = []) (hcovers : Covers s.ev)
    (hne : ready.Nonempty) (hreg : ∀ p ∈ ready, Has (s.ev.events p.1).event p.2.bit) {sel : Selected}
    (h : SelectAnswers ready sel) :
    Serves s (selectProcess s (some sel)).1 (dispatchAll s.ev.events ready) ∧
      (selectProcess s (some sel)).2 = s.ev.ctx.maxFd+1 ∧
        ∀ fd ∈ readyFds ready, (fd : ℤ) ≤ s.ev.ctx.maxFd := by
  have hle := hcovers.ready_le hreg
  obtain ⟨p,hp⟩ := hne
  have hsome : 0 < sel.rfds.card+sel.wfds.card := by
    rcases mem_readyFds.mp (Finset.mem_image_of_mem Prod.fst hp) with hr | hw
    · have := Finset.card_pos.mpr ⟨p.1,(h.rfds p.1).mpr hr⟩
      omega
    · have := Finset.card_pos.mpr ⟨p.1,(h.wfds p.1).mpr hw⟩
      omega
  have hmax := hle p.1 (Finset.mem_image_of_mem Prod.fst hp)
  obtain ⟨k,hk⟩ : ∃ k : ℕ, s.ev.ctx.maxFd+1 = k := ⟨(s.ev.ctx.maxFd+1).toNat,by omega⟩
  rw [selectProcess_eq hquiet hcovers hsome hk]
  refine ⟨?_,hk.symm,hle⟩
  have hserve : ∀ s' : Session Select Unit η δ, s'.ev = s.ev → s'.script = [] → ∀ fd ∈ List.range' 0 k,
      Serves s' (selectServe sel s' fd) (dispatch (s.ev.events fd) fd ((fd,Direction.read) ∈ ready)
        ((fd,Direction.write) ∈ ready)) := by
    intro s' hev hq fd _
    have hserves := selectServe_serves sel hq fd
    rw [hev] at hserves
    have hread : Has (s.ev.events fd).event revent ∧ fd ∈ sel.rfds ↔ (fd,Direction.read) ∈ ready := by
      rw [h.rfds]
      exact and_iff_right_of_imp fun hmem => hreg _ hmem
    have hwrite : Has (s.ev.events fd).event wevent ∧ fd ∈ sel.wfds ↔ (fd,Direction.write) ∈ ready := by
      rw [h.wfds]
      exact and_iff_right_of_imp fun hmem => hreg _ hmem
    rwa [dispatch_congr _ _ hread hwrite] at hserves
  rw [dispatchAll_eq_sum s.ev.events fun fd hfd => ?_]
  · exact foldl_serves hserve rfl hquiet
  · have := hle fd hfd
    omega

/-- No file descriptor is ready in both directions. -/
def OneWay (ready : Finset (ℕ × Direction)) : Prop :=
  ∀ fd, ¬((fd,Direction.read) ∈ ready ∧ (fd,Direction.write) ∈ ready)

lemma oneWay_iff_injOn : OneWay ready ↔ Set.InjOn Prod.fst (ready : Set (ℕ × Direction)) := by
  constructor
  · intro h ⟨fd,dir⟩ hp ⟨fd',dir'⟩ hq heq
    obtain rfl : fd = fd' := heq
    cases dir with
    | read =>
      cases dir' with
      | read => rfl
      | write => exact absurd ⟨hp,hq⟩ (h fd)
    | write =>
      cases dir' with
      | read => exact absurd ⟨hq,hp⟩ (h fd)
      | write => rfl
  · intro hinj fd ⟨hr,hw⟩
    cases hinj hr hw rfl

/-- Without a file descriptor that is ready in both directions there is nothing to coalesce. -/
lemma OneWay.dispatchAll_eq (h : OneWay ready) (events : ℕ → EventNode η δ) :
    dispatchAll events ready = ∑ p ∈ ready, {(p.1,(events p.1).handler p.2)} := by
  unfold dispatchAll readyFds
  rw [Finset.sum_image (oneWay_iff_injOn.mp h)]
  apply Finset.sum_congr rfl
  intro ⟨fd,dir⟩ hp
  cases dir with
  | read =>
    have hw : (fd,Direction.write) ∉ ready := fun hw => h fd ⟨hp,hw⟩
    simp [dispatch,hp,hw,EventNode.handler]
  | write =>
    have hr : (fd,Direction.read) ∉ ready := fun hr => h fd ⟨hr,hp⟩
    simp [dispatch,hp,hr,EventNode.handler]

lemma card_readyFds_eq_iff : ready.card = (readyFds ready).card ↔ OneWay ready := by
  rw [oneWay_iff_injOn,eq_comm]
  exact Finset.card_image_iff

/-- As many file descriptors are ready as there are up to `max_fd` if and only if all of these are. -/
lemma scanned_eq_iff {maxFd : ℤ} (hne : ready.Nonempty) (hle : ∀ fd ∈ readyFds ready, (fd : ℤ) ≤ maxFd) :
    maxFd+1 = (readyFds ready).card ↔ ∀ fd : ℕ, (fd : ℤ) ≤ maxFd → fd ∈ readyFds ready := by
  have hmax : 0 ≤ maxFd := by
    obtain ⟨fd,hfd⟩ := hne.image Prod.fst
    have := hle fd hfd
    omega
  obtain ⟨k,hk⟩ : ∃ k : ℕ, maxFd+1 = k := ⟨(maxFd+1).toNat,by omega⟩
  have hsub : readyFds ready ⊆ Finset.range k := by
    intro fd hfd
    have := hle fd hfd
    rw [Finset.mem_range]
    omega
  constructor
  · intro hcard fd hfd
    have heq : readyFds ready = Finset.range k := by
      apply Finset.eq_of_subset_of_card_le hsub
      rw [Finset.card_range]
      omega
    rw [heq,Finset.mem_range]
    omega
  · intro hall
    have heq : readyFds ready = Finset.range k := by
      apply hsub.antisymm
      intro fd hfd
      apply hall
      have := Finset.mem_range.mp hfd
      omega
    rw [heq,Finset.card_range]
    exact hk

end Batch

/-! ### Agreement -/

/-- The same handlers are called for the same file descriptors, and all return the number of ready file
descriptors. -/
def Agree (ready : Finset (ℕ × Direction)) (a : Session Epoll Bool η δ × ℤ)
    (b : Session Kqueue (Direction → Bool) η δ × ℤ) (c : Session Select Unit η δ × ℤ) : Prop :=
  handled a.1.log = handled b.1.log ∧ handled b.1.log = handled c.1.log ∧
    a.2 = (readyFds ready).card ∧ b.2 = (readyFds ready).card ∧ c.2 = (readyFds ready).card

/-- On the same table and for the same ready directions, in whatever order the kernel reports them, the three
versions agree if and only if no file descriptor is ready in both directions and every file descriptor up to
`max_fd` is ready. -/
theorem backends_agree_iff [DecidableEq η] (maxEvents : ℕ) (calls : List (Call Unit η δ))
    (hcalls : ∀ c ∈ calls, Proper c.event) (a : Event Epoll η δ) (b : Event Kqueue η δ)
    (c : Event Select η δ) (hc : execAll (select η δ) (selectNew η δ maxEvents) calls = c)
    (ha : a.events = c.events) (hb : b.events = c.events)
    (ready : Finset (ℕ × Direction)) (hne : ready.Nonempty)
    (hreg : ∀ p ∈ ready, Has (c.events p.1).event p.2.bit)
    (epollBatch : List EpollEvent) (hepoll : EpollAnswers ready epollBatch)
    (kqueueBatch : List Kevent) (hkqueue : KqueueAnswers ready kqueueBatch)
    (sel : Selected) (hselect : SelectAnswers ready sel) :
    Agree ready (epollProcess ⟨a,[],[]⟩ (some epollBatch)) (kqueueProcess ⟨b,[],[]⟩ (some kqueueBatch))
        (selectProcess ⟨c,[],[]⟩ (some sel)) ↔
      OneWay ready ∧ ∀ fd : ℕ, (fd : ℤ) ≤ c.ctx.maxFd → fd ∈ readyFds ready := by
  have hcovers : Covers c := hc ▸ execAll_covers maxEvents hcalls
  obtain ⟨hservesA,hretA⟩ := epollProcess_serves (s := ⟨a,[],[]⟩) rfl (ha ▸ hreg) hepoll
  obtain ⟨hservesB,hretB⟩ := kqueueProcess_serves (s := ⟨b,[],[]⟩) rfl (hb ▸ hreg) hkqueue
  obtain ⟨hservesC,hretC,hle⟩ := selectProcess_serves (s := ⟨c,[],[]⟩) rfl hcovers hne hreg hselect
  have hlogA := hservesA.log
  have hlogB := hservesB.log
  have hlogC := hservesC.log
  simp only [ha] at hlogA
  simp only [hb] at hlogB
  unfold Agree
  rw [hretA,hretB,hretC,hlogA,hlogB,hlogC,scanned_eq_iff hne hle]
  constructor
  · intro ⟨_,_,_,hcard,hall⟩
    exact ⟨card_readyFds_eq_iff.mp (by exact_mod_cast hcard),hall⟩
  · intro ⟨hone,hall⟩
    have hcard := card_readyFds_eq_iff.mpr hone
    rw [hone.dispatchAll_eq]
    exact ⟨rfl,rfl,rfl,by exact_mod_cast hcard,hall⟩

/-- File descriptors 0 and 1 are registered, 0 in both directions with one handler. -/
def twoFds {φ : Type} (kernel : φ) : List (Call φ ℕ ℕ) :=
  [.add 0 (revent ||| wevent) (some 1) none kernel,.add 1 wevent (some 2) none kernel]

def epollTwo : Event Epoll ℕ ℕ := execAll (epoll ℕ ℕ) (epollNew ℕ ℕ 4) (twoFds false)
def kqueueTwo : Event Kqueue ℕ ℕ := execAll (kqueue ℕ ℕ) (kqueueNew ℕ ℕ 4) (twoFds fun _ => false)
def selectTwo : Event Select ℕ ℕ := execAll (select ℕ ℕ) (selectNew ℕ ℕ 4) (twoFds ())

/-- Ready are: 0 for reading and 1 for writing. -/
theorem backends_agree_iff_two :
    Agree {(0,.read),(1,.write)} (epollProcess ⟨epollTwo,[],[]⟩ (some [⟨epollin,0⟩,⟨epollout,1⟩]))
        (kqueueProcess ⟨kqueueTwo,[],[]⟩ (some [⟨1,.write⟩,⟨0,.read⟩]))
        (selectProcess ⟨selectTwo,[],[]⟩ (some ⟨{0},{1}⟩)) ↔
      OneWay {(0,.read),(1,.write)} ∧
        ∀ fd : ℕ, (fd : ℤ) ≤ selectTwo.ctx.maxFd → fd ∈ readyFds {(0,.read),(1,.write)} := by
  apply backends_agree_iff 4 (twoFds ()) (by simp [twoFds,Call.event,Proper]) epollTwo kqueueTwo
    selectTwo rfl rfl rfl
  · decide
  · decide
  · exact ⟨by decide,by decide,by decide⟩
  · exact ⟨by decide,by decide⟩
  · exact ⟨by simp,by simp⟩

/-- If 0 is ready in both directions, its handler is called twice with kqueue, and 3 is returned; if only 1 is
ready, select returns 2. -/
theorem backends_disagree : epollTwo.events = selectTwo.events ∧ kqueueTwo.events = selectTwo.events ∧
    (∀ p ∈ ({(0,.read),(0,.write),(1,.write)} : Finset (ℕ × Direction)),
    Has (selectTwo.events p.1).event p.2.bit) ∧
    (EpollAnswers {(0,.read),(0,.write),(1,.write)} [⟨epollin ||| epollout,0⟩,⟨epollout,1⟩] ∧
      KqueueAnswers {(0,.read),(0,.write),(1,.write)} [⟨0,.read⟩,⟨0,.write⟩,⟨1,.write⟩] ∧
      SelectAnswers {(0,.read),(0,.write),(1,.write)} ⟨{0},{0,1}⟩ ∧
      ¬Agree {(0,.read),(0,.write),(1,.write)}
        (epollProcess ⟨epollTwo,[],[]⟩ (some [⟨epollin ||| epollout,0⟩,⟨epollout,1⟩]))
        (kqueueProcess ⟨kqueueTwo,[],[]⟩ (some [⟨0,.read⟩,⟨0,.write⟩,⟨1,.write⟩]))
        (selectProcess ⟨selectTwo,[],[]⟩ (some ⟨{0},{0,1}⟩))) ∧
    (EpollAnswers {(1,.write)} [⟨epollout,1⟩] ∧ KqueueAnswers {(1,.write)} [⟨1,.write⟩] ∧
      SelectAnswers {(1,.write)} ⟨∅,{1}⟩ ∧
      ¬Agree {(1,.write)} (epollProcess ⟨epollTwo,[],[]⟩ (some [⟨epollout,1⟩]))
        (kqueueProcess ⟨kqueueTwo,[],[]⟩ (some [⟨1,.write⟩]))
        (selectProcess ⟨selectTwo,[],[]⟩ (some ⟨∅,{1}⟩))) := by
  refine ⟨rfl,rfl,by decide,⟨⟨by decide,by decide,by decide⟩,⟨by decide,by decide⟩,⟨?_,?_⟩,?_⟩,
    ⟨by decide,by decide,by decide⟩,⟨by decide,by decide⟩,⟨?_,?_⟩,?_⟩
  · simp
  · simp
  · exact fun h => absurd h.2.2.2.1 (by decide +kernel)
  · simp
  · simp
  · exact fun h => absurd h.2.2.2.2 (by decide +kernel)

end JustKit.Events
