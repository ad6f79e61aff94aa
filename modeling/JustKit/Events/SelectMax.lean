import JustKit.Events.Epoll
import JustKit.Events.Select
import JustKit.Foundations.Transition

/-! `max_fd` of the select backend beside its sets and the table. A delete looks for the new maximum in a table
that still has what is being deleted. -/
namespace JustKit.Events
open Foundations.Transition
variable {η δ : Type}

/-! ### The largest element of a set, or -1 -/

def Largest (s : Set ℕ) (m : ℤ) : Prop := (s = ∅ ∧ m = -1) ∨ ∃ fd : ℕ, m = fd ∧ IsGreatest s fd

lemma Largest.insert {s : Set ℕ} {m : ℤ} (h : Largest s m) (fd : ℕ) :
    Largest (insert fd s) (if m < fd then fd else m) := by
  rcases h with ⟨rfl,rfl⟩ | ⟨top,rfl,htop⟩
  · refine Or.inr ⟨fd,if_pos (by omega),?_⟩
    rw [insert_empty_eq]
    exact isGreatest_singleton
  · refine Or.inr ⟨max fd top,?_,htop.insert fd⟩
    split <;> omega

/-- The maximum of a part that contains it. -/
lemma Largest.part {s t : Set ℕ} {m : ℤ} (h : Largest s m) (hpart : t ⊆ s)
    (hkeep : ∀ fd : ℕ, m = fd → fd ∈ t) :
    Largest t m := by
  rcases h with ⟨rfl,rfl⟩ | ⟨top,rfl,htop⟩
  · exact Or.inl ⟨Set.subset_empty_iff.mp hpart,rfl⟩
  · exact Or.inr ⟨top,rfl,hkeep top rfl,fun fd hfd => htop.2 (hpart hfd)⟩

lemma Largest.mem {s : Set ℕ} {fd : ℕ} (h : Largest s fd) : fd ∈ s := by
  rcases h with ⟨_,hm⟩ | ⟨top,hm,htop⟩
  · omega
  · rw [Int.ofNat_inj.mp hm]
    exact htop.1

lemma Largest.le {s : Set ℕ} {m : ℤ} (h : Largest s m) {fd : ℕ} (hfd : fd ∈ s) : (fd : ℤ) ≤ m := by
  rcases h with ⟨rfl,_⟩ | ⟨top,rfl,htop⟩
  · exact absurd hfd (Set.notMem_empty fd)
  · exact Int.ofNat_le.mpr (htop.2 hfd)

/-- The scan finds the last node with an event. -/
lemma scanMax_eq {events : ℕ → EventNode η δ} {n fd : ℕ} (hlt : fd < n) (hfd : (events fd).event ≠ nevent)
    (hlast : ∀ fd', (events fd').event ≠ nevent → fd' ≤ fd) : scanMax events n = fd := by
  induction n with
  | zero => omega
  | succ n ih =>
    unfold scanMax
    split
    · rename_i hn
      have := hlast n hn
      omega
    · rename_i hn
      have hne : fd ≠ n := fun h => hn (h ▸ hfd)
      exact ih (by omega)

/-! ### Calls -/

def Select.fds (ctx : Select) : Direction → Finset ℕ
  | .read => ctx.rfds
  | .write => ctx.wfds

/-- The file descriptors that are in one of the sets. -/
def Select.watched (ctx : Select) : Set ℕ := {fd | fd ∈ ctx.rfds ∨ fd ∈ ctx.wfds}

/-- The sets are those of the table, and `max_fd` is the largest file descriptor in them. -/
structure Exact (ev : Event Select η δ) : Prop where
  sets : ∀ fd dir, fd ∈ ev.ctx.fds dir ↔ Has (ev.events fd).event dir.bit
  maxFd : Largest ev.ctx.watched ev.ctx.maxFd

/-- A delete that takes away all events of the largest file descriptor. -/
def DropsMax (ev : Event Select η δ) : Call Unit η δ → Prop
  | .add _ _ _ _ _ => False
  | .del fd event _ =>
    fd < ev.maxEvents ∧ (fd : ℤ) = ev.ctx.maxFd ∧ (ev.events fd).event &&& ~~~event = nevent

lemma selectContextAdd_fds (ev : Event Select η δ) (fd : ℕ) (event : BitVec 32) (dir : Direction) :
    (selectContextAdd ev fd event).1.fds dir =
      if Has event dir.bit then insert fd (ev.ctx.fds dir) else ev.ctx.fds dir := by
  cases dir <;> rfl

lemma selectContextDel_fds (ev : Event Select η δ) (fd : ℕ) (event : BitVec 32) (dir : Direction) :
    (selectContextDel ev fd event).1.fds dir =
      if Has event dir.bit then (ev.ctx.fds dir).erase fd else ev.ctx.fds dir := by
  cases dir <;> rfl

lemma selectContextDel_subset (ev : Event Select η δ) (fd : ℕ) (event : BitVec 32) (dir : Direction) :
    (selectContextDel ev fd event).1.fds dir ⊆ ev.ctx.fds dir := by
  rw [selectContextDel_fds]
  split
  · exact Finset.erase_subset _ _
  · exact Finset.Subset.refl _

lemma plain_ne_iff {event : BitVec 32} (h : Plain event) : event ≠ nevent ↔ Has event revent ∨
    Has event wevent := by
  rcases h with rfl | rfl | rfl | rfl <;> decide

lemma select_add {ev : Event Select η δ} {fd : ℕ} {event : BitVec 32} {handler : Option η} {data : Option δ}
    {kernel : Unit} (hin : fd < ev.maxEvents) : (select η δ).step ev (.add fd event handler data kernel) =
      ⟨ev.maxEvents,Function.update ev.events fd ((ev.events fd).register event handler data),
        (selectContextAdd ev fd event).1⟩ := by
  unfold Backend.step Call.exec eventAdd
  dsimp only
  rw [if_neg (not_le.mpr hin)]
  rfl

lemma select_del {ev : Event Select η δ} {fd : ℕ} {event : BitVec 32} {kernel : Unit} (hin : fd < ev.maxEvents) :
    (select η δ).step ev (.del fd event kernel) =
      ⟨ev.maxEvents,Function.update ev.events fd { ev.events fd with event := (ev.events fd).event &&& ~~~event },
        (selectContextDel ev fd event).1⟩ := by
  unfold Backend.step Call.exec eventDel
  dsimp only
  rw [if_neg (not_le.mpr hin)]
  rfl

section Steps
variable {ev : Event Select η δ} (h : Exact ev)
include h

lemma Exact.registered (hplain : ∀ fd, Plain (ev.events fd).event) (fd : ℕ) :
    (ev.events fd).event ≠ nevent ↔ fd ∈ ev.ctx.watched := by
  rw [plain_ne_iff (hplain fd)]
  exact or_congr (h.sets fd .read).symm (h.sets fd .write).symm

/-- A node and its part of the sets change together. -/
lemma Exact.set {fd : ℕ} {node : EventNode η δ} {ctx : Select}
    (hfd : ∀ dir : Direction, fd ∈ ctx.fds dir ↔ Has node.event dir.bit)
    (hother : ∀ fd' dir, fd' ≠ fd → (fd' ∈ ctx.fds dir ↔ fd' ∈ ev.ctx.fds dir))
    (hmax : Largest ctx.watched ctx.maxFd) :
    Exact (⟨ev.maxEvents,Function.update ev.events fd node,ctx⟩ : Event Select η δ) := by
  refine ⟨fun fd' dir => ?_,hmax⟩
  change fd' ∈ ctx.fds dir ↔ Has (Function.update ev.events fd node fd').event dir.bit
  rcases eq_or_ne fd' fd with rfl | hne
  · rw [Function.update_self]
    exact hfd dir
  · rw [Function.update_of_ne hne,hother fd' dir hne]
    exact h.sets fd' dir

lemma Exact.add (fd : ℕ) {event : BitVec 32} (he : Proper event) (handler : Option η) (data : Option δ) :
    Exact (⟨ev.maxEvents,Function.update ev.events fd ((ev.events fd).register event handler data),
      (selectContextAdd ev fd event).1⟩ : Event Select η δ) := by
  apply h.set
  · intro dir
    rw [selectContextAdd_fds]
    change _ ↔ Has ((ev.events fd).event ||| event) dir.bit
    rw [has_or,← h.sets fd dir]
    by_cases hbit : Has event dir.bit <;> simp [hbit]
  · intro fd' dir hne
    rw [selectContextAdd_fds]
    split <;> simp [hne]
  · have hbits : Has event revent ∨ Has event wevent := (plain_ne_iff (Or.inr he)).mp he.ne
    have hinsert : (selectContextAdd ev fd event).1.watched = insert fd ev.ctx.watched := by
      ext x
      simp only [Select.watched,selectContextAdd,Set.mem_ofPred_eq,Set.mem_insert_iff]
      by_cases hr : Has event revent <;> by_cases hw : Has event wevent <;> simp [hr,hw] at hbits ⊢ <;> tauto
    rw [hinsert]
    exact h.maxFd.insert fd

lemma Exact.mem_del (fd : ℕ) (event : BitVec 32) (dir : Direction) :
    fd ∈ (selectContextDel ev fd event).1.fds dir ↔ Has ((ev.events fd).event &&& ~~~event) dir.bit := by
  rw [selectContextDel_fds,dir.has_diff,← h.sets fd dir]
  by_cases hbit : Has event dir.bit <;> simp [hbit]

/-- A delete that leaves the largest file descriptor in the sets, or is about another one. -/
lemma Exact.del (hplain : ∀ fd, Plain (ev.events fd).event) {fd : ℕ} {event : BitVec 32} (he : Proper event)
    (hkeep : (fd : ℤ) = ev.ctx.maxFd → (ev.events fd).event &&& ~~~event ≠ nevent) :
    Exact (⟨ev.maxEvents,Function.update ev.events fd { ev.events fd with
      event := (ev.events fd).event &&& ~~~event },(selectContextDel ev fd event).1⟩ : Event Select η δ) := by
  have hother (fd' : ℕ) (dir : Direction) (hne : fd' ≠ fd) :
      fd' ∈ (selectContextDel ev fd event).1.fds dir ↔ fd' ∈ ev.ctx.fds dir := by
    rw [selectContextDel_fds]
    split <;> simp [hne]
  have hstay : (fd : ℤ) = ev.ctx.maxFd → fd ∈ (selectContextDel ev fd event).1.watched := by
    intro hfd
    have hhas := (plain_ne_iff (plain_diff (hplain fd) he)).mp (hkeep hfd)
    exact hhas.imp (h.mem_del fd event .read).mpr (h.mem_del fd event .write).mpr
  apply h.set (h.mem_del fd event) hother
  have hmax : (selectContextDel ev fd event).1.maxFd = ev.ctx.maxFd := by
    apply if_neg
    intro ⟨hfd,hr,hw⟩
    exact (hstay hfd).elim hr hw
  rw [hmax]
  apply h.maxFd.part
  · intro x hx
    exact hx.imp (selectContextDel_subset ev fd event .read ·) (selectContextDel_subset ev fd event .write ·)
  · intro x hx
    rcases eq_or_ne x fd with rfl | hne
    · exact hstay hx.symm
    · have hold := h.maxFd
      rw [hx] at hold
      exact hold.mem.imp (hother x .read hne).mpr (hother x .write hne).mpr

/-- The scan comes back to the file descriptor that is being deleted. -/
lemma Exact.stale (hplain : ∀ fd, Plain (ev.events fd).event) {fd : ℕ} {event : BitVec 32}
    (hlt : fd < ev.maxEvents) (hfd : (fd : ℤ) = ev.ctx.maxFd)
    (hdel : (ev.events fd).event &&& ~~~event = nevent) :
    ¬Largest (selectContextDel ev fd event).1.watched (selectContextDel ev fd event).1.maxFd := by
  have hgone (dir : Direction) : fd ∉ (selectContextDel ev fd event).1.fds dir := by
    rw [h.mem_del,hdel]
    exact fun hhas => hhas BitVec.zero_and
  have hlargest := h.maxFd
  rw [← hfd] at hlargest
  have hscan : (selectContextDel ev fd event).1.maxFd = fd := by
    refine Eq.trans (if_pos ⟨hfd,hgone .read,hgone .write⟩) (scanMax_eq hlt ?_ fun fd' hfd' => ?_)
    · exact (h.registered hplain fd).mpr hlargest.mem
    · exact Int.ofNat_le.mp (hlargest.le ((h.registered hplain fd').mp hfd'))
  intro hnew
  rw [hscan] at hnew
  exact hnew.mem.elim (hgone .read) (hgone .write)

theorem Exact.step_iff (hplain : ∀ fd, Plain (ev.events fd).event) {c : Call Unit η δ} (hc : Proper c.event) :
    Exact ((select η δ).step ev c) ↔ ¬DropsMax ev c := by
  cases c with
  | add fd event handler data kernel =>
    refine iff_of_true ?_ id
    by_cases hin : fd < ev.maxEvents
    · rw [select_add hin]
      exact h.add fd hc handler data
    · have hsame : (select η δ).step ev (.add fd event handler data kernel) = ev := step_outside _ (not_lt.mp hin)
      rwa [hsame]
  | del fd event kernel =>
    by_cases hin : fd < ev.maxEvents
    · rw [select_del hin]
      constructor
      · intro hexact hdrops
        exact h.stale hplain hin hdrops.2.1 hdrops.2.2 hexact.maxFd
      · intro hkeep
        exact h.del hplain hc fun hfd hdel => hkeep ⟨hin,hfd,hdel⟩
    · have hsame : (select η δ).step ev (.del fd event kernel) = ev := step_outside _ (not_lt.mp hin)
      rw [hsame]
      exact iff_of_true h fun hdrops => hin hdrops.1

end Steps

lemma selectNew_exact (maxEvents : ℕ) : Exact (selectNew η δ maxEvents) where
  sets fd dir := by
    refine iff_of_false ?_ fun h => h BitVec.zero_and
    cases dir <;> exact Finset.notMem_empty fd
  maxFd := by
    refine Or.inl ⟨?_,rfl⟩
    ext fd
    simp [Select.watched,selectNew,eventNew]

/-- `max_fd` and the sets stay exact in a run of calls exactly if none of them deletes all events of the largest
file descriptor. -/
theorem select_exact_iff {maxEvents : ℕ} {calls : List (Call Unit η δ)}
    (hcalls : ∀ c ∈ calls, Proper c.event) :
    Each (select η δ).step (fun ev c => Exact ((select η δ).step ev c)) (selectNew η δ maxEvents) calls ↔
      Each (select η δ).step (fun ev c => ¬DropsMax ev c) (selectNew η δ maxEvents) calls := by
  apply each_iff (P := fun ev => Exact ev ∧ ∀ fd, Plain (ev.events fd).event)
  · intro ev ⟨_,hplain⟩ c hc hexact
    exact ⟨hexact,exec_plain _ hplain (hcalls c hc)⟩
  · intro ev ⟨h,hplain⟩ c hc
    exact h.step_iff hplain (hcalls c hc)
  · exact ⟨selectNew_exact maxEvents,fun _ => Or.inl rfl⟩

/-- The largest file descriptor loses one of its events; another one loses all. -/
def partialDeletes : List (Call Unit ℕ ℕ) :=
  [.add 3 (revent ||| wevent) (some 1) none (),.add 2 revent (some 1) none (),.del 3 revent (),.del 2 revent ()]

theorem select_exact_partial :
    Each (select ℕ ℕ).step (fun ev c => Exact ((select ℕ ℕ).step ev c)) (selectNew ℕ ℕ 8)
    partialDeletes := by
  refine (select_exact_iff ?_).mpr ?_
  · simp [partialDeletes,Proper,Call.event]
  · simp only [partialDeletes,each_cons]
    refine ⟨id,id,?_,?_,each_nil⟩ <;> unfold DropsMax <;> decide +kernel

/-- The only file descriptor is deleted, and `max_fd` keeps it. -/
theorem delete_largest_stale :
    ¬Each (select ℕ ℕ).step (fun ev c => Exact ((select ℕ ℕ).step ev c)) (selectNew ℕ ℕ 8)
    [.add 3 revent (some 1) none (),.del 3 revent ()] := by
  intro h
  have hmax := (each_cons.mp (each_cons.mp h).2).1.maxFd
  have hstale : ((select ℕ ℕ).step ((select ℕ ℕ).step (selectNew ℕ ℕ 8) (.add 3 revent (some 1) none ()))
      (.del 3 revent ())).ctx = ⟨∅,∅,3⟩ := by decide +kernel
  rw [hstale] at hmax
  exact hmax.mem.elim (Finset.notMem_empty 3) (Finset.notMem_empty 3)

end JustKit.Events
