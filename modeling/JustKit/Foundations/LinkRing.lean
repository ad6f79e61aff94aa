import Mathlib

/-! Circular doubly linked lists. The memory is seen through the functions that read the two links of a
node; an assignment to a link updates one of them. -/
namespace Foundations.LinkRing
variable {α : Type*} {next prev next' prev' : α → Option α} {x y z a b : α} {as bs : List α}

/-- The links lead from `x` through `as` to `y`, and back. -/
def Segment (next prev : α → Option α) (x : α) : List α → α → Prop
  | [],y => next x = some y ∧ prev y = some x
  | a::as,y => next x = some a ∧ prev a = some x ∧ Segment next prev a as y

theorem segment_append : Segment next prev x (as++b::bs) y ↔ Segment next prev x as b ∧
    Segment next prev b bs y := by
  induction as generalizing x with
  | nil => exact and_assoc.symm
  | cons a as ih =>
    simp only [List.cons_append,Segment,ih]
    tauto

/-- The same links lead back through the nodes in reverse order. -/
theorem Segment.reverse (h : Segment next prev x as y) : Segment prev next y as.reverse x := by
  induction as generalizing x with
  | nil => exact ⟨h.2,h.1⟩
  | cons a as ih =>
    obtain ⟨hx,ha,hrest⟩ := h
    rw [List.reverse_cons]
    exact segment_append.mpr ⟨ih hrest,ha,hx⟩

theorem Segment.congr (h : Segment next prev x as y) (hnext : ∀ a ∈ x::as, next' a = next a)
    (hprev : ∀ a ∈ as, prev' a = prev a) (hy : prev' y = prev y) : Segment next' prev' x as y := by
  induction as generalizing x with
  | nil =>
    rw [Segment,hnext x List.mem_cons_self,hy]
    exact h
  | cons a as ih =>
    obtain ⟨hx,ha,hrest⟩ := h
    refine ⟨(hnext x List.mem_cons_self).trans hx,(hprev a List.mem_cons_self).trans ha,?_⟩
    apply ih hrest
    · intro b hb
      exact hnext b (List.mem_cons_of_mem x hb)
    · intro b hb
      exact hprev b (List.mem_cons_of_mem a hb)

theorem Segment.last (h : Segment next prev x as y) : prev y = some (as.getLastD x) := by
  induction as generalizing x with
  | nil => exact h.2
  | cons a as ih =>
    rw [List.getLastD_cons]
    exact ih h.2.2

theorem Segment.first (h : Segment next prev x as y) : next x = some (as.headD y) := by
  cases as with
  | nil => exact h.1
  | cons a as => exact h.1

lemma headD_mem (as : List α) (y : α) : as.headD y ∈ y::as := by
  cases as with
  | nil => exact List.mem_cons_self
  | cons a as => exact List.mem_cons_of_mem y List.mem_cons_self

lemma getLastD_mem (x : α) (as : List α) : as.getLastD x ∈ x::as := by
  induction as generalizing x with
  | nil => exact List.mem_cons_self
  | cons a as ih =>
    rw [List.getLastD_cons]
    exact List.mem_cons_of_mem x (ih a)

/-- The last link is turned to another node. -/
theorem Segment.retarget (h : Segment next prev x as y) (hn : (x::as).Nodup) (hlast : next' (as.getLastD x) = some z)
    (hz : prev' z = some (as.getLastD x)) (hnext : ∀ a ∈ x::as, a ≠ as.getLastD x → next' a = next a)
    (hprev : ∀ a ∈ as, prev' a = prev a) : Segment next' prev' x as z := by
  induction as generalizing x with
  | nil => exact ⟨hlast,hz⟩
  | cons a as ih =>
    obtain ⟨hx,ha,hrest⟩ := h
    rw [List.getLastD_cons] at hlast hz hnext
    rw [List.nodup_cons] at hn
    have hne : x ≠ as.getLastD a := by
      intro heq
      exact hn.1 (heq ▸ getLastD_mem a as)
    refine ⟨(hnext x List.mem_cons_self hne).trans hx,(hprev a List.mem_cons_self).trans ha,?_⟩
    apply ih hrest hn.2 hlast hz
    · intro b hb
      exact hnext b (List.mem_cons_of_mem x hb)
    · intro b hb
      exact hprev b (List.mem_cons_of_mem a hb)

/-- The links of `head` and of the nodes `as` form a ring. -/
structure Ring (next prev : α → Option α) (head : α) (as : List α) : Prop where
  links : Segment next prev head as head
  nodup : (head::as).Nodup

variable {head node : α}

theorem Ring.congr (h : Ring next prev head as) (hnext : ∀ a ∈ head::as, next' a = next a)
    (hprev : ∀ a ∈ head::as, prev' a = prev a) : Ring next' prev' head as where
  links := by
    apply h.links.congr hnext
    · intro a ha
      exact hprev a (List.mem_cons_of_mem head ha)
    · exact hprev head List.mem_cons_self
  nodup := h.nodup

theorem Ring.reverse (h : Ring next prev head as) : Ring prev next head as.reverse where
  links := h.links.reverse
  nodup := by
    rw [List.nodup_cons,List.mem_reverse,List.nodup_reverse,← List.nodup_cons]
    exact h.nodup

/-- Every node has a successor in the ring, and is the predecessor of it. -/
theorem Ring.next_prev (h : Ring next prev head as) (ha : a ∈ head::as) :
    ∃ b ∈ head::as, next a = some b ∧ prev b = some a := by
  have hseg : ∀ (x : α) (as : List α), Segment next prev x as head → a ∈ x::as →
      ∃ b ∈ as++[head], next a = some b ∧ prev b = some a := by
    intro x as hlinks ha
    induction as generalizing x with
    | nil =>
      rw [List.mem_singleton.mp ha]
      exact ⟨head,by simp,hlinks⟩
    | cons c as ih =>
      obtain ⟨hx,hc,hrest⟩ := hlinks
      cases ha with
      | head => exact ⟨c,by simp,hx,hc⟩
      | tail _ ha =>
        obtain ⟨b,hb,hab⟩ := ih c hrest ha
        exact ⟨b,List.mem_cons_of_mem c hb,hab⟩
  obtain ⟨b,hb,hab⟩ := hseg head as h.links ha
  refine ⟨b,?_,hab⟩
  simpa [or_comm] using hb

theorem ring_single (hnext : next head = some head) (hprev : prev head = some head) : Ring next prev head [] :=
  ⟨⟨hnext,hprev⟩,List.nodup_singleton head⟩

section Assignments
variable [DecidableEq α]

/-- The four assignments that put a node before the head, that is, behind the last node. If the ring is empty,
the last node is the head. -/
theorem Ring.push (h : Ring next prev head as) (hnode : node ∉ head::as) :
    Ring (Function.update (Function.update next node (some head)) (as.getLastD head) (some node))
      (Function.update (Function.update prev node (some (as.getLastD head))) head (some node)) head
      (as++[node]) := by
  obtain ⟨hhead,has⟩ := not_or.mp (List.mem_cons.not.mp hnode)
  have hlast : as.getLastD head ≠ node := fun heq => hnode (heq ▸ getLastD_mem head as)
  constructor
  · apply segment_append.mpr
    constructor
    · apply h.links.retarget h.nodup
      · exact Function.update_self ..
      · rw [Function.update_of_ne hhead,Function.update_self]
      · intro a ha hne
        have hane : a ≠ node := fun heq => hnode (heq ▸ ha)
        rw [Function.update_of_ne hne,Function.update_of_ne hane]
      · intro a ha
        have hane : a ≠ node := fun heq => has (heq ▸ ha)
        have hahead : a ≠ head := fun heq => (List.nodup_cons.mp h.nodup).1 (heq ▸ ha)
        rw [Function.update_of_ne hahead,Function.update_of_ne hane]
    · constructor
      · rw [Function.update_of_ne hlast.symm,Function.update_self]
      · exact Function.update_self ..
  · rw [← List.cons_append,List.nodup_append]
    refine ⟨h.nodup,List.nodup_singleton node,?_⟩
    intro a ha b hb heq
    rw [List.mem_singleton.mp hb] at heq
    exact hnode (heq ▸ ha)

/-- The two assignments that take a node out. Its neighbours may be the head, or one and the same. -/
theorem Ring.remove (h : Ring next prev head (as++node::bs)) :
    Ring (Function.update next (as.getLastD head) (some (bs.headD head)))
      (Function.update prev (bs.headD head) (some (as.getLastD head))) head (as++bs) := by
  obtain ⟨hbefore,hafter⟩ := segment_append.mp h.links
  obtain ⟨hn,hbs,hdisj⟩ := List.nodup_append.mp (show ((head::as)++node::bs).Nodup from h.nodup)
  have hnodup : (head::(as++bs)).Nodup := by
    have hsub := ((List.sublist_cons_self node bs).append_left as).cons_cons head
    exact hsub.nodup h.nodup
  have hfirst : ∀ z ∉ as, Segment (Function.update next (as.getLastD head) (some z))
      (Function.update prev z (some (as.getLastD head))) head as z := by
    intro z hz
    apply hbefore.retarget hn
    · exact Function.update_self ..
    · exact Function.update_self ..
    · intro a _ hne
      exact Function.update_of_ne hne ..
    · intro a ha
      have hne : a ≠ z := fun heq => hz (heq ▸ ha)
      exact Function.update_of_ne hne ..
  refine ⟨?_,hnodup⟩
  cases bs with
  | nil =>
    rw [List.append_nil]
    exact hfirst head (List.nodup_cons.mp hn).1
  | cons b bs =>
    have hne : ∀ a ∈ head::as, a ≠ b := fun a ha => hdisj a ha b (by simp)
    apply segment_append.mpr
    refine ⟨hfirst b fun hb => hne b (List.mem_cons_of_mem head hb) rfl,?_⟩
    apply hafter.2.2.congr
    · intro a ha
      apply Function.update_of_ne
      exact (hdisj _ (getLastD_mem head as) a (List.mem_cons_of_mem node ha)).symm
    · intro a ha
      have hab : a ≠ b := fun heq => (List.nodup_cons.mp (List.nodup_cons.mp hbs).2).1 (heq ▸ ha)
      exact Function.update_of_ne hab ..
    · exact Function.update_of_ne (hne head List.mem_cons_self) ..

end Assignments

end Foundations.LinkRing
