import Mathlib

/-! Singly linked lists with a head and a tail pointer. The memory is seen through the function that
reads the pointer to the next node. -/
namespace Foundations.LinkedList
variable {next next' : ℕ → Option (Option ℕ)} {p : Option ℕ} {a : ℕ} {as : List ℕ}

/-- From `p` the pointers lead through the nodes `as` to null. -/
def Chain (next : ℕ → Option (Option ℕ)) (p : Option ℕ) : List ℕ → Prop
  | [] => p = none
  | a::as => p = some a ∧ ∃ q, next a = some q ∧ Chain next q as

theorem Chain.head (h : Chain next p as) : p = as.head? := by
  cases as with
  | nil => exact h
  | cons a as => exact h.1

/-- The chain depends on its own nodes only. -/
theorem Chain.congr (h : Chain next p as) (heq : ∀ b ∈ as, next' b = next b) : Chain next' p as := by
  induction as generalizing p with
  | nil => exact h
  | cons a as ih =>
    obtain ⟨hp,q,hq,hrest⟩ := h
    exact ⟨hp,q,(heq a List.mem_cons_self).trans hq,ih hrest fun b hb => heq b (List.mem_cons_of_mem _ hb)⟩

/-- A head and a tail pointer. -/
structure Queue (next : ℕ → Option (Option ℕ)) (head tail : Option ℕ) (as : List ℕ) : Prop where
  chain : Chain next head as
  tail : tail = as.getLast?

variable {head tail : Option ℕ}

theorem Queue.empty_iff (h : Queue next head tail as) : head = none ↔ tail = none := by
  rw [h.chain.head,h.tail,List.head?_eq_none_iff,List.getLast?_eq_none_iff]

theorem Queue.congr (h : Queue next head tail as) (heq : ∀ b ∈ as, next' b = next b) :
    Queue next' head tail as :=
  ⟨h.chain.congr heq,h.tail⟩

/-- Taking the first node off. -/
theorem Queue.pop (h : Queue next (some a) tail as) :
    ∃ q rest, next a = some q ∧ as = a::rest ∧ Queue next q (if q = none then none else tail) rest := by
  obtain ⟨hc,ht⟩ := h
  cases as with
  | nil => cases hc
  | cons b rest =>
    obtain ⟨hb,q,hq,hrest⟩ := hc
    obtain rfl := Option.some.inj hb
    refine ⟨q,rest,hq,rfl,hrest,?_⟩
    rw [ht,hrest.head]
    cases rest with
    | nil => rfl
    | cons c rest => simp

/-- A node after the last one. -/
lemma Chain.snoc (h : Chain next p (as++[a])) {b : ℕ} (hn : (as++[a]).Nodup) (hb : b ∉ as++[a])
    (hnb : next' b = some none) (hna : next' a = some (some b))
    (hrest : ∀ c, c ≠ a → c ≠ b → next' c = next c) : Chain next' p (as++[a]++[b]) := by
  induction as generalizing p with
  | nil => exact ⟨h.1,some b,hna,rfl,none,hnb,rfl⟩
  | cons c as ih =>
    obtain ⟨hp,q,hq,hc⟩ := h
    rw [List.cons_append,List.nodup_cons] at hn
    rw [List.cons_append,List.mem_cons,not_or] at hb
    have hca : c ≠ a := fun e => hn.1 (by simp [e])
    refine ⟨hp,q,?_,ih hc hn.2 hb.2⟩
    rw [hrest c hca (Ne.symm hb.1),hq]

/-- Putting a node behind the last one: the new node ends the list, and the old tail, if there is one,
points to it. -/
theorem Queue.push (h : Queue next head tail as) {b : ℕ} (hn : as.Nodup) (hb : b ∉ as)
    (hnb : next' b = some none) (htail : ∀ t, tail = some t → next' t = some (some b))
    (hrest : ∀ c, tail ≠ some c → c ≠ b → next' c = next c) :
    Queue next' (if head = none then some b else head) (some b) (as++[b]) := by
  obtain ⟨hc,ht⟩ := h
  rcases List.eq_nil_or_concat' as with rfl | ⟨xs,a,rfl⟩
  · rw [hc.head]
    exact ⟨⟨rfl,none,hnb,rfl⟩,rfl⟩
  · rw [List.getLast?_concat] at ht
    refine ⟨?_,List.getLast?_concat.symm⟩
    have hne : head ≠ none := by
      rw [hc.head]
      simp
    rw [if_neg hne]
    apply hc.snoc hn hb hnb (htail a ht)
    exact fun c hca => hrest c fun e => hca (Option.some.inj (e.symm.trans ht))

end Foundations.LinkedList
