import JustKit.Timers.Deadlines
import JustKit.Timers.Firing

/-! One call of `jk_timer_process_timeout` with deadlines that differ and results that fit the `int`: whose
callbacks it calls, what it leaves pending, what it returns, and that it ends when the clock stands still. -/
namespace JustKit.Timers
open Foundations Foundations.HTree JustKit.Avl

/-- The timer `n` is pending with the deadline `k`. -/
def Pending (T : Timer) (n : TimerNode) (k : UInt64) : Prop :=
  ∃ t i, Represents T.tree t ∧ i ∈ t.toList ∧ i.key = k ∧ T.nodes i.addr = some n

/-- The callback returns no more than an `int` holds, and the clock readings leave room for the sum. -/
structure Tick.Bounded (tick : Tick) : Prop where
  result : tick.result.toNat < 2^31
  current : tick.current.toNat < 2^63
  later : tick.later.toNat < 2^63

/-- `jk_timer_process_timeout` with its counter: the return value, once the loop has ended. To count
beyond an `int` has no defined behaviour. -/
def processCounted (T : Timer) (nevents : ℤ) : List Tick → Option (Timer × Option ℤ)
  | [] => some (T,none)
  | tick::ticks => do
    match ← processPass T tick with
    | (T,none) => return (T,some nevents)
    | (T,some _) => if nevents+1 < 2^31 then processCounted T (nevents+1) ticks else none

/-- A pass that calls the callback of `n`: the timer is due and has the smallest deadline; it is released if
the result is 0, else it is pending with the result added to the clock reading after the callback; all
others stay as they are. -/
structure Fired (T : Timer) (tick : Tick) (n : TimerNode) (T' : Timer) : Prop where
  due : ∃ k ≤ tick.current, Pending T n k ∧ ∀ m k', Pending T m k' → k ≤ k'
  released : T'.released = if tick.result = 0 then T.released++[n] else T.released
  pending : ∀ m k, Pending T' m k ↔
    (m ≠ n ∧ Pending T m k) ∨ (m = n ∧ tick.result ≠ 0 ∧ k.toNat = tick.result.toNat+tick.later.toNat)

/-- A call that returns: passes that call the callbacks `events`, until every pending deadline is later
than the clock reading just compared. -/
inductive Processed : Timer → List Tick → List TimerNode → Timer → Prop
  | ended {T : Timer} {tick : Tick} {ticks : List Tick} (h : ∀ m k, Pending T m k → tick.current < k) :
      Processed T (tick::ticks) [] T
  | fired {T T₁ T' : Timer} {tick : Tick} {ticks : List Tick} {n : TimerNode} {events : List TimerNode}
      (first : Fired T tick n T₁) (rest : Processed T₁ ticks events T') : Processed T (tick::ticks)
        (n::events) T'

/-! ### One pass -/

lemma Tick.Bounded.retval_eq {tick : Tick} (h : tick.Bounded) : tick.retval = tick.result.toNat := by
  have hresult := h.result
  exact wrap_of_range (w := 31) (by omega) (by omega)

lemma Tick.Bounded.newKey_toNat {tick : Tick} (h : tick.Bounded) :
    tick.newKey.toNat = tick.result.toNat+tick.later.toNat := by
  have hlater := h.later
  have hresult := h.result
  rw [Nat.add_comm]
  exact Timers.newKey_toNat hresult (by omega)

lemma Tick.Bounded.retval_pos {tick : Tick} (h : tick.Bounded) : 0 < tick.retval ↔ tick.result ≠ 0 := by
  rw [h.retval_eq]
  constructor
  · intro hpos he
    rw [he] at hpos
    exact absurd hpos (by decide)
  · intro hne
    have hzero : tick.result.toNat ≠ 0 := fun he => hne (UInt64.toNat_inj.mp he)
    omega

section Kept
variable {T : Timer} {t : HTree (Item Addr)} (h : Kept T t)
include h

lemma Kept.pending_iff {n : TimerNode} {k : UInt64} : Pending T n k ↔ (k,some n) ∈ agenda T t := by
  constructor
  · rintro ⟨t',i,ht',hi,rfl,hn⟩
    rw [ht'.unique h.avl.rep] at hi
    exact List.mem_map.mpr ⟨i,hi,by rw [hn]⟩
  · intro hm
    obtain ⟨i,hi,he⟩ := List.mem_map.mp hm
    obtain ⟨hkey,hn⟩ := Prod.mk.inj he
    exact ⟨t,i,h.avl.rep,hi,hkey,hn⟩

/-- No timer is pending twice. -/
lemma Kept.agenda_nodup : ((agenda T t).map Prod.snd).Nodup := by
  rw [agenda_snd]
  exact (List.nodup_append'.mp (nodup_of_once h.once h.serials)).1

section First
variable {k : UInt64} {n : TimerNode} {rest : List (UInt64 × Option TimerNode)}
  (first : (agenda T t).Perm ((k,some n)::rest))
include first

lemma Kept.first_pending (least : ∀ q ∈ rest, k ≤ q.1) : Pending T n k ∧ ∀ m k', Pending T m k' →
    k ≤ k' := by
  refine ⟨h.pending_iff.mpr (first.mem_iff.mpr List.mem_cons_self),fun m k' hm => ?_⟩
  cases List.mem_cons.mp (first.mem_iff.mp (h.pending_iff.mp hm)) with
  | inl he => exact (Prod.mk.inj he).1.ge
  | inr hrest => exact least _ hrest

/-- The rest of the agenda holds the other timers. -/
lemma Kept.mem_rest_iff {m : TimerNode} {k' : UInt64} : (k',some m) ∈ rest ↔ m ≠ n ∧ Pending T m k' := by
  have hnodup := h.agenda_nodup
  rw [(first.map Prod.snd).nodup_iff,List.map_cons,List.nodup_cons] at hnodup
  constructor
  · intro hm
    refine ⟨fun he => hnodup.1 (List.mem_map.mpr ⟨_,hm,congrArg some he⟩),?_⟩
    exact h.pending_iff.mpr (first.mem_iff.mpr (List.mem_cons_of_mem _ hm))
  · rintro ⟨hne,hm⟩
    cases List.mem_cons.mp (first.mem_iff.mp (h.pending_iff.mp hm)) with
    | inl he => exact absurd (Option.some.inj (Prod.mk.inj he).2) hne
    | inr hrest => exact hrest

end First

end Kept

section Pass
variable {T T' : Timer} {t t' : HTree (Item Addr)} (h : Kept T t) (h' : Kept T' t') {tick : Tick}
  (hb : tick.Bounded)
include h h' hb

theorem Passed.fired {n : TimerNode} (hp : Passed T t tick T' t' (some n)) : Fired T tick n T' := by
  have hagain := hb.retval_pos
  cases hp with
  | @rescheduled _ _ k _ rest first least due again others next =>
    have hne : tick.result ≠ 0 := hagain.mp again
    refine ⟨⟨k,due,h.first_pending first least⟩,by rw [if_neg hne,others],fun m k' => ?_⟩
    rw [h'.pending_iff,next.mem_iff,List.mem_cons,h.mem_rest_iff first,Prod.mk.injEq,Option.some.injEq,
      ← hb.newKey_toNat,UInt64.toNat_inj]
    constructor
    · rintro (⟨hk,hm⟩ | hm)
      · exact Or.inr ⟨hm,hne,hk⟩
      · exact Or.inl hm
    · rintro (hm | ⟨hm,_,hk⟩)
      · exact Or.inr hm
      · exact Or.inl ⟨hk,hm⟩
  | @released _ _ k _ rest first least due done last next =>
    have hzero : tick.result = 0 := by
      by_contra hne
      exact done (hagain.mpr hne)
    refine ⟨⟨k,due,h.first_pending first least⟩,by rw [if_pos hzero,last],fun m k' => ?_⟩
    rw [h'.pending_iff,next.mem_iff,h.mem_rest_iff first]
    constructor
    · exact Or.inl
    · rintro (hm | ⟨_,hne,_⟩)
      · exact hm
      · exact absurd hzero hne

end Pass

/-! ### A call that returns -/

theorem Kept.processed {T T' : Timer} {t : HTree (Item Addr)} {ticks : List Tick} {events : List TimerNode}
    (h : Kept T t) (hd : DistinctTicks T ticks) (hb : ∀ tick ∈ ticks, tick.Bounded)
    (hrun : timerProcessTimeout T ticks = some (T',events,true)) : Processed T ticks events T' := by
  induction ticks generalizing T t events with
  | nil => cases hrun
  | cons tick ticks ih =>
    obtain ⟨⟨T₁,r⟩,hpass,hrest⟩ := Option.bind_eq_some_iff.mp hrun
    obtain ⟨t₁,h₁,hpassed⟩ := h.passed hd.1 hpass
    cases r with
    | none =>
      cases hrest
      cases hpassed with
      | ended hlater => exact .ended fun m k hm => hlater _ (h.pending_iff.mp hm)
    | some n =>
      obtain ⟨⟨T₂,events',ended⟩,hcall,he⟩ := Option.bind_eq_some_iff.mp hrest
      cases he
      exact .fired (hpassed.fired h h₁ (hb tick List.mem_cons_self))
        (ih h₁ (hd.2 _ _ hpass) (fun tick' ht => hb tick' (List.mem_cons_of_mem _ ht)) hcall)

/-- The return value is the number of callbacks. -/
theorem processCounted_spec {T T' : Timer} {ticks : List Tick} {c v : ℤ}
    (h : processCounted T c ticks = some (T',some v)) :
    ∃ events, timerProcessTimeout T ticks = some (T',events,true) ∧ v = c+events.length := by
  induction ticks generalizing T c with
  | nil => cases h
  | cons tick ticks ih =>
    obtain ⟨⟨T₁,r⟩,hpass,h⟩ := Option.bind_eq_some_iff.mp h
    cases r with
    | none =>
      cases h
      exact ⟨[],by simp [timerProcessTimeout,hpass],by simp⟩
    | some n =>
      dsimp only at h
      split_ifs at h with hfits
      obtain ⟨events,h1,h2⟩ := ih h
      refine ⟨n::events,by simp [timerProcessTimeout,hpass,h1],?_⟩
      rw [h2,List.length_cons,Nat.cast_succ]
      ring

theorem processCounted_of {T T' : Timer} {ticks : List Tick} {events : List TimerNode} {c : ℤ}
    (h : timerProcessTimeout T ticks = some (T',events,true)) (hc : c+events.length < 2^31) :
    processCounted T c ticks = some (T',some (c+events.length)) := by
  induction ticks generalizing T c events with
  | nil => cases h
  | cons tick ticks ih =>
    obtain ⟨⟨T₁,r⟩,hpass,h⟩ := Option.bind_eq_some_iff.mp h
    cases r with
    | none =>
      cases h
      simp [processCounted,hpass]
    | some n =>
      obtain ⟨⟨T₂,events',ended⟩,hcall,he⟩ := Option.bind_eq_some_iff.mp h
      cases he
      rw [List.length_cons,Nat.cast_succ] at hc ⊢
      have hnext := ih hcall (c := c+1) (by omega)
      simp only [processCounted,hpass,Option.bind_eq_bind,Option.bind_some]
      rw [if_pos (by omega),hnext]
      congr 3
      ring

/-! ### A clock that stands still -/

/-- The timers that are due at a clock reading. -/
def due (T : Timer) (t : HTree (Item Addr)) (c : UInt64) : List (Option TimerNode) :=
  ((agenda T t).filter fun q => q.1 ≤ c).map Prod.snd

/-- One pass takes one timer from those due, and a timer scheduled anew is not due. -/
lemma Passed.due_perm {T T' : Timer} {t t' : HTree (Item Addr)} {tick : Tick} {n : TimerNode}
    (hp : Passed T t tick T' t' (some n)) (hb : tick.Bounded) {c : UInt64}
    (hc : tick.current = c ∧ tick.later = c) : (due T t c).Perm (some n::due T' t' c) := by
  obtain ⟨rfl,hlater⟩ := hc
  have hpos := hb.retval_pos
  cases hp with
  | @rescheduled _ _ k _ rest first least hdue again others next =>
    have hlate : ¬ tick.newKey ≤ tick.current := by
      have hne : tick.result.toNat ≠ 0 := fun he => hpos.mp again (UInt64.toNat_inj.mp he)
      rw [UInt64.le_iff_toNat_le,hb.newKey_toNat,hlater]
      omega
    have h1 := (first.filter fun q => q.1 ≤ tick.current).map Prod.snd
    have h2 := (next.filter fun q => q.1 ≤ tick.current).map Prod.snd
    rw [List.filter_cons_of_pos (by simpa using hdue)] at h1
    rw [List.filter_cons_of_neg (by simpa using hlate)] at h2
    exact h1.trans (h2.symm.cons _)
  | @released _ _ k _ rest first least hdue done last next =>
    have h1 := (first.filter fun q => q.1 ≤ tick.current).map Prod.snd
    have h2 := (next.filter fun q => q.1 ≤ tick.current).map Prod.snd
    rw [List.filter_cons_of_pos (by simpa using hdue)] at h1
    exact h1.trans (h2.symm.cons _)

/-- While the clock stands still the callbacks called and the timers still due are those due at the start. -/
theorem Kept.due_perm {T T' : Timer} {t : HTree (Item Addr)} {ticks : List Tick} {events : List TimerNode}
    {ended : Bool} {c : UInt64} (h : Kept T t) (hd : DistinctTicks T ticks) (hb : ∀ tick ∈ ticks, tick.Bounded)
    (hc : ∀ tick ∈ ticks, tick.current = c ∧ tick.later = c)
    (hrun : timerProcessTimeout T ticks = some (T',events,ended)) :
    ∃ t', Kept T' t' ∧ (due T t c).Perm (events.map some++due T' t' c) ∧
      (ended = true → due T' t' c = []) ∧ (ended = false → events.length = ticks.length) := by
  induction ticks generalizing T t events with
  | nil =>
    cases hrun
    exact ⟨t,h,by simp,by simp,by simp⟩
  | cons tick ticks ih =>
    obtain ⟨⟨T₁,r⟩,hpass,hrest⟩ := Option.bind_eq_some_iff.mp hrun
    obtain ⟨t₁,h₁,hpassed⟩ := h.passed hd.1 hpass
    have hc₁ := hc tick List.mem_cons_self
    cases r with
    | none =>
      cases hrest
      cases hpassed with
      | ended hlater =>
        refine ⟨t,h,by simp,fun _ => ?_,by simp⟩
        rw [due,List.map_eq_nil_iff,List.filter_eq_nil_iff]
        intro q hq hle
        have hlt := hlater q hq
        rw [hc₁.1] at hlt
        exact absurd (of_decide_eq_true hle) (not_le.mpr hlt)
    | some n =>
      obtain ⟨⟨T₂,events',ended'⟩,hcall,he⟩ := Option.bind_eq_some_iff.mp hrest
      cases he
      have hperm := hpassed.due_perm (hb tick List.mem_cons_self) hc₁
      obtain ⟨t₂,h1,h2,h3,h4⟩ :=
        ih h₁ (hd.2 _ _ hpass) (fun tick' ht => hb tick' (List.mem_cons_of_mem _ ht))
        (fun tick' ht => hc tick' (List.mem_cons_of_mem _ ht)) hcall
      exact ⟨t₂,h1,hperm.trans (h2.cons _),h3,fun hf => congrArg (·+1) (h4 hf)⟩

lemma Kept.due_length_le {T : Timer} {t : HTree (Item Addr)} (_ : Kept T t) (c : UInt64) :
    (due T t c).length ≤ t.toList.length := by
  rw [due,List.length_map]
  exact (List.length_filter_le _ _).trans_eq (by rw [agenda,List.length_map])

lemma Kept.mem_due {T : Timer} {t : HTree (Item Addr)} (h : Kept T t) {c : UInt64} {n : TimerNode} :
    some n ∈ due T t c ↔ ∃ k ≤ c, Pending T n k := by
  rw [due,List.mem_map]
  constructor
  · rintro ⟨⟨k,m⟩,hq,rfl⟩
    obtain ⟨hmem,hle⟩ := List.mem_filter.mp hq
    exact ⟨k,of_decide_eq_true hle,h.pending_iff.mpr hmem⟩
  · rintro ⟨k,hle,hk⟩
    exact ⟨(k,some n),List.mem_filter.mpr ⟨h.pending_iff.mp hk,decide_eq_true hle⟩,rfl⟩

/-- A call that has more passes than there are pending timers has ended, and has called each timer that
was due once. -/
theorem Kept.ends {T : Timer} {t : HTree (Item Addr)} {ticks : List Tick} {c : UInt64} (h : Kept T t)
    (hd : DistinctTicks T ticks) (hb : ∀ tick ∈ ticks, tick.Bounded)
    (hc : ∀ tick ∈ ticks, tick.current = c ∧ tick.later = c) (hlen : t.toList.length < ticks.length)
    {T' : Timer} {events : List TimerNode} {ended : Bool}
    (hrun : timerProcessTimeout T ticks = some (T',events,ended)) :
    ended = true ∧ events.length ≤ t.toList.length ∧ events.Nodup ∧ ∀ n, n ∈ events ↔
      ∃ k ≤ c, Pending T n k := by
  obtain ⟨t',h1,h2,h3,h4⟩ := h.due_perm hd hb hc hrun
  have hended : ended = true := by
    cases ended with
    | true => rfl
    | false =>
      have hle := h.due_length_le c
      rw [h2.length_eq,List.length_append,List.length_map,h4 rfl] at hle
      omega
  rw [h3 hended,List.append_nil] at h2
  refine ⟨hended,?_,?_,fun n => ?_⟩
  · have hle := h.due_length_le c
    rwa [h2.length_eq,List.length_map] at hle
  · have hsub : ((agenda T t).filter fun q => q.1 ≤ c).Sublist (agenda T t) := List.filter_sublist
    exact List.Nodup.of_map _ (h2.nodup_iff.mp ((hsub.map Prod.snd).nodup h.agenda_nodup))
  · rw [← h.mem_due,h2.mem_iff,List.mem_map_of_injective (Option.some_injective _)]

/-- In every run whose deadlines differ at all times: a call that returns has called, one after the other,
the due timer with the smallest deadline, has released it or scheduled it anew as its result says, and
returns the number of callbacks once nothing is due. A call during which the clock stands still ends after
at most one pass for each timer and one more, having called each timer due at its start once. -/
theorem timeout_call_exact (ops : List Op) (T : Timer) (hops : DistinctRun timerInit ops)
    (hrun : run timerInit ops = some T) (ticks : List Tick) (hd : DistinctTicks T ticks)
    (hb : ∀ tick ∈ ticks, tick.Bounded) :
    (∀ T' nevents, processCounted T 0 ticks = some (T',some nevents) →
      ∃ events, Processed T ticks events T' ∧ nevents = events.length) ∧
    ∀ t c, Represents T.tree t → (∀ tick ∈ ticks, tick.current = c ∧ tick.later = c) →
      t.toList.length < ticks.length →
      (t.toList.length < nodeLimit → ∃ T' nevents, processCounted T 0 ticks = some (T',some nevents)) ∧
      ∀ T' events ended, timerProcessTimeout T ticks = some (T',events,ended) →
        ended = true ∧ events.Nodup ∧ ∀ n, n ∈ events ↔ ∃ k ≤ c, Pending T n k := by
  obtain ⟨t,h⟩ := kept_of_run hops hrun
  constructor
  · intro T' nevents hcount
    obtain ⟨events,h1,h2⟩ := processCounted_spec hcount
    exact ⟨events,h.processed hd hb h1,by rw [h2,zero_add]⟩
  · intro t' c ht' hc hlen
    obtain rfl : t' = t := ht'.unique h.avl.rep
    constructor
    · intro hsmall
      obtain ⟨T',u,⟨events,ended⟩,h1,_⟩ := h.process (h.safeTicks_of_small hd hsmall)
      obtain ⟨rfl,hle,_⟩ := h.ends hd hb hc hlen h1
      have hbound : (0 : ℤ)+events.length < 2^31 := by
        unfold nodeLimit at hsmall
        omega
      exact ⟨T',_,processCounted_of h1 hbound⟩
    · intro T' events ended hcall
      obtain ⟨h1,_,h2⟩ := h.ends hd hb hc hlen hcall
      exact ⟨h1,h2⟩

/-- Two timers, and a call that reschedules the first and finds the second not due. The clock stands still, for
one reading more than there are timers. -/
def twoPushes : List Op := [.push 5 0 none 0 (some 1) 0,.push 7 0 (some 3) 0 (some 2) 0]
def twoTicks : List Tick := [⟨6,3,6⟩,⟨6,0,6⟩,⟨6,0,6⟩]

lemma twoPushes_distinct : DistinctRun timerInit twoPushes := by
  refine ⟨keysDistinct_of_represents (t := nil) ⟨rfl,trivial,by simp⟩ (by simp),
    fun a ha => by cases ha; rfl,trivial,
    fun T hT => ?_⟩
  cases hT
  refine ⟨keysDistinct_of_represents (t := node nil ⟨1,5,1⟩ 1 nil)
    ⟨rfl,⟨rfl,trivial,trivial⟩,by decide⟩ (by decide),
    fun a ha => by cases ha; rfl,trivial,fun T hT => ?_⟩
  cases hT
  exact keysDistinct_of_represents (t := node nil ⟨1,5,1⟩ 2 (node nil ⟨2,7,2⟩ 1 nil))
    ⟨rfl,⟨rfl,trivial,⟨rfl,trivial,trivial⟩⟩,by decide⟩ (by decide)

/-- Callbacks that do not reschedule keep the deadlines different. -/
lemma Kept.distinctTicks {T : Timer} {t : HTree (Item Addr)} (h : Kept T t) (hd : KeysDistinct T) {ticks : List Tick}
    (hret : ∀ tick ∈ ticks, tick.retval ≤ 0) : DistinctTicks T ticks := by
  induction ticks generalizing T t with
  | nil => exact hd
  | cons tick ticks ih =>
    obtain ⟨hle,hrest⟩ := List.forall_mem_cons.mp hret
    refine ⟨hd,fun T' n hpass => ?_⟩
    obtain ⟨t',h',hpassed⟩ := h.passed hd hpass
    exact ih h' (hpassed.keysDistinct h' (hd t h.avl.rep) fun hpos => absurd hpos (not_lt.mpr hle)) hrest

lemma twoTicks_distinct {T : Timer} (hT : run timerInit twoPushes = some T) : DistinctTicks T twoTicks := by
  obtain ⟨t,h⟩ := kept_of_run twoPushes_distinct hT
  cases hT
  obtain rfl : t = node nil ⟨1,5,1⟩ 2 (node nil ⟨2,7,2⟩ 1 nil) :=
    h.avl.rep.unique ⟨rfl,⟨rfl,trivial,⟨rfl,trivial,trivial⟩⟩,by decide⟩
  have hd := keysDistinct_of_represents h.avl.rep (by decide)
  refine ⟨hd,fun T₁ n hpass => ?_⟩
  obtain ⟨t₁,h₁,hpassed⟩ := h.passed hd hpass
  exact h₁.distinctTicks (hpassed.keysDistinct h₁ (by decide) (by decide)) (by decide)

theorem timeout_call_exact_two : ∃ T t, run timerInit twoPushes = some T ∧ Represents T.tree t ∧
    t.toList.length < twoTicks.length ∧ (∀ tick ∈ twoTicks, tick.current = 6 ∧ tick.later = 6) ∧
    (∀ T' nevents, processCounted T 0 twoTicks = some (T',some nevents) →
      ∃ events, Processed T twoTicks events T' ∧ nevents = events.length) ∧
    ∀ t c, Represents T.tree t → (∀ tick ∈ twoTicks, tick.current = c ∧ tick.later = c) →
      t.toList.length < twoTicks.length →
      (t.toList.length < nodeLimit → ∃ T' nevents, processCounted T 0 twoTicks = some (T',some nevents)) ∧
      ∀ T' events ended, timerProcessTimeout T twoTicks = some (T',events,ended) →
        ended = true ∧ events.Nodup ∧ ∀ n, n ∈ events ↔ ∃ k ≤ c, Pending T n k := by
  obtain ⟨T,hT⟩ : ∃ T, run timerInit twoPushes = some T := ⟨_,rfl⟩
  have hrep : Represents T.tree (node nil ⟨1,5,1⟩ 2 (node nil ⟨2,7,2⟩ 1 nil)) := by
    cases hT
    exact ⟨rfl,⟨rfl,trivial,⟨rfl,trivial,trivial⟩⟩,by decide⟩
  refine ⟨T,_,hT,hrep,by decide,by decide,timeout_call_exact twoPushes T twoPushes_distinct hT twoTicks
    (twoTicks_distinct hT) ?_⟩
  intro tick htick
  simp only [twoTicks,List.mem_cons,List.not_mem_nil,or_false] at htick
  rcases htick with rfl | rfl | rfl
  · exact ⟨by decide,by decide,by decide⟩
  · exact ⟨by decide,by decide,by decide⟩
  · exact ⟨by decide,by decide,by decide⟩

end JustKit.Timers
