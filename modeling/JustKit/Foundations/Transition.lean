import Mathlib

/-! Labelled transition systems given by a partial step function, and systems of finitely many parties
whose states are kept in a function. -/
namespace Foundations.Transition

section Runs
variable {σ ε : Type*} (step : σ → ε → Option σ)

/-- The state after a sequence of events, if all of them can happen. -/
def run (s : σ) : List ε → Option σ
  | [] => some s
  | e::es => (step s e).bind fun s' => run s' es

variable {step} {s s' : σ} {es : List ε}

theorem run_append (s : σ) (es es' : List ε) :
    run step s (es++es') = (run step s es).bind fun s' => run step s' es' := by
  induction es generalizing s with
  | nil => rfl
  | cons e es ih =>
    simp only [List.cons_append,run,Option.bind_assoc]
    congr 1
    funext s'
    exact ih s'

/-- What holds at the start and survives every step holds after every run. -/
theorem run_invariant {P : σ → Prop} (hstep : ∀ s e s', P s → step s e = some s' → P s') (h : P s)
    (hrun : run step s es = some s') : P s' := by
  induction es generalizing s with
  | nil => exact Option.some.inj hrun ▸ h
  | cons e es ih =>
    obtain ⟨t,ht,hrest⟩ := Option.bind_eq_some_iff.mp hrun
    exact ih (hstep s e t h ht) hrest

/-- Every event of the run meets a condition in the state before it. -/
def Always (step : σ → ε → Option σ) (C : σ → ε → Prop) (s : σ) (es : List ε) : Prop :=
  ∀ pre e post t, es = pre++e::post → run step s pre = some t → C t e

theorem always_nil (C : σ → ε → Prop) (s : σ) : Always step C s [] := fun pre _ _ _ h => by simp at h

theorem always_cons {C : σ → ε → Prop} {e : ε} :
    Always step C s (e::es) ↔ C s e ∧ ∀ t, step s e = some t → Always step C t es := by
  constructor
  · intro h
    refine ⟨h [] e es s rfl rfl,fun t ht pre e' post u hes hpre => ?_⟩
    apply h (e::pre) e' post u (congrArg (e::·) hes)
    rw [run,ht]
    exact hpre
  · rintro ⟨hc,hrest⟩ pre e' post u hes hpre
    cases pre with
    | nil =>
      obtain ⟨rfl,_⟩ := List.cons.inj hes
      exact Option.some.inj hpre ▸ hc
    | cons e'' pre =>
      obtain ⟨rfl,hes'⟩ := List.cons.inj hes
      obtain ⟨t,ht,hpre'⟩ := Option.bind_eq_some_iff.mp hpre
      exact hrest t ht pre e' post u hes' hpre'

/-- Where the condition is about the events alone, it is enough to look at the events. -/
theorem always_const_iff {C : ε → Prop} (hrun : run step s es = some s') :
    Always step (fun _ e => C e) s es ↔ ∀ e ∈ es, C e := by
  induction es generalizing s with
  | nil => simp [always_nil]
  | cons e es ih =>
    obtain ⟨t,ht,hrest⟩ := Option.bind_eq_some_iff.mp hrun
    rw [always_cons,List.forall_mem_cons,← ih hrest]
    refine and_congr_right fun _ => ⟨fun h => h t ht,fun h u hu => ?_⟩
    obtain rfl := Option.some.inj (ht.symm.trans hu)
    exact h

/-- What survives every step that meets the condition holds after a run of such steps. -/
theorem run_invariant_when {P : σ → Prop} {C : σ → ε → Prop}
    (hstep : ∀ s e s', P s → C s e → step s e = some s' → P s')
    (h : P s) (hrun : run step s es = some s') (hC : Always step C s es) : P s' := by
  induction es generalizing s with
  | nil => exact Option.some.inj hrun ▸ h
  | cons e es ih =>
    obtain ⟨t,ht,hrest⟩ := Option.bind_eq_some_iff.mp hrun
    obtain ⟨hc,hC'⟩ := always_cons.mp hC
    exact ih (hstep s e t h hc ht) hrest (hC' t ht)

/-- A quantity that no step lowers is the same after a run exactly if no step of the run raises it. -/
theorem run_same_iff {β : Type*} [PartialOrder β] {q : σ → β} {P : σ → Prop} {C : σ → ε → Prop}
    (hkeeps : ∀ s e s', P s → step s e = some s' → P s')
    (hstep : ∀ s e s', P s → step s e = some s' → q s ≤ q s' ∧ (q s' = q s ↔ C s e))
    (h : P s) (hrun : run step s es = some s') :
    q s ≤ q s' ∧ (q s' = q s ↔ Always step C s es) := by
  induction es generalizing s with
  | nil =>
    obtain rfl := Option.some.inj hrun
    exact ⟨le_rfl,iff_of_true rfl (always_nil C s)⟩
  | cons e es ih =>
    obtain ⟨t,ht,hrest⟩ := Option.bind_eq_some_iff.mp hrun
    obtain ⟨hle,hone⟩ := hstep s e t h ht
    obtain ⟨hle',hall⟩ := ih (hkeeps s e t h ht) hrest
    refine ⟨hle.trans hle',?_⟩
    rw [always_cons,← hone]
    constructor
    · intro hsame
      have hq : q t = q s := le_antisymm (hsame ▸ hle') hle
      refine ⟨hq,fun t' ht' => ?_⟩
      obtain rfl := Option.some.inj (ht.symm.trans ht')
      exact hall.mp (hsame.trans hq.symm)
    · rintro ⟨hq,hrest'⟩
      exact (hall.mpr (hrest' t ht)).trans hq

/-- A property that is never regained holds after a run exactly if no step of the run loses it. -/
theorem run_until_iff {P Q : σ → Prop} {C : σ → ε → Prop}
    (hkeeps : ∀ s e s', P s → step s e = some s' → P s')
    (hlost : ∀ s e s', P s → ¬Q s → step s e = some s' → ¬Q s')
    (hstep : ∀ s e s', P s → Q s → step s e = some s' → (Q s' ↔ C s e))
    (h : P s) (hQ : Q s) (hrun : run step s es = some s') : Q s' ↔ Always step C s es := by
  induction es generalizing s with
  | nil =>
    obtain rfl := Option.some.inj hrun
    exact iff_of_true hQ (always_nil C s)
  | cons e es ih =>
    obtain ⟨t,ht,hrest⟩ := Option.bind_eq_some_iff.mp hrun
    have ht' := hkeeps s e t h ht
    rw [always_cons]
    by_cases hC : C s e
    · have hall := ih ht' ((hstep s e t h hQ ht).mpr hC) hrest
      rw [hall]
      constructor
      · intro hrest'
        refine ⟨hC,fun u hu => ?_⟩
        obtain rfl := Option.some.inj (ht.symm.trans hu)
        exact hrest'
      · intro hboth
        exact hboth.2 t ht
    · have hnot : ¬Q t := fun hQt => hC ((hstep s e t h hQ ht).mp hQt)
      have hend : P s' ∧ ¬Q s' :=
        run_invariant (P := fun s => P s ∧ ¬Q s)
          (fun s e s' hs hs' => ⟨hkeeps s e s' hs.1 hs',hlost s e s' hs.1 hs.2 hs'⟩)
          ⟨ht',hnot⟩ hrest
      exact iff_of_false hend.2 fun hboth => hC hboth.1

/-- No event that meets a condition can happen. -/
def Rests (step : σ → ε → Option σ) (C : σ → ε → Prop) (s : σ) : Prop := ∀ e, C s e →
    step s e = none

section Work
variable {P : σ → Prop} {C : σ → ε → Prop} {work : σ → ℕ}
  (hkeeps : ∀ s e s', P s → C s e → step s e = some s' → P s')
  (hstep : ∀ s e s', P s → C s e → step s e = some s' → work s' < work s)
include hkeeps hstep

/-- Where every event uses up work, the work that is there bounds the number of events. -/
theorem run_length_le (h : P s) (hrun : run step s es = some s') (hC : Always step C s es) :
    es.length+work s' ≤ work s := by
  induction es generalizing s with
  | nil =>
    obtain rfl := Option.some.inj hrun
    simp
  | cons e es ih =>
    obtain ⟨t,ht,hrest⟩ := Option.bind_eq_some_iff.mp hrun
    obtain ⟨hc,hC'⟩ := always_cons.mp hC
    have hle := ih (hkeeps s e t h hc ht) hrest (hC' t ht)
    have hlt := hstep s e t h hc ht
    rw [List.length_cons]
    omega

/-- Where every event uses up work, a run of such events comes to rest. -/
theorem exists_run_rests (h : P s) :
    ∃ es s', Always step C s es ∧ run step s es = some s' ∧ Rests step C s' := by
  induction hw : work s using Nat.strong_induction_on generalizing s with
  | _ k ih =>
    by_cases hrest : Rests step C s
    · exact ⟨[],s,always_nil C s,rfl,hrest⟩
    · unfold Rests at hrest
      push Not at hrest
      obtain ⟨e,hc,hne⟩ := hrest
      obtain ⟨t,ht⟩ := Option.ne_none_iff_exists'.mp hne
      obtain ⟨es,s',hall,hrun,hend⟩ := ih (work t) (hw ▸ hstep s e t h hc ht) (hkeeps s e t h hc ht) rfl
      refine ⟨e::es,s',always_cons.mpr ⟨hc,fun u hu => ?_⟩,?_,hend⟩
      · obtain rfl := Option.some.inj (ht.symm.trans hu)
        exact hall
      · rw [run,ht]
        exact hrun

end Work

/-- A forward simulation. It may rest on what the run is going to do: `F` holds at the end of the run, and so in
each of its states. -/
theorem run_simulates {τ δ : Type*} {step' : τ → δ → Option τ} {R : σ → τ → Prop} {F : σ → Prop}
    (hback : ∀ s e s', step s e = some s' → F s' → F s)
    (hstep : ∀ s e s' t, R s t → F s' → step s e = some s' → ∃ ds t', run step' t ds = some t' ∧ R s' t')
    {t : τ} (h : R s t) (hrun : run step s es = some s') (hF : F s') :
    ∃ ds t', run step' t ds = some t' ∧ R s' t' := by
  induction es generalizing s t with
  | nil =>
    obtain rfl := Option.some.inj hrun
    exact ⟨[],t,rfl,h⟩
  | cons e es ih =>
    obtain ⟨u,hu,hrest⟩ := Option.bind_eq_some_iff.mp hrun
    have hFu : F s' → F u :=
      run_invariant (P := fun v => F v → F u) (fun v e v' hv hstep' hF' => hv (hback v e v' hstep' hF')) id hrest
    obtain ⟨ds,t₁,hfirst,hR⟩ := hstep s e u t h (hFu hF) hu
    obtain ⟨ds',t₂,hlater,hR'⟩ := ih hR hrest
    refine ⟨ds++ds',t₂,?_,hR'⟩
    rw [run_append,hfirst]
    exact hlater

end Runs

section Folds
variable {σ ε : Type*} (f : σ → ε → σ)

/-- `Always` where every event can happen: each event of the run meets a condition in the state before it. -/
def Each (C : σ → ε → Prop) (s : σ) (es : List ε) : Prop := ∀ pre e post, es = pre++e::post →
    C (pre.foldl f s) e

variable {f} {C Q : σ → ε → Prop} {s : σ} {es : List ε}

theorem each_nil : Each f C s [] := fun pre _ _ h => by simp at h

theorem each_cons {e : ε} : Each f C s (e::es) ↔ C s e ∧ Each f C (f s e) es := by
  constructor
  · intro h
    exact ⟨h [] e es rfl,fun pre e' post hes => h (e::pre) e' post (congrArg (e::·) hes)⟩
  · intro ⟨hc,hrest⟩ pre e' post hes
    cases pre with
    | nil =>
      obtain ⟨rfl,_⟩ := List.cons.inj hes
      exact hc
    | cons e'' pre =>
      obtain ⟨rfl,hes'⟩ := List.cons.inj hes
      exact hrest pre e' post hes'

theorem each_const {C : ε → Prop} : Each f (fun _ e => C e) s es ↔ ∀ e ∈ es, C e := by
  induction es generalizing s with
  | nil => simp [each_nil]
  | cons e es ih => rw [each_cons,ih,List.forall_mem_cons]

/-- In states that a property `Q` of the steps keeps good, it is enough to compare the two conditions there. -/
theorem each_iff {P : σ → Prop} (hkeeps : ∀ s, P s → ∀ e ∈ es, Q s e → P (f s e))
    (hiff : ∀ s, P s → ∀ e ∈ es, (Q s e ↔ C s e)) (h : P s) : Each f Q s es ↔ Each f C s es := by
  induction es generalizing s with
  | nil => exact iff_of_true each_nil each_nil
  | cons e es ih =>
    rw [each_cons,each_cons,← hiff s h e List.mem_cons_self]
    refine and_congr_right fun hq => ih ?_ ?_ (hkeeps s h e List.mem_cons_self hq)
    · intro s hs e' he'
      exact hkeeps s hs e' (List.mem_cons_of_mem e he')
    · intro s hs e' he'
      exact hiff s hs e' (List.mem_cons_of_mem e he')

end Folds

section Parties
variable {ι α M : Type*} [Fintype ι] [AddCommMonoid M] (f : α → M) {w w' : ι → α}

/-- The sum of an account over all parties. -/
def total (w : ι → α) : M := ∑ i,f (w i)

theorem total_congr (h : ∀ i, f (w' i) = f (w i)) : total f w' = total f w := Finset.sum_congr rfl fun i _ => h i

theorem total_eq_zero (h : ∀ i, f (w i) = 0) : total f w = 0 := Finset.sum_eq_zero fun i _ => h i

theorem total_add (g : α → M) (w : ι → α) : total (fun a => f a+g a) w = total f w+total g w :=
  Finset.sum_add_distrib

theorem total_le [Preorder M] [AddLeftMono M] {g : α → M} (h : ∀ i, f (w i) ≤ g (w i)) :
    total f w ≤ total g w :=
  Finset.sum_le_sum fun i _ => h i

theorem total_lt [PartialOrder M] [IsOrderedCancelAddMonoid M] {i : ι} (h : ∀ j, f (w j) ≤ f (w' j))
    (hi : f (w i) < f (w' i)) : total f w < total f w' :=
  Finset.sum_lt_sum (fun j _ => h j) ⟨i,Finset.mem_univ i,hi⟩

variable [DecidableEq ι]

/-- One party moves from one account to another. -/
theorem total_update (w : ι → α) (i : ι) (x : α) :
    total f (Function.update w i x)+f (w i) = total f w+f x := by
  have h1 := Finset.add_sum_erase Finset.univ (fun j => f (Function.update w i x j)) (Finset.mem_univ i)
  have h2 := Finset.add_sum_erase Finset.univ (fun j => f (w j)) (Finset.mem_univ i)
  have hrest : ∑ j ∈ Finset.univ.erase i,f (Function.update w i x j) = ∑ j ∈ Finset.univ.erase i,f (w j) :=
    Finset.sum_congr rfl fun j hj => by rw [Function.update_of_ne (Finset.ne_of_mem_erase hj)]
  unfold total
  rw [← h1,← h2,hrest,Function.update_self]
  abel

/-- A party keeps its account. -/
theorem total_update_same (w : ι → α) (i : ι) {x : α} (h : f x = f (w i)) :
    total f (Function.update w i x) = total f w := by
  apply total_congr
  intro j
  by_cases hj : j = i
  · rw [hj,Function.update_self,h]
  · rw [Function.update_of_ne hj]

end Parties

end Foundations.Transition
