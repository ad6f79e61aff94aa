import JustKit.Bloom.Positions
import JustKit.Foundations.Transition

/-! Any number of filters with the default hash. They share the salts, which every initialisation draws
again, so a key stays reported only as long as no other filter is initialised with other salts. -/
namespace JustKit.Bloom
open Foundations Foundations.BitArray Foundations.Transition
variable {ι : Type} [DecidableEq ι]

/-- The salts, the filters that have been initialised, and for each the keys that were set since then. -/
structure Filters (ι : Type) where
  salts : Salts
  filter : ι → Option Filter
  keys : ι → List Key

/-- The calls on a filter at address `f`; `hash` is the null pointer in all of them. -/
inductive Op (ι : Type) where
  | init (f : ι) (rand : ℕ → BitVec 32) (size : ℤ)
  | new (f : ι) (rand : ℕ → BitVec 32) (size : ℤ) (malloc : Bool)
  | set (f : ι) (key : Key)
  | isset (f : ι) (key : Key)

/-- No filter is initialised. -/
def noFilters (ι : Type) : Filters ι := ⟨fun _ => 0,fun _ => none,fun _ => []⟩

def Filters.put (s : Filters ι) (f : ι) (filter : Filter) (keys : List Key) : Filters ι :=
  { s with filter := Function.update s.filter f (some filter), keys := Function.update s.keys f keys }

/-- One call, unless it runs into undefined behaviour. -/
def Op.exec (s : Filters ι) : Op ι → Option (Filters ι)
  | .init f rand size => do
    let (salts,filter) ← bloomFilterInit s.salts rand none size
    return { s.put f filter [] with salts := salts }
  | .new f rand size malloc => do
    let (salts,filter) ← bloomFilterNew s.salts rand none size malloc
    match filter with
    | some filter => return { s.put f filter [] with salts := salts }
    | none => return { s with salts := salts }
  | .set f key => do
    let filter ← bloomFilterSet s.salts (← s.filter f) key
    return s.put f filter (key::s.keys f)
  | .isset f key => do
    let _ ← bloomFilterIsset s.salts (← s.filter f) key
    return s

/-- The salts that an initialisation of `f` draws are those in use, or no other filter holds a key. -/
def Filters.Unharmed (s : Filters ι) (f : ι) (rand : ℕ → BitVec 32) : Prop :=
  initSalts rand s.salts = s.salts ∨ ∀ g, g ≠ f → s.filter g ≠ none → s.keys g = []

/-- The call draws no salts that another filter with a key does not expect. -/
def Op.Harmless (s : Filters ι) : Op ι → Prop
  | .init f rand _ => s.Unharmed f rand
  | .new f rand _ malloc => malloc → s.Unharmed f rand
  | _ => True

/-- Every key that was set has all its positions set. -/
def Kept (s : Filters ι) : Prop :=
  ∀ f filter key, s.filter f = some filter → key ∈ s.keys f → filter.Reports s.salts key (List.range 8)

omit [DecidableEq ι] in
lemma noFilters_kept : Kept (noFilters ι) := fun _ _ _ h => nomatch h

/-- A set keeps what is reported, and reports its key. -/
lemma Added.reports {salts : Salts} {key : Key} {is : List ℕ} {f f' : Filter} (h : Added salts key is f f') :
    f'.Reports salts key is ∧ ∀ key' is', f.Reports salts key' is' → f'.Reports salts key' is' := by
  have hsame (k : Key) (i : ℕ) : f'.positionOf salts k i = f.positionOf salts k i :=
    positionOf_congr h.hash h.size h.length i
  constructor
  · intro i hi
    obtain ⟨n,hn⟩ := Option.ne_none_iff_exists'.mp (h.position i hi)
    exact ⟨n,(hsame key i).trans hn,(h.member n).mpr (Or.inl ⟨i,hi,hn⟩)⟩
  · intro key' is' hr i hi
    obtain ⟨n,hn,hm⟩ := hr i hi
    exact ⟨n,(hsame key' i).trans hn,(h.member n).mpr (Or.inr hm)⟩

section Steps
variable {s s' : Filters ι} (h : Kept s)
include h

lemma Kept.put {f : ι} {filter : Filter} {keys : List Key}
    (hf : ∀ key ∈ keys, filter.Reports s.salts key (List.range 8)) : Kept (s.put f filter keys) := by
  intro g filter' key hg hkey
  by_cases hgf : g = f
  · subst hgf
    simp only [Filters.put,Function.update_self,Option.some.injEq] at hg hkey
    subst hg
    exact hf key hkey
  · simp only [Filters.put,Function.update_of_ne hgf] at hg hkey
    exact h g filter' key hg hkey

/-- An initialisation changes the salts under no filter that holds a key. -/
lemma Kept.init {f : ι} {rand : ℕ → BitVec 32} (hu : s.Unharmed f rand) (filter : Filter) :
    Kept { s.put f filter [] with salts := initSalts rand s.salts } := by
  rcases hu with hsame | hempty
  · rw [hsame]
    exact h.put fun key hkey => nomatch hkey
  · intro g filter' key hg hkey
    by_cases hgf : g = f
    · subst hgf
      simp [Filters.put] at hkey
    · simp only [Filters.put,Function.update_of_ne hgf] at hg hkey
      rw [hempty g hgf (by simp [hg])] at hkey
      cases hkey

theorem Kept.exec {op : Op ι} (hc : op.Harmless s) (hstep : op.exec s = some s') : Kept s' := by
  cases op with
  | init f rand size =>
    obtain ⟨⟨salts,filter⟩,hinit,hs⟩ := Option.bind_eq_some_iff.mp hstep
    obtain ⟨_,heq⟩ := Option.ite_none_left_eq_some.mp hinit
    cases heq
    obtain rfl := Option.some.inj hs
    exact h.init hc _
  | new f rand size malloc =>
    obtain ⟨⟨salts,filter⟩,hnew,hs⟩ := Option.bind_eq_some_iff.mp hstep
    cases malloc with
    | false =>
      cases hnew
      obtain rfl := Option.some.inj hs
      exact h
    | true =>
      obtain ⟨⟨salts',filter'⟩,hinit,heq⟩ := Option.map_eq_some_iff.mp hnew
      cases heq
      obtain ⟨_,heq⟩ := Option.ite_none_left_eq_some.mp hinit
      cases heq
      obtain rfl := Option.some.inj hs
      exact h.init (hc rfl) _
  | set f key =>
    obtain ⟨filter,hfilter,hs⟩ := Option.bind_eq_some_iff.mp hstep
    obtain ⟨filter',hset,hs⟩ := Option.bind_eq_some_iff.mp hs
    obtain rfl := Option.some.inj hs
    obtain ⟨hnew,hold⟩ := (bloomFilterSet_spec hset).reports
    apply h.put
    intro key' hkey'
    rcases List.mem_cons.mp hkey' with rfl | hkey'
    · exact hnew
    · exact hold key' _ (h f filter key' hfilter hkey')
  | isset f key =>
    obtain ⟨filter,_,hs⟩ := Option.bind_eq_some_iff.mp hstep
    obtain ⟨_,_,hs⟩ := Option.bind_eq_some_iff.mp hs
    obtain rfl := Option.some.inj hs
    exact h

end Steps

/-- In a run whose initialisations all leave the salts of filters with keys alone, a key that was set is
reported until its filter is initialised again. -/
theorem set_key_reported (ops : List (Op ι)) (s : Filters ι) (hrun : run Op.exec (noFilters ι) ops = some s)
    (hharmless : Always Op.exec (fun s op => op.Harmless s) (noFilters ι) ops)
    (f : ι) (filter : Filter) (hf : s.filter f = some filter) (key : Key) (hkey : key ∈ s.keys f) :
    bloomFilterIsset s.salts filter key = some 1 := by
  have h : Kept s := run_invariant_when (fun _ _ _ h hc hstep => h.exec hc hstep) noFilters_kept hrun hharmless
  exact (issetLoop_iff _).mpr (h f filter key hf hkey)

/-- Two filters are initialised with different salts, and get keys after that. -/
def laterKeys (f g : ι) : List (Op ι) :=
  [.init f (fun _ => 0) 16,.new g (fun n => BitVec.ofNat 32 (n*n)) 8 true,.set f [107],.set g [1,2],.isset f [107]]

lemma laterKeys_ends : (run Op.exec (noFilters Bool) (laterKeys true false)).isSome := by decide +kernel

lemma laterKeys_harmless : Always Op.exec (fun s op => op.Harmless s) (noFilters Bool) (laterKeys true false) := by
  unfold laterKeys
  refine always_cons.mpr ⟨Or.inr fun _ _ h => absurd rfl h,fun s hs => ?_⟩
  refine always_cons.mpr ⟨fun _ => Or.inr fun g hg _ => ?_,fun s' _ => ?_⟩
  · obtain rfl := Option.some.inj hs
    obtain rfl : g = true := by simpa using hg
    rfl
  · refine always_cons.mpr ⟨trivial,fun _ _ => ?_⟩
    refine always_cons.mpr ⟨trivial,fun _ _ => ?_⟩
    exact always_cons.mpr ⟨trivial,fun _ _ => always_nil _ _⟩

theorem set_key_reported_later : ∃ s filter, run Op.exec (noFilters Bool) (laterKeys true false) = some s ∧
    s.filter true = some filter ∧ bloomFilterIsset s.salts filter [107] = some 1 := by
  have hrun := (Option.some_get laterKeys_ends).symm
  have hf : (((run Op.exec (noFilters Bool) (laterKeys true false)).get laterKeys_ends).filter true).isSome := by
    decide +kernel
  have hfilter := (Option.some_get hf).symm
  exact ⟨_,_,hrun,hfilter,set_key_reported (laterKeys true false) _ hrun laterKeys_harmless true _ hfilter [107]
    (by decide +kernel)⟩

/-- A filter is initialised while another one holds a key. -/
def earlierKey (f g : ι) : List (Op ι) :=
  [.init f (fun _ => 0) 16,.set f [107],.init g (fun n => if n = 0 then 1 else 0) 16]

lemma earlierKey_ends : (run Op.exec (noFilters Bool) (earlierKey true false)).isSome := by decide +kernel

lemma earlierKey_filter :
    (((run Op.exec (noFilters Bool) (earlierKey true false)).get earlierKey_ends).filter true).isSome := by
  decide +kernel

/-- The key is not reported any more. -/
theorem other_init_loses_key : ∃ s filter, run Op.exec (noFilters Bool) (earlierKey true false) = some s ∧
    s.filter true = some filter ∧ [107] ∈ s.keys true ∧ bloomFilterIsset s.salts filter [107] = some 0 := by
  exact ⟨_,_,(Option.some_get earlierKey_ends).symm,(Option.some_get earlierKey_filter).symm,by decide +kernel,
    by decide +kernel⟩

end JustKit.Bloom
