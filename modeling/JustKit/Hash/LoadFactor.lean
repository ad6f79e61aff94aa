import JustKit.Hash.Runs

/-! The load factor. The growth test runs once for each new entry, and the next size is at least one above the
size before it. Where it is exactly one above, which only a size given to `jk_hash_init` can be, the table can be
one entry short of what the test asks for. -/
namespace JustKit.Hash
open Foundations
variable {δ : Type}

/-- New buckets are not refused. -/
def Op.Granted : Op δ → Prop
  | .insert _ _ _ _ calloc => calloc = true
  | _ => True

/-- The load factor is at most 2/3, or the table cannot grow, or it has just grown by one bucket from the size
`first` that it had at the start. -/
def Restored (first : ℕ) (T : Table δ) : Prop :=
  3*T.elm_nums ≤ 2*T.buckets_size ∨ T.buckets_size = bucketsMaxSize ∨
    (3 ∣ first ∧ T.buckets_size = first+1 ∧ first+1 ∈ bucketsSizes ∧ 3*T.elm_nums = 2*T.buckets_size+1)

/-! ### The sizes -/

/-- The sizes of the table of sizes are more than one apart. -/
lemma nextSize_of_mem {n : ℕ} (h : n ∈ bucketsSizes) : n = bucketsMaxSize ∨ n+2 ≤ nextSize n :=
  (show ∀ n ∈ bucketsSizes, n = bucketsMaxSize ∨ n+2 ≤ nextSize n by decide) n h

lemma nextSize_gt {n : ℕ} (h : n < bucketsMaxSize) : n < nextSize n := by
  unfold nextSize
  cases hfind : bucketsSizes.find? fun m => n < m with
  | some m => simpa using List.find?_some hfind
  | none => exact h

lemma nextSize_max : nextSize bucketsMaxSize = bucketsMaxSize := by decide

/-! ### One call -/

lemma grown_hash (T : Table δ) (calloc : Bool) : (T.grown calloc).hash = T.hash := by
  obtain hT | ⟨n,_,_,hT⟩ := grown_cases T calloc
  · rw [hT]
  · rw [hT]
    rfl

/-- The count is exact as long as the table can grow, and its size is the first one or in the table of sizes. -/
structure Table.Loaded (first : ℕ) (T : Table δ) : Prop where
  sized : T.Sized
  count : T.buckets_size < bucketsMaxSize → T.elm_nums = T.entries.length
  size : T.buckets_size = first ∨ T.buckets_size ∈ bucketsSizes
  restored : Restored first T

section Loaded
variable {first : ℕ} {T : Table δ} (h : T.Loaded first)
include h

/-- A table that can grow has less than one entry too many. -/
lemma Table.Loaded.load_le (hlt : T.buckets_size < bucketsMaxSize) : 3*T.elm_nums ≤ 2*T.buckets_size+1 := by
  obtain hle | hmax | ⟨_,_,_,hone⟩ := h.restored
  all_goals omega

omit h in
/-- The lengths before and after a change in the middle of one chain. -/
lemma patched_length {i : ℕ} (hi : i < T.buckets_size) {xs ys zs : List (Entry δ)} (hb : T.buckets i = xs++ys++zs)
    (ys' : List (Entry δ)) (n : ℕ) (freed : List δ) :
    (T.patched i (xs++ys'++zs) n freed).entries.length+ys.length = T.entries.length+ys'.length := by
  obtain ⟨rest,h1,h2⟩ := patched_entries hi hb ys' n freed
  rw [h1.length_eq,h2.length_eq,List.length_append,List.length_append]
  omega

/-- A rehash after a new entry restores the load factor, but for one case. -/
lemma Table.Loaded.rehashed_restored {k : ℕ} (hlt : T.buckets_size < bucketsMaxSize) (hk : k = T.elm_nums+1) :
    3*k ≤ 2*nextSize T.buckets_size ∨
      (3 ∣ first ∧ nextSize T.buckets_size = first+1 ∧ first+1 ∈ bucketsSizes ∧
      3*k = 2*nextSize T.buckets_size+1) := by
  have hload := h.load_le hlt
  have hgt := nextSize_gt hlt
  by_cases hone : nextSize T.buckets_size = T.buckets_size+1
  · -- only the size at the start can be next to one of the table
    have hfirst : T.buckets_size = first := by
      cases h.size with
      | inl hfirst => exact hfirst
      | inr hmem =>
        have hfar := nextSize_of_mem hmem
        omega
    have hle : 3*T.elm_nums ≤ 2*T.buckets_size := by
      obtain hle | hmax | ⟨_,hsize,_,_⟩ := h.restored
      · exact hle
      · omega
      · omega
    by_cases hfits : 3*k ≤ 2*nextSize T.buckets_size
    · exact Or.inl hfits
    · have hmem := nextSize_mem T.buckets_size
      refine Or.inr ⟨by omega,by omega,?_,by omega⟩
      rw [← hfirst,← hone]
      exact hmem
  · exact Or.inl (by omega)

/-- A new entry, with the growth test. -/
theorem Table.Loaded.grown {T' : Table δ} (hsized : T'.Sized) (hsize : T'.buckets_size = T.buckets_size)
    (hcount : T'.elm_nums = (T.elm_nums+1) % 2^32) (hentries : T'.entries.length = T.entries.length+1) :
    (T'.grown true).Loaded first := by
  have hexact : T.buckets_size < bucketsMaxSize → T'.elm_nums = T.elm_nums+1 := by
    intro hlt
    have hload := h.load_le hlt
    rw [bucketsMaxSize] at hlt
    rw [hcount]
    omega
  have hcount' : T'.buckets_size < bucketsMaxSize → T'.elm_nums = T'.entries.length := by
    intro hlt
    rw [hsize] at hlt
    rw [hexact hlt,hentries,h.count hlt]
  have hplace : T'.buckets_size = first ∨ T'.buckets_size ∈ bucketsSizes := hsize ▸ h.size
  unfold Table.grown
  by_cases hfull : 2*T'.buckets_size < 3*T'.elm_nums
  · rw [if_pos hfull]
    by_cases hlt : T.buckets_size < bucketsMaxSize
    · have hgt := nextSize_gt hlt
      have hmem := nextSize_mem T.buckets_size
      have hne : nextSize T'.buckets_size ≠ T'.buckets_size := by
        rw [hsize]
        exact hgt.ne'
      rw [hashRehash_granted hne,hsize]
      obtain ⟨hmin,hmax⟩ := bucketsSizes_range hmem
      refine ⟨⟨hmin,hmax⟩,?_,Or.inr hmem,?_⟩
      · intro _
        exact (hcount' (hsize ▸ hlt)).trans (rehashed_entries T' hmin).length_eq.symm
      · exact (h.rehashed_restored hlt (hexact hlt)).imp id Or.inr
    · have hmax : T'.buckets_size = bucketsMaxSize := le_antisymm hsized.le (hsize ▸ not_lt.mp hlt)
      have hsame : hashRehash T' true = T' := by
        rw [hashRehash,hmax,nextSize_max,if_pos rfl]
      rw [hsame]
      exact ⟨hsized,hcount',hplace,Or.inr (Or.inl hmax)⟩
  · rw [if_neg hfull]
    exact ⟨hsized,hcount',hplace,Or.inl (not_lt.mp hfull)⟩

/-- An entry gets other data. -/
lemma Table.Loaded.replaced {i : ℕ} (hi : i < T.buckets_size) {passed rest : List (Entry δ)} {e : Entry δ}
    (hb : T.buckets i = passed++[e]++rest) (e' : Entry δ) (freed : List δ) :
    (T.patched i (passed++[e']++rest) T.elm_nums freed).Loaded first := by
  have hlength := patched_length hi hb [e'] T.elm_nums freed
  refine ⟨h.sized.patched ..,?_,h.size,h.restored⟩
  intro hlt
  exact (h.count hlt).trans (Nat.add_right_cancel hlength).symm

/-- An entry is taken out. -/
lemma Table.Loaded.removed {i : ℕ} (hi : i < T.buckets_size) {passed rest : List (Entry δ)} {e : Entry δ}
    (hb : T.buckets i = passed++[e]++rest) (freed : List δ) :
    (T.patched i (passed++[]++rest) (if T.elm_nums = 0 then 2^32-1 else T.elm_nums-1) freed).Loaded first := by
  have hlength := patched_length hi hb [] (if T.elm_nums = 0 then 2^32-1 else T.elm_nums-1) freed
  rw [List.length_singleton,List.length_nil,add_zero] at hlength
  have hcount : T.buckets_size < bucketsMaxSize →
      (if T.elm_nums = 0 then 2^32-1 else T.elm_nums-1) = T.elm_nums-1 ∧ 0 < T.elm_nums := by
    intro hlt
    have hpos : T.elm_nums ≠ 0 := by
      rw [h.count hlt]
      omega
    exact ⟨if_neg hpos,Nat.pos_of_ne_zero hpos⟩
  refine ⟨h.sized.patched ..,?_,h.size,?_⟩
  · intro hlt
    have hexact := h.count hlt
    exact (hcount hlt).1.trans (by omega)
  · by_cases hlt : T.buckets_size < bucketsMaxSize
    · have hload := h.load_le hlt
      obtain ⟨heq,hpos⟩ := hcount hlt
      refine Or.inl ?_
      change 3*(if T.elm_nums = 0 then 2^32-1 else T.elm_nums-1) ≤ 2*T.buckets_size
      rw [heq]
      omega
    · exact Or.inr (Or.inl (le_antisymm h.sized.le (not_lt.mp hlt)))

/-- One call keeps the load, if new buckets are not refused. -/
theorem Table.Loaded.exec (op : Op δ) (h0 : 0 ≤ T.hash op.key) (hgranted : op.Granted) :
    ∃ T' r, op.exec T = some (T',r) ∧ T'.Loaded first ∧ T'.hash = T.hash := by
  have hlt := h.sized.home_lt op.key
  cases op with
  | find key =>
    obtain ⟨e,_,_,hf⟩ | ⟨_,hf⟩ := h.sized.find_cases h0
    · exact ⟨T,(.ok,some e.data),congrArg (Option.map _) hf,h,rfl⟩
    · exact ⟨T,(.err,none),congrArg (Option.map _) hf,h,rfl⟩
  | insert key data replace malloc calloc =>
    obtain rfl : calloc = true := hgranted
    obtain ⟨passed,e,rest,hb,_,hdup,hrep⟩ | ⟨_,herr,hnew⟩ := h.sized.insert_cases h0 data true
    · cases replace with
      | false => exact ⟨T,(.duplicateKey,none),congrArg (Option.map _) (hdup malloc),h,rfl⟩
      | true => exact ⟨_,(.ok,none),congrArg (Option.map _) (hrep malloc),h.replaced hlt hb _ _,rfl⟩
    · cases malloc with
      | false => exact ⟨T,(.err,none),congrArg (Option.map _) (herr replace),h,rfl⟩
      | true =>
        have hb : T.buckets (T.home key) = T.buckets (T.home key)++[]++[] := by simp
        have hlength := patched_length hlt hb [newEntry T.hash key data] ((T.elm_nums+1) % 2^32) T.freed
        rw [List.append_nil] at hlength
        have happended : (T.appended key data).Sized := h.sized.patched ..
        exact ⟨_,(.ok,none),congrArg (Option.map _) (hnew replace),h.grown happended rfl rfl hlength,
          grown_hash _ true⟩
  | remove key =>
    obtain ⟨passed,e,rest,hb,_,hremove⟩ | ⟨_,hremove⟩ := h.sized.remove_cases h0
    · exact ⟨_,(.ok,none),congrArg (Option.map _) hremove,h.removed hlt hb _,rfl⟩
    · exact ⟨T,(.err,none),congrArg (Option.map _) hremove,h,rfl⟩

theorem Table.Loaded.run {ops : List (Op δ)} (h0 : ∀ op ∈ ops, 0 ≤ T.hash op.key)
    (hgranted : ∀ op ∈ ops, op.Granted) :
    ∃ T' rs, Hash.run T ops = some (T',rs) ∧ T'.Loaded first := by
  induction ops generalizing T with
  | nil => exact ⟨T,[],rfl,h⟩
  | cons op ops ih =>
    obtain ⟨T₁,r,hexec,h₁,hhash⟩ := h.exec op (h0 op List.mem_cons_self) (hgranted op List.mem_cons_self)
    have h0' : ∀ o ∈ ops, 0 ≤ T₁.hash o.key := by
      intro o ho
      rw [hhash]
      exact h0 o (List.mem_cons_of_mem op ho)
    obtain ⟨T₂,rs,hrun,h₂⟩ := ih h₁ h0' fun o ho => hgranted o (List.mem_cons_of_mem op ho)
    exact ⟨T₂,r::rs,by simp [Hash.run,hexec,hrun],h₂⟩

end Loaded

/-! ### Runs -/

/-- After every run, whatever the hashes that are not negative, in which new buckets are not refused: the load
factor is at most 2/3, or the table has the greatest size, or it has grown by one bucket from an initial size that is
a multiple of 3, and exceeds the load factor by the least amount. -/
theorem load_factor_restored (init_buckets : ℕ) (hash : Option (Key → ℤ)) (free : Bool) (ops : List (Op δ))
    (h0 : ∀ op ∈ ops, 0 ≤ hash.getD defaultHash op.key) (hgranted : ∀ op ∈ ops, op.Granted) :
    ∃ T₀ T rs, hashInit init_buckets hash free true = some T₀ ∧ run T₀ ops = some (T,rs) ∧
      (3*T.elm_nums ≤ 2*T.buckets_size ∨ T.buckets_size = bucketsMaxSize ∨
        (3 ∣ T₀.buckets_size ∧ T.buckets_size = T₀.buckets_size+1 ∧ T.buckets_size ∈ bucketsSizes ∧
          3*T.elm_nums = 2*T.buckets_size+1)) := by
  obtain ⟨T₀,hT₀⟩ : ∃ T₀ : Table δ, hashInit init_buckets hash free true = some T₀ := ⟨_,rfl⟩
  obtain ⟨n,hmin,hmax,hT⟩ := hashInit_cases hT₀
  have hloaded : T₀.Loaded T₀.buckets_size := by
    rw [hT]
    refine ⟨⟨hmin,hmax⟩,?_,Or.inl rfl,Or.inl (Nat.zero_le _)⟩
    intro _
    exact (congrArg List.length (chained_nil n)).symm
  obtain ⟨T,rs,hrun,h⟩ := hloaded.run (by rw [hT]; exact h0) hgranted
  refine ⟨T₀,T,rs,hT₀,hrun,h.restored.imp id (Or.imp id ?_)⟩
  rintro ⟨hdvd,hsize,hmem,hone⟩
  exact ⟨hdvd,hsize,hsize ▸ hmem,hone⟩

/-- Nine keys with one hash. -/
def nineInserts : List (Op ℕ) := (List.range 9).map fun i => .insert [i.toUInt8] i false true true

def twelveBuckets : Table ℕ := ⟨fun _ => 0,false,fun _ => [],12,0,[]⟩

theorem load_factor_restored_nine : ∃ T₀ T rs, hashInit 12 (some fun _ => 0) false true = some T₀ ∧
    run T₀ nineInserts = some (T,rs) ∧
    (3*T.elm_nums ≤ 2*T.buckets_size ∨ T.buckets_size = bucketsMaxSize ∨
      (3 ∣ T₀.buckets_size ∧ T.buckets_size = T₀.buckets_size+1 ∧ T.buckets_size ∈ bucketsSizes ∧
        3*T.elm_nums = 2*T.buckets_size+1)) := by
  apply load_factor_restored
  · intro op _
    exact le_rfl
  · intro op hop
    obtain ⟨i,_,rfl⟩ := List.mem_map.mp hop
    rfl

lemma nineInserts_ends : (run twelveBuckets nineInserts).map (fun r => (r.1.elm_nums,r.1.buckets_size,r.2)) =
    some (9,13,List.replicate 9 (.ok,none)) := by decide +kernel

/-- The ninth insertion lets the table grow from 12 buckets to 13, which is not enough for nine entries. -/
theorem load_factor_nine : ∃ T₀ T rs, hashInit 12 (some fun _ => 0) false true = some T₀ ∧
    run T₀ nineInserts = some (T,rs) ∧ (∀ r ∈ rs, r = (.ok,none)) ∧
    ¬(3*T.elm_nums ≤ 2*T.buckets_size ∨ T.buckets_size = bucketsMaxSize) := by
  obtain ⟨⟨T,rs⟩,hrun,hend⟩ := Option.map_eq_some_iff.mp nineInserts_ends
  obtain ⟨helm,hrest⟩ := Prod.mk.inj hend
  obtain ⟨hsize,hrs⟩ := Prod.mk.inj hrest
  refine ⟨twelveBuckets,T,rs,rfl,hrun,?_,?_⟩
  · intro r hr
    rw [show rs = List.replicate 9 (.ok,none) from hrs] at hr
    exact List.eq_of_mem_replicate hr
  · rw [show T.elm_nums = 9 from helm,show T.buckets_size = 13 from hsize]
    decide

end JustKit.Hash
