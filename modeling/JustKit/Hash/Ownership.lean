import JustKit.Hash.Runs

/-! Who owns the data of a table. What an insertion accepts is in the table until it is given to the free
callback; a replacement, a removal and the end of the table give each datum to it once. -/
namespace JustKit.Hash
open Foundations
variable {δ : Type}

/-- The data that the callback has got and the data in the table. -/
def Table.owned (T : Table δ) : Multiset δ := (T.freed : Multiset δ)+(T.entries.map Entry.data : List δ)

/-- The datum of an insertion that returns `JK_HASH_OK`. -/
def Op.accepted : Op δ → Status × Option δ → Multiset δ
  | .insert _ data _ _ _,(.ok,_) => {data}
  | _,_ => 0

/-- The data that the insertions of a run have accepted. -/
def accepted (ops : List (Op δ)) (rs : List (Status × Option δ)) : Multiset δ :=
  (List.zipWith Op.accepted ops rs).sum

/-! ### One change -/

lemma owned_patched {T : Table δ} {i : ℕ} (hi : i < T.buckets_size) {xs ys zs : List (Entry δ)}
    (hb : T.buckets i = xs++ys++zs) (ys' : List (Entry δ)) (n : ℕ) (freed : List δ) (taken : Multiset δ)
    (hchange : (freed : Multiset δ)+(ys'.map Entry.data : List δ) = T.freed+(ys.map Entry.data : List δ)+taken) :
    (T.patched i (xs++ys'++zs) n freed).owned = T.owned+taken := by
  obtain ⟨rest,h1,h2⟩ := patched_entries hi hb ys' n freed
  unfold Table.owned
  rw [Multiset.coe_eq_coe.mpr (h1.map Entry.data),Multiset.coe_eq_coe.mpr (h2.map Entry.data),patched_freed,
    List.map_append,List.map_append,← Multiset.coe_add,← Multiset.coe_add,← add_assoc,hchange]
  ac_rfl

/-- The rehash moves data, but neither takes nor releases any. -/
lemma Table.Sized.grown {T : Table δ} (h : T.Sized) (calloc : Bool) : (T.grown calloc).Sized ∧
    (T.grown calloc).owned = T.owned ∧ (T.grown calloc).hash = T.hash ∧ (T.grown calloc).free = T.free := by
  rcases grown_cases T calloc with hT | ⟨n,hmin,hmax,hT⟩
  · rw [hT]
    exact ⟨h,rfl,rfl,rfl⟩
  · rw [hT]
    refine ⟨⟨hmin,hmax⟩,?_,rfl,rfl⟩
    unfold Table.owned
    rw [Multiset.coe_eq_coe.mpr ((rehashed_entries T hmin).map Entry.data)]
    rfl

/-- The same functions, and a legal number of buckets; the table now owns `taken` too. -/
structure Table.Took (T T' : Table δ) (taken : Multiset δ) : Prop where
  sized : T'.Sized
  owned : T'.owned = T.owned+taken
  hash : T'.hash = T.hash
  free : T'.free = T.free

lemma Table.Sized.took {T : Table δ} (h : T.Sized) : T.Took T 0 := ⟨h,(add_zero _).symm,rfl,rfl⟩

section Took
variable {T : Table δ} (h : T.Sized) {key : Key} (h0 : 0 ≤ T.hash key)
include h h0

/-- `jk_hash_insert` takes the datum exactly if it returns `JK_HASH_OK`, and lets go of a replaced one. -/
theorem hashInsert_took (hfree : T.free = true) (data : δ) (replace malloc calloc : Bool) :
    ∃ T' s, hashInsert T key data replace malloc calloc = some (T',s) ∧
      T.Took T' (if s = .ok then {data} else 0) := by
  have hlt := h.home_lt key
  rcases h.insert_cases h0 data calloc with ⟨passed,e,rest,hb,_,hdup,hrep⟩ | ⟨_,herr,hnew⟩
  · cases replace with
    | false => exact ⟨T,.duplicateKey,hdup malloc,h.took⟩
    | true =>
      refine ⟨_,.ok,hrep malloc,h.patched ..,?_,rfl,rfl⟩
      apply owned_patched hlt hb
      simp only [Table.freeing,hfree,if_true,← Multiset.coe_add,List.map_singleton,Multiset.coe_singleton]
  · cases malloc with
    | false => exact ⟨T,.err,herr replace,h.took⟩
    | true =>
      obtain ⟨hsized,howned,hhash,hfree'⟩ := Table.Sized.grown
        (h.patched (T.home key) ((T.elm_nums+1) % 2^32) (T.buckets (T.home key)++[newEntry T.hash key data])
          T.freed) calloc
      refine ⟨_,.ok,hnew replace,hsized,howned.trans ?_,hhash,hfree'⟩
      have hb : T.buckets (T.home key) = T.buckets (T.home key)++[]++[] := by simp
      have happended := owned_patched hlt hb [newEntry T.hash key data] ((T.elm_nums+1) % 2^32) T.freed {data}
        (by simp [newEntry])
      rw [List.append_nil] at happended
      exact happended

/-- `jk_hash_remove` lets go of the datum that it takes out. -/
theorem hashRemove_took (hfree : T.free = true) : ∃ T' s, hashRemove T key = some (T',s) ∧ T.Took T' 0 := by
  rcases h.remove_cases h0 with ⟨passed,e,rest,hb,_,hremove⟩ | ⟨_,hremove⟩
  · refine ⟨_,.ok,hremove,h.patched ..,?_,rfl,rfl⟩
    apply owned_patched (h.home_lt key) hb
    simp [Table.freeing,hfree,← Multiset.coe_add]
  · exact ⟨T,.err,hremove,h.took⟩

end Took

/-! ### Runs and the end of the table -/

theorem Table.Sized.exec_took {T : Table δ} (h : T.Sized) (hfree : T.free = true) (op : Op δ)
    (h0 : 0 ≤ T.hash op.key) :
    ∃ T' r, op.exec T = some (T',r) ∧ T.Took T' (op.accepted r) := by
  cases op with
  | find key =>
    change 0 ≤ T.hash key at h0
    rcases h.find_cases h0 with ⟨e,_,_,hf⟩ | ⟨_,hf⟩
    · exact ⟨T,(.ok,some e.data),by simp [Op.exec,hf],h.took⟩
    · exact ⟨T,(.err,none),by simp [Op.exec,hf],h.took⟩
  | insert key data replace malloc calloc =>
    change 0 ≤ T.hash key at h0
    obtain ⟨T',s,hinsert,htook⟩ := hashInsert_took h h0 hfree data replace malloc calloc
    refine ⟨T',(s,none),by simp [Op.exec,hinsert],?_⟩
    cases s <;> exact htook
  | remove key =>
    change 0 ≤ T.hash key at h0
    obtain ⟨T',s,hremove,htook⟩ := hashRemove_took h h0 hfree
    exact ⟨T',(s,none),by simp [Op.exec,hremove],htook⟩

theorem Table.Sized.run_took {T : Table δ} (h : T.Sized) (hfree : T.free = true) (ops : List (Op δ))
    (h0 : ∀ op ∈ ops, 0 ≤ T.hash op.key) : ∃ T' rs, run T ops = some (T',rs) ∧
    T.Took T' (accepted ops rs) := by
  induction ops generalizing T with
  | nil => exact ⟨T,[],rfl,h.took⟩
  | cons op ops ih =>
    obtain ⟨T₁,r,hexec,h₁⟩ := h.exec_took hfree op (h0 op List.mem_cons_self)
    obtain ⟨T₂,rs,hrun,h₂⟩ := ih h₁.sized (h₁.free.trans hfree) fun o ho => by
      rw [h₁.hash]
      exact h0 o (List.mem_cons_of_mem _ ho)
    refine ⟨T₂,r::rs,by simp [run,hexec,hrun],h₂.sized,?_,h₂.hash.trans h₁.hash,
      h₂.free.trans h₁.free⟩
    rw [h₂.owned,h₁.owned,add_assoc]
    rfl

lemma foldl_release (T : Table δ) (es : List (Entry δ)) :
    (es.foldl (fun o e => o.release e.data) T).freed = T.freed++if T.free then es.map Entry.data else [] := by
  induction es generalizing T with
  | nil => simp
  | cons e es ih =>
    rw [List.foldl_cons,ih]
    cases hfree : T.free <;> simp [Table.release,hfree]

/-- `jk_hash_destroy` gives the data of every entry to the callback. -/
theorem hashDestroy_eq {T : Table δ} (hfree : T.free = true) :
    hashDestroy T = T.freed++T.entries.map Entry.data := by
  have hfold : hashDestroy T = (T.entries.foldl (fun o e => o.release e.data) T).freed := by
    simp only [hashDestroy,Table.entries,chained,List.foldl_flatMap]
  rw [hfold,foldl_release,if_pos hfree]

/-- The callback has got, and the table stores, exactly what the insertions have accepted; after the end of
the table the callback has got all of it. -/
theorem data_freed_once (init_buckets : ℕ) (hash : Option (Key → ℤ)) (ops : List (Op δ))
    (h0 : ∀ op ∈ ops, 0 ≤ hash.getD defaultHash op.key) :
    ∃ T₀ T rs, hashInit init_buckets hash true true = some T₀ ∧ run T₀ ops = some (T,rs) ∧
      (T.freed : Multiset δ)+(T.entries.map Entry.data : List δ) = accepted ops rs ∧
      (hashDestroy T : Multiset δ) = accepted ops rs := by
  obtain ⟨T₀,hT₀⟩ : ∃ T₀ : Table δ, hashInit init_buckets hash true true = some T₀ := ⟨_,rfl⟩
  obtain ⟨n,hmin,hmax,hT⟩ := hashInit_cases hT₀
  have hsized : T₀.Sized := by
    rw [hT]
    exact ⟨hmin,hmax⟩
  have hempty : T₀.owned = 0 := by
    rw [hT]
    simp [Table.owned,Table.entries,chained_nil]
  have hfree : T₀.free = true := by rw [hT]
  obtain ⟨T,rs,hrun,htook⟩ := hsized.run_took hfree ops (by rw [hT]; exact h0)
  have howned : T.owned = accepted ops rs := by rw [htook.owned,hempty,zero_add]
  refine ⟨T₀,T,rs,hT₀,hrun,howned,?_⟩
  rw [hashDestroy_eq (htook.free.trans hfree),← Multiset.coe_add]
  exact howned

/-- Six keys in one chain, among them a replacement, a removal, a duplicate and a rehash. -/
theorem data_freed_once_chain :
    let ops : List (Op ℕ) :=
  [.insert [1] 10 false true true,.insert [2] 20 false true true,.insert [1] 11 true true true,
      .insert [2] 21 false true true,.remove [2],.insert [3] 30 false true true,.insert [4] 40 false true true,
      .insert [5] 50 false true true,.insert [6] 60 false true true,.find [6]]
    ∃ T₀ T rs, hashInit 7 (some fun _ => 3) true true = some T₀ ∧ run T₀ ops = some (T,rs) ∧
      (T.freed : Multiset ℕ)+(T.entries.map Entry.data : List ℕ) = accepted ops rs ∧
      (hashDestroy T : Multiset ℕ) = accepted ops rs :=
  data_freed_once 7 (some fun _ => 3) _ fun _ _ => (show (0 : ℤ) ≤ 3 by decide)

end JustKit.Hash
