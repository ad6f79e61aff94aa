import JustKit.Foundations.Buckets
import JustKit.Hash.Model

/-! What each function does to the chains of a table, for any keys with hash values that are not negative. -/
namespace JustKit.Hash
open Foundations
variable {δ : Type}

/-- All entries, bucket by bucket. -/
def Table.entries (T : Table δ) : List (Entry δ) := chained T.buckets_size T.buckets

/-- The entry that an insertion makes. -/
def newEntry (hash : Key → ℤ) (key : Key) (data : δ) : Entry δ := ⟨wrap 32 (hash key),key.length,data,key⟩

/-- The table after one chain, the counter and the log of freed data have changed. -/
def Table.patched (T : Table δ) (i : ℕ) (chain : List (Entry δ)) (n : ℕ) (freed : List δ) : Table δ :=
  { T with buckets := Function.update T.buckets i chain, elm_nums := n, freed := freed }

@[simp] theorem patched_freed (T : Table δ) (i n : ℕ) (chain : List (Entry δ)) (freed : List δ) :
    (T.patched i chain n freed).freed = freed := rfl

/-- Changing the middle of one chain changes that many entries. -/
theorem patched_entries {T : Table δ} {i : ℕ} (hi : i < T.buckets_size) {xs ys zs : List (Entry δ)}
    (hb : T.buckets i = xs++ys++zs) (ys' : List (Entry δ)) (n : ℕ) (freed : List δ) : ∃ rest,
      T.entries.Perm (ys++rest) ∧ (T.patched i (xs++ys'++zs) n freed).entries.Perm (ys'++rest) :=
  chained_update_perm hi T.buckets hb ys'

theorem walk_append (hashval : ℤ) (key : Key) (chain : List (Entry δ)) :
    (walk hashval key chain).1++(walk hashval key chain).2 = chain ∧
      (∀ e ∈ (walk hashval key chain).1, e.found hashval key = false) ∧
      ∀ e es, (walk hashval key chain).2 = e::es → e.found hashval key = true := by
  induction chain with
  | nil => simp [walk]
  | cons c chain ih =>
    obtain ⟨h1,h2,h3⟩ := ih
    by_cases hc : c.found hashval key = true
    · simp [walk,hc]
    · simp only [walk,if_neg hc]
      refine ⟨by simp [h1],?_,h3⟩
      intro e he
      rcases List.mem_cons.mp he with rfl | he
      · simpa using hc
      · exact h2 e he

lemma wrap_int {x : ℤ} (h0 : 0 ≤ x) (h : x < 2^31) : wrap 32 x = x :=
  wrap_of_range (w := 31) (by omega) h

lemma lookupIndex_eq {h : ℤ} {n : ℕ} (h0 : 0 ≤ h) (hn : 0 < n) (hn' : n ≤ 2147483647) :
    lookupIndex h n = (h.toNat % n : ℕ) := by
  have hlt : h.toNat % n < n := Nat.mod_lt _ hn
  have he : h.tmod n = ((h.toNat % n : ℕ) : ℤ) := by
    rw [Int.tmod_eq_emod_of_nonneg h0]
    push_cast
    rw [Int.toNat_of_nonneg h0]
  rw [lookupIndex,he,wrap_int (by omega) (by omega)]

lemma rehashIndex_lt (hashval : ℤ) {n : ℕ} (hn : 0 < n) : rehashIndex hashval n < n := by
  have hlt := Int.emod_lt_of_pos (hashval % 2^32) (show (0 : ℤ) < n by omega)
  have hge := Int.emod_nonneg (hashval % 2^32) (show (n : ℤ) ≠ 0 by omega)
  unfold rehashIndex
  omega

/-- The chain of a key. -/
def Table.home (T : Table δ) (key : Key) : ℕ := (T.hash key).toNat % T.buckets_size

/-- The number of buckets is one that `jk_hash_init` or a rehash gives. -/
structure Table.Sized (T : Table δ) : Prop where
  pos : 7 ≤ T.buckets_size
  le : T.buckets_size ≤ 2147483647

lemma Table.Sized.patched {T : Table δ} (h : T.Sized) (i n : ℕ) (chain : List (Entry δ)) (freed : List δ) :
    (T.patched i chain n freed).Sized := ⟨h.pos,h.le⟩

/-- A new entry at the end of its chain. -/
def Table.appended (T : Table δ) (key : Key) (data : δ) : Table δ :=
  T.patched (T.home key) (T.buckets (T.home key)++[newEntry T.hash key data]) ((T.elm_nums+1) % 2^32) T.freed

/-- The end of `jk_hash_insert`. -/
def Table.grown (T : Table δ) (calloc : Bool) : Table δ :=
  if 2*T.buckets_size < 3*T.elm_nums then hashRehash T calloc else T

/-- The log after data is given to the free callback. -/
def Table.freeing (T : Table δ) (data : δ) : List δ := T.freed++if T.free then [data] else []

section Sized
variable {T : Table δ} (h : T.Sized) {key : Key} (h0 : 0 ≤ T.hash key)
include h

lemma Table.Sized.home_lt (key : Key) : T.home key < T.buckets_size :=
  Nat.mod_lt _ (lt_of_lt_of_le (by decide) h.pos)

include h0

lemma Table.Sized.index_eq : lookupIndex (T.hash key) T.buckets_size = (T.home key : ℕ) :=
  lookupIndex_eq h0 (lt_of_lt_of_le (by decide) h.pos) h.le

lemma Table.Sized.bucket_eq :
    T.bucket (lookupIndex (T.hash key) T.buckets_size) = some (T.buckets (T.home key)) := by
  have hlt := h.home_lt key
  rw [h.index_eq h0,Table.bucket,if_pos ⟨by omega,by omega⟩,Int.toNat_natCast]

omit h h0 in
/-- The search along the chain of a key stops at an entry that passes the test, or there is none. -/
theorem Table.search (T : Table δ) (key : Key) :
    (∃ passed e rest, walk (T.hash key) key (T.buckets (T.home key)) = (passed,e::rest) ∧
      T.buckets (T.home key) = passed++[e]++rest ∧ e.found (T.hash key) key = true) ∨
    (walk (T.hash key) key (T.buckets (T.home key)) = (T.buckets (T.home key),[]) ∧
      ∀ e ∈ T.buckets (T.home key), e.found (T.hash key) key = false) := by
  obtain ⟨h1,h2,h3⟩ := walk_append (T.hash key) key (T.buckets (T.home key))
  cases hw : walk (T.hash key) key (T.buckets (T.home key)) with
  | mk passed rest =>
    rw [hw] at h1 h2 h3
    cases rest with
    | cons e rest => exact Or.inl ⟨passed,e,rest,rfl,by simp [← h1],h3 e rest rfl⟩
    | nil =>
      rw [List.append_nil] at h1
      exact Or.inr ⟨by rw [← h1],h1 ▸ h2⟩

/-- A find returns the data of the first entry of the home bucket that passes the test, or fails without one. -/
theorem Table.Sized.find_cases :
    (∃ e ∈ T.buckets (T.home key), e.found (T.hash key) key = true ∧
    hashFind T key = some (.ok,some e.data)) ∨
    ((∀ e ∈ T.buckets (T.home key), e.found (T.hash key) key = false) ∧
    hashFind T key = some (.err,none)) := by
  rcases T.search key with ⟨passed,e,rest,hw,hb,hf⟩ | ⟨hw,hf⟩
  · exact Or.inl ⟨e,by simp [hb],hf,by simp [hashFind,h.bucket_eq h0,hw]⟩
  · exact Or.inr ⟨hf,by simp [hashFind,h.bucket_eq h0,hw]⟩

/-- `jk_hash_insert`: an entry that passes the test is a duplicate or gets the new data; otherwise an
entry is appended unless its allocation fails. -/
theorem Table.Sized.insert_cases (data : δ) (calloc : Bool) :
    (∃ (passed : List (Entry δ)) (e : Entry δ) (rest : List (Entry δ)),
      T.buckets (T.home key) = passed++[e]++rest ∧ e.found (T.hash key) key = true ∧
      (∀ malloc, hashInsert T key data false malloc calloc = some (T,.duplicateKey)) ∧
      ∀ malloc, hashInsert T key data true malloc calloc = some (T.patched (T.home key)
        (passed++[{ e with data := data }]++rest) T.elm_nums (T.freeing e.data),.ok)) ∨
    ((∀ e ∈ T.buckets (T.home key), e.found (T.hash key) key = false) ∧
      (∀ replace, hashInsert T key data replace false calloc = some (T,.err)) ∧
      ∀ replace, hashInsert T key data replace true calloc = some ((T.appended key data).grown calloc,.ok)) := by
  have hindex : (lookupIndex (T.hash key) T.buckets_size).toNat = T.home key := by
    rw [h.index_eq h0,Int.toNat_natCast]
  rcases T.search key with ⟨passed,e,rest,hw,hb,hf⟩ | ⟨hw,hf⟩
  · refine Or.inl ⟨passed,e,rest,hb,hf,?_,?_⟩
    · intro malloc
      simp [hashInsert,h.bucket_eq h0,hw]
    · intro malloc
      simp [hashInsert,h.bucket_eq h0,hw,Table.release,Table.setBucket,Table.patched,Table.freeing,hindex]
  · refine Or.inr ⟨hf,fun replace => by simp [hashInsert,h.bucket_eq h0,hw],fun replace => ?_⟩
    simp only [hashInsert,h.bucket_eq h0,hw,Option.bind_eq_bind,Option.bind_some,Table.setBucket,hindex,if_true]
    unfold Table.grown
    split_ifs <;> first | rfl | contradiction

/-- A remove takes the first entry that passes the test out of its bucket and frees its data, or fails and changes
nothing. -/
theorem Table.Sized.remove_cases :
    (∃ (passed : List (Entry δ)) (e : Entry δ) (rest : List (Entry δ)),
      T.buckets (T.home key) = passed++[e]++rest ∧ e.found (T.hash key) key = true ∧
      hashRemove T key = some (T.patched (T.home key) (passed++[]++rest)
        (if T.elm_nums = 0 then 2^32-1 else T.elm_nums-1) (T.freeing e.data),.ok)) ∨
    ((∀ e ∈ T.buckets (T.home key), e.found (T.hash key) key = false) ∧ hashRemove T key = some (T,.err)) := by
  have hindex : (lookupIndex (T.hash key) T.buckets_size).toNat = T.home key := by
    rw [h.index_eq h0,Int.toNat_natCast]
  rcases T.search key with ⟨passed,e,rest,hw,hb,hf⟩ | ⟨hw,hf⟩
  · refine Or.inl ⟨passed,e,rest,hb,hf,?_⟩
    simp [hashRemove,h.bucket_eq h0,hw,Table.release,Table.setBucket,Table.patched,Table.freeing,hindex]
  · exact Or.inr ⟨hf,by simp [hashRemove,h.bucket_eq h0,hw]⟩

end Sized

/-! ### Rehash and initialisation -/

/-- The entries of the old chains, linked into `n` new ones. -/
def Table.rehashed (T : Table δ) (n : ℕ) : Table δ :=
  { T with buckets := T.entries.foldl (pushFront fun e => rehashIndex e.hashval n) (fun _ => []), buckets_size := n }

lemma nextSize_mem (n : ℕ) : nextSize n ∈ bucketsSizes := by
  unfold nextSize
  cases h : bucketsSizes.find? fun m => n < m with
  | some m => exact List.mem_of_find?_eq_some h
  | none => decide

lemma bucketsSizes_range {n : ℕ} (h : n ∈ bucketsSizes) : bucketsMinSize ≤ n ∧ n ≤ bucketsMaxSize :=
  (show ∀ n ∈ bucketsSizes, bucketsMinSize ≤ n ∧ n ≤ bucketsMaxSize by decide) n h

/-- With new buckets `jk_hash_rehash` moves all entries. -/
lemma hashRehash_granted {T : Table δ} (hn : nextSize T.buckets_size ≠ T.buckets_size) :
    hashRehash T true = T.rehashed (nextSize T.buckets_size) := by
  obtain ⟨hmin,hmax⟩ := bucketsSizes_range (nextSize_mem T.buckets_size)
  have hfold : (List.range T.buckets_size).foldl
      (fun b i => (T.buckets i).foldl (relink (nextSize T.buckets_size)) b) (fun _ => []) =
      T.entries.foldl (pushFront fun e => rehashIndex e.hashval (nextSize T.buckets_size)) fun _ => [] := by
    simp only [Table.entries,chained,List.foldl_flatMap]
    rfl
  simp only [hashRehash,if_neg hn,hashInit,if_true,not_lt.mpr hmin,not_lt.mpr hmax,if_false]
  rw [hfold]
  rfl

/-- `jk_hash_rehash` moves all entries, or leaves the table as it is. -/
theorem hashRehash_cases (T : Table δ) (calloc : Bool) : hashRehash T calloc = T ∨
    ∃ n, bucketsMinSize ≤ n ∧ n ≤ bucketsMaxSize ∧ hashRehash T calloc = T.rehashed n := by
  obtain ⟨hmin,hmax⟩ := bucketsSizes_range (nextSize_mem T.buckets_size)
  by_cases hn : nextSize T.buckets_size = T.buckets_size
  · exact Or.inl (by simp [hashRehash,hn])
  cases calloc with
  | false => exact Or.inl (by simp [hashRehash,hn,hashInit])
  | true => exact Or.inr ⟨nextSize T.buckets_size,hmin,hmax,hashRehash_granted hn⟩

/-- So does the end of `jk_hash_insert`. -/
lemma grown_cases (T : Table δ) (calloc : Bool) : T.grown calloc = T ∨
    ∃ n, bucketsMinSize ≤ n ∧ n ≤ bucketsMaxSize ∧ T.grown calloc = T.rehashed n := by
  unfold Table.grown
  split_ifs
  · exact hashRehash_cases T calloc
  · exact Or.inl rfl

/-- The rehash loses and duplicates no entry. -/
theorem rehashed_entries (T : Table δ) {n : ℕ} (hn : bucketsMinSize ≤ n) :
    (T.rehashed n).entries.Perm T.entries := by
  have hplace : ∀ e ∈ T.entries, rehashIndex e.hashval n < n :=
    fun e _ => rehashIndex_lt e.hashval (lt_of_lt_of_le (by decide) hn)
  have hrefill := chained_refill T.entries (fun _ => []) hplace
  rw [chained_nil,List.append_nil] at hrefill
  exact hrefill

/-- A new table has a legal number of empty buckets. -/
theorem hashInit_cases {init_buckets : ℕ} {hash : Option (Key → ℤ)} {free : Bool} {T : Table δ}
    (h : hashInit init_buckets hash free true = some T) :
    ∃ n, bucketsMinSize ≤ n ∧ n ≤ bucketsMaxSize ∧
      T = ⟨hash.getD defaultHash,free,fun _ => [],n,0,[]⟩ := by
  refine ⟨if init_buckets < bucketsMinSize then bucketsMinSize
    else if bucketsMaxSize < init_buckets then bucketsMaxSize else init_buckets,?_,?_,(Option.some.inj h).symm⟩
  all_goals
    have hle : bucketsMinSize ≤ bucketsMaxSize := by decide
    split_ifs <;> omega

end JustKit.Hash
