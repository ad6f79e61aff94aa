import JustKit.Hash.Chains

/-! Which keys a table tells apart. The hash reads all bytes of a key, `strncmp` only those before its
first NUL. An entry that a search can find is the only one of its kind and lies in the chain of its hash. -/
namespace JustKit.Hash
open Foundations
variable {δ : Type}

def NulFree (key : Key) : Prop := 0 ∉ key

instance (key : Key) : Decidable (NulFree key) := inferInstanceAs (Decidable (0 ∉ key))

/-- The bytes before the first NUL. -/
def textOf (key : Key) : Key := key.takeWhile fun c => c ≠ 0

/-- For keys of one length `strncmp` compares the texts. -/
theorem strncmp_text {k k' : Key} (hl : k.length = k'.length) : strncmp k'.length k k' = 0 ↔
    textOf k = textOf k' := by
  induction k generalizing k' with
  | nil =>
    obtain rfl : k' = [] := List.length_eq_zero_iff.mp hl.symm
    simp [strncmp]
  | cons a k ih =>
    cases k' with
    | nil => simp at hl
    | cons b k' =>
      rw [List.length_cons,List.length_cons,Nat.add_right_cancel_iff] at hl
      simp only [List.length_cons,strncmp,textOf,List.takeWhile_cons]
      by_cases hab : a = b
      · subst hab
        by_cases ha : a = 0
        · simp [ha]
        · simpa [ha,textOf] using ih hl
      · have hne : a.toNat ≠ b.toNat := fun h => hab (UInt8.toNat_inj.mp h)
        rw [if_pos hab]
        have hdiff : (a.toNat : ℤ)-b.toNat ≠ 0 := by omega
        by_cases ha : a = 0
        · have hb : b ≠ 0 := fun hb => hab (ha.trans hb.symm)
          simpa [ha,hb] using hdiff
        · by_cases hb : b = 0
          · simpa [ha,hb] using hdiff
          · simpa [ha,hb,hab] using hdiff

/-- A key without NUL is known from its text and its length. -/
lemma NulFree.eq_of_text {k k' : Key} (hk : NulFree k) (hl : k.length = k'.length)
    (ht : textOf k = textOf k') : k = k' := by
  have hself : textOf k = k := by
    apply List.takeWhile_eq_self_iff.mpr
    intro c hc
    exact decide_eq_true fun h0 : c = 0 => hk (h0 ▸ hc)
  have hprefix : textOf k' <+: k' := List.takeWhile_prefix _
  rw [← ht,hself] at hprefix
  exact hprefix.eq_of_length hl

/-- The two keys have the same hash, length and text. -/
structure Same (hash : Key → ℤ) (k k' : Key) : Prop where
  hash_eq : hash k = hash k'
  length : k.length = k'.length
  text : textOf k = textOf k'

instance (hash : Key → ℤ) (k k' : Key) : Decidable (Same hash k k') :=
  decidable_of_iff (hash k = hash k' ∧ k.length = k'.length ∧ textOf k = textOf k')
    ⟨fun h => ⟨h.1,h.2.1,h.2.2⟩,fun h => ⟨h.hash_eq,h.length,h.text⟩⟩

section Same
variable {hash : Key → ℤ} {k k' k'' : Key}

lemma Same.refl (hash : Key → ℤ) (k : Key) : Same hash k k := ⟨rfl,rfl,rfl⟩

lemma Same.symm (h : Same hash k k') : Same hash k' k := ⟨h.hash_eq.symm,h.length.symm,h.text.symm⟩

lemma Same.trans (h : Same hash k k') (h' : Same hash k' k'') : Same hash k k'' :=
  ⟨h.hash_eq.trans h'.hash_eq,h.length.trans h'.length,h.text.trans h'.text⟩

lemma NulFree.same_iff (hk : NulFree k) : Same hash k k' ↔ k = k' :=
  ⟨fun h => hk.eq_of_text h.length h.text,fun h => h ▸ Same.refl hash k⟩

end Same

/-- The stored fields of an entry are those of its key; if its hash does not fit an `int`, the key has
no NUL. -/
structure Entry.Filed (hash : Key → ℤ) (e : Entry δ) : Prop where
  nonneg : 0 ≤ hash e.key
  hashval : e.hashval = wrap 32 (hash e.key)
  klen : e.klen = e.key.length
  legible : NulFree e.key ∨ hash e.key < 2^31

/-- A test against a key succeeds for the entries with the same key, if its hash fits an `int`. -/
lemma Entry.Filed.found_iff {hash : Key → ℤ} {e : Entry δ} (h : e.Filed hash) (key : Key) :
    e.found (hash key) key = true ↔ Same hash e.key key ∧ hash key < 2^31 := by
  simp only [Entry.found,decide_eq_true_eq,h.klen,h.hashval]
  have hw := (wrap_range 31 (hash e.key)).2
  constructor
  · rintro ⟨h1,h2,h3⟩
    have htext := (strncmp_text h2).mp h3
    have hint : hash key < 2^31 := by rw [← h1]; exact hw
    refine ⟨⟨?_,h2,htext⟩,hint⟩
    rcases h.legible with hk | hlt
    · rw [hk.eq_of_text h2 htext]
    · rw [← h1,wrap_int h.nonneg hlt]
  · rintro ⟨hs,hlt⟩
    have hlt' : hash e.key < 2^31 := by rwa [hs.hash_eq]
    exact ⟨by rw [wrap_int h.nonneg hlt',hs.hash_eq],hs.length,(strncmp_text hs.length).mpr hs.text⟩

/-- Two entries share a key only if its hash does not fit an `int`, so that no search finds it. -/
def Separate (hash : Key → ℤ) (e e' : Entry δ) : Prop := Same hash e.key e'.key → 2^31 ≤ hash e.key

lemma Separate.symm {hash : Key → ℤ} {e e' : Entry δ} (h : Separate hash e e') : Separate hash e' e :=
  fun hs => hs.hash_eq ▸ h hs.symm

/-- An entry whose hash fits an `int` is in the bucket of its hash, and is the only one with its key. -/
structure Table.Filed (T : Table δ) : Prop where
  sized : T.Sized
  count : T.elm_nums = T.entries.length % 2^32
  filed : ∀ e ∈ T.entries, e.Filed T.hash
  placed : ∀ i < T.buckets_size, ∀ e ∈ T.buckets i, T.hash e.key < 2^31 → T.home e.key = i
  unique : T.entries.Pairwise (Separate T.hash)

/-- The same functions, and the entries `es` up to order. -/
structure Table.Turned (T T' : Table δ) (es : List (Entry δ)) (freed : List δ) : Prop where
  filed : T'.Filed
  entries : T'.entries.Perm es
  hash : T'.hash = T.hash
  free : T'.free = T.free
  freed : T'.freed = freed

lemma rehashIndex_eq {h : ℤ} {n : ℕ} (h0 : 0 ≤ h) (h1 : h < 2^31) : rehashIndex h n = h.toNat % n := by
  rw [rehashIndex,Int.emod_eq_of_lt h0 (by omega),Int.toNat_emod h0 (by omega),Int.toNat_natCast]

section Filed
variable {T : Table δ} (h : T.Filed) {key : Key} (h0 : 0 ≤ T.hash key)
include h

lemma Table.Filed.mem_entries {e : Entry δ} (he : e ∈ T.buckets (T.home key)) : e ∈ T.entries :=
  mem_chained.mpr ⟨_,h.sized.home_lt key,he⟩

/-- If no entry of its chain passes the test, a key is absent or cannot be found. -/
lemma Table.Filed.absent (hf : ∀ e ∈ T.buckets (T.home key), e.found (T.hash key) key = false) :
    ∀ e ∈ T.entries, Same T.hash e.key key → 2^31 ≤ T.hash key := by
  intro e he hs
  by_contra hint
  obtain ⟨i,hi,hei⟩ := mem_chained.mp he
  have hplace := h.placed i hi e hei (by rw [hs.hash_eq]; exact not_le.mp hint)
  rw [← hplace,Table.home,hs.hash_eq] at hei
  have hfound := ((h.filed e he).found_iff key).mpr ⟨hs,not_le.mp hint⟩
  rw [hf e hei] at hfound
  cases hfound

lemma Table.Filed.present {e : Entry δ} (he : e ∈ T.buckets (T.home key)) (hf : e.found (T.hash key) key = true) :
    e ∈ T.entries ∧ Same T.hash e.key key ∧ T.hash key < 2^31 :=
  ⟨h.mem_entries he,((h.filed e (h.mem_entries he)).found_iff key).mp hf⟩

/-- Changing the middle of one chain. -/
theorem Table.Filed.patched {i : ℕ} (hi : i < T.buckets_size) (n : ℕ) (freed : List δ) (ys' : List (Entry δ))
    {xs ys zs : List (Entry δ)} (hb : T.buckets i = xs++ys++zs)
    (hfiled : ∀ e ∈ ys', e.Filed T.hash ∧ (T.hash e.key < 2^31 → T.home e.key = i))
    (hunique : ∀ rest, T.entries.Perm (ys++rest) → (ys'++rest).Pairwise (Separate T.hash))
    (hcount : ∀ rest, T.entries.Perm (ys++rest) → n = (ys'++rest).length % 2^32) :
    ∃ rest, T.entries.Perm (ys++rest) ∧ T.Turned (T.patched i (xs++ys'++zs) n freed) (ys'++rest) freed := by
  obtain ⟨rest,h1,h2⟩ := patched_entries hi hb ys' n freed
  refine ⟨rest,h1,⟨⟨h.sized.pos,h.sized.le⟩,?_,?_,?_,?_⟩,h2,rfl,rfl,rfl⟩
  · rw [h2.length_eq]
    exact hcount rest h1
  · intro e he
    rcases List.mem_append.mp (h2.mem_iff.mp he) with he | he
    · exact (hfiled e he).1
    · exact h.filed e (h1.mem_iff.mpr (List.mem_append_right _ he))
  · intro j hj e he
    by_cases hij : j = i
    · subst hij
      simp only [Table.patched,Function.update_self,List.mem_append] at he
      intro hlt
      by_cases hy : e ∈ ys'
      · exact (hfiled e hy).2 hlt
      · exact h.placed j hj e (by rw [hb]; simp only [List.mem_append]; tauto) hlt
    · simp only [Table.patched,Function.update_of_ne hij] at he
      exact h.placed j hj e he
  · exact (h2.pairwise_iff Separate.symm).mpr (hunique rest h1)

/-- The rehash keeps the entries. -/
theorem Table.Filed.rehash (calloc : Bool) : T.Turned (hashRehash T calloc) T.entries T.freed := by
  rcases hashRehash_cases T calloc with hT | ⟨n,hmin,hmax,hT⟩
  · rw [hT]
    exact ⟨h,List.Perm.rfl,rfl,rfl,rfl⟩
  · rw [hT]
    have hp := rehashed_entries T hmin
    refine ⟨⟨⟨hmin,hmax⟩,?_,?_,?_,?_⟩,hp,rfl,rfl,rfl⟩
    · rw [hp.length_eq]
      exact h.count
    · exact fun e he => h.filed e (hp.mem_iff.mp he)
    · intro i _ e he hlt
      rcases mem_refill T.entries _ he with he | ⟨he,hplace⟩
      · cases he
      · have hs := h.filed e he
        rw [← hplace,hs.hashval,wrap_int hs.nonneg hlt]
        exact (rehashIndex_eq hs.nonneg hlt).symm
    · exact (hp.pairwise_iff Separate.symm).mpr h.unique

include h0

/-- `jk_hash_find` returns the data of the entry with the same key. -/
theorem Table.Filed.find :
    (∃ e ∈ T.entries, Same T.hash e.key key ∧ T.hash key < 2^31 ∧
    hashFind T key = some (.ok,some e.data)) ∨
    ((∀ e ∈ T.entries, Same T.hash e.key key → 2^31 ≤ T.hash key) ∧
    hashFind T key = some (.err,none)) := by
  rcases h.sized.find_cases h0 with ⟨e,he,hf,hfind⟩ | ⟨hf,hfind⟩
  · obtain ⟨he',hs,hint⟩ := h.present he hf
    exact Or.inl ⟨e,he',hs,hint,hfind⟩
  · exact Or.inr ⟨h.absent hf,hfind⟩

/-- An insert under a key that an entry has gives that entry the new data if it may replace, and frees the old; under
a new key it adds one entry. A refusal changes nothing. -/
theorem Table.Filed.insert (data : δ) (calloc : Bool) :
    (∃ e rest, T.entries.Perm (e::rest) ∧ Same T.hash e.key key ∧ T.hash key < 2^31 ∧
      (∀ malloc, hashInsert T key data false malloc calloc = some (T,.duplicateKey)) ∧
      ∃ T', (∀ malloc, hashInsert T key data true malloc calloc = some (T',.ok)) ∧
        T.Turned T' ({ e with data := data }::rest) (T.freeing e.data)) ∨
    ((∀ e ∈ T.entries, Same T.hash e.key key → 2^31 ≤ T.hash key) ∧
      (∀ replace, hashInsert T key data replace false calloc = some (T,.err)) ∧
      (NulFree key ∨ T.hash key < 2^31 → ∃ T', (∀ replace, hashInsert T key data replace true calloc =
      some (T',.ok)) ∧
        T.Turned T' (newEntry T.hash key data::T.entries) T.freed)) := by
  have hlt := h.sized.home_lt key
  rcases h.sized.insert_cases h0 data calloc with ⟨passed,e,post,hb,hf,hdup,hrep⟩ | ⟨hf,herr,hnew⟩
  · obtain ⟨he,hs,hint⟩ := h.present (by simp [hb]) hf
    have hfiled := h.filed e he
    obtain ⟨rest,hp,ht⟩ := h.patched hlt T.elm_nums (T.freeing e.data) [{ e with data := data }] hb
      (by
        intro c hc
        obtain rfl := List.mem_singleton.mp hc
        refine ⟨⟨hfiled.nonneg,hfiled.hashval,hfiled.klen,hfiled.legible⟩,fun _ => ?_⟩
        change T.home e.key = T.home key
        rw [Table.home,hs.hash_eq,Table.home])
      (by
        intro rest hp
        obtain ⟨hu,hrest⟩ := List.pairwise_cons.mp ((hp.pairwise_iff Separate.symm).mp h.unique)
        exact List.pairwise_cons.mpr ⟨fun c hc => hu c hc,hrest⟩)
      (by
        intro rest hp
        rw [h.count,hp.length_eq,List.length_append,List.length_append,List.length_singleton,
          List.length_singleton])
    exact Or.inl ⟨e,rest,hp,hs,hint,hdup,_,hrep,ht⟩
  · refine Or.inr ⟨h.absent hf,herr,fun hlegible => ⟨_,hnew,?_⟩⟩
    obtain ⟨rest,hp,ht⟩ := h.patched hlt ((T.elm_nums+1) % 2^32) T.freed [newEntry T.hash key data]
      (show T.buckets (T.home key) = T.buckets (T.home key)++[]++[] by simp)
      (by
        intro c hc
        obtain rfl := List.mem_singleton.mp hc
        exact ⟨⟨h0,rfl,rfl,hlegible⟩,fun _ => rfl⟩)
      (by
        intro rest hp
        refine List.pairwise_cons.mpr ⟨?_,(hp.pairwise_iff Separate.symm).mp h.unique⟩
        intro c hc hs
        exact h.absent hf c (hp.mem_iff.mpr hc) hs.symm)
      (by
        intro rest hp
        have hlen := hp.length_eq
        simp only [List.length_append,List.length_singleton,List.length_nil] at hlen ⊢
        rw [h.count]
        omega)
    rw [List.append_nil] at ht
    have ht' : T.Turned (T.appended key data) (newEntry T.hash key data::T.entries) T.freed :=
      ⟨ht.filed,ht.entries.trans (hp.symm.cons _),rfl,rfl,rfl⟩
    unfold Table.grown
    split_ifs
    · have hr := ht'.filed.rehash calloc
      exact ⟨hr.filed,hr.entries.trans ht'.entries,hr.hash,hr.free,hr.freed⟩
    · exact ht'

/-- `jk_hash_remove` takes out the entry of the key and gives its data to the free callback. -/
theorem Table.Filed.remove :
    (∃ e rest T', T.entries.Perm (e::rest) ∧ Same T.hash e.key key ∧ T.hash key < 2^31 ∧
      hashRemove T key = some (T',.ok) ∧ T.Turned T' rest (T.freeing e.data)) ∨
    ((∀ e ∈ T.entries, Same T.hash e.key key → 2^31 ≤ T.hash key) ∧ hashRemove T key = some (T,.err)) := by
  rcases h.sized.remove_cases h0 with ⟨passed,e,post,hb,hf,hremove⟩ | ⟨hf,hremove⟩
  · obtain ⟨he,hs,hint⟩ := h.present (by simp [hb]) hf
    obtain ⟨rest,hp,ht⟩ := h.patched (h.sized.home_lt key)
      (if T.elm_nums = 0 then 2^32-1 else T.elm_nums-1) (T.freeing e.data) [] hb (by simp)
      (fun rest hp => ((hp.pairwise_iff Separate.symm).mp h.unique).of_cons)
      (by
        intro rest hp
        have hlen := hp.length_eq
        simp only [List.length_append,List.length_singleton,List.length_nil] at hlen ⊢
        rw [h.count]
        split_ifs <;> omega)
    exact Or.inl ⟨e,rest,_,hp,hs,hint,hremove,ht⟩
  · exact Or.inr ⟨h.absent hf,hremove⟩

end Filed

/-- A new table. -/
theorem hashInit_filed {init_buckets : ℕ} {hash : Option (Key → ℤ)} {free : Bool} {T : Table δ}
    (h : hashInit init_buckets hash free true = some T) :
    T.Filed ∧ T.entries = [] ∧ T.hash = hash.getD defaultHash := by
  obtain ⟨n,hmin,hmax,rfl⟩ := hashInit_cases h
  have he : Table.entries (⟨hash.getD defaultHash,free,fun _ => [],n,0,[]⟩ : Table δ) = [] := chained_nil n
  refine ⟨⟨⟨hmin,hmax⟩,?_,?_,?_,?_⟩,he,rfl⟩
  · rw [he]
    rfl
  · simp [he]
  · intro i _ e hi
    cases hi
  · simp [he]

end JustKit.Hash
