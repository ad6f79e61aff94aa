import JustKit.Hash.Entries

/-! One specification for each operation of a sound table, in terms of its entries. -/
namespace JustKit.Hash
open Foundations
variable {δ : Type}

/-- The table has turned into one with the entries `es`, whose keys have no NUL. -/
structure Table.Became (T T' : Table δ) (es : List (Entry δ)) (freed : List δ) : Prop extends
    Table.Turned T T' es freed where
  nulFree : ∀ e ∈ es, NulFree e.key

lemma Table.Became.sound {T T' : Table δ} {es : List (Entry δ)} {fs : List δ}
    (h : T.Became T' es fs) : T'.Sound :=
  ⟨h.filed,fun he => h.nulFree _ (h.entries.mem_iff.mp he)⟩

/-- A new table is empty and sound. -/
theorem hashInit_spec {init_buckets : ℕ} {hash : Option (Key → ℤ)} {free : Bool} {T : Table δ}
    (h : hashInit init_buckets hash free true = some T) :
    T.Sound ∧ T.entries = [] ∧ T.hash = hash.getD defaultHash := by
  obtain ⟨hfiled,hentries,hhash⟩ := hashInit_filed h
  exact ⟨⟨hfiled,by simp [hentries]⟩,hentries,hhash⟩

theorem hashRehash_spec {T : Table δ} (h : T.Sound) (calloc : Bool) :
    T.Became (hashRehash T calloc) T.entries T.freed :=
  ⟨h.filed.rehash calloc,fun _ he => h.nulFree he⟩

section Sound
variable {T : Table δ} (h : T.Sound) {key : Key} (h0 : 0 ≤ T.hash key)
include h h0

/-- `jk_hash_insert`: an entry found is a duplicate or gets the new data; otherwise an entry is added
unless its allocation fails. -/
theorem hashInsert_spec (data : δ) (calloc : Bool) :
    (∃ e rest, T.entries.Perm (e::rest) ∧ e.key = key ∧ T.hash key < 2^31 ∧
      (∀ malloc, hashInsert T key data false malloc calloc = some (T,.duplicateKey)) ∧
      ∃ T', (∀ malloc, hashInsert T key data true malloc calloc = some (T',.ok)) ∧
        T.Became T' ({ e with data := data }::rest) (T.freed++if T.free then [e.data] else [])) ∨
    ((∀ e ∈ T.entries, e.key = key → 2^31 ≤ T.hash key) ∧
      (∀ replace, hashInsert T key data replace false calloc = some (T,.err)) ∧
      (NulFree key → ∃ T', (∀ replace, hashInsert T key data replace true calloc = some (T',.ok)) ∧
        T.Became T' (newEntry T.hash key data::T.entries) T.freed)) := by
  rcases h.filed.insert h0 data calloc with ⟨e,rest,hp,hs,hint,hdup,T',hrep,ht⟩ | ⟨habsent,herr,hok⟩
  · have hnul : ∀ c ∈ e::rest, NulFree c.key := fun c hc => h.nulFree (hp.mem_iff.mpr hc)
    have hkey := (hnul e List.mem_cons_self).same_iff.mp hs
    refine Or.inl ⟨e,rest,hp,hkey,hint,hdup,T',hrep,ht,?_⟩
    exact List.forall_mem_cons.mpr (List.forall_mem_cons.mp hnul)
  · refine Or.inr ⟨h.absent habsent,herr,fun hk => ?_⟩
    obtain ⟨T',hnew,ht⟩ := hok (Or.inl hk)
    exact ⟨T',hnew,ht,List.forall_mem_cons.mpr ⟨hk,fun c hc => h.nulFree hc⟩⟩

/-- `jk_hash_remove` takes out the entry of the key and gives its data to the free callback. -/
theorem hashRemove_spec :
    (∃ e rest T', T.entries.Perm (e::rest) ∧ e.key = key ∧ T.hash key < 2^31 ∧
      hashRemove T key = some (T',.ok) ∧ T.Became T' rest (T.freed++if T.free then [e.data] else [])) ∨
    ((∀ e ∈ T.entries, e.key = key → 2^31 ≤ T.hash key) ∧ hashRemove T key = some (T,.err)) := by
  rcases h.filed.remove h0 with ⟨e,rest,T',hp,hs,hint,hremove,ht⟩ | ⟨habsent,hremove⟩
  · have hnul : ∀ c ∈ e::rest, NulFree c.key := fun c hc => h.nulFree (hp.mem_iff.mpr hc)
    have hkey := (hnul e List.mem_cons_self).same_iff.mp hs
    exact Or.inl ⟨e,rest,T',hp,hkey,hint,hremove,ht,(List.forall_mem_cons.mp hnul).2⟩
  · exact Or.inr ⟨h.absent habsent,hremove⟩

end Sound
end JustKit.Hash
