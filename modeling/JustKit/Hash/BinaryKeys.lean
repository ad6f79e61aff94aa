import JustKit.Hash.Runs

/-! Binary keys whose hashes fit an `int`. A key is hashed and copied with all its bytes, but compared as a
string; two keys with the same hash and length that differ only behind a NUL share one entry. -/
namespace JustKit.Hash
open Foundations
variable {δ : Type}

/-! ### What a change of the entries leaves alone -/

/-- What a key finds depends on the entries with the same key only. -/
theorem Table.Filed.find_frame {T T' : Table δ} (h : T.Filed) (h' : T'.Filed) (hhash : T'.hash = T.hash)
    (es es' : List (Entry δ)) {rest : List (Entry δ)} (hp : T.entries.Perm (es++rest))
    (hp' : T'.entries.Perm (es'++rest)) {key : Key} (h0 : 0 ≤ T.hash key)
    (hes : ∀ e ∈ es, ¬ Same T.hash e.key key) (hes' : ∀ e ∈ es', ¬ Same T.hash e.key key) :
    hashFind T' key = hashFind T key := by
  have hmem : ∀ e : Entry δ, Same T.hash e.key key → (e ∈ T.entries ↔ e ∈ T'.entries) := by
    intro e hs
    rw [hp.mem_iff,hp'.mem_iff,List.mem_append,List.mem_append]
    constructor
    · exact fun he => Or.inr (he.resolve_left fun he => hes e he hs)
    · exact fun he => Or.inr (he.resolve_left fun he => hes' e he hs)
  rcases h.find h0 with ⟨e,he,hs,hint,hf⟩ | ⟨habsent,hf⟩
  · rcases h'.find (hhash ▸ h0) with ⟨e',he',hs',_,hf'⟩ | ⟨habsent,_⟩
    · rw [hhash] at hs'
      have heq : e = e' := by
        by_contra hne
        have hsymm : Std.Symm (Separate T.hash : Entry δ → Entry δ → Prop) := ⟨fun _ _ => Separate.symm⟩
        have hsep := h.unique.forall he ((hmem e' hs').mpr he') hne
        have hlarge := hsep (hs.trans hs'.symm)
        rw [hs.hash_eq] at hlarge
        exact absurd hlarge (not_le.mpr hint)
      rw [hf,hf',heq]
    · have hlarge := habsent e ((hmem e hs).mp he) (hhash ▸ hs)
      rw [hhash] at hlarge
      exact absurd hlarge (not_le.mpr hint)
  · rcases h'.find (hhash ▸ h0) with ⟨e',he',hs',hint,_⟩ | ⟨_,hf'⟩
    · rw [hhash] at hs' hint
      exact absurd (habsent e' ((hmem e' hs').mpr he') hs') (not_le.mpr hint)
    · rw [hf,hf']

/-- Neither an insertion nor a removal of `k` changes what `k2` finds. -/
def Untouched (T : Table δ) (k k2 : Key) : Prop :=
  (∀ data replace malloc calloc, ∃ T' s, hashInsert T k data replace malloc calloc = some (T',s) ∧
      hashFind T' k2 = hashFind T k2) ∧
    ∃ T' s, hashRemove T k = some (T',s) ∧ hashFind T' k2 = hashFind T k2

theorem Table.Filed.untouched {T : Table δ} (h : T.Filed) {k k2 : Key} (hk : 0 ≤ T.hash k ∧ T.hash k < 2^31)
    (h2 : 0 ≤ T.hash k2) (hother : ¬ Same T.hash k k2) : Untouched T k k2 := by
  have hsame {e : Entry δ} (hs : Same T.hash e.key k) : ¬ Same T.hash e.key k2 :=
    fun hs2 => hother (hs.symm.trans hs2)
  constructor
  · intro data replace malloc calloc
    rcases h.insert hk.1 data calloc with ⟨e,rest,hp,hs,_,hdup,T',hrep,ht⟩ | ⟨_,herr,hok⟩
    · cases replace with
      | false => exact ⟨T,.duplicateKey,hdup malloc,rfl⟩
      | true =>
        refine ⟨T',.ok,hrep malloc,?_⟩
        apply h.find_frame ht.filed ht.hash [e] [{ e with data := data }] hp ht.entries h2
        · simpa using hsame hs
        · simpa using hsame hs
    · cases malloc with
      | false => exact ⟨T,.err,herr replace,rfl⟩
      | true =>
        obtain ⟨T',hnew,ht⟩ := hok (Or.inr hk.2)
        refine ⟨T',.ok,hnew replace,?_⟩
        apply h.find_frame ht.filed ht.hash [] [newEntry T.hash k data] List.Perm.rfl ht.entries h2
        · simp
        · simpa [newEntry] using hother
  · rcases h.remove hk.1 with ⟨e,rest,T',hp,hs,_,hok,ht⟩ | ⟨_,herr⟩
    · refine ⟨T',.ok,hok,?_⟩
      apply h.find_frame ht.filed ht.hash [e] [] hp ht.entries h2
      · simpa using hsame hs
      · simp
    · exact ⟨T,.err,herr,rfl⟩

/-! ### Reachable tables -/

/-- A run of calls on keys of `K` has led from a new table to `T`. -/
def Reached (hash : Option (Key → ℤ)) (K : Set Key) (T : Table δ) (ops : List (Op δ))
    (rs : List (Status × Option δ)) : Prop :=
  ∃ init_buckets free T₀, hashInit init_buckets hash free true = some T₀ ∧ (∀ op ∈ ops, op.key ∈ K) ∧
    run T₀ ops = some (T,rs)

/-- In every reachable table the calls on `k` leave alone what `k2` finds. -/
def Independent (δ : Type) (hash : Option (Key → ℤ)) (K : Set Key) (k k2 : Key) : Prop :=
  ∀ (T : Table δ) ops rs, Reached hash K T ops rs → Untouched T k k2

/-- As long as `k` has not been inserted, no insertion of it returns `JK_HASH_DUPLICATE_KEY`. -/
def NewAccepted (δ : Type) (hash : Option (Key → ℤ)) (K : Set Key) (k : Key) : Prop :=
  ∀ (T : Table δ) ops rs, Reached hash K T ops rs → ¬ Inserted ops rs k →
    ∀ data replace malloc calloc T', hashInsert T k data replace malloc calloc ≠ some (T',.duplicateKey)

section Keys
variable {hash : Option (Key → ℤ)} {K : Set Key}
  (hK : ∀ k ∈ K, 0 ≤ hash.getD defaultHash k ∧ hash.getD defaultHash k < 2^31)
include hK

theorem Reached.filed {T : Table δ} {ops : List (Op δ)} {rs : List (Status × Option δ)}
    (h : Reached hash K T ops rs) :
    T.Filed ∧ T.hash = hash.getD defaultHash ∧ ∀ e ∈ T.entries, Inserted ops rs e.key ∧ e.key ∈ K := by
  obtain ⟨init_buckets,free,T₀,hinit,hops,hrun⟩ := h
  obtain ⟨hfiled,hentries,hhash⟩ := hashInit_filed hinit
  obtain ⟨T',rs',hrun',h',hhash',hkeys⟩ := hfiled.run fun op hop => by
    rw [hhash]
    exact ⟨(hK _ (hops op hop)).1,Or.inr (hK _ (hops op hop)).2⟩
  obtain ⟨rfl,rfl⟩ := Prod.mk.inj (Option.some.inj (hrun.symm.trans hrun'))
  refine ⟨h',hhash'.trans hhash,fun e he => ?_⟩
  have hins : Inserted ops rs e.key := by
    apply (hkeys e he).resolve_left
    rintro ⟨c,hc,_⟩
    rw [hentries] at hc
    cases hc
  obtain ⟨op,hop,hkey⟩ := hins.mem
  exact ⟨hins,hkey ▸ hops op hop⟩

theorem independent_of_other {k k2 : Key} (hk : k ∈ K) (h2 : k2 ∈ K)
    (hother : ¬ Same (hash.getD defaultHash) k k2) :
    Independent δ hash K k k2 := by
  intro T ops rs h
  obtain ⟨hfiled,hhash,_⟩ := h.filed hK
  apply hfiled.untouched
  · rw [hhash]
    exact hK k hk
  · rw [hhash]
    exact (hK k2 h2).1
  · rwa [hhash]

theorem newAccepted_of_other {k : Key} (hk : k ∈ K)
    (hother : ∀ k2 ∈ K, k ≠ k2 → ¬ Same (hash.getD defaultHash) k k2) :
    NewAccepted δ hash K k := by
  intro T ops rs h hnew data replace malloc calloc T' hdup
  obtain ⟨hfiled,hhash,hkeys⟩ := h.filed hK
  have h0 : 0 ≤ T.hash k := by rw [hhash]; exact (hK k hk).1
  rcases hfiled.insert h0 data calloc with ⟨e,rest,hp,hs,_,_⟩ | ⟨_,herr,hok⟩
  · obtain ⟨hins,he⟩ := hkeys e (hp.mem_iff.mpr List.mem_cons_self)
    have hne : k ≠ e.key := fun heq => hnew (heq ▸ hins)
    exact hother e.key he hne (hhash ▸ hs.symm)
  · cases malloc with
    | false =>
      rw [herr replace] at hdup
      cases hdup
    | true =>
      obtain ⟨T'',hnew',_⟩ := hok (Or.inr (by rw [hhash]; exact (hK k hk).2))
      rw [hnew' replace] at hdup
      cases hdup

/-- One insertion into a new table. -/
lemma first_insertion {k : Key} (hk : k ∈ K) (data : δ) : ∃ T₀ T : Table δ, Reached hash K T₀ [] [] ∧
    Reached hash K T [.insert k data false true true] [(.ok,none)] ∧ T₀.entries = [] ∧
    (∀ replace, hashInsert T₀ k data replace true true = some (T,.ok)) ∧
    T.entries.Perm [newEntry T.hash k data] := by
  obtain ⟨T₀,hT₀⟩ : ∃ T₀ : Table δ, hashInit 7 hash false true = some T₀ := ⟨_,rfl⟩
  obtain ⟨hfiled,hentries,hhash⟩ := hashInit_filed hT₀
  have hreached : Reached hash K T₀ [] [] := ⟨7,false,T₀,hT₀,by simp,rfl⟩
  rcases hfiled.insert (by rw [hhash]; exact (hK k hk).1) data true with ⟨e,rest,hp,_⟩ | ⟨_,_,hok⟩
  · rw [hentries] at hp
    exact absurd hp.length_eq (by simp)
  · obtain ⟨T,hnew,ht⟩ := hok (Or.inr (by rw [hhash]; exact (hK k hk).2))
    refine ⟨T₀,T,hreached,⟨7,false,T₀,hT₀,by simpa [Op.key] using hk,?_⟩,hentries,hnew,?_⟩
    · simp [run,Op.exec,hnew]
    · rw [ht.hash,← hentries]
      exact ht.entries

/-- A key that the table takes for another one finds its entry, and is a duplicate. -/
theorem same_found {k k2 : Key} (hk : k ∈ K) (hs : Same (hash.getD defaultHash) k k2) {T : Table δ}
    {ops : List (Op δ)} {rs : List (Status × Option δ)} (h : Reached hash K T ops rs) {data : δ}
    (hp : T.entries.Perm [newEntry T.hash k data]) :
    hashFind T k2 ≠ some (.err,none) ∧
      ∀ data' calloc, hashInsert T k2 data' false true calloc = some (T,.duplicateKey) := by
  obtain ⟨hfiled,hhash,_⟩ := h.filed hK
  have he : newEntry T.hash k data ∈ T.entries := hp.mem_iff.mpr (List.mem_singleton.mpr rfl)
  have hs' : Same T.hash k k2 := by rwa [hhash]
  have hr : 0 ≤ T.hash k2 ∧ T.hash k2 < 2^31 := by
    rw [← hs'.hash_eq,hhash]
    exact hK k hk
  constructor
  · rcases hfiled.find hr.1 with ⟨e,_,_,_,hf⟩ | ⟨habsent,_⟩
    · rw [hf]
      simp
    · exact absurd (habsent _ he hs') (not_le.mpr hr.2)
  · intro data' calloc
    rcases hfiled.insert hr.1 data' calloc with ⟨_,_,_,_,_,hdup,_⟩ | ⟨habsent,_⟩
    · exact hdup true
    · exact absurd (habsent _ he hs') (not_le.mpr hr.2)

/-- Calls on one key leave another key alone if and only if the two differ in hash, length or text; a new
key is accepted if and only if it differs so from all others. -/
theorem binary_keys_iff [Inhabited δ] {k : Key} (hk : k ∈ K) :
    (∀ k2 ∈ K, k ≠ k2 → (Independent δ hash K k k2 ↔ ¬ Same (hash.getD defaultHash) k k2)) ∧
      (NewAccepted δ hash K k ↔ ∀ k2 ∈ K, k ≠ k2 → ¬ Same (hash.getD defaultHash) k k2) := by
  constructor
  · intro k2 h2 _
    refine ⟨fun hind hs => ?_,independent_of_other hK hk h2⟩
    obtain ⟨T₀,T,hT₀,hT,hempty,hins,hp⟩ := first_insertion hK hk (default : δ)
    obtain ⟨hfiled,hhash,_⟩ := hT₀.filed hK
    obtain ⟨T',s,hins',hsame⟩ := (hind T₀ [] [] hT₀).1 default false true true
    obtain ⟨rfl,_⟩ := Prod.mk.inj (Option.some.inj ((hins false).symm.trans hins'))
    apply (same_found hK hk hs hT hp).1
    rw [hsame]
    rcases hfiled.find (by rw [hhash]; exact (hK k2 h2).1) with ⟨e,he,_⟩ | ⟨_,hf⟩
    · rw [hempty] at he
      cases he
    · exact hf
  · refine ⟨fun hnew k2 h2 hne hs => ?_,newAccepted_of_other hK hk⟩
    obtain ⟨_,T,_,hT,_,_,hp⟩ := first_insertion hK h2 (default : δ)
    have hfresh : ¬ Inserted [Op.insert k2 (default : δ) false true true] [(.ok,none)] k := by
      intro hins
      obtain ⟨op,hop,hkey⟩ := hins.mem
      obtain rfl := List.mem_singleton.mp hop
      exact hne hkey.symm
    exact hnew T _ _ hT hfresh default false true true T ((same_found hK h2 hs.symm hT hp).2 default true)

end Keys

/-- All keys, under a hash that does not tell them apart. -/
theorem binary_keys_iff_constant :
    (∀ k2 ∈ (Set.univ : Set Key), ([0,1] : Key) ≠ k2 →
      (Independent ℕ (some fun _ => 3) Set.univ [0,1] k2 ↔ ¬ Same (fun _ => 3) [0,1] k2)) ∧
    (NewAccepted ℕ (some fun _ => 3) Set.univ [0,1] ↔
      ∀ k2 ∈ (Set.univ : Set Key), ([0,1] : Key) ≠ k2 → ¬ Same (fun _ => 3) [0,1] k2) :=
  have hK : ∀ k ∈ (Set.univ : Set Key),
      0 ≤ (some fun _ : Key => (3 : ℤ)).getD defaultHash k ∧
      (some fun _ : Key => (3 : ℤ)).getD defaultHash k < 2^31 :=
    fun _ _ => (by decide : (0 : ℤ) ≤ 3 ∧ (3 : ℤ) < 2^31)
  binary_keys_iff hK (Set.mem_univ _)

/-- The keys 00 01 00 and 00 00 10 under the default hash: after the first is inserted, the second, which
never was, is found with the data of the first, is refused as a duplicate, and removes the first. -/
theorem binary_keys_mixed : defaultHash [0,1,0] = 16 ∧ defaultHash [0,0,16] = 16 ∧
    ∃ T₀ T T' : Table ℕ, hashInit 7 none false true = some T₀ ∧
    hashFind T₀ [0,0,16] = some (.err,none) ∧
      hashInsert T₀ [0,1,0] 10 false true true = some (T,.ok) ∧ hashFind T [0,0,16] = some (.ok,some 10) ∧
      hashInsert T [0,0,16] 20 false true true = some (T,.duplicateKey) ∧
      hashFind T [0,1,0] = some (.ok,some 10) ∧ hashRemove T [0,0,16] = some (T',.ok) ∧
      hashFind T' [0,1,0] = some (.err,none) :=
  ⟨by decide,by decide,_,_,_,rfl,rfl,rfl,rfl,rfl,rfl,rfl,rfl⟩

end JustKit.Hash
