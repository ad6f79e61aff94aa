import JustKit.Hash.Operations

/-! Runs of calls on one table. As long as no key has a negative hash, every call is defined; if the keys
have no NUL, it keeps the table sound. -/
namespace JustKit.Hash
open Foundations
variable {δ : Type}

/-- One call, with the answers of the allocator. -/
inductive Op (δ : Type) where
  | find (key : Key)
  | insert (key : Key) (data : δ) (replace malloc calloc : Bool)
  | remove (key : Key)

def Op.key : Op δ → Key
  | .find key => key
  | .insert key _ _ _ _ => key
  | .remove key => key

def Op.exec (T : Table δ) : Op δ → Option (Table δ × Status × Option δ)
  | .find key => (hashFind T key).map fun r => (T,r)
  | .insert key data replace malloc calloc =>
    (hashInsert T key data replace malloc calloc).map fun r => (r.1,r.2,none)
  | .remove key => (hashRemove T key).map fun r => (r.1,r.2,none)

def run (T : Table δ) : List (Op δ) → Option (Table δ × List (Status × Option δ))
  | [] => some (T,[])
  | op::ops => do
    let (T,r) ← op.exec T
    let (T,rs) ← run T ops
    return (T,r::rs)

/-- An insertion of the key has returned `JK_HASH_OK`. -/
def Inserted (ops : List (Op δ)) (rs : List (Status × Option δ)) (key : Key) : Prop :=
  ∃ data replace malloc calloc, (Op.insert key data replace malloc calloc,Status.ok,none) ∈ ops.zip rs

lemma inserted_cons {op : Op δ} {r : Status × Option δ} {ops : List (Op δ)} {rs : List (Status × Option δ)}
    {key : Key} :
    Inserted (op::ops) (r::rs) key ↔ Inserted [op] [r] key ∨ Inserted ops rs key := by
  simp only [Inserted,List.zip_cons_cons,List.zip_nil_right,List.mem_cons,List.not_mem_nil,or_false,exists_or]

lemma Inserted.mem {ops : List (Op δ)} {rs : List (Status × Option δ)} {key : Key} (h : Inserted ops rs key) :
    ∃ op ∈ ops, op.key = key := by
  obtain ⟨data,replace,malloc,calloc,hmem⟩ := h
  exact ⟨_,(List.of_mem_zip hmem).1,rfl⟩

/-- One call keeps the order of the table, and every key in it was there before or is inserted now. -/
theorem Table.Filed.exec {T : Table δ} (h : T.Filed) {op : Op δ} (h0 : 0 ≤ T.hash op.key)
    (hop : NulFree op.key ∨ T.hash op.key < 2^31) : ∃ T' r, op.exec T = some (T',r) ∧ T'.Filed ∧
    T'.hash = T.hash ∧
      ∀ e ∈ T'.entries, (∃ c ∈ T.entries, c.key = e.key) ∨ Inserted [op] [r] e.key := by
  have hself : ∀ e ∈ T.entries, ∃ c ∈ T.entries, c.key = e.key := fun e he => ⟨e,he,rfl⟩
  cases op with
  | find key =>
    change 0 ≤ T.hash key at h0
    rcases h.find h0 with ⟨e,_,_,_,hf⟩ | ⟨_,hf⟩
    · exact ⟨T,(.ok,some e.data),by simp [Op.exec,hf],h,rfl,fun c hc => Or.inl (hself c hc)⟩
    · exact ⟨T,(.err,none),by simp [Op.exec,hf],h,rfl,fun c hc => Or.inl (hself c hc)⟩
  | insert key data replace malloc calloc =>
    change 0 ≤ T.hash key at h0
    rcases h.insert h0 data calloc with ⟨e,rest,hp,_,_,hdup,T',hrep,ht⟩ | ⟨_,herr,hok⟩
    · cases replace with
      | false => exact ⟨T,(.duplicateKey,none),by simp [Op.exec,hdup],h,rfl,fun c hc => Or.inl (hself c hc)⟩
      | true =>
        refine ⟨T',(.ok,none),by simp [Op.exec,hrep],ht.filed,ht.hash,fun c hc => Or.inl ?_⟩
        rcases List.mem_cons.mp (ht.entries.mem_iff.mp hc) with rfl | hc
        · exact ⟨e,hp.mem_iff.mpr List.mem_cons_self,rfl⟩
        · exact hself c (hp.mem_iff.mpr (List.mem_cons_of_mem _ hc))
    · cases malloc with
      | false => exact ⟨T,(.err,none),by simp [Op.exec,herr],h,rfl,fun c hc => Or.inl (hself c hc)⟩
      | true =>
        obtain ⟨T',hnew,ht⟩ := hok hop
        refine ⟨T',(.ok,none),by simp [Op.exec,hnew],ht.filed,ht.hash,fun c hc => ?_⟩
        rcases List.mem_cons.mp (ht.entries.mem_iff.mp hc) with rfl | hc
        · exact Or.inr ⟨data,replace,true,calloc,List.mem_singleton.mpr rfl⟩
        · exact Or.inl (hself c hc)
  | remove key =>
    change 0 ≤ T.hash key at h0
    rcases h.remove h0 with ⟨e,rest,T',hp,_,_,hok,ht⟩ | ⟨_,herr⟩
    · refine ⟨T',(.ok,none),by simp [Op.exec,hok],ht.filed,ht.hash,fun c hc => Or.inl (hself c ?_)⟩
      exact hp.mem_iff.mpr (List.mem_cons_of_mem _ (ht.entries.mem_iff.mp hc))
    · exact ⟨T,(.err,none),by simp [Op.exec,herr],h,rfl,fun c hc => Or.inl (hself c hc)⟩

/-- A run is defined, and every key in the table was there before or is inserted by the run. -/
theorem Table.Filed.run {T : Table δ} (h : T.Filed) {ops : List (Op δ)}
    (hops : ∀ op ∈ ops, 0 ≤ T.hash op.key ∧ (NulFree op.key ∨ T.hash op.key < 2^31)) :
    ∃ T' rs, Hash.run T ops = some (T',rs) ∧ T'.Filed ∧ T'.hash = T.hash ∧
      ∀ e ∈ T'.entries, (∃ c ∈ T.entries, c.key = e.key) ∨ Inserted ops rs e.key := by
  induction ops generalizing T with
  | nil => exact ⟨T,[],rfl,h,rfl,fun e he => Or.inl ⟨e,he,rfl⟩⟩
  | cons op ops ih =>
    obtain ⟨h0,hop⟩ := hops op List.mem_cons_self
    obtain ⟨T₁,r,hexec,h₁,hhash₁,hkeys₁⟩ := h.exec h0 hop
    obtain ⟨T₂,rs,hrun,h₂,hhash₂,hkeys₂⟩ := ih h₁ fun o ho => by
      rw [hhash₁]
      exact hops o (List.mem_cons_of_mem _ ho)
    refine ⟨T₂,r::rs,by simp [Hash.run,hexec,hrun],h₂,hhash₂.trans hhash₁,?_⟩
    intro e he
    rw [inserted_cons]
    rcases hkeys₂ e he with ⟨c,hc,hkey⟩ | hins
    · rw [← hkey,← or_assoc]
      exact Or.inl (hkeys₁ c hc)
    · exact Or.inr (Or.inr hins)

/-- The calls of a run use keys that the table can take. -/
def Usable (hash : Key → ℤ) (key : Key) : Prop := NulFree key ∧ 0 ≤ hash key

theorem Table.Sound.run {T : Table δ} (h : T.Sound) {ops : List (Op δ)}
    (hops : ∀ op ∈ ops, Usable T.hash op.key) :
    ∃ T' rs, Hash.run T ops = some (T',rs) ∧ T'.Sound ∧ T'.hash = T.hash := by
  obtain ⟨T',rs,hrun,hfiled,hhash,hkeys⟩ :=
    h.filed.run fun op hop => ⟨(hops op hop).2,Or.inl (hops op hop).1⟩
  refine ⟨T',rs,hrun,⟨hfiled,?_⟩,hhash⟩
  intro e he
  rcases hkeys e he with ⟨c,hc,hkey⟩ | hins
  · exact hkey ▸ h.nulFree hc
  · obtain ⟨op,hop,hkey⟩ := hins.mem
    exact hkey ▸ (hops op hop).1

/-! ### What is found after an insertion -/

section Sound
variable {T : Table δ} (h : T.Sound) {e : Entry δ} {rest : List (Entry δ)} (hp : T.entries.Perm (e::rest))
  (hint : T.hash e.key < 2^31)
include h hp hint

/-- An entry whose hash fits an `int` is found by its key. -/
theorem Table.Sound.find_entry : hashFind T e.key = some (.ok,some e.data) := by
  have he : e ∈ T.entries := hp.mem_iff.mpr List.mem_cons_self
  have hu := List.pairwise_cons.mp ((hp.pairwise_iff Separate.symm).mp h.filed.unique)
  rcases h.find (h.filed.filed e he).nonneg with ⟨c,hc,hk,_,hf⟩ | ⟨hk,_⟩
  · rcases List.mem_cons.mp (hp.mem_iff.mp hc) with rfl | hc
    · exact hf
    · exact absurd (hu.1 c hc ((h.nulFree he).same_iff.mpr hk.symm)) (not_le.mpr hint)
  · exact absurd (hk e he rfl) (not_le.mpr hint)

/-- Its key cannot be inserted once more without replacement. -/
theorem Table.Sound.insert_entry (data : δ) (malloc calloc : Bool) :
    hashInsert T e.key data false malloc calloc = some (T,.duplicateKey) := by
  have he : e ∈ T.entries := hp.mem_iff.mpr List.mem_cons_self
  rcases hashInsert_spec h (h.filed.filed e he).nonneg data calloc with ⟨_,_,_,_,_,hdup,_⟩ | ⟨hk,_⟩
  · exact hdup malloc
  · exact absurd (hk e he rfl) (not_le.mpr hint)

end Sound
end JustKit.Hash
