import JustKit.Foundations.Traced
import JustKit.Hash.LoadFactor
import JustKit.Hash.Ownership

/-! What the rehashes of a run cost in all. A rehash passes over all buckets and all entries; but the number of
buckets about doubles with it, so the insertions since the last rehash pay for the next one. -/
namespace JustKit.Hash
open Foundations Foundations.Traced
variable {δ : Type}

/-- A pass of the outer or of the inner loop of `jk_hash_rehash`. -/
inductive Pass where
  | bucket (i : ℕ)
  | entry (hashval : ℤ)
  deriving Repr, DecidableEq

/-- `jk_hash_rehash`. -/
def hashRehashTraced (T : Table δ) (calloc : Bool) : Traced Pass (Table δ) :=
  let buckets_size := nextSize T.buckets_size
  if buckets_size = T.buckets_size then return T
  else match hashInit (δ := δ) buckets_size none false calloc with
    | none => return T
    | some new_htb => do
      let buckets ← (List.range T.buckets_size).foldlM (fun b i => do
        let b ← step (.bucket i) (some b)
        (T.buckets i).foldlM (fun b e => step (.entry e.hashval) (some (relink new_htb.buckets_size b e))) b)
          new_htb.buckets
      return { T with buckets := buckets, buckets_size := new_htb.buckets_size }

/-- `jk_hash_insert`. -/
def hashInsertTraced (T : Table δ) (key : Key) (data : δ) (replace malloc calloc : Bool) :
    Traced Pass (Table δ × Status) :=
  let hashval := T.hash key
  let index := lookupIndex hashval T.buckets_size
  match T.bucket index with
  | none => failure
  | some chain =>
    match walk hashval key chain with
    | (passed,e::rest) =>
      if replace then return ((T.release e.data).setBucket index (passed++{ e with data := data }::rest),.ok)
      else return (T,.duplicateKey)
    | (passed,[]) =>
      if malloc then
        let T := T.setBucket index (passed++[⟨wrap 32 hashval,key.length,data,key⟩])
        let T := { T with elm_nums := (T.elm_nums+1) % 2^32 }
        if 2*T.buckets_size < 3*T.elm_nums then do
          let T ← hashRehashTraced T calloc
          return (T,.ok)
        else return (T,.ok)
      else return (T,.err)

/-- One call; the others have no rehash. -/
def Op.execTraced (T : Table δ) : Op δ → Traced Pass (Table δ × Status × Option δ)
  | .insert key data replace malloc calloc => do
    let (T,s) ← hashInsertTraced T key data replace malloc calloc
    return (T,s,none)
  | op => OptionT.mk (pure (op.exec T))

def runTraced (T : Table δ) : List (Op δ) → Traced Pass (Table δ × List (Status × Option δ))
  | [] => return (T,[])
  | op::ops => do
    let (T,r) ← op.execTraced T
    let (T,rs) ← runTraced T ops
    return (T,r::rs)

/-! ### Without the log -/

/-- A rehash that moves the entries passes over each bucket and each entry once. -/
theorem hashRehashTraced_eq (T : Table δ) (calloc : Bool) :
    result (hashRehashTraced T calloc) = some (hashRehash T calloc) ∧ (log (hashRehashTraced T calloc)).length =
      if nextSize T.buckets_size = T.buckets_size ∨
      calloc = false then 0 else T.buckets_size+T.entries.length := by
  unfold hashRehashTraced hashRehash
  dsimp only
  by_cases hn : nextSize T.buckets_size = T.buckets_size
  · simp [hn]
  cases calloc with
  | false => simp [hn,hashInit]
  | true =>
    obtain ⟨new_htb,hnew⟩ : ∃ new_htb : Table δ, hashInit (nextSize T.buckets_size) none false true =
      some new_htb := ⟨_,rfl⟩
    rw [if_neg hn,if_neg hn,hnew]
    have hpass : ∀ (b : ℕ → List (Entry δ)) (i : ℕ), result (do
          let b ← (step (Pass.bucket i) (some b) : Traced Pass _)
          (T.buckets i).foldlM (fun b e => step (.entry e.hashval) (some (relink new_htb.buckets_size b e))) b) =
          some ((T.buckets i).foldl (relink new_htb.buckets_size) b) ∧ log (do
          let b ← (step (Pass.bucket i) (some b) : Traced Pass _)
          (T.buckets i).foldlM (fun b e => step (.entry e.hashval) (some (relink new_htb.buckets_size b e))) b) =
          Pass.bucket i::(T.buckets i).flatMap fun e => [Pass.entry e.hashval] := by
      intro b i
      obtain ⟨hr,hl⟩ :=
        foldlM_eq (f := fun b (e : Entry δ) => step (Pass.entry e.hashval)
        (some (relink new_htb.buckets_size b e)))
        (fun _ _ => ⟨rfl,rfl⟩) (T.buckets i) b
      rw [result_bind,log_bind rfl,hl]
      exact ⟨hr,rfl⟩
    obtain ⟨hr,hl⟩ := foldlM_eq hpass (List.range T.buckets_size) new_htb.buckets
    refine ⟨by rw [result_bind,hr]; rfl,?_⟩
    rw [log_bind hr,hl]
    have hlength : ∀ i, (Pass.bucket i::(T.buckets i).flatMap fun e => [Pass.entry e.hashval]).length =
        1+(T.buckets i).length := by
      intro i
      simp [Nat.add_comm]
    simp [hn,List.length_flatMap,hlength,Table.entries,chained,List.sum_map_add]

lemma hashInsertTraced_result (T : Table δ) (key : Key) (data : δ) (replace malloc calloc : Bool) :
    result (hashInsertTraced T key data replace malloc calloc) = hashInsert T key data replace malloc calloc := by
  unfold hashInsertTraced hashInsert
  dsimp only
  cases T.bucket (lookupIndex (T.hash key) T.buckets_size) with
  | none => rfl
  | some chain =>
    simp only [Option.bind_eq_bind,Option.bind_some]
    generalize walk (T.hash key) key chain = found
    obtain ⟨passed,_ | ⟨e,rest⟩⟩ := found
    · cases malloc with
      | false => rfl
      | true =>
        simp only [if_true,apply_ite result,result_bind,(hashRehashTraced_eq _ _).1]
        rfl
    · cases replace <;> rfl

lemma execTraced_result (T : Table δ) (op : Op δ) : result (op.execTraced T) = op.exec T := by
  cases op with
  | find | remove => rfl
  | insert key data replace malloc calloc =>
    rw [Op.execTraced,Op.exec,result_bind,hashInsertTraced_result]
    cases hashInsert T key data replace malloc calloc <;> rfl

theorem runTraced_result (T : Table δ) (ops : List (Op δ)) : result (runTraced T ops) = run T ops := by
  induction ops generalizing T with
  | nil => rfl
  | cons op ops ih =>
    rw [runTraced,run,result_bind,execTraced_result]
    cases op.exec T with
    | none => rfl
    | some p =>
      rw [Option.bind_some,result_bind,ih]
      rfl

/-! ### The passes of one call -/

/-- A rehash that changes the number of buckets has moved all entries. -/
lemma hashRehashTraced_passes (T : Table δ) (calloc : Bool) : (log (hashRehashTraced T calloc)).length =
    if (hashRehash T calloc).buckets_size = T.buckets_size then 0
    else T.buckets_size+(hashRehash T calloc).entries.length := by
  rw [(hashRehashTraced_eq T calloc).2]
  by_cases hn : nextSize T.buckets_size = T.buckets_size
  · rw [if_pos (Or.inl hn),hashRehash,if_pos hn,if_pos rfl]
  cases calloc with
  | false => simp [hashRehash,hn,hashInit]
  | true =>
    obtain ⟨hmin,_⟩ := bucketsSizes_range (nextSize_mem T.buckets_size)
    have hsize : (T.rehashed (nextSize T.buckets_size)).buckets_size ≠ T.buckets_size := hn
    rw [hashRehash_granted hn,if_neg (by simp [hn]),if_neg hsize,(rehashed_entries T hmin).length_eq]

/-- So does an insertion that changes it; the others have no pass. -/
theorem Table.Sized.insert_passes {T : Table δ} (h : T.Sized) {key : Key} (h0 : 0 ≤ T.hash key) {data : δ}
    {replace malloc calloc : Bool} {T' : Table δ} {s : Status}
    (hinsert : hashInsert T key data replace malloc calloc = some (T',s)) :
    (log (hashInsertTraced T key data replace malloc calloc)).length =
      if T'.buckets_size = T.buckets_size then 0 else T.buckets_size+T'.entries.length := by
  unfold hashInsert at hinsert
  unfold hashInsertTraced
  dsimp only
  simp only [h.bucket_eq h0,Option.bind_eq_bind,Option.bind_some] at hinsert ⊢
  generalize walk (T.hash key) key (T.buckets (T.home key)) = found at hinsert ⊢
  obtain ⟨passed,_ | ⟨e,rest⟩⟩ := found
  · cases malloc with
    | false =>
      obtain ⟨rfl,_⟩ := Prod.mk.inj (Option.some.inj hinsert)
      simp
    | true =>
      simp only [if_true] at hinsert ⊢
      split at hinsert
      · rename_i hfull
        obtain ⟨rfl,_⟩ := Prod.mk.inj (Option.some.inj hinsert)
        rw [if_pos hfull,log_bind_pure]
        exact hashRehashTraced_passes _ calloc
      · rename_i hfits
        obtain ⟨rfl,_⟩ := Prod.mk.inj (Option.some.inj hinsert)
        rw [if_neg hfits]
        exact (if_pos rfl).symm
  · cases replace with
    | false =>
      obtain ⟨rfl,_⟩ := Prod.mk.inj (Option.some.inj hinsert)
      simp
    | true =>
      obtain ⟨rfl,_⟩ := Prod.mk.inj (Option.some.inj hinsert)
      simp [Table.setBucket,Table.release]

/-! ### What pays for the passes -/

/-- An insertion puts aside ten passes for its entry. A rehash takes of them, but for each bucket of its new size
it leaves five that are not needed yet. -/
def Funded (T : Table δ) (p : ℕ) : Prop :=
  T.buckets_size = bucketsMaxSize ∨ 10*T.elm_nums ≤ p ∨
    (T.buckets_size ∈ bucketsSizes ∧ 10*T.elm_nums ≤ p+5*T.buckets_size)

/-- The sizes of the table of sizes grow by the factor 13/7 at least. -/
lemma nextSize_ratio {n : ℕ} (h : n ∈ bucketsSizes) : n = bucketsMaxSize ∨ 13*n ≤ 7*nextSize n :=
  (show ∀ n ∈ bucketsSizes, n = bucketsMaxSize ∨ 13*n ≤ 7*nextSize n by decide) n h

lemma Funded.mono {T T' : Table δ} {p p' : ℕ} (h : Funded T p) (hsize : T'.buckets_size = T.buckets_size)
    (hcount : T.buckets_size < bucketsMaxSize → 10*T'.elm_nums+p ≤ 10*T.elm_nums+p')
    (hle : T.buckets_size ≤ bucketsMaxSize) : Funded T' p' := by
  unfold Funded at h ⊢
  rw [hsize]
  rcases hle.lt_or_eq with hlt | hmax
  · have hmore := hcount hlt
    rcases h with hmax | hall | ⟨hmem,hbut⟩
    · exact Or.inl hmax
    · exact Or.inr (Or.inl (by omega))
    · exact Or.inr (Or.inr ⟨hmem,by omega⟩)
  · exact Or.inl hmax

section Loaded
variable {first : ℕ} {T : Table δ} (h : T.Loaded first) {p : ℕ} (hp : Funded T p)
include h hp

/-- A new entry, with the growth test: what is put aside is enough for the rehash, if there is one. -/
theorem Table.Loaded.grown_funded {T' : Table δ} (hsize : T'.buckets_size = T.buckets_size)
    (hcount : T'.elm_nums = (T.elm_nums+1) % 2^32) (hentries : T'.entries.length = T.entries.length+1) :
    ∃ p', (if (T'.grown true).buckets_size = T.buckets_size then 0
      else T.buckets_size+(T'.grown true).entries.length)+p'
      = p+10 ∧ Funded (T'.grown true) p' := by
  rcases h.sized.le.lt_or_eq with hlt | hmax
  · have hload := h.load_le hlt
    have hnext := nextSize_gt hlt
    have hentries' : T'.entries.length = T.elm_nums+1 := by rw [hentries,h.count hlt]
    have hcount' : T'.elm_nums = T.elm_nums+1 := by omega
    by_cases hfull : 2*T'.buckets_size < 3*T'.elm_nums
    · have hgrown : T'.grown true = T'.rehashed (nextSize T.buckets_size) := by
        rw [Table.grown,if_pos hfull,hashRehash_granted (by rw [hsize]; exact hnext.ne'),hsize]
      obtain ⟨hmin,_⟩ := bucketsSizes_range (nextSize_mem T.buckets_size)
      have hsize' : (T'.grown true).buckets_size = nextSize T.buckets_size := congrArg Table.buckets_size hgrown
      have helm : (T'.grown true).elm_nums = T.elm_nums+1 := (congrArg Table.elm_nums hgrown).trans hcount'
      have hlen : (T'.grown true).entries.length = T.elm_nums+1 := by
        rw [hgrown,(rehashed_entries T' hmin).length_eq,hentries']
      rw [hsize',if_neg hnext.ne',hlen]
      unfold Funded
      rw [hsize',helm]
      rw [hsize,hcount'] at hfull
      -- the entries are more than two thirds of the old buckets, and little more
      refine ⟨p+10-(T.buckets_size+(T.elm_nums+1)),?_,Or.inr (Or.inr ⟨nextSize_mem _,?_⟩)⟩
      · rcases hp with hmax | hall | ⟨_,hbut⟩ <;> omega
      · rcases hp with hmax | hall | ⟨hmem,hbut⟩
        · omega
        · omega
        · have hratio := (nextSize_ratio hmem).resolve_left hlt.ne
          have hseven := h.sized.pos
          omega
    · have hsame : T'.grown true = T' := if_neg hfull
      rw [hsame,if_pos hsize]
      exact ⟨p+10,Nat.zero_add _,hp.mono hsize (fun _ => by omega) hlt.le⟩
  · have hfixed : nextSize T'.buckets_size = T'.buckets_size := by
      rw [hsize.trans hmax]
      exact nextSize_max
    have hsame : T'.grown true = T' := by
      unfold Table.grown
      split_ifs
      · rw [hashRehash,if_pos hfixed]
      · rfl
    rw [hsame,if_pos hsize]
    exact ⟨p+10,Nat.zero_add _,Or.inl (hsize.trans hmax)⟩

/-- What one call puts aside covers its passes. -/
theorem Table.Loaded.exec_funded (op : Op δ) (h0 : 0 ≤ T.hash op.key) (hgranted : op.Granted) {T' : Table δ}
    {r : Status × Option δ} (hexec : op.exec T = some (T',r)) :
    ∃ p', (log (op.execTraced T)).length+p' = p+10*Multiset.card (op.accepted r) ∧ Funded T' p' := by
  cases op with
  | find key =>
    obtain ⟨_,_,hT⟩ := Option.map_eq_some_iff.mp hexec
    obtain ⟨rfl,_⟩ := Prod.mk.inj hT
    exact ⟨p,Nat.zero_add p,hp⟩
  | insert key data replace malloc calloc =>
    obtain rfl : calloc = true := hgranted
    change 0 ≤ T.hash key at h0
    obtain ⟨⟨T₁,s⟩,hinsert,hT⟩ := Option.map_eq_some_iff.mp hexec
    obtain ⟨rfl,rfl⟩ := Prod.mk.inj hT
    rw [Op.execTraced,log_bind_pure,h.sized.insert_passes h0 hinsert]
    rcases h.sized.insert_cases h0 data true with ⟨passed,e,rest,_,_,hdup,hrep⟩ | ⟨_,herr,hnew⟩
    · cases replace with
      | false =>
        obtain ⟨rfl,rfl⟩ := Prod.mk.inj (Option.some.inj ((hdup malloc).symm.trans hinsert))
        exact ⟨p,by simp [Op.accepted],hp⟩
      | true =>
        obtain ⟨rfl,rfl⟩ := Prod.mk.inj (Option.some.inj ((hrep malloc).symm.trans hinsert))
        exact ⟨p+10,by simp [Op.accepted,Table.patched],
          hp.mono rfl (fun _ => by simp [Table.patched]) h.sized.le⟩
    · cases malloc with
      | false =>
        obtain ⟨rfl,rfl⟩ := Prod.mk.inj (Option.some.inj ((herr replace).symm.trans hinsert))
        exact ⟨p,by simp [Op.accepted],hp⟩
      | true =>
        obtain ⟨rfl,rfl⟩ := Prod.mk.inj (Option.some.inj ((hnew replace).symm.trans hinsert))
        have hb : T.buckets (T.home key) = T.buckets (T.home key)++[]++[] := by simp
        have hlength := patched_length (h.sized.home_lt key) hb [newEntry T.hash key data]
          ((T.elm_nums+1) % 2^32) T.freed
        rw [List.append_nil] at hlength
        exact h.grown_funded hp rfl rfl hlength
  | remove key =>
    obtain ⟨⟨T₁,s⟩,hremove,hT⟩ := Option.map_eq_some_iff.mp hexec
    obtain ⟨rfl,rfl⟩ := Prod.mk.inj hT
    refine ⟨p,by cases s <;> exact Nat.zero_add p,?_⟩
    rcases h.sized.remove_cases h0 with ⟨passed,e,rest,hb,_,hfound⟩ | ⟨_,hnone⟩
    · obtain ⟨rfl,_⟩ := Prod.mk.inj (Option.some.inj (hfound.symm.trans hremove))
      refine hp.mono rfl (fun hlt => ?_) h.sized.le
      have hlength := patched_length (h.sized.home_lt key) hb [] 0 T.freed
      have hcount := h.count hlt
      rw [List.length_singleton,List.length_nil] at hlength
      have hpos : T.elm_nums ≠ 0 := by omega
      dsimp only [Table.patched]
      rw [if_neg hpos]
      omega
    · obtain ⟨rfl,_⟩ := Prod.mk.inj (Option.some.inj (hnone.symm.trans hremove))
      exact hp

theorem Table.Loaded.run_funded {ops : List (Op δ)} (h0 : ∀ op ∈ ops, 0 ≤ T.hash op.key)
    (hgranted : ∀ op ∈ ops, op.Granted) : ∃ T' rs p', Hash.run T ops = some (T',rs) ∧
      (log (runTraced T ops)).length+p' = p+10*Multiset.card (accepted ops rs) := by
  induction ops generalizing T p with
  | nil => exact ⟨T,[],p,rfl,Nat.zero_add p⟩
  | cons op ops ih =>
    obtain ⟨T₁,r,hexec,h₁,hhash⟩ := h.exec op (h0 op List.mem_cons_self) (hgranted op List.mem_cons_self)
    obtain ⟨p₁,hpay,hp₁⟩ :=
      h.exec_funded hp op (h0 op List.mem_cons_self) (hgranted op List.mem_cons_self) hexec
    have h0' : ∀ o ∈ ops, 0 ≤ T₁.hash o.key := by
      intro o ho
      rw [hhash]
      exact h0 o (List.mem_cons_of_mem op ho)
    obtain ⟨T₂,rs,p₂,hrun,hrest⟩ := ih h₁ hp₁ h0' fun o ho => hgranted o (List.mem_cons_of_mem op ho)
    refine ⟨T₂,r::rs,p₂,by simp [Hash.run,hexec,hrun],?_⟩
    have hcard : Multiset.card (accepted (op::ops) (r::rs)) =
        Multiset.card (op.accepted r)+Multiset.card (accepted ops rs) := by
      simp [accepted]
    rw [runTraced,log_bind ((execTraced_result T op).trans hexec),log_bind_pure,List.length_append,hcard]
    omega

end Loaded

/-- In every run with hashes that are not negative and without refused buckets, all rehashes together take at most
ten passes for each insertion that returns `JK_HASH_OK`, over buckets and entries, whatever is removed meanwhile. -/
theorem rehashes_amortized (init_buckets : ℕ) (hash : Option (Key → ℤ)) (free : Bool) (ops : List (Op δ))
    (h0 : ∀ op ∈ ops, 0 ≤ hash.getD defaultHash op.key) (hgranted : ∀ op ∈ ops, op.Granted) :
    ∃ T₀ T rs, hashInit init_buckets hash free true = some T₀ ∧ run T₀ ops = some (T,rs) ∧
      result (runTraced T₀ ops) = some (T,rs) ∧
      (log (runTraced T₀ ops)).length ≤ 10*Multiset.card (accepted ops rs) := by
  obtain ⟨T₀,hT₀⟩ : ∃ T₀ : Table δ, hashInit init_buckets hash free true = some T₀ := ⟨_,rfl⟩
  obtain ⟨n,hmin,hmax,hT⟩ := hashInit_cases hT₀
  have hloaded : T₀.Loaded T₀.buckets_size := by
    rw [hT]
    refine ⟨⟨hmin,hmax⟩,?_,Or.inl rfl,Or.inl (Nat.zero_le _)⟩
    intro _
    exact (congrArg List.length (chained_nil n)).symm
  have hfunded : Funded T₀ 0 := by
    rw [hT]
    exact Or.inr (Or.inl le_rfl)
  obtain ⟨T,rs,p,hrun,hpasses⟩ := hloaded.run_funded hfunded (by rw [hT]; exact h0) hgranted
  exact ⟨T₀,T,rs,hT₀,hrun,(runTraced_result T₀ ops).trans hrun,by omega⟩

theorem rehashes_amortized_nine : ∃ T₀ T rs, hashInit 12 (some fun _ => 0) false true = some T₀ ∧
    run T₀ nineInserts = some (T,rs) ∧ result (runTraced T₀ nineInserts) = some (T,rs) ∧
    (log (runTraced T₀ nineInserts)).length ≤ 10*Multiset.card (accepted nineInserts rs) := by
  apply rehashes_amortized
  · intro op _
    exact le_rfl
  · intro op hop
    obtain ⟨i,_,rfl⟩ := List.mem_map.mp hop
    rfl

end JustKit.Hash
