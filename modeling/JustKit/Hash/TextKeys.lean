import JustKit.Hash.DefaultHash
import JustKit.Hash.Runs

/-! Text keys under the default hash. The hash of a text is never negative, but a carry of one of the
last eight bytes takes it out of the range of the stored `int`, and then the key is never found. -/
namespace JustKit.Hash
open Foundations
variable {δ : Type}

/-- All bytes are in 1..127. -/
def Text (key : Key) : Prop := ∀ c ∈ key, 1 ≤ c.toNat ∧ c.toNat ≤ 127

instance (key : Key) : Decidable (Text key) := inferInstanceAs (Decidable (∀ c ∈ key, _ ∧ _))

/-- None of the last eight bytes carries out of the low 32 bits. -/
def NoCarry (key : Key) : Prop := ∀ d ∈ lastCarries key, d = 0

instance (key : Key) : Decidable (NoCarry key) := inferInstanceAs (Decidable (∀ d ∈ lastCarries key, d = 0))

lemma Text.nulFree {key : Key} (h : Text key) : NulFree key := by
  intro h0
  have h1 := (h 0 h0).1
  simp at h1

lemma signedChar_text {c : UInt8} (h : c.toNat ≤ 127) : signedChar c = c.toNat := by
  rw [signedChar,BitVec.toInt_eq_toNat_cond,if_pos]
  · rfl
  · have h' : c.toBitVec.toNat = c.toNat := rfl
    omega

lemma carry_text {key : Key} (h : Text key) : ∀ d ∈ (scan key).2, 0 ≤ d := by
  induction key using List.reverseRecOn with
  | nil => simp [scan]
  | append_singleton key c ih =>
    intro d hd
    rw [scan_concat] at hd
    rcases List.mem_cons.mp hd with rfl | hd
    · have hc := signedChar_text (h c (by simp)).2
      rw [carryStep,hc]
      omega
    · exact ih (fun b hb => h b (by simp [hb])) d hd

/-- A sum of carries without borrows is zero only if every one is. -/
lemma carryValue_nonneg {ds : List ℤ} (h : ∀ d ∈ ds, 0 ≤ d) :
    0 ≤ carryValue ds ∧ (carryValue ds = 0 ↔ ∀ d ∈ ds, d = 0) := by
  induction ds with
  | nil => simp [carryValue]
  | cons d ds ih =>
    have hd := h d List.mem_cons_self
    obtain ⟨h1,h2⟩ := ih fun e he => h e (List.mem_cons_of_mem _ he)
    have hcons : carryValue (d::ds) = d+16*carryValue ds := rfl
    rw [hcons,List.forall_mem_cons,← h2]
    constructor
    · omega
    · constructor
      · intro hz; constructor <;> omega
      · rintro ⟨hz,hz'⟩; omega

/-- The hash of a text is not negative, and fits an `int` exactly if no late byte carries. -/
theorem defaultHash_text {key : Key} (h : Text key) :
    0 ≤ defaultHash key ∧ (defaultHash key < 2^31 ↔ NoCarry key) := by
  have hcarry : ∀ d ∈ lastCarries key, 0 ≤ d := fun d hd => carry_text h d (List.mem_of_mem_take hd)
  obtain ⟨h1,h2⟩ := carryValue_nonneg hcarry
  have hl := low_lt key
  rw [NoCarry,← h2,defaultHash_eq]
  change 0 ≤ high key at h1
  change _ ∧ (_ ↔ high key = 0)
  constructor
  · omega
  · constructor <;> intro hh <;> omega

/-- After an insertion that returns `JK_HASH_OK` the key is found with its data, and inserting it again
without replacement reports a duplicate. -/
def FoundAgain (T : Table δ) (key : Key) (data : δ) : Prop :=
  ∀ replace malloc calloc T', hashInsert T key data replace malloc calloc = some (T',.ok) →
    hashFind T' key = some (.ok,some data) ∧ ∀ data' malloc' calloc',
      (hashInsert T' key data' false malloc' calloc').map Prod.snd = some .duplicateKey

section Found
variable {T : Table δ} (h : T.Sound) {key : Key} (hkey : Usable T.hash key)
include h hkey

theorem foundAgain_of_int (hint : T.hash key < 2^31) (data : δ) : FoundAgain T key data := by
  intro replace malloc calloc T' hins
  -- Whatever the branch, the table now has an entry of the key with the data.
  have hhead : ∃ (e : Entry δ) (rest : List (Entry δ)) (fs : List δ), T.Became T' (e::rest) fs ∧
      e.key = key ∧ e.data = data := by
    rcases hashInsert_spec h hkey.2 data calloc with ⟨e,rest,_,hk,_,hdup,T'',hrep,hb⟩ | ⟨_,herr,hok⟩
    · cases replace with
      | false => rw [hdup] at hins; cases hins
      | true =>
        rw [hrep] at hins
        cases hins
        exact ⟨_,rest,_,hb,hk,rfl⟩
    · cases malloc with
      | false => rw [herr] at hins; cases hins
      | true =>
        obtain ⟨T'',hnew,hb⟩ := hok hkey.1
        rw [hnew] at hins
        cases hins
        exact ⟨_,_,_,hb,rfl,rfl⟩
  obtain ⟨e,rest,fs,hb,rfl,rfl⟩ := hhead
  have hint' : T'.hash e.key < 2^31 := by rwa [hb.hash]
  refine ⟨hb.sound.find_entry hb.entries hint',fun data' malloc' calloc' => ?_⟩
  rw [hb.sound.insert_entry hb.entries hint' data' malloc' calloc']
  rfl

theorem not_foundAgain_of_large (hlarge : 2^31 ≤ T.hash key) (data : δ) : ¬ FoundAgain T key data := by
  intro hfound
  rcases hashInsert_spec h hkey.2 data true with ⟨_,_,_,_,hint,_⟩ | ⟨_,_,hok⟩
  · exact absurd hlarge (not_le.mpr hint)
  · obtain ⟨T',hnew,hb⟩ := hok hkey.1
    have hf := (hfound false true true T' (hnew false)).1
    have hnonneg : 0 ≤ T'.hash key := by
      rw [hb.hash]
      exact hkey.2
    rcases hb.sound.find hnonneg with ⟨_,_,_,hint,_⟩ | ⟨_,hf'⟩
    · rw [hb.hash] at hint
      exact absurd hlarge (not_le.mpr hint)
    · rw [hf'] at hf
      cases hf

end Found

/-- In every reachable table with the default hash and text keys, an inserted text is found again if
and only if none of its last eight bytes carries. -/
theorem foundAgain_iff (init_buckets : ℕ) (free : Bool) (ops : List (Op δ)) (hops : ∀ op ∈ ops, Text op.key) :
    ∃ T₀ T rs, hashInit init_buckets none free true = some T₀ ∧ run T₀ ops = some (T,rs) ∧
      ∀ key data, Text key → (FoundAgain T key data ↔ NoCarry key) := by
  obtain ⟨T₀,hT⟩ : ∃ T₀ : Table δ, hashInit init_buckets none free true = some T₀ := ⟨_,rfl⟩
  obtain ⟨hsound,_,hhash⟩ := hashInit_spec hT
  have hhash' : T₀.hash = defaultHash := hhash
  have husable {key : Key} (hk : Text key) : Usable T₀.hash key := by
    rw [hhash']
    exact ⟨hk.nulFree,(defaultHash_text hk).1⟩
  obtain ⟨T,rs,h1,h2,h3⟩ := hsound.run fun op hop => husable (hops op hop)
  refine ⟨T₀,T,rs,hT,h1,fun key data hk => ?_⟩
  have hk' : Usable T.hash key := by rw [h3]; exact husable hk
  have hd := (defaultHash_text hk).2
  have hTd : T.hash key = defaultHash key := by rw [h3,hhash']
  rw [← hTd] at hd
  constructor
  · intro hfound
    apply hd.mp
    by_contra hlarge
    exact not_foundAgain_of_large h2 hk' (not_lt.mp hlarge) data hfound
  · intro hcarry
    exact foundAgain_of_int h2 hk' (hd.mpr hcarry) data

theorem foundAgain_iff_short :
    ∃ T₀ T rs, hashInit 7 none false true = some T₀ ∧
      run T₀ [Op.insert [0x61] 1 false true true,.insert [0x62] 2 false true true,.remove [0x61]] = some (T,rs) ∧
      ∀ key data, Text key → (FoundAgain T key data ↔ NoCarry key) :=
  foundAgain_iff 7 false [Op.insert [0x61] 1 false true true,.insert [0x62] 2 false true true,.remove [0x61]]
    (by decide +kernel)

/-- Seven bytes 0x0F and a byte 0x7F: the last one carries. -/
def carryKey : Key := [0x0F,0x0F,0x0F,0x0F,0x0F,0x0F,0x0F,0x7F]

/-- The key is inserted with success and not found right after. -/
theorem carryKey_not_found : Text carryKey ∧ ∃ T T', hashInit 7 none false true = some T ∧
    hashInsert T carryKey 1 false true true = some (T',.ok) ∧ hashFind T' carryKey = some (.err,none) :=
  ⟨by decide +kernel,_,_,rfl,rfl,rfl⟩

end JustKit.Hash
