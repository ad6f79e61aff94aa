import JustKit.Foundations.FiniteMap
import JustKit.Hash.Runs

/-! The table refines a finite map from byte strings to data, over whole runs. -/
namespace JustKit.Hash
open Foundations
variable {δ : Type}

/-- The meaning of the table: data by key. -/
abbrev Bindings (δ : Type) := Finmap fun _ : Key => δ

/-- What a finite map does and answers. -/
def Op.spec (m : Bindings δ) : Op δ → Bindings δ × Status × Option δ
  | .find key =>
    match m.lookup key with
    | some data => (m,.ok,some data)
    | none => (m,.err,none)
  | .insert key data replace malloc _ =>
    if key ∈ m then if replace then (m.insert key data,.ok,none) else (m,.duplicateKey,none)
    else if malloc then (m.insert key data,.ok,none) else (m,.err,none)
  | .remove key => if key ∈ m then (m.erase key,.ok,none) else (m,.err,none)

def specRun (m : Bindings δ) : List (Op δ) → Bindings δ × List (Status × Option δ)
  | [] => (m,[])
  | op::ops => ((specRun (op.spec m).1 ops).1,(op.spec m).2::(specRun (op.spec m).1 ops).2)

def Entry.binding (e : Entry δ) : Σ _ : Key, δ := ⟨e.key,e.data⟩

/-- The entries are the bindings of `m`, and every hash fits an `int`. -/
structure Refines (T : Table δ) (m : Bindings δ) : Prop where
  sound : T.Sound
  range : ∀ k, 0 ≤ T.hash k ∧ T.hash k < 2^31
  bindings : m.entries = (T.entries.map Entry.binding : List _)

section Refines
variable {T : Table δ} {m : Bindings δ} (h : Refines T m)
include h

lemma Refines.lookup {e : Entry δ} (he : e ∈ T.entries) : m.lookup e.key = some e.data := by
  rw [Finmap.lookup_eq_some_iff,h.bindings]
  exact Multiset.mem_coe.mpr (List.mem_map_of_mem (f := Entry.binding) he)

lemma Refines.not_mem {key : Key} (hk : ∀ e ∈ T.entries, e.key = key → 2^31 ≤ T.hash key) : key ∉ m := by
  intro hm
  obtain ⟨data,hd⟩ := Finmap.mem_iff.mp hm
  rw [Finmap.lookup_eq_some_iff,h.bindings] at hd
  obtain ⟨e,he,hb⟩ := List.mem_map.mp hd
  have hkey : e.key = key := congrArg Sigma.fst hb
  exact absurd (hk e he hkey) (not_le.mpr (h.range key).2)

/-- Different entries and bindings after a call. -/
lemma Refines.became {T' : Table δ} {m' : Bindings δ} {es : List (Entry δ)} {fs : List δ}
    (hb : T.Became T' es fs) (he : m'.entries = (es.map Entry.binding : List _)) : Refines T' m' :=
  ⟨hb.sound,by rw [hb.hash]; exact h.range,he.trans (Multiset.coe_eq_coe.mpr (hb.entries.map _)).symm⟩

lemma Refines.entries_cons {e : Entry δ} {rest : List (Entry δ)} (hp : T.entries.Perm (e::rest)) :
    m.entries = ⟨e.key,e.data⟩ ::ₘ (rest.map Entry.binding : List _) :=
  h.bindings.trans (Multiset.coe_eq_coe.mpr (hp.map _))

theorem Refines.rehash (calloc : Bool) : Refines (hashRehash T calloc) m :=
  h.became (hashRehash_spec h.sound calloc) h.bindings

theorem Refines.find (key : Key) :
    (Op.find key : Op δ).exec T = some (T,((Op.find key : Op δ).spec m).2) := by
  rcases h.sound.find (h.range key).1 with ⟨e,he,rfl,_,hf⟩ | ⟨hk,hf⟩
  · simp [Op.exec,Op.spec,hf,h.lookup he]
  · simp [Op.exec,Op.spec,hf,Finmap.lookup_eq_none.mpr (h.not_mem hk)]

theorem Refines.insert {key : Key} (hkey : NulFree key) (data : δ) (replace malloc calloc : Bool) :
    ∃ T', (Op.insert key data replace malloc calloc).exec T =
      some (T',((Op.insert key data replace malloc calloc).spec m).2) ∧
      Refines T' ((Op.insert key data replace malloc calloc).spec m).1 := by
  rcases hashInsert_spec h.sound (h.range key).1 data calloc with
    ⟨e,rest,hp,rfl,_,hdup,T',hrep,hb⟩ | ⟨hk,herr,hok⟩
  · have hm : e.key ∈ m := mem_of_mem_entries (b := e.data) (by rw [h.entries_cons hp]; simp)
    cases replace with
    | false => exact ⟨T,by simp [Op.exec,Op.spec,hdup,hm],by simpa [Op.spec,hm] using h⟩
    | true =>
      refine ⟨T',by simp [Op.exec,Op.spec,hrep,hm],?_⟩
      simp only [Op.spec,if_pos hm,if_true]
      apply h.became hb
      rw [insert_entries,erase_entries (h.entries_cons hp)]
      rfl
  · have hm := h.not_mem hk
    cases malloc with
    | false => exact ⟨T,by simp [Op.exec,Op.spec,herr,hm],by simpa [Op.spec,hm] using h⟩
    | true =>
      obtain ⟨T',hnew,hb⟩ := hok hkey
      refine ⟨T',by simp [Op.exec,Op.spec,hnew,hm],?_⟩
      simp only [Op.spec,if_neg hm,if_true]
      apply h.became hb
      rw [Finmap.entries_insert_of_notMem hm,h.bindings]
      rfl

theorem Refines.remove (key : Key) :
    ∃ T', (Op.remove key : Op δ).exec T = some (T',((Op.remove key : Op δ).spec m).2) ∧
      Refines T' ((Op.remove key : Op δ).spec m).1 := by
  rcases hashRemove_spec h.sound (h.range key).1 with ⟨e,rest,T',hp,rfl,_,hok,hb⟩ | ⟨hk,herr⟩
  · have hm : e.key ∈ m := mem_of_mem_entries (b := e.data) (by rw [h.entries_cons hp]; simp)
    refine ⟨T',by simp [Op.exec,Op.spec,hok,hm],?_⟩
    simp only [Op.spec,if_pos hm]
    exact h.became hb (erase_entries (h.entries_cons hp))
  · have hm := h.not_mem hk
    exact ⟨T,by simp [Op.exec,Op.spec,herr,hm],by simpa [Op.spec,hm] using h⟩

/-- One call answers as the map does and keeps the refinement. -/
theorem Refines.exec {op : Op δ} (hop : NulFree op.key) :
    ∃ T', op.exec T = some (T',(op.spec m).2) ∧ Refines T' (op.spec m).1 := by
  cases op with
  | find key =>
    refine ⟨T,h.find key,?_⟩
    have hm : ((Op.find key : Op δ).spec m).1 = m := by
      simp only [Op.spec]
      split <;> rfl
    rwa [hm]
  | insert key data replace malloc calloc => exact h.insert hop data replace malloc calloc
  | remove key => exact h.remove key

theorem Refines.elm_nums (hn : m.keys.card < 2^32) : T.elm_nums = m.keys.card := by
  have hc : m.keys.card = T.entries.length := by
    rw [card_keys,h.bindings,Multiset.coe_card,List.length_map]
  rw [h.sound.filed.count,hc,Nat.mod_eq_of_lt (hc ▸ hn)]

end Refines

theorem run_refines {T : Table δ} {m : Bindings δ} {ops : List (Op δ)} (h : Refines T m)
    (hops : ∀ op ∈ ops, NulFree op.key) :
    ∃ T', run T ops = some (T',(specRun m ops).2) ∧ Refines T' (specRun m ops).1 := by
  induction ops generalizing T m with
  | nil => exact ⟨T,rfl,h⟩
  | cons op ops ih =>
    obtain ⟨T₁,h1,h2⟩ := h.exec (hops op List.mem_cons_self)
    obtain ⟨T₂,h3,h4⟩ := ih h2 fun o ho => hops o (List.mem_cons_of_mem _ ho)
    exact ⟨T₂,by simp [run,specRun,h1,h3],h4⟩

/-- The hash table behaves as a finite map, whatever allocations fail: every call answers as the map
does, `elm_nums` is the number of bindings, and no rehash changes what any key finds. -/
theorem hash_refines_finmap (hash : Key → ℤ) (hh : ∀ k, 0 ≤ hash k ∧ hash k < 2^31) (init_buckets : ℕ)
    (free : Bool) (ops : List (Op δ)) (hops : ∀ op ∈ ops, NulFree op.key)
    (hn : (specRun ∅ ops).1.keys.card < 2^32) :
    ∃ T T', hashInit init_buckets (some hash) free true = some T ∧ run T ops = some (T',(specRun ∅ ops).2) ∧
      T'.elm_nums = (specRun ∅ ops).1.keys.card ∧
      (∀ key, hashFind T' key = some ((Op.find key : Op δ).spec (specRun ∅ ops).1).2) ∧
      ∀ calloc, (hashRehash T' calloc).elm_nums = T'.elm_nums ∧
        ∀ key, hashFind (hashRehash T' calloc) key = hashFind T' key := by
  obtain ⟨T,hT⟩ : ∃ T : Table δ, hashInit init_buckets (some hash) free true = some T := ⟨_,rfl⟩
  obtain ⟨hsound,hentries,hhash⟩ := hashInit_spec hT
  have hinit : Refines T ∅ := ⟨hsound,by rw [hhash]; exact hh,by rw [hentries]; rfl⟩
  obtain ⟨T',h1,h2⟩ := run_refines hinit hops
  have hfind {U : Table δ} (hU : Refines U (specRun ∅ ops).1) (key : Key) :
      hashFind U key = some ((Op.find key : Op δ).spec (specRun ∅ ops).1).2 := by
    obtain ⟨r,hr,he⟩ := Option.map_eq_some_iff.mp (hU.find key)
    rw [hr]
    exact congrArg some (congrArg Prod.snd he)
  refine ⟨T,T',hT,h1,h2.elm_nums hn,hfind h2,fun calloc => ⟨?_,fun key => ?_⟩⟩
  · rw [(h2.rehash calloc).elm_nums hn,h2.elm_nums hn]
  · rw [hfind (h2.rehash calloc),hfind h2]

/-- Colliding keys: an insertion, a duplicate, a replacement, a failed allocation, and a removal. -/
def collidingRun : List (Op ℕ) :=
  [.insert [1] 10 false true true,.insert [2] 20 false true true,.insert [1] 11 false true true,
    .insert [1] 12 true true true,.insert [3] 30 false false true,.find [1],.remove [2],.find [2]]

theorem hash_refines_finmap_colliding :
    ∃ T T', hashInit 0 (some fun _ => 5) true true = some T ∧
      run T collidingRun = some (T',(specRun ∅ collidingRun).2) ∧
      T'.elm_nums = (specRun ∅ collidingRun).1.keys.card ∧
      (∀ key, hashFind T' key = some ((Op.find key : Op ℕ).spec (specRun ∅ collidingRun).1).2) ∧
      ∀ calloc, (hashRehash T' calloc).elm_nums = T'.elm_nums ∧
        ∀ key, hashFind (hashRehash T' calloc) key = hashFind T' key :=
  hash_refines_finmap (fun _ => 5) (fun _ => by decide) 0 true collidingRun (by decide) (by decide)

end JustKit.Hash
