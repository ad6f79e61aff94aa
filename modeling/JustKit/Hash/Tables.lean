import JustKit.Hash.Linked
import JustKit.Hash.Ownership

/-! Any number of tables in one memory. They behave like tables that have nothing in common, whatever addresses the
allocator uses again, and when they are released nothing is left. -/
namespace JustKit.Hash.Pointers
open Foundations Foundations.LinkedCells
variable {δ : Type}

/-- One call, with the addresses that the allocator returns. -/
inductive Op (δ : Type) where
  | new (init_buckets : ℕ) (hash : Option (Key → ℤ)) (free : Bool) (malloc calloc : Option Addr)
  | find (o : Addr) (key : Key)
  | insert (o : Addr) (key : Key) (data : δ) (replace : Bool) (malloc calloc : Option Addr)
  | remove (o : Addr) (key : Key)
  | free (o : Addr)

/-- What a call returns; for `jk_hash_new` also the raw table that the free callback has got, and for
`jk_hash_free` the data that it has got. -/
inductive Answer (δ : Type) where
  | made (o raw : Option Addr)
  | returned (s : Status) (ret : Option δ)
  | freed (data : List δ)
  deriving Repr, DecidableEq

/-- The call on the memory. -/
def Op.exec (fuel : ℕ) (m : Memory δ) : Op δ → Option (Memory δ × Answer δ)
  | .new init_buckets hash callback malloc calloc =>
    (hashNew m init_buckets hash callback malloc calloc).map fun r => (r.1,.made r.2.1 r.2.2)
  | .find o key => (hashFind fuel m o key).map fun r => (m,.returned r.1 r.2)
  | .insert o key data replace malloc calloc =>
    (hashInsert fuel m o key data replace malloc calloc).map fun r => (r.1,.returned r.2 none)
  | .remove o key => (hashRemove fuel m o key).map fun r => (r.1,.returned r.2 none)
  | .free o => (hashFree fuel m o).map fun r => (r.1,.freed r.2)

/-- What there is at an address: a table with its chains, or one that `jk_hash_new` has left raw. -/
inductive Object (δ : Type) where
  | raw
  | table (T : Table δ)

/-- The tables among the objects. -/
def tables (S : Mem (Object δ)) : Mem (Table δ) := fun o =>
  match S o with
  | some (.table T) => some T
  | _ => none

/-- The call on separate objects. -/
def Op.plain (S : Mem (Object δ)) : Op δ → Option (Mem (Object δ) × Answer δ)
  | .new init_buckets hash callback malloc calloc =>
    match malloc,Hash.hashInit init_buckets hash callback calloc.isSome with
    | none,_ => some (S,.made none none)
    | some o,some T => some (S.put o (.table T),.made (some o) none)
    | some o,none => if callback then some (S.put o .raw,.made none (some o)) else none
  | .find o key => do
    let T ← tables S o
    (Hash.hashFind T key).map fun r => (S,.returned r.1 r.2)
  | .insert o key data replace malloc calloc => do
    let T ← tables S o
    (Hash.hashInsert T key data replace malloc.isSome calloc.isSome).map fun r =>
      (S.put o (.table r.1),.returned r.2 none)
  | .remove o key => do
    let T ← tables S o
    (Hash.hashRemove T key).map fun r => (S.put o (.table r.1),.returned r.2 none)
  | .free o => do
    let T ← tables S o
    return (S.free o,.freed (Hash.hashDestroy T))

/-- The calls one after the other, with what they return. -/
def run {σ : Type} (exec : σ → Op δ → Option (σ × Answer δ)) (s : σ) : List (Op δ) →
    Option (σ × List (Answer δ))
  | [] => some (s,[])
  | op::ops => do
    let (s,r) ← exec s op
    let (s,rs) ← run exec s ops
    return (s,r::rs)

/-- The allocator returns different addresses that are not allocated. -/
def Op.fresh (m : Memory δ) : Op δ → Bool
  | .new _ _ _ malloc calloc | .insert _ _ _ _ malloc calloc =>
    (malloc.all fun a => (m a).isNone) && calloc.all fun b => (m b).isNone && malloc != some b
  | _ => true

/-- It does so in each call of a run. -/
def allocates (fuel : ℕ) (m : Memory δ) : List (Op δ) → Bool
  | [] => true
  | op::ops => op.fresh m && (op.exec fuel m).all fun r => allocates fuel r.1 ops

theorem fresh_iff {m : Memory δ} {malloc calloc : Option Addr} :
    ((malloc.all fun a => (m a).isNone) && calloc.all fun b => (m b).isNone && malloc != some b) = true ↔
      (∀ a ∈ malloc, m a = none) ∧ ∀ b ∈ calloc, m b = none ∧ malloc ≠ some b := by
  cases malloc <;> cases calloc <;> simp

/-! ### One call -/

lemma rel_some {α β : Type} {R : α → β → Prop} {a : α} {q : Option β} (h : Option.Rel R (some a) q) :
    ∃ b, q = some b ∧ R a b := by
  cases h with
  | some hab => exact ⟨_,rfl,hab⟩

section Objects
variable {S : Mem (Object δ)} {o : Addr} {T : Table δ}

@[simp] lemma tables_eq_some : tables S o = some T ↔ S o = some (.table T) := by
  unfold tables
  split <;> simp_all

lemma tables_put_table (S : Mem (Object δ)) (o : Addr) (T : Table δ) :
    tables (S.put o (.table T)) = (tables S).put o T := by
  funext o'
  by_cases hoo : o' = o
  · subst hoo
    rw [Mem.put_same,tables_eq_some,Mem.put_same]
  · rw [Mem.put_of_ne hoo,tables,tables,Mem.put_of_ne hoo]

lemma tables_put_raw (ho : S o = none) : tables (S.put o .raw) = tables S := by
  funext o'
  by_cases hoo : o' = o
  · subst hoo
    simp [tables,ho]
  · rw [tables,tables,Mem.put_of_ne hoo]

lemma tables_free (S : Mem (Object δ)) (o : Addr) : tables (S.free o) = (tables S).free o := by
  funext o'
  by_cases hoo : o' = o
  · subst hoo
    simp [tables]
  · rw [Mem.free_of_ne hoo,tables,tables,Mem.free_of_ne hoo]

/-- The blocks of an object; a raw table has one. -/
def Object.Holds (m : Memory δ) (o : Addr) : Object δ → List Addr → Prop
  | .raw,B => m o = some .raw ∧ B = [o]
  | .table T,B => Pointers.Holds m o T B

variable {m m' : Memory δ} {x : Object δ} {B : List Addr}

lemma Object.Holds.congr (h : x.Holds m o B) (heq : ∀ a ∈ B, m' a = m a) : x.Holds m' o B := by
  cases x with
  | raw =>
    obtain ⟨ho,rfl⟩ := h
    exact ⟨(heq o List.mem_cons_self).trans ho,rfl⟩
  | table T => exact Pointers.Holds.congr h heq

lemma Object.Holds.allocated (h : x.Holds m o B) : ∀ a ∈ B, m a ≠ none := by
  cases x with
  | raw =>
    obtain ⟨ho,rfl⟩ := h
    simp [ho]
  | table T => exact Pointers.Holds.allocated h

end Objects

/-- The objects are in the memory, with at most `k` blocks each. -/
def Represents (k : ℕ) (m : Memory δ) (S : Mem (Object δ)) : Prop :=
  ∃ Bs, Owners Object.Holds m S Bs ∧ ∀ o, S o ≠ none → (Bs o).length ≤ k

/-- The same answer, and the objects are in the memory. -/
def Alike (k : ℕ) : Option (Memory δ × Answer δ) → Option (Mem (Object δ) × Answer δ) → Prop :=
  Option.Rel fun r r' => r.2 = r'.2 ∧ Represents k r.1 r'.1

/-- A block that is the record of a table belongs to no other object. -/
theorem Object.Holds.table_at {m : Memory δ} {o o' : Addr} {x : Object δ} {B : List Addr} (h : x.Holds m o B)
    (hmem : o' ∈ B) {t : Header δ} (ht : m o' = some (.table t)) : o' = o ∧ ∃ T, x = .table T := by
  cases x with
  | raw =>
    obtain ⟨ho,rfl⟩ := h
    rw [List.mem_singleton.mp hmem,ho] at ht
    cases Option.some.inj ht
  | table T =>
    obtain ⟨b,l,hl,rfl⟩ := h
    refine ⟨?_,T,rfl⟩
    rcases List.mem_cons.mp hmem with rfl | hmem
    · rfl
    rcases List.mem_cons.mp hmem with rfl | hmem
    · simpa using hl.buckets.symm.trans ht
    · obtain ⟨c,hc⟩ := Option.ne_none_iff_exists'.mp (hl.stored.allocated hmem)
      simpa using (entry_eq_some.mp hc).symm.trans ht

section Call
variable {m : Memory δ} {S : Mem (Object δ)} {Bs : Addr → List Addr} {o : Addr} {k fuel : ℕ}
  (h : Owners Object.Holds m S Bs) (hlen : ∀ o, S o ≠ none → (Bs o).length ≤ k)
include h

/-- Where there is no table, the code finds none. -/
theorem no_table (ho : tables S o = none) : m.table o = none := by
  rw [Option.eq_none_iff_forall_ne_some]
  intro t ht
  rw [table_eq_some] at ht
  obtain ⟨o',ho',hmem⟩ := h.covers o (by simp [ht])
  obtain ⟨x,hx⟩ := Option.ne_none_iff_exists'.mp ho'
  obtain ⟨rfl,T,rfl⟩ := (h.holds o' x hx).table_at hmem ht
  rw [tables_eq_some.mpr hx] at ho
  cases ho

/-- An address that is not allocated is that of no object. -/
theorem unused (ho : m o = none) : S o = none := by
  by_contra hne
  obtain ⟨x,hx⟩ := Option.ne_none_iff_exists'.mp hne
  have hholds := h.holds o x hx
  cases x with
  | raw => exact Option.some_ne_none _ (hholds.1.symm.trans ho)
  | table T =>
    obtain ⟨_,_,hl,_⟩ := hholds
    simpa [ho] using hl.table

include hlen

/-- An object is put where there is none. -/
theorem represents_give (hk : 2 ≤ k) (ho : S o = none) {m' : Memory δ} {x : Object δ} {B : List Addr}
    (hbeside : Beside m m' B) (hholds : x.Holds m' o B) (hB : B.length ≤ 2) : Represents (k+1) m' (S.put o x) := by
  refine ⟨_,h.give (fun h => h.congr) (fun h => h.allocated) ho hbeside hholds,fun o' ho' => ?_⟩
  by_cases hoo : o' = o
  · subst hoo
    rw [Function.update_self]
    omega
  · rw [Function.update_of_ne hoo]
    exact (hlen o' (by rwa [← Mem.put_of_ne hoo S x])).trans (Nat.le_succ k)

/-- A call on one table. -/
theorem alike_change {T : Table δ} (hT : S o = some (.table T)) {α : Type} {p : Option (Memory δ × α)}
    {q : Option (Table δ × α)} (hagrees : Agrees (m.without (Bs o)) o (k+1) p q) (answer : α → Answer δ) :
    Alike (k+1) (p.map fun r => (r.1,answer r.2)) (q.map fun r => (S.put o (.table r.1),answer r.2)) := by
  cases hagrees with
  | none => exact .none
  | @some r r' hr =>
    obtain ⟨hanswer,B,hholds,hbeside,hB⟩ := hr
    have htable : (Object.table r'.1).Holds r.1 o B := hholds
    have hgive := (h.take (fun h => h.congr) (by simp [hT])).give (fun h => h.congr) (fun h => h.allocated)
      (Mem.free_same S o) hbeside htable
    rw [Mem.put_free] at hgive
    refine .some ⟨congrArg answer hanswer,_,hgive,fun o' ho' => ?_⟩
    by_cases hoo : o' = o
    · subst hoo
      rwa [Function.update_self]
    · rw [Function.update_of_ne hoo]
      exact (hlen o' (by rwa [← Mem.put_of_ne hoo S (.table r'.1)])).trans (Nat.le_succ k)

end Call

section Exec
variable {m : Memory δ} {S : Mem (Object δ)} {k fuel : ℕ} (h : Represents k m S)
include h

theorem new_alike (htwo : 2 ≤ k) (init_buckets : ℕ) (hash : Option (Key → ℤ)) (callback : Bool)
    {malloc calloc : Option Addr} (hfresh : (Op.new init_buckets hash callback malloc calloc).fresh m = true) :
    Alike (k+1) ((Op.new init_buckets hash callback malloc calloc).exec fuel m)
      ((Op.new init_buckets hash callback malloc calloc).plain S) := by
  obtain ⟨Bs,hB,hlen⟩ := h
  obtain ⟨hmalloc,hcalloc⟩ := fresh_iff.mp hfresh
  rcases hashNew_cases init_buckets hash callback hmalloc hcalloc with
    ⟨o,b,m',T,rfl,rfl,hnew,hinit,hholds,hbeside⟩ | ⟨rfl,hnew⟩ | ⟨o,rfl,rfl,hnew⟩
  · have ho := unused hB (hmalloc o rfl)
    have htable : (Object.table T).Holds m' o [o,b] := hholds
    simp only [Op.exec,Op.plain,hnew,hinit,Option.map_some,Option.isSome_some]
    exact .some ⟨rfl,represents_give hB hlen htwo ho hbeside htable le_rfl⟩
  · simp only [Op.exec,Op.plain,hnew,Option.map_some]
    exact .some ⟨rfl,Bs,hB,fun o ho => (hlen o ho).trans (Nat.le_succ k)⟩
  · have ho := hmalloc o rfl
    have hrefused : Hash.hashInit (δ := δ) init_buckets hash callback (none : Option Addr).isSome = none := rfl
    simp only [Op.exec,Op.plain,hnew,hrefused]
    cases callback with
    | false => exact .none
    | true =>
      have hraw : (Object.raw : Object δ).Holds (m.put o .raw) o [o] := ⟨Mem.put_same _ _ _,rfl⟩
      have hbeside := (Beside.nil m).alloc ho Block.raw
      exact .some ⟨rfl,represents_give hB hlen htwo (unused hB ho) hbeside hraw (Nat.le_succ 1)⟩

theorem find_alike (hfuel : k ≤ fuel) (o : Addr) (key : Key) :
    Alike (k+1) ((Op.find o key).exec fuel m) ((Op.find o key).plain S) := by
  obtain ⟨Bs,hB,hlen⟩ := h
  cases hT : tables S o with
  | none =>
    simp only [Op.exec,Op.plain,hT,hashFind,no_table hB hT,Option.bind_eq_bind,Option.bind_none,Option.map_none]
    exact .none
  | some T =>
    have hS := tables_eq_some.mp hT
    have hle := (hlen o (by simp [hS])).trans hfuel
    have hholds : Holds m o T (Bs o) := hB.holds o _ hS
    simp only [Op.exec,Op.plain,hT,hashFind_eq hholds hle key,Option.bind_eq_bind,Option.bind_some]
    cases Hash.hashFind T key with
    | none => exact .none
    | some r => exact .some ⟨rfl,Bs,hB,fun o ho => (hlen o ho).trans (Nat.le_succ k)⟩

theorem insert_alike (hfuel : k ≤ fuel) (o : Addr) (key : Key) (data : δ) (replace : Bool)
    {malloc calloc : Option Addr} (hfresh : (Op.insert o key data replace malloc calloc).fresh m = true) :
    Alike (k+1) ((Op.insert o key data replace malloc calloc).exec fuel m)
      ((Op.insert o key data replace malloc calloc).plain S) := by
  obtain ⟨Bs,hB,hlen⟩ := h
  obtain ⟨hmalloc,hcalloc⟩ := fresh_iff.mp hfresh
  cases hT : tables S o with
  | none =>
    simp only [Op.exec,Op.plain,hT,hashInsert,no_table hB hT,Option.bind_eq_bind,Option.bind_none,Option.map_none]
    exact .none
  | some T =>
    have hS := tables_eq_some.mp hT
    have hle := hlen o (by simp [hS])
    have hholds : Holds m o T (Bs o) := hB.holds o _ hS
    have hagrees :=
      hashInsert_agrees hholds (beside_without m (Bs o)) (hle.trans hfuel) key data replace hmalloc hcalloc
    simp only [Op.exec,Op.plain,hT,Option.bind_eq_bind,Option.bind_some]
    exact alike_change hB hlen hS (hagrees.mono (Nat.succ_le_succ hle)) fun s => .returned s none

theorem remove_alike (hfuel : k ≤ fuel) (o : Addr) (key : Key) :
    Alike (k+1) ((Op.remove o key).exec fuel m) ((Op.remove o key).plain S) := by
  obtain ⟨Bs,hB,hlen⟩ := h
  cases hT : tables S o with
  | none =>
    simp only [Op.exec,Op.plain,hT,hashRemove,no_table hB hT,Option.bind_eq_bind,Option.bind_none,Option.map_none]
    exact .none
  | some T =>
    have hS := tables_eq_some.mp hT
    have hle := hlen o (by simp [hS])
    have hholds : Holds m o T (Bs o) := hB.holds o _ hS
    have hagrees := hashRemove_agrees hholds (beside_without m (Bs o)) (hle.trans hfuel) key
    simp only [Op.exec,Op.plain,hT,Option.bind_eq_bind,Option.bind_some]
    exact alike_change hB hlen hS (hagrees.mono (hle.trans (Nat.le_succ k))) fun s => .returned s none

theorem free_alike (hfuel : k ≤ fuel) (o : Addr) :
    Alike (k+1) ((Op.free o).exec fuel m) ((Op.free o).plain S) := by
  obtain ⟨Bs,hB,hlen⟩ := h
  cases hT : tables S o with
  | none =>
    simp only [Op.exec,Op.plain,hT,hashFree,hashDestroy,no_table hB hT,Option.bind_eq_bind,Option.bind_none,
      Option.map_none]
    exact .none
  | some T =>
    have hS := tables_eq_some.mp hT
    have hle := (hlen o (by simp [hS])).trans hfuel
    have hholds : Holds m o T (Bs o) := hB.holds o _ hS
    simp only [Op.exec,Op.plain,hT,hashFree_eq hholds (beside_without m (Bs o)) hle,Option.bind_eq_bind,
      Option.bind_some,Option.map_some]
    refine .some ⟨rfl,Bs,hB.take (fun h => h.congr) (by simp [hS]),fun o' ho' => (hlen o' ?_).trans
      (Nat.le_succ k)⟩
    have hoo : o' ≠ o := fun he => ho' (he ▸ Mem.free_same S o)
    rwa [← Mem.free_of_ne hoo S]

/-- Each call does on the memory what it does on separate objects. -/
theorem exec_alike (htwo : 2 ≤ k) (hfuel : k ≤ fuel) (op : Op δ) (hfresh : op.fresh m = true) :
    Alike (k+1) (op.exec fuel m) (op.plain S) := by
  cases op with
  | new init_buckets hash callback malloc calloc => exact new_alike h htwo init_buckets hash callback hfresh
  | find o key => exact find_alike h hfuel o key
  | insert o key data replace malloc calloc => exact insert_alike h hfuel o key data replace hfresh
  | remove o key => exact remove_alike h hfuel o key
  | free o => exact free_alike h hfuel o

end Exec

/-! ### Runs -/

theorem run_alike {m : Memory δ} {S : Mem (Object δ)} {k fuel : ℕ} (h : Represents k m S) (htwo : 2 ≤ k)
    {ops : List (Op δ)} (hfuel : k+ops.length ≤ fuel+1) (hfresh : allocates fuel m ops = true) :
    Option.Rel (fun r r' => r.2 = r'.2 ∧ ∃ k, Represents k r.1 r'.1) (run (Op.exec fuel) m ops)
      (run Op.plain S ops) := by
  induction ops generalizing m S k with
  | nil => exact .some ⟨rfl,k,h⟩
  | cons op ops ih =>
    rw [allocates,Bool.and_eq_true] at hfresh
    rw [List.length_cons] at hfuel
    have hop := exec_alike h htwo (show k ≤ fuel by omega) op hfresh.1
    have hrest := hfresh.2
    unfold Alike at hop
    simp only [run]
    generalize op.exec fuel m = p at hop hrest
    generalize op.plain S = q at hop
    cases hop with
    | none => exact .none
    | @some r r' hr =>
      obtain ⟨m,a⟩ := r
      obtain ⟨S,a'⟩ := r'
      obtain ⟨rfl,hr⟩ := hr
      have hops := ih hr (htwo.trans (Nat.le_succ k)) (by omega) hrest
      simp only [Option.bind_eq_bind,Option.bind_some]
      generalize run (Op.exec fuel) m ops = p at hops
      generalize run Op.plain S ops = q at hops
      cases hops with
      | none => exact .none
      | some hr => exact .some ⟨congrArg (a::·) hr.1,hr.2⟩

/-- Any calls on any number of tables in one memory, with addresses used again as the allocator likes: they return
what they return on separate tables, they are undefined exactly where those are, and after them the memory holds
these tables and the raw ones that calls of `jk_hash_new` without buckets have left, and nothing else. -/
theorem memory_refines_tables (fuel : ℕ) (ops : List (Op δ)) (hfuel : ops.length < fuel)
    (hfresh : allocates fuel (fun _ => none) ops = true) :
    (run (Op.exec fuel) (fun _ => none) ops).map Prod.snd = (run Op.plain (fun _ => none) ops).map Prod.snd ∧
      ∀ m rs, run (Op.exec fuel) (fun _ => none) ops = some (m,rs) →
        ∃ S Bs, run Op.plain (fun _ => none) ops = some (S,rs) ∧ Owners Object.Holds m S Bs := by
  have hstart : Represents 2 (fun _ => none : Memory δ) fun _ => none :=
    ⟨fun _ => [],owners_empty,fun o ho => absurd rfl ho⟩
  have hrun := run_alike hstart le_rfl (show 2+ops.length ≤ fuel+1 by omega) hfresh
  generalize run (Op.exec fuel) (fun _ => none) ops = p at hrun
  generalize run Op.plain (fun _ => none) ops = q at hrun
  cases hrun with
  | none => exact ⟨rfl,fun m rs hm => nomatch hm⟩
  | @some r r' hr =>
    obtain ⟨hanswers,k,Bs,hB,_⟩ := hr
    refine ⟨congrArg some hanswers,?_⟩
    rintro m rs hm
    obtain rfl := Option.some.inj hm
    exact ⟨r'.1,Bs,congrArg some (Prod.ext rfl hanswers.symm),hB⟩

/-- Two tables at a time and later a third, with a replacement, a rehash, a table without buckets, and addresses of
released blocks used again for blocks of other kinds. -/
def sharedRun : List (Op ℕ) :=
  [.new 7 (some fun _ => 3) true (some 1) (some 2),.new 0 none true (some 3) (some 4),
    .insert 1 [1] 10 false (some 5) none,.insert 3 [1] 11 false (some 6) none,.remove 1 [1],
    .insert 1 [2] 20 false (some 5) none,.insert 1 [2] 21 true none none,
    .insert 1 [3] 30 false (some 7) none,.insert 1 [4] 40 false (some 8) none,.insert 1 [5] 50 false (some 9) none,
    .insert 1 [6] 60 false (some 10) (some 11),.find 1 [4],.new 7 none true (some 2) none,
    .insert 3 [7] 70 false (some 12) none,.free 1,.new 7 none true (some 5) (some 1),
    .insert 5 [9] 90 false (some 11) none,.find 3 [7],.free 3,.free 5]

lemma sharedRun_fresh : allocates 30 (fun _ => none) sharedRun = true := by decide +kernel

lemma sharedRun_ends : (run (Op.exec 30) (fun _ => none) sharedRun).isSome := by decide +kernel

theorem memory_refines_tables_shared :
    (run (Op.exec 30) (fun _ => none) sharedRun).map Prod.snd =
    (run Op.plain (fun _ => none) sharedRun).map Prod.snd ∧
      ∀ m rs, run (Op.exec 30) (fun _ => none) sharedRun = some (m,rs) →
        ∃ S Bs, run Op.plain (fun _ => none) sharedRun = some (S,rs) ∧ Owners Object.Holds m S Bs :=
  memory_refines_tables 30 sharedRun (by decide) sharedRun_fresh

/-! ### What is left in the end -/

theorem bucket_eq_some {T : Table δ} {index : ℤ} {chain : List (Entry δ)} (h : T.bucket index = some chain) :
    ∃ i : ℕ, index = i ∧ i < T.buckets_size ∧ chain = T.buckets i := by
  unfold Table.bucket at h
  split_ifs at h with hin
  obtain ⟨i,rfl⟩ := Int.eq_ofNat_of_zero_le hin.1
  exact ⟨i,rfl,Int.ofNat_lt.mp hin.2,(Option.some.inj h).symm⟩

section Took
variable {T T' : Table δ} (h : T.Sized) (hfree : T.free = true) {key : Key} {s : Status}
include h hfree

/-- Whatever the index is that `jk_hash_insert` computes, the table takes the datum exactly if it returns
`JK_HASH_OK`. -/
theorem insert_took {data : δ} {replace malloc calloc : Bool}
    (hinsert : Hash.hashInsert T key data replace malloc calloc = some (T',s)) :
    T.Took T' (if s = .ok then {data} else 0) := by
  unfold Hash.hashInsert at hinsert
  obtain ⟨chain,hchain,hinsert⟩ := Option.bind_eq_some_iff.mp hinsert
  obtain ⟨i,hi,hlt,rfl⟩ := bucket_eq_some hchain
  obtain ⟨hwalk,_⟩ := walk_append (T.hash key) key (T.buckets i)
  rw [hi] at hinsert
  generalize walk (T.hash key) key (T.buckets i) = found at hinsert hwalk
  obtain ⟨passed,_ | ⟨e,rest⟩⟩ := found
  · cases malloc with
    | false =>
      cases hinsert
      exact h.took
    | true =>
      have hpassed : T.buckets i = passed++[]++[] := by simpa using hwalk.symm
      have happended := owned_patched hlt hpassed [⟨wrap 32 (T.hash key),key.length,data,key⟩]
        ((T.elm_nums+1) % 2^32)
        T.freed {data} (by simp)
      rw [List.append_nil] at happended
      obtain ⟨hsized,howned,hhash,hfree'⟩ := Table.Sized.grown (h.patched i ((T.elm_nums+1) % 2^32)
        (passed++[⟨wrap 32 (T.hash key),key.length,data,key⟩]) T.freed) calloc
      have hgrown : T' = Table.grown (T.patched i (passed++[⟨wrap 32 (T.hash key),key.length,data,key⟩])
          ((T.elm_nums+1) % 2^32) T.freed) calloc ∧ s = .ok := by
        simp only [if_true] at hinsert
        unfold Table.grown
        split_ifs at hinsert with hfull
        · obtain ⟨rfl,rfl⟩ := Prod.mk.inj (Option.some.inj hinsert)
          exact ⟨(if_pos hfull).symm,rfl⟩
        · obtain ⟨rfl,rfl⟩ := Prod.mk.inj (Option.some.inj hinsert)
          exact ⟨(if_neg hfull).symm,rfl⟩
      obtain ⟨rfl,rfl⟩ := hgrown
      exact ⟨hsized,howned.trans happended,hhash,hfree'⟩
  · cases replace with
    | false =>
      cases hinsert
      exact h.took
    | true =>
      obtain ⟨rfl,rfl⟩ := Prod.mk.inj (Option.some.inj hinsert)
      refine ⟨⟨h.pos,h.le⟩,?_,rfl,rfl⟩
      have hfound : T.buckets i = passed++[e]++rest := by simpa using hwalk.symm
      have hpatched := owned_patched hlt hfound [{ e with data := data }] T.elm_nums (T.freeing e.data) {data}
        (by simp [Table.freeing,hfree,← Multiset.coe_add])
      rw [List.append_assoc] at hpatched
      exact hpatched

theorem remove_took (hremove : Hash.hashRemove T key = some (T',s)) : T.Took T' 0 := by
  unfold Hash.hashRemove at hremove
  obtain ⟨chain,hchain,hremove⟩ := Option.bind_eq_some_iff.mp hremove
  obtain ⟨i,hi,hlt,rfl⟩ := bucket_eq_some hchain
  obtain ⟨hwalk,_⟩ := walk_append (T.hash key) key (T.buckets i)
  rw [hi] at hremove
  generalize walk (T.hash key) key (T.buckets i) = found at hremove hwalk
  obtain ⟨passed,_ | ⟨e,rest⟩⟩ := found
  · cases hremove
    exact h.took
  · obtain ⟨rfl,rfl⟩ := Prod.mk.inj (Option.some.inj hremove)
    refine ⟨⟨h.pos,h.le⟩,?_,rfl,rfl⟩
    have hfound : T.buckets i = passed++[e]++rest := by simpa using hwalk.symm
    have hpatched := owned_patched hlt hfound [] (if T.elm_nums = 0 then 2^32-1 else T.elm_nums-1)
      (T.freeing e.data) 0
      (by simp [Table.freeing,hfree,← Multiset.coe_add])
    rw [List.append_nil] at hpatched
    exact hpatched

end Took

/-- A table that is made has a free callback. -/
def Op.HasCallback : Op δ → Prop
  | .new _ _ callback _ _ => callback = true
  | _ => True

/-- The datum of an insertion that returns `JK_HASH_OK`. -/
def Op.accepted : Op δ → Answer δ → Multiset δ
  | .insert _ _ data _ _ _,.returned .ok _ => {data}
  | _,_ => 0

def Answer.given : Answer δ → Multiset δ
  | .freed data => data
  | _ => 0

/-- The data that the insertions of a run have accepted. -/
def accepted (calls : List (Op δ × Answer δ)) : Multiset δ := (calls.map fun c => c.1.accepted c.2).sum

/-- The data that the free callbacks of the released tables have got. -/
def given (calls : List (Op δ × Answer δ)) : Multiset δ := (calls.map fun c => c.2.given).sum

/-- The tables that are made and not yet released. -/
def Op.live (s : Finset Addr) : Op δ → Answer δ → Finset Addr
  | .new ..,.made (some o) _ => {o} ∪ s
  | .free o,_ => s.erase o
  | _,_ => s

def live (calls : List (Op δ × Answer δ)) : Finset Addr := calls.foldl (fun s c => c.1.live s c.2) ∅

/-- The raw table that a callback has got from `jk_hash_new`. -/
def Answer.left : Answer δ → Finset Addr
  | .made _ (some o) => {o}
  | _ => ∅

def left (calls : List (Op δ × Answer δ)) : Finset Addr := calls.foldl (fun s c => c.2.left ∪ s) ∅

/-- What a table has accepted and its callback has got, or stores. -/
def owned (S : Mem (Table δ)) (o : Addr) : Multiset δ := (S o).elim 0 Table.owned

/-- All tables have a callback, and together they own `total`. -/
def Accounted (S : Mem (Table δ)) (total : Multiset δ) : Prop :=
  (∀ o T, S o = some T → T.Sized ∧ T.free = true) ∧
    ∃ s : Finset Addr, (∀ o, o ∈ s ↔ S o ≠ none) ∧ ∑ o ∈ s, owned S o = total

section Accounted
variable {S : Mem (Table δ)} {total : Multiset δ} {o : Addr} {T : Table δ}

lemma owned_put_same (S : Mem (Table δ)) (o : Addr) (T : Table δ) :
    owned (S.put o T) o = T.owned := by simp [owned]

lemma owned_of_ne {S' : Mem (Table δ)} (h : S' o = S o) : owned S' o = owned S o := by rw [owned,owned,h]

/-- A table is made, or becomes another one. -/
theorem Accounted.put (h : Accounted S total) {taken : Multiset δ} (hsized : T.Sized) (hfree : T.free = true)
    (htaken : T.owned = owned S o+taken) : Accounted (S.put o T) (total+taken) := by
  obtain ⟨htables,s,hs,hsum⟩ := h
  have hrest : ∑ o' ∈ s.erase o, owned (S.put o T) o' = ∑ o' ∈ s.erase o, owned S o' :=
    Finset.sum_congr rfl fun o' ho' => owned_of_ne (Mem.put_of_ne (Finset.ne_of_mem_erase ho') S T)
  refine ⟨fun o' T' hT' => ?_,insert o s,fun o' => ?_,?_⟩
  · by_cases hoo : o' = o
    · subst hoo
      rw [Mem.put_same] at hT'
      exact Option.some.inj hT' ▸ ⟨hsized,hfree⟩
    · rw [Mem.put_of_ne hoo] at hT'
      exact htables o' T' hT'
  · by_cases hoo : o' = o
    · simp [hoo]
    · rw [Finset.mem_insert,Mem.put_of_ne hoo,hs o',or_iff_right hoo]
  · rw [← Finset.add_sum_erase _ _ (Finset.mem_insert_self o s),Finset.erase_insert_eq_erase,hrest,
      owned_put_same,htaken]
    by_cases ho : o ∈ s
    · rw [← hsum,← Finset.add_sum_erase _ _ ho]
      ac_rfl
    · have hnone : S o = none := by
        by_contra hne
        exact ho ((hs o).mpr hne)
      rw [Finset.erase_eq_of_notMem ho,hsum,owned,hnone]
      simp [add_comm]

/-- A table is released. -/
theorem Accounted.free (h : Accounted S total) (hT : S o = some T) : ∃ total', Accounted (S.free o) total' ∧
    total'+T.owned = total := by
  obtain ⟨htables,s,hs,hsum⟩ := h
  have ho : o ∈ s := (hs o).mpr (by simp [hT])
  refine ⟨_,⟨fun o' T' hT' => ?_,s.erase o,fun o' => ?_,rfl⟩,?_⟩
  · have hoo : o' ≠ o := by
      rintro rfl
      simp at hT'
    rw [Mem.free_of_ne hoo] at hT'
    exact htables o' T' hT'
  · by_cases hoo : o' = o
    · simp [hoo]
    · rw [Finset.mem_erase,Mem.free_of_ne hoo,hs o',and_iff_right hoo]
  · have hrest : ∑ o' ∈ s.erase o, owned (S.free o) o' = ∑ o' ∈ s.erase o, owned S o' :=
      Finset.sum_congr rfl fun o' ho' => owned_of_ne (Mem.free_of_ne (Finset.ne_of_mem_erase ho') S)
    rw [hrest,← hsum,← Finset.add_sum_erase _ _ ho,add_comm,owned,hT]
    rfl

/-- One call: what was owned and is accepted now, is owned afterwards or given to a callback. -/
theorem Accounted.exec {S S' : Mem (Object δ)} (h : Accounted (tables S) total) {op : Op δ} (hop : op.HasCallback)
    (hnew : ∀ n hash callback o calloc, op = .new n hash callback (some o) calloc → S o = none) {r : Answer δ}
    (hexec : op.plain S = some (S',r)) :
    ∃ total', Accounted (tables S') total' ∧ total'+r.given = total+op.accepted r := by
  cases op with
  | new init_buckets hash callback malloc calloc =>
    cases malloc with
    | none =>
      cases hexec
      exact ⟨total,h,rfl⟩
    | some o =>
      have ho := hnew _ _ _ o _ rfl
      cases calloc with
      | none =>
        obtain rfl : callback = true := hop
        cases hexec
        rw [tables_put_raw ho]
        exact ⟨total,h,rfl⟩
      | some b =>
        obtain ⟨T,hT⟩ : ∃ T : Table δ, Hash.hashInit init_buckets hash callback true = some T := ⟨_,rfl⟩
        simp only [Op.plain,Option.isSome_some,hT] at hexec
        obtain ⟨rfl,rfl⟩ := Prod.mk.inj (Option.some.inj hexec)
        obtain ⟨n,hmin,hmax,hempty⟩ := hashInit_cases hT
        have howned : T.owned = owned (tables S) o+0 := by
          rw [owned,tables,ho,hempty]
          simp [Table.owned,Table.entries,chained_nil]
        rw [tables_put_table]
        exact ⟨_,h.put (by rw [hempty]; exact ⟨hmin,hmax⟩) (by rw [hempty]; exact hop) howned,
          by simp [Answer.given,Op.accepted]⟩
  | find o key =>
    obtain ⟨T,hT,hexec⟩ := Option.bind_eq_some_iff.mp hexec
    obtain ⟨p,_,hp⟩ := Option.map_eq_some_iff.mp hexec
    obtain ⟨rfl,rfl⟩ := Prod.mk.inj hp
    exact ⟨total,h,rfl⟩
  | insert o key data replace malloc calloc =>
    obtain ⟨T,hT,hexec⟩ := Option.bind_eq_some_iff.mp hexec
    obtain ⟨⟨T',s⟩,hinsert,hp⟩ := Option.map_eq_some_iff.mp hexec
    obtain ⟨rfl,rfl⟩ := Prod.mk.inj hp
    obtain ⟨hsized,hfree⟩ := h.1 o T hT
    have htook := insert_took hsized hfree hinsert
    have howned : owned (tables S) o = T.owned := by rw [owned,hT]; rfl
    rw [tables_put_table]
    refine ⟨_,h.put htook.sized (htook.free.trans hfree) (howned ▸ htook.owned),?_⟩
    cases s <;> simp [Answer.given,Op.accepted]
  | remove o key =>
    obtain ⟨T,hT,hexec⟩ := Option.bind_eq_some_iff.mp hexec
    obtain ⟨⟨T',s⟩,hremove,hp⟩ := Option.map_eq_some_iff.mp hexec
    obtain ⟨rfl,rfl⟩ := Prod.mk.inj hp
    obtain ⟨hsized,hfree⟩ := h.1 o T hT
    have htook := remove_took hsized hfree hremove
    have howned : owned (tables S) o = T.owned := by rw [owned,hT]; rfl
    rw [tables_put_table]
    exact ⟨_,h.put htook.sized (htook.free.trans hfree) (howned ▸ htook.owned),
      by simp [Answer.given,Op.accepted]⟩
  | free o =>
    obtain ⟨T,hT,hexec⟩ := Option.bind_eq_some_iff.mp hexec
    obtain ⟨rfl,rfl⟩ := Prod.mk.inj (Option.some.inj hexec)
    obtain ⟨total',htotal,hsum⟩ := h.free hT
    rw [tables_free]
    refine ⟨total',htotal,?_⟩
    have hgiven : (Answer.freed (Hash.hashDestroy T)).given = T.owned := by
      rw [Answer.given,hashDestroy_eq (h.1 o T hT).2,← Multiset.coe_add]
      rfl
    rw [hgiven,hsum]
    exact (add_zero total).symm

end Accounted

theorem account_step {S S' : Mem (Object δ)} {calls : List (Op δ × Answer δ)} {op : Op δ} {r : Answer δ}
    (h : ∃ total, Accounted (tables S) total ∧ total+given calls = accepted calls) (hop : op.HasCallback)
    (hnew : ∀ n hash callback o calloc, op = .new n hash callback (some o) calloc → S o = none)
    (hexec : op.plain S = some (S',r)) :
    ∃ total, Accounted (tables S') total ∧ total+given (calls++[(op,r)]) = accepted (calls++[(op,r)]) := by
  obtain ⟨total,haccount,htotal⟩ := h
  obtain ⟨total',haccount',hsum⟩ := haccount.exec hop hnew hexec
  refine ⟨total',haccount',?_⟩
  calc total'+given (calls++[(op,r)]) = total'+r.given+given calls := by
        simp only [given,List.map_append,List.sum_append,List.map_singleton,List.sum_singleton]
        ac_rfl
    _ = total+given calls+op.accepted r := by
        rw [hsum]
        ac_rfl
    _ = accepted (calls++[(op,r)]) := by
        rw [htotal,accepted,accepted,List.map_append,List.sum_append,List.map_singleton,List.sum_singleton]

/-- An invariant of the separate objects and the calls so far. -/
theorem run_keeps {I : Mem (Object δ) → List (Op δ × Answer δ) → Prop} {P : Op δ → Prop}
    (hstep : ∀ {S calls op S' r}, I S calls → P op →
      (∀ n hash callback o calloc, op = .new n hash callback (some o) calloc → S o = none) →
      op.plain S = some (S',r) → I S' (calls++[(op,r)]))
    {m m' : Memory δ} {S : Mem (Object δ)} {k fuel : ℕ} (h : Represents k m S) (htwo : 2 ≤ k)
    (calls : List (Op δ × Answer δ)) (hI : I S calls) {ops : List (Op δ)} (hfuel : k+ops.length ≤ fuel+1)
    (hfresh : allocates fuel m ops = true) (hP : ∀ op ∈ ops, P op) {rs : List (Answer δ)}
    (hrun : run (Op.exec fuel) m ops = some (m',rs)) :
    ∃ S' Bs, Owners Object.Holds m' S' Bs ∧ I S' (calls++ops.zip rs) := by
  induction ops generalizing m S k calls rs with
  | nil =>
    obtain ⟨rfl,rfl⟩ := Prod.mk.inj (Option.some.inj hrun)
    obtain ⟨Bs,hB,_⟩ := h
    exact ⟨S,Bs,hB,by simpa using hI⟩
  | cons op ops ih =>
    rw [allocates,Bool.and_eq_true] at hfresh
    rw [List.length_cons] at hfuel
    obtain ⟨⟨m₁,r⟩,hexec,hrun⟩ := Option.bind_eq_some_iff.mp hrun
    obtain ⟨⟨m₂,rs'⟩,hrest,hrun⟩ := Option.bind_eq_some_iff.mp hrun
    obtain ⟨rfl,rfl⟩ := Prod.mk.inj (Option.some.inj hrun)
    have hnew : ∀ n hash callback o calloc, op = .new n hash callback (some o) calloc → S o = none := by
      rintro n hash callback o calloc rfl
      obtain ⟨Bs,hB,_⟩ := h
      exact unused hB ((fresh_iff.mp hfresh.1).1 o rfl)
    have hop := exec_alike h htwo (show k ≤ fuel by omega) op hfresh.1
    rw [hexec] at hop
    obtain ⟨⟨S₁,r'⟩,hplain,hr,h₁⟩ := rel_some hop
    obtain rfl : r = r' := hr
    have hlater := hfresh.2
    rw [hexec] at hlater
    have hkeep := ih h₁ (htwo.trans (Nat.le_succ k)) _ (hstep hI (hP op List.mem_cons_self) hnew hplain)
      (by omega) hlater
      (fun op hop => hP op (List.mem_cons_of_mem _ hop)) hrest
    rwa [List.append_assoc] at hkeep

/-- The tables there are, are those that are made and not released; the raw ones are those that callbacks have
got. -/
structure Listed (S : Mem (Object δ)) (calls : List (Op δ × Answer δ)) : Prop where
  made : ∀ o, o ∈ live calls ↔ ∃ T, S o = some (.table T)
  given : ∀ o, o ∈ left calls ↔ S o = some .raw

section Listed
variable {S S' : Mem (Object δ)} {calls : List (Op δ × Answer δ)} {op : Op δ} {r : Answer δ}

lemma live_append (calls : List (Op δ × Answer δ)) (op : Op δ) (r : Answer δ) :
    live (calls++[(op,r)]) = op.live (live calls) r := by rw [live,List.foldl_append]; rfl

lemma left_append (calls : List (Op δ × Answer δ)) (op : Op δ) (r : Answer δ) :
    left (calls++[(op,r)]) = r.left ∪ left calls := by rw [left,List.foldl_append]; rfl

/-- A call that changes no object, or replaces a table. -/
lemma Listed.same (h : Listed S calls) (hlive : op.live (live calls) r = live calls) (hleft : r.left = ∅)
    (htable : ∀ o, (∃ T, S' o = some (.table T)) ↔ ∃ T, S o = some (.table T))
    (hraw : ∀ o, S' o = some .raw ↔ S o = some .raw) : Listed S' (calls++[(op,r)]) := by
  constructor
  · intro o
    rw [live_append,hlive,h.made,htable]
  · intro o
    rw [left_append,hleft,Finset.empty_union,h.given,hraw]

/-- A change of a table leaves the objects that there are. -/
lemma Listed.change (h : Listed S calls) {o : Addr} {T : Table δ} (hT : tables S o = some T) (T' : Table δ)
    (hlive : op.live (live calls) r = live calls) (hleft : r.left = ∅) :
    Listed (S.put o (.table T')) (calls++[(op,r)]) := by
  have hS := tables_eq_some.mp hT
  apply h.same hlive hleft
  · intro o'
    by_cases hoo : o' = o
    · simp [hoo,hS]
    · rw [Mem.put_of_ne hoo]
  · intro o'
    by_cases hoo : o' = o
    · simp [hoo,hS]
    · rw [Mem.put_of_ne hoo]

theorem Listed.step (h : Listed S calls)
    (hnew : ∀ n hash callback o calloc, op = .new n hash callback (some o) calloc → S o = none)
    (hexec : op.plain S = some (S',r)) : Listed S' (calls++[(op,r)]) := by
  cases op with
  | new init_buckets hash callback malloc calloc =>
    cases malloc with
    | none =>
      cases hexec
      exact h.same rfl rfl (fun _ => Iff.rfl) fun _ => Iff.rfl
    | some o =>
      have ho := hnew _ _ _ o _ rfl
      cases calloc with
      | none =>
        cases callback with
        | false => cases hexec
        | true =>
          cases hexec
          constructor
          · intro o'
            rw [live_append]
            refine (h.made o').trans ?_
            by_cases hoo : o' = o
            · simp [hoo,ho]
            · rw [Mem.put_of_ne hoo]
          · intro o'
            rw [left_append,Answer.left,Finset.mem_union,Finset.mem_singleton,h.given]
            by_cases hoo : o' = o
            · simp [hoo]
            · rw [Mem.put_of_ne hoo,or_iff_right hoo]
      | some b =>
        obtain ⟨rfl,rfl⟩ := Prod.mk.inj (Option.some.inj hexec)
        constructor
        · intro o'
          rw [live_append,Op.live,Finset.mem_union,Finset.mem_singleton,h.made]
          by_cases hoo : o' = o
          · simp [hoo]
          · rw [Mem.put_of_ne hoo,or_iff_right hoo]
        · intro o'
          have hleft : (Answer.made (some o) none : Answer δ).left = ∅ := rfl
          rw [left_append,hleft,Finset.empty_union,h.given]
          by_cases hoo : o' = o
          · simp [hoo,ho]
          · rw [Mem.put_of_ne hoo]
  | find o key =>
    obtain ⟨_,_,hexec⟩ := Option.bind_eq_some_iff.mp hexec
    obtain ⟨_,_,hp⟩ := Option.map_eq_some_iff.mp hexec
    obtain ⟨rfl,rfl⟩ := Prod.mk.inj hp
    exact h.same rfl rfl (fun _ => Iff.rfl) fun _ => Iff.rfl
  | insert o key data replace malloc calloc =>
    obtain ⟨T,hT,hexec⟩ := Option.bind_eq_some_iff.mp hexec
    obtain ⟨_,_,hp⟩ := Option.map_eq_some_iff.mp hexec
    obtain ⟨rfl,rfl⟩ := Prod.mk.inj hp
    exact h.change hT _ rfl rfl
  | remove o key =>
    obtain ⟨T,hT,hexec⟩ := Option.bind_eq_some_iff.mp hexec
    obtain ⟨_,_,hp⟩ := Option.map_eq_some_iff.mp hexec
    obtain ⟨rfl,rfl⟩ := Prod.mk.inj hp
    exact h.change hT _ rfl rfl
  | free o =>
    obtain ⟨T,hT,hexec⟩ := Option.bind_eq_some_iff.mp hexec
    obtain ⟨rfl,rfl⟩ := Prod.mk.inj (Option.some.inj hexec)
    have hS := tables_eq_some.mp hT
    constructor
    · intro o'
      rw [live_append,Op.live,Finset.mem_erase,h.made]
      by_cases hoo : o' = o
      · simp [hoo]
      · rw [Mem.free_of_ne hoo,and_iff_right hoo]
    · intro o'
      have hleft : (Answer.freed (Hash.hashDestroy T)).left = ∅ := rfl
      rw [left_append,hleft,Finset.empty_union,h.given]
      by_cases hoo : o' = o
      · simp [hoo,hS]
      · rw [Mem.free_of_ne hoo]

/-- Without tables, the blocks are the raw records. -/
theorem Listed.blocks (h : Listed S calls) {m : Memory δ} {Bs : Addr → List Addr}
    (hB : Owners Object.Holds m S Bs) (hreleased : live calls = ∅) (a : Addr) :
    m a = if a ∈ left calls then some .raw else none := by
  have hraw : ∀ o, S o ≠ none → S o = some .raw := by
    intro o ho
    obtain ⟨x,hx⟩ := Option.ne_none_iff_exists'.mp ho
    cases x with
    | raw => exact hx
    | table T => simpa [hreleased] using (h.made o).mpr ⟨T,hx⟩
  by_cases ha : a ∈ left calls
  · rw [if_pos ha]
    exact (hB.holds a .raw ((h.given a).mp ha)).1
  · rw [if_neg ha]
    by_contra hne
    obtain ⟨o,ho,hmem⟩ := hB.covers a hne
    have hholds := hB.holds o .raw (hraw o ho)
    rw [hholds.2,List.mem_singleton] at hmem
    exact ha ((h.given a).mpr (hmem ▸ hraw o ho))

end Listed

/-- When every table that was made is released, the blocks that are left are the raw tables that calls of
`jk_hash_new` without buckets have given to the callback; and if the tables have free callbacks, these have got
each datum that an insertion has accepted, once for each acceptance, and no other. -/
theorem tables_leave_nothing (fuel : ℕ) (ops : List (Op δ)) (hfuel : ops.length < fuel)
    (hfresh : allocates fuel (fun _ => none) ops = true) (m : Memory δ) (rs : List (Answer δ))
    (hrun : run (Op.exec fuel) (fun _ => none) ops = some (m,rs)) (hreleased : live (ops.zip rs) = ∅) :
    (∀ a, m a = if a ∈ left (ops.zip rs) then some .raw else none) ∧
      ((∀ op ∈ ops, op.HasCallback) → given (ops.zip rs) = accepted (ops.zip rs)) := by
  have hstart : Represents 2 (fun _ => none : Memory δ) fun _ => none :=
    ⟨fun _ => [],owners_empty,fun o ho => absurd rfl ho⟩
  have hfuel' : 2+ops.length ≤ fuel+1 := by omega
  have hempty : Listed (fun _ => none : Mem (Object δ)) [] := ⟨by simp [live],by simp [left]⟩
  obtain ⟨S,Bs,hB,hlisted⟩ :=
    run_keeps (P := fun _ => True) (fun h _ hnew hexec => h.step hnew hexec) hstart le_rfl []
    hempty hfuel' hfresh (by simp) hrun
  refine ⟨hlisted.blocks hB hreleased,fun hcallbacks => ?_⟩
  have hnothing : Accounted (tables (fun _ => none : Mem (Object δ))) 0 :=
    ⟨fun _ _ hT => by simp at hT,∅,by simp [tables],Finset.sum_empty⟩
  obtain ⟨S',Bs',hB',total,⟨_,s,hs,hsum⟩,htotal⟩ := run_keeps
    (I := fun S calls => ∃ total, Accounted (tables S) total ∧ total+given calls = accepted calls)
      account_step hstart
    le_rfl [] ⟨0,hnothing,rfl⟩ hfuel' hfresh hcallbacks hrun
  have hnone : s = ∅ := Finset.eq_empty_of_forall_notMem fun o ho => by
    obtain ⟨T,hT⟩ := Option.ne_none_iff_exists'.mp ((hs o).mp ho)
    obtain ⟨_,_,hl,_⟩ : Holds m o T (Bs' o) := hB'.holds o _ (tables_eq_some.mp hT)
    have hblock := hl.table.symm.trans (hlisted.blocks hB hreleased o)
    split at hblock
    · cases Option.some.inj hblock
    · cases hblock
  rw [hnone,Finset.sum_empty] at hsum
  rwa [← hsum,zero_add] at htotal

theorem tables_leave_nothing_shared : ∃ m rs, run (Op.exec 30) (fun _ => none) sharedRun = some (m,rs) ∧
    given (sharedRun.zip rs) = {10,20,21,30,40,50,60,11,70,90} ∧ left (sharedRun.zip rs) = {2} ∧
    (∀ a, m a = if a ∈ left (sharedRun.zip rs) then some .raw else none) ∧
    ((∀ op ∈ sharedRun, op.HasCallback) → given (sharedRun.zip rs) = accepted (sharedRun.zip rs)) := by
  have hrun := (Option.some_get sharedRun_ends).symm
  exact ⟨_,_,hrun,by decide +kernel,by decide +kernel,
    tables_leave_nothing 30 sharedRun (by decide) sharedRun_fresh _ _ hrun (by decide +kernel)⟩

end JustKit.Hash.Pointers
