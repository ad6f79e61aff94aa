import JustKit.Foundations.Blocks
import JustKit.Hash.Chains
import JustKit.Hash.Pointers

/-! The functions on the memory do what those on chains do: each search, store and loop, and each call on one table,
whatever else is in the memory. -/
namespace JustKit.Hash.Pointers
open Foundations Foundations.LinkedCells
variable {δ : Type}

/-! ### Reading and writing blocks -/

section Memory
variable {m m' : Memory δ} {a b o e : Addr} {t : Header δ} {heads : List (Option Addr)} {c : Cell (Entry δ)}

@[simp] theorem table_eq_some : m.table o = some t ↔ m o = some (.table t) := by
  unfold Memory.table
  split <;> simp_all

@[simp] theorem buckets_eq_some : m.buckets b = some heads ↔ m b = some (.buckets heads) := by
  unfold Memory.buckets
  split <;> simp_all

@[simp] theorem entry_eq_some : m.entry e = some c ↔ m e = some (.entry c) := by
  unfold Memory.entry
  split <;> simp_all

lemma ne_of_blocks {x y : Block δ} (ha : m a = some x) (hb : m b = some y) (hxy : x ≠ y) : a ≠ b := by
  rintro rfl
  exact hxy (Option.some.inj (ha.symm.trans hb))

theorem entry_congr (h : m' a = m a) : m'.entry a = m.entry a := by
  unfold Memory.entry
  rw [h]

/-- A path does not notice what is written elsewhere. -/
lemma path_keeps {p q : Option Addr} {xs : List (Addr × Entry δ)} (h : Path m.entry p xs q)
    (heq : ∀ a ∈ xs.map Prod.fst, m' a = m a) : Path m'.entry p xs q :=
  h.congr fun a ha => entry_congr (heq a ha)

/-- A write to a block that is not an entry leaves the entries alone. -/
theorem entry_put {x : Block δ} (hm : m.entry b = none) (hx : ∀ c, x ≠ .entry c) (a : Addr) :
    Memory.entry (m.put b x) a = m.entry a := by
  by_cases hab : a = b
  · subst hab
    rw [hm,Option.eq_none_iff_forall_ne_some]
    intro c hc
    rw [entry_eq_some,Mem.put_same] at hc
    exact hx c (Option.some.inj hc)
  · exact entry_congr (Mem.put_of_ne hab m x)

theorem entry_put_buckets (h : m b = some (.buckets heads)) (heads' : List (Option Addr)) (a : Addr) :
    Memory.entry (m.put b (.buckets heads')) a = m.entry a :=
  entry_put (by simp [Memory.entry,h]) (by simp) a

theorem dealloc_eq {x : Block δ} (h : m a = some x) : m.dealloc a = some (m.free a) := by simp [Memory.dealloc,h]

theorem release_eq (h : m o = some (.table t)) (data : δ) : m.release o data =
    some (m.put o (.table { t with freed := t.freed++(if t.free then [data] else []) })) := by
  simp [Memory.release,table_eq_some.mpr h]

/-! ### Where pointers are stored -/

/-- The pointer behind some cells of a chain: the link of the last of them, or else the bucket. -/
def Place.after (b : Addr) (index : ℤ) (xs : List (Addr × Entry δ)) : Place :=
  .behind b index (xs.getLast?.map Prod.fst)

lemma Place.after_eq (b : Addr) (index : ℤ) (xs : List (Addr × Entry δ)) :
    (xs.getLast?.map fun c => .next c.1).getD (.bucket b index) = Place.after b index xs := by
  unfold Place.after
  cases xs.getLast? <;> rfl

theorem load_bucket (h : m b = some (.buckets heads)) (i : ℕ) : (Place.bucket b i).load m = heads[i]? := by
  simp [Place.load,buckets_eq_some.mpr h]

theorem store_bucket (h : m b = some (.buckets heads)) {i : ℕ} (hi : i < heads.length) (p : Option Addr) :
    (Place.bucket b i).store m p = some (m.put b (.buckets (heads.set i p))) := by
  simp [Place.store,buckets_eq_some.mpr h,hi]

theorem store_next (h : m e = some (.entry c)) (p : Option Addr) :
    (Place.next e).store m p = some (m.put e (.entry { c with next := p })) := by
  simp [Place.store,entry_eq_some.mpr h]

/-- A store behind some cells of a chain moves the end of their path. -/
theorem store_after {i : ℕ} {p r : Option Addr} {xs : List (Addr × Entry δ)} (hb : m b = some (.buckets heads))
    (hp : heads[i]? = some p) (hpath : Path m.entry p xs r) (hn : (xs.map Prod.fst).Nodup) (q : Option Addr) :
    ∃ m' p', (Place.after b i xs).store m q = some m' ∧ Path m'.entry p' xs q ∧
      m' b = some (.buckets (heads.set i p')) ∧ ∀ a, a ≠ b → a ∉ xs.map Prod.fst → m' a = m a := by
  obtain ⟨hi,hget⟩ := List.getElem?_eq_some_iff.mp hp
  cases hlast : xs.getLast? with
  | none =>
    obtain rfl := List.getLast?_eq_none_iff.mp hlast
    exact ⟨_,q,store_bucket hb hi q,rfl,Mem.put_same _ _ _,fun a ha _ => Mem.put_of_ne ha _ _⟩
  | some c =>
    have hc := entry_eq_some.mp (hpath.last hlast)
    have hmem : c.1 ∈ xs.map Prod.fst := List.mem_map_of_mem (List.mem_of_getLast? hlast)
    have hne : b ≠ c.1 := fun he => by simp [he,hc] at hb
    have hafter : Place.after b i xs = .next c.1 := by simp [Place.after,Place.behind,hlast]
    refine ⟨_,p,by rw [hafter,store_next hc],?_,?_,?_⟩
    · refine hpath.redirect hn (fun hnil => by simp [hnil] at hlast) ?_ ?_
      · intro d hd
        obtain rfl := Option.some.inj (hlast.symm.trans hd)
        simp
      · exact fun a _ ha => entry_congr (Mem.put_of_ne (ha c hlast) _ _)
    · rw [Mem.put_of_ne hne,hb,← hget,List.set_getElem_self]
    · exact fun a _ ha => Mem.put_of_ne (fun he : a = c.1 => ha (he ▸ hmem)) _ _

end Memory

/-! ### Searches along a chain -/

section Search
variable {m : Memory δ} {hashval : ℤ} {key : Key} {p : Option Addr} {ys zs : List (Addr × Entry δ)} {fuel : ℕ}

lemma exists_fuel {n : ℕ} (h : n+1 ≤ fuel) : ∃ k, fuel = k+1 ∧ n ≤ k := ⟨fuel-1,by omega,by omega⟩

/-- The search splits a chain into the entries passed and the rest, which starts with the entry found. -/
theorem exists_walk (hashval : ℤ) (key : Key) (xs : List (Addr × Entry δ)) : ∃ ys zs, xs = ys++zs ∧
    walk hashval key (xs.map Prod.snd) = (ys.map Prod.snd,zs.map Prod.snd) ∧
    (∀ c ∈ ys, c.2.found hashval key = false) ∧ ∀ c ∈ zs.head?, c.2.found hashval key = true := by
  induction xs with
  | nil => exact ⟨[],[],rfl,rfl,by simp,by simp⟩
  | cons c xs ih =>
    by_cases hc : c.2.found hashval key = true
    · exact ⟨[],c::xs,rfl,by simp [walk,hc],by simp,by simp [hc]⟩
    · obtain ⟨ys,zs,rfl,hw,hys,hzs⟩ := ih
      exact ⟨c::ys,zs,rfl,by simp only [List.map_cons,walk,if_neg hc,hw],List.forall_mem_cons.mpr
        ⟨by simpa using hc,hys⟩,hzs⟩

variable (hys : ∀ c ∈ ys, c.2.found hashval key = false) (hzs : ∀ c ∈ zs.head?, c.2.found hashval key = true)
include hys hzs

theorem findLoop_eq (hpath : Path m.entry p (ys++zs) none) (hfuel : (ys++zs).length ≤ fuel) :
    findLoop m hashval key fuel p = some (zs.head?.map Prod.fst) := by
  induction ys generalizing p fuel with
  | nil =>
    cases zs with
    | nil =>
      obtain rfl := hpath
      cases fuel <;> rfl
    | cons c zs =>
      obtain ⟨rfl,r,hr,_⟩ := hpath
      obtain ⟨fuel,rfl,_⟩ := exists_fuel hfuel
      simp [findLoop,hr,hzs c rfl]
  | cons c ys ih =>
    obtain ⟨rfl,r,hr,hrest⟩ := hpath
    obtain ⟨fuel,rfl,hle⟩ := exists_fuel hfuel
    obtain ⟨hc,hys⟩ := List.forall_mem_cons.mp hys
    simp [findLoop,hr,hc,ih hys hrest hle]

theorem insertLoop_eq {ei : Place} (hload : ei.load m = some p) (hpath : Path m.entry p (ys++zs) none)
    (hfuel : (ys++zs).length ≤ fuel) : insertLoop m hashval key fuel ei =
      some ((ys.getLast?.map fun c => .next c.1).getD ei,zs.head?.map Prod.fst) := by
  induction ys generalizing p ei fuel with
  | nil =>
    cases zs with
    | nil =>
      obtain rfl := hpath
      cases fuel <;> simp [insertLoop,hload]
    | cons c zs =>
      obtain ⟨rfl,r,hr,_⟩ := hpath
      obtain ⟨fuel,rfl,_⟩ := exists_fuel hfuel
      simp [insertLoop,hload,hr,hzs c rfl]
  | cons c ys ih =>
    obtain ⟨rfl,r,hr,hrest⟩ := hpath
    obtain ⟨fuel,rfl,hle⟩ := exists_fuel hfuel
    obtain ⟨hc,hys⟩ := List.forall_mem_cons.mp hys
    have hnext : (Place.next c.1).load m = some r := by simp [Place.load,hr]
    rw [insertLoop]
    simp only [hload,hr,hc,Option.bind_eq_bind,Option.bind_some,Bool.false_eq_true,if_false]
    rw [ih hys hnext hrest hle]
    cases ys <;> simp [List.getLast?_cons]

theorem removeLoop_eq (before : Option Addr) (hpath : Path m.entry p (ys++zs) none)
    (hfuel : (ys++zs).length ≤ fuel) : removeLoop m hashval key fuel before p =
      some ((ys.getLast?.map Prod.fst).or before,zs.head?.map Prod.fst) := by
  induction ys generalizing p before fuel with
  | nil =>
    cases zs with
    | nil =>
      obtain rfl := hpath
      cases fuel <;> simp [removeLoop]
    | cons c zs =>
      obtain ⟨rfl,r,hr,_⟩ := hpath
      obtain ⟨fuel,rfl,_⟩ := exists_fuel hfuel
      simp [removeLoop,hr,hzs c rfl]
  | cons c ys ih =>
    obtain ⟨rfl,r,hr,hrest⟩ := hpath
    obtain ⟨fuel,rfl,hle⟩ := exists_fuel hfuel
    obtain ⟨hc,hys⟩ := List.forall_mem_cons.mp hys
    rw [removeLoop]
    simp only [hr,hc,Option.bind_eq_bind,Option.bind_some,Bool.false_eq_true,if_false]
    rw [ih hys _ hrest hle]
    cases ys <;> simp [List.getLast?_cons]

end Search

/-! ### One table in the memory -/

/-- The table `T` is in the memory at `o`, with its buckets at `b`; the lists `l` have the addresses of its
entries. -/
structure Linked (m : Memory δ) (o : Addr) (T : Table δ) (b : Addr)
    (l : List (Option Addr × List (Addr × Entry δ))) :
    Prop where
  sized : T.Sized
  table : m o = some (.table ⟨T.hash,T.free,b,T.buckets_size,T.elm_nums,T.freed⟩)
  buckets : m b = some (.buckets (l.map Prod.fst))
  length : l.length = T.buckets_size
  stored : Stored m.entry l
  contents : ∀ i c, l[i]? = some c → T.buckets i = c.2.map Prod.snd

/-- The blocks of a table: its record, its buckets and its entries. -/
def Holds (m : Memory δ) (o : Addr) (T : Table δ) (B : List Addr) : Prop :=
  ∃ b l, Linked m o T b l ∧ B = o::b::cells l

theorem Holds.congr {m m' : Memory δ} {o : Addr} {T : Table δ} {B : List Addr} (h : Holds m o T B)
    (heq : ∀ a ∈ B, m' a = m a) : Holds m' o T B := by
  obtain ⟨b,l,hl,rfl⟩ := h
  refine ⟨b,l,⟨hl.sized,?_,?_,hl.length,?_,hl.contents⟩,rfl⟩
  · rw [heq o (by simp),hl.table]
  · rw [heq b (by simp),hl.buckets]
  · exact hl.stored.congr fun a ha => entry_congr (heq a (by simp [ha]))

theorem Holds.allocated {m : Memory δ} {o : Addr} {T : Table δ} {B : List Addr} (h : Holds m o T B) :
    ∀ a ∈ B, m a ≠ none := by
  obtain ⟨b,l,hl,rfl⟩ := h
  intro a ha
  rcases List.mem_cons.mp ha with rfl | ha
  · simp [hl.table]
  rcases List.mem_cons.mp ha with rfl | ha
  · simp [hl.buckets]
  · intro hnone
    exact hl.stored.allocated ha (by simp [Memory.entry,hnone])

section Linked
variable {m : Memory δ} {o b : Addr} {T : Table δ} {l : List (Option Addr × List (Addr × Entry δ))}
  (h : Linked m o T b l)
include h

theorem Linked.bucket (index : ℤ) : (T.bucket index = none ∧ (Place.bucket b index).load m = none) ∨
    ∃ (i : ℕ) (p : Option Addr) (xs : List (Addr × Entry δ)), index = i ∧ l[i]? = some (p,xs) ∧
      T.bucket index = some (xs.map Prod.snd) ∧ (Place.bucket b index).load m = some p := by
  by_cases hin : 0 ≤ index ∧ index < T.buckets_size
  · obtain ⟨i,rfl⟩ := Int.eq_ofNat_of_zero_le hin.1
    have hi : i < l.length := by
      rw [h.length]
      exact Int.ofNat_lt.mp hin.2
    have hget : l[i]? = some l[i] := List.getElem?_eq_getElem hi
    refine Or.inr ⟨i,l[i].1,l[i].2,rfl,hget,?_,?_⟩
    · rw [Table.bucket,if_pos hin,Int.toNat_natCast,h.contents i _ hget]
    · rw [load_bucket h.buckets,List.getElem?_map,hget]
      rfl
  · refine Or.inl ⟨if_neg hin,?_⟩
    simp only [Place.load,buckets_eq_some.mpr h.buckets,Option.bind_eq_bind,Option.bind_some]
    split_ifs with h0
    · apply List.getElem?_eq_none
      have hlt := fun hi => hin ⟨h0,hi⟩
      rw [List.length_map,h.length]
      omega
    · rfl

/-- One chain of the table is replaced, and with it the counter and the log. -/
theorem Linked.patch {m' : Memory δ} {i : ℕ} {c : Option Addr × List (Addr × Entry δ)} {p : Option Addr}
    {xs : List (Addr × Entry δ)} {n : ℕ} {freed : List δ} (hc : l[i]? = some c)
    (htable : m' o = some (.table ⟨T.hash,T.free,b,T.buckets_size,n,freed⟩))
    (hbuckets : m' b = some (.buckets ((l.map Prod.fst).set i p)))
    (hrest : ∀ a ∈ cells (l.eraseIdx i), m'.entry a = m.entry a) (hpath : Path m'.entry p xs none)
    (hn : (xs.map Prod.fst).Nodup) (hd : ∀ a ∈ xs.map Prod.fst, a ∉ cells (l.eraseIdx i)) :
    Linked m' o (T.patched i (xs.map Prod.snd) n freed) b (l.set i (p,xs)) := by
  refine ⟨h.sized.patched i n _ freed,htable,?_,?_,h.stored.set hc hrest hpath hn hd,?_⟩
  · rw [hbuckets,List.map_set]
  · rw [List.length_set]
    exact h.length
  · intro j d hj
    rw [List.getElem?_set] at hj
    by_cases hij : i = j
    · subst hij
      rw [if_pos rfl] at hj
      split_ifs at hj
      obtain rfl := Option.some.inj hj
      exact Function.update_self ..
    · rw [if_neg hij] at hj
      exact (Function.update_of_ne (Ne.symm hij) _ _).trans (h.contents j d hj)

omit h in
lemma patch_length {i : ℕ} {c : Option Addr × List (Addr × Entry δ)} (hc : l[i]? = some c) :
    c.2.length ≤ (cells l).length := by
  rw [(cells_eraseIdx hc).length_eq,List.length_append,List.length_map]
  exact Nat.le_add_right _ _

/-- The record, the buckets and the entries are different blocks. -/
theorem Linked.ne : b ≠ o ∧ ∀ a ∈ cells l, a ≠ o ∧ a ≠ b := by
  refine ⟨ne_of_blocks h.buckets h.table (by simp),fun a ha => ?_⟩
  obtain ⟨c,hc⟩ := Option.ne_none_iff_exists'.mp (h.stored.allocated ha)
  rw [entry_eq_some] at hc
  exact ⟨ne_of_blocks hc h.table (by simp),ne_of_blocks hc h.buckets (by simp)⟩

/-- The chain of a bucket, split where the search stops, and its place in the table. -/
theorem Linked.split {i : ℕ} {p : Option Addr} {ys zs : List (Addr × Entry δ)} (hc : l[i]? = some (p,ys++zs)) :
    ∃ r, Path m.entry p ys r ∧ Path m.entry r zs none ∧ (ys.map Prod.fst).Nodup ∧ (zs.map Prod.fst).Nodup ∧
      (∀ a ∈ zs.map Prod.fst, a ∉ ys.map Prod.fst) ∧
      (∀ a ∈ ys.map Prod.fst, a ∈ cells l ∧ a ∉ cells (l.eraseIdx i)) ∧
      ∀ a ∈ zs.map Prod.fst, a ∈ cells l ∧ a ∉ cells (l.eraseIdx i) := by
  obtain ⟨r,hys,hzs⟩ := path_append.mp (h.stored.paths _ (List.mem_of_getElem? hc))
  have hperm := cells_eraseIdx hc
  obtain ⟨hn,_,hd⟩ := List.nodup_append.mp (hperm.nodup_iff.mp h.stored.nodup)
  rw [List.map_append] at hn hd hperm
  obtain ⟨hnys,hnzs,hdis⟩ := List.nodup_append.mp hn
  refine ⟨r,hys,hzs,hnys,hnzs,fun a ha hb => hdis a hb a ha rfl,fun a ha => ?_,fun a ha => ?_⟩
  · exact ⟨hperm.mem_iff.mpr (by simp [ha]),fun hb => hd a (by simp [ha]) a hb rfl⟩
  · exact ⟨hperm.mem_iff.mpr (by simp [ha]),fun hb => hd a (by simp [ha]) a hb rfl⟩

section Chain
variable {rest : Memory δ} (hbeside : Beside rest m (o::b::cells l)) {i : ℕ} {p : Option Addr}
  {c : Addr × Entry δ} {xs ys zs : List (Addr × Entry δ)}
include hbeside

/-- An entry is appended to a chain. -/
theorem Linked.append (hc : l[i]? = some (p,xs)) {en : Addr} (hen : m en = none) (x : Entry δ) :
    ∃ m₁ p', (Place.after b i xs).store (m.put en (.entry ⟨x,none⟩)) (some en) = some m₁ ∧
      m₁ o = m o ∧ (∀ a, m a = none → a ≠ en → m₁ a = none) ∧
      ∀ n freed m', m' o = some (.table ⟨T.hash,T.free,b,T.buckets_size,n,freed⟩) →
      (∀ a, a ≠ o → m' a = m₁ a) →
        Linked m' o (T.patched i ((xs++[(en,x)]).map Prod.snd) n freed) b (l.set i (p',xs++[(en,x)])) ∧
        Beside rest m' (o::b::cells (l.set i (p',xs++[(en,x)]))) := by
  obtain ⟨r,hxs,rfl,hn,_,_,hin,_⟩ := h.split (show l[i]? = some (p,xs++[]) by rwa [List.append_nil])
  obtain ⟨hbo,hne⟩ := h.ne
  have hall : ∀ a, m a ≠ none → a ≠ en := fun a ha he => ha (he ▸ hen)
  have heno := hall o (by simp [h.table])
  have henb := hall b (by simp [h.buckets])
  have henl : ∀ a ∈ cells l, a ≠ en := fun a ha => by
    refine hall a fun hnone => h.stored.allocated ha ?_
    simp [Memory.entry,hnone]
  have hput : ∀ a, a ≠ en → Mem.put m en (.entry ⟨x,none⟩) a = m a := fun a ha => Mem.put_of_ne ha m _
  obtain ⟨m₁,p',hstore,hpath,hb₁,hrest⟩ :=
    store_after ((hput b henb).trans h.buckets) (i := i) (by simp [hc])
    (path_keeps hxs fun a ha => hput a (henl a (hin a ha).1)) hn (some en)
  have houtside : ∀ a, a ≠ b → a ∉ xs.map Prod.fst → a ≠ en → m₁ a = m a := fun a hab hax hae =>
    (hrest a hab hax).trans (hput a hae)
  have hox : o ∉ xs.map Prod.fst := fun ho => (hne o (hin o ho).1).1 rfl
  have henx : en ∉ xs.map Prod.fst := fun he => henl en (hin en he).1 rfl
  refine ⟨m₁,p',hstore,houtside o (Ne.symm hbo) hox heno,?_,?_⟩
  · intro a ha hae
    have hab : a ≠ b := fun he => by simp [he,h.buckets] at ha
    refine (houtside a hab (fun hax => h.stored.allocated (hin a hax).1 ?_) hae).trans ha
    simp [Memory.entry,ha]
  intro n freed m' ho hm'
  have hen' : Memory.entry m' en = some ⟨x,none⟩ := by
    rw [entry_eq_some,hm' en (Ne.symm heno),hrest en (Ne.symm henb) henx,Mem.put_same]
  refine ⟨h.patch hc ho ((hm' b hbo).trans hb₁) ?_ ?_ ?_ ?_,?_⟩
  · intro a ha
    have hal := (mem_cells_eraseIdx hc).mpr (Or.inr ha)
    have hax : a ∉ xs.map Prod.fst := fun hx => (hin a hx).2 ha
    exact entry_congr ((hm' a (hne a hal).1).trans (houtside a (hne a hal).2 hax (henl a hal)))
  · exact path_append.mpr ⟨some en,path_keeps hpath fun a ha => hm' a (hne a (hin a ha).1).1,rfl,none,hen',rfl⟩
  · rw [List.map_append,List.nodup_append]
    exact ⟨hn,List.nodup_singleton en,fun a ha d hd had =>
      henx ((show a = en from had.trans (List.mem_singleton.mp hd)) ▸ ha)⟩
  · intro a ha
    rw [List.map_append,List.mem_append] at ha
    rcases ha with ha | ha
    · exact (hin a ha).2
    · obtain rfl := List.mem_singleton.mp ha
      exact fun he => henl a ((mem_cells_eraseIdx hc).mpr (Or.inr he)) rfl
  · refine ((hbeside.alloc hen (.entry ⟨x,none⟩)).of_mem_iff fun a => ?_).congr ?_
    · simp only [List.mem_cons,mem_cells_eraseIdx hc,mem_cells_set hc,List.map_append,List.mem_append,List.map_cons,
        List.map_nil,List.not_mem_nil,or_false]
      tauto
    · intro a ha
      simp only [List.mem_cons,mem_cells_set hc,List.map_append,List.mem_append,not_or] at ha
      exact (hm' a ha.1).trans (hrest a ha.2.1 ha.2.2.1.1)

/-- An entry of a chain is given another item. -/
theorem Linked.replace (hc : l[i]? = some (p,ys++c::zs)) : ∃ q, m.entry c.1 = some ⟨c.2,q⟩ ∧ c.1 ≠ o ∧
    ∀ y n freed m', m' o = some (.table ⟨T.hash,T.free,b,T.buckets_size,n,freed⟩) →
    m' c.1 = some (.entry ⟨y,q⟩) →
      (∀ a, a ≠ o → a ≠ c.1 → m' a = m a) →
        Linked m' o (T.patched i ((ys++(c.1,y)::zs).map Prod.snd) n freed) b (l.set i (p,ys++(c.1,y)::zs)) ∧
        Beside rest m' (o::b::cells (l.set i (p,ys++(c.1,y)::zs))) := by
  obtain ⟨_,hys,⟨rfl,q,hq,hzs⟩,hnys,hnzs,hzys,hinys,hinzs⟩ := h.split hc
  obtain ⟨hbo,hne⟩ := h.ne
  have hcl := (hinzs c.1 (by simp)).1
  refine ⟨q,hq,(hne c.1 hcl).1,?_⟩
  intro y n freed m' ho hc' hm'
  have hfst : (ys++(c.1,y)::zs).map Prod.fst = (ys++c::zs).map Prod.fst := by simp
  have hhead : (l.map Prod.fst)[i]? = some p := by simp [hc]
  obtain ⟨hn,hd⟩ :=
    (h.stored.perm (List.getElem_cons_eraseIdx_perm (List.getElem?_eq_some_iff.mp hc).1).symm).apart
  rw [(List.getElem?_eq_some_iff.mp hc).2] at hn hd
  refine ⟨h.patch hc ho ?_ ?_ ?_ (hfst ▸ hn) (hfst ▸ hd),?_⟩
  · obtain ⟨hi,hget⟩ := List.getElem?_eq_some_iff.mp hhead
    rw [hm' b hbo (Ne.symm (hne c.1 hcl).2),h.buckets,← hget,List.set_getElem_self]
  · intro a ha
    have hal := (mem_cells_eraseIdx hc).mpr (Or.inr ha)
    exact entry_congr (hm' a (hne a hal).1 fun he => (hinzs c.1 (by simp)).2 (he ▸ ha))
  · refine path_append.mpr ⟨_,path_keeps hys fun a ha => ?_,rfl,q,entry_eq_some.mpr hc',path_keeps hzs
      fun a ha => ?_⟩
    · exact hm' a (hne a (hinys a ha).1).1 fun he => hzys c.1 (by simp) (he ▸ ha)
    · refine hm' a (hne a (hinzs a (by simp [ha])).1).1 fun he => ?_
      exact (List.nodup_cons.mp hnzs).1 (he ▸ ha)
  · refine (hbeside.of_mem_iff fun a => ?_).congr ?_
    · simp only [List.mem_cons,mem_cells_eraseIdx hc,mem_cells_set hc,hfst]
    · intro a ha
      simp only [List.mem_cons,mem_cells_set hc,hfst,List.map_append,List.mem_append,List.map_cons,not_or] at ha
      exact hm' a ha.1 ha.2.2.1.2.1

/-- An entry is taken out of a chain. -/
theorem Linked.unlink (hc : l[i]? = some (p,ys++c::zs)) :
    ∃ q m₁ p', m.entry c.1 = some ⟨c.2,q⟩ ∧ c.1 ≠ o ∧
    (Place.after b i ys).store m q = some m₁ ∧ m₁ o = m o ∧ m₁ c.1 = m c.1 ∧
    ∀ n freed m', m' o = some (.table ⟨T.hash,T.free,b,T.buckets_size,n,freed⟩) → m' c.1 = none →
      (∀ a, a ≠ o → a ≠ c.1 → m' a = m₁ a) →
        Linked m' o (T.patched i ((ys++zs).map Prod.snd) n freed) b (l.set i (p',ys++zs)) ∧
        Beside rest m' (o::b::cells (l.set i (p',ys++zs))) := by
  obtain ⟨_,hys,⟨rfl,q,hq,hzs⟩,hnys,hnzs,hzys,hinys,hinzs⟩ := h.split hc
  obtain ⟨hbo,hne⟩ := h.ne
  obtain ⟨hcin,hcout⟩ := hinzs c.1 (by simp)
  obtain ⟨hczs,hnzs⟩ := List.nodup_cons.mp hnzs
  obtain ⟨m₁,p',hstore,hpath,hb₁,hrest⟩ := store_after h.buckets (i := i) (by simp [hc]) hys hnys q
  have hoy : o ∉ ys.map Prod.fst := fun ho => (hne o (hinys o ho).1).1 rfl
  refine ⟨q,m₁,p',hq,(hne c.1 hcin).1,hstore,hrest o (Ne.symm hbo) hoy,hrest c.1 (hne c.1 hcin).2
    (hzys c.1 (by simp)),?_⟩
  intro n freed m' ho hc' hm'
  have hcy : ∀ a ∈ ys.map Prod.fst, a ≠ c.1 := fun a ha he => hzys c.1 (by simp) (he ▸ ha)
  have hcz : ∀ a ∈ zs.map Prod.fst, a ≠ c.1 := fun a ha he => hczs (he ▸ ha)
  have hzs' : ∀ a ∈ zs.map Prod.fst, a ∈ cells l ∧ a ∉ cells (l.eraseIdx i) :=
    fun a ha => hinzs a (by simp [ha])
  have hzys' : ∀ a ∈ zs.map Prod.fst, a ∉ ys.map Prod.fst := fun a ha => hzys a (by simp [ha])
  refine ⟨h.patch hc ho ?_ ?_ ?_ ?_ ?_,?_⟩
  · exact (hm' b hbo (Ne.symm (hne c.1 hcin).2)).trans hb₁
  · intro a ha
    have hal := (mem_cells_eraseIdx hc).mpr (Or.inr ha)
    have hm := hm' a (hne a hal).1 fun he => hcout (he ▸ ha)
    exact entry_congr (hm.trans (hrest a (hne a hal).2 fun hy => (hinys a hy).2 ha))
  · refine path_append.mpr ⟨q,path_keeps hpath fun a ha => ?_,path_keeps hzs fun a ha => ?_⟩
    · exact hm' a (hne a (hinys a ha).1).1 (hcy a ha)
    · exact (hm' a (hne a (hzs' a ha).1).1 (hcz a ha)).trans (hrest a (hne a (hzs' a ha).1).2 (hzys' a ha))
  · rw [List.map_append,List.nodup_append]
    exact ⟨hnys,hnzs,fun a ha d hd had => hzys' d hd (had ▸ ha)⟩
  · intro a ha
    rw [List.map_append,List.mem_append] at ha
    exact ha.elim (fun ha => (hinys a ha).2) fun ha => (hzs' a ha).2
  · have hfree : Beside rest (m.free c.1) (o::b::cells (l.set i (p',ys++zs))) := by
      apply Beside.free
      refine hbeside.of_mem_iff fun a => ?_
      simp only [List.mem_cons,mem_cells_eraseIdx hc,mem_cells_set hc,List.map_append,List.mem_append,List.map_cons]
      tauto
    refine hfree.congr fun a ha => ?_
    simp only [List.mem_cons,mem_cells_set hc,List.map_append,List.mem_append,not_or] at ha
    obtain ⟨hao,hab,⟨hay,_⟩,_⟩ := ha
    by_cases hac : a = c.1
    · rw [hac,hc',Mem.free_same]
    · rw [Mem.free_of_ne hac]
      exact (hm' a hao hac).trans (hrest a hab hay)

end Chain
end Linked

/-! ### The rehash -/

/-- In the course of `jk_hash_rehash`: the entries that are still to be moved are in the lists `old`, the others
in the buckets at `bn`, which have the chains `chains`. All entries are those at `D`. -/
structure Moving (rest m : Memory δ) (o b bn : Addr) (D : List Addr) (t : Header δ) (heads : List (Option Addr))
    (new old : List (Option Addr × List (Addr × Entry δ))) (chains : ℕ → List (Entry δ)) : Prop where
  ne : bn ≠ b
  table : m o = some (.table t)
  heads : m b = some (.buckets heads)
  buckets : m bn = some (.buckets (new.map Prod.fst))
  stored : Stored m.entry (new++old)
  contents : ∀ i c, new[i]? = some c → chains i = c.2.map Prod.snd
  all : (cells (new++old)).Perm D
  beside : Beside rest m (bn::o::b::D)

section Moving
variable {rest m : Memory δ} {o b bn : Addr} {D : List Addr} {t : Header δ} {heads : List (Option Addr)}
  {new old : List (Option Addr × List (Addr × Entry δ))} {chains : ℕ → List (Entry δ)}

/-- One entry is moved. -/
theorem Moving.step {e : Addr} {x : Entry δ} {xs : List (Addr × Entry δ)}
    (h : Moving rest m o b bn D t heads new ((some e,(e,x)::xs)::old) chains) {j : ℕ} (hj : j < new.length) :
    ∃ q m₁ m₂, m.entry e = some ⟨x,q⟩ ∧ (Place.bucket bn j).load m = some new[j].1 ∧
      (Place.next e).store m new[j].1 = some m₁ ∧ (Place.bucket bn j).store m₁ (some e) = some m₂ ∧
      Moving rest m₂ o b bn D t heads (new.set j (some e,(e,x)::new[j].2)) ((q,xs)::old)
        (Function.update chains j (x::chains j)) := by
  have hfrom : (new++(some e,(e,x)::xs)::old).Perm ((some e,(e,x)::xs)::new[j]::(new.eraseIdx j++old)) :=
    List.perm_middle.trans (((List.getElem_cons_eraseIdx_perm hj).symm.append_right old).cons _)
  have hto (q : Option Addr) : ((q,xs)::(some e,(e,x)::new[j].2)::(new.eraseIdx j++old)).Perm
      (new.set j (some e,(e,x)::new[j].2)++(q,xs)::old) :=
    ((List.set_perm_cons_eraseIdx hj _).symm.append_right old |>.cons _).trans List.perm_middle.symm
  obtain ⟨q,hq,hmove⟩ := (h.stored.perm hfrom).move
  have hq' := entry_eq_some.mp hq
  have hne : bn ≠ e := ne_of_blocks h.buckets hq' (by simp)
  let m₁ : Memory δ := m.put e (.entry ⟨x,new[j].1⟩)
  have hm₁ : ∀ a, a ≠ e → m₁ a = m a := fun a ha => Mem.put_of_ne ha _ _
  have hbuckets₁ := (hm₁ bn hne).trans h.buckets
  let m₂ : Memory δ := m₁.put bn (.buckets ((new.map Prod.fst).set j (some e)))
  have hm₂ : ∀ a, a ≠ e → a ≠ bn → m₂ a = m a :=
    fun a hae hab => (Mem.put_of_ne hab _ _).trans (hm₁ a hae)
  have hentry : ∀ a, Memory.entry m₂ a = Memory.entry m₁ a := entry_put_buckets hbuckets₁ _
  refine ⟨q,m₁,m₂,hq,by simp [load_bucket h.buckets,hj],store_next hq' _,store_bucket hbuckets₁
    (by simpa using hj) _,?_⟩
  refine ⟨h.ne,?_,?_,?_,?_,?_,?_,?_⟩
  · rw [hm₂ o (ne_of_blocks h.table hq' (by simp)) (ne_of_blocks h.table h.buckets (by simp)),h.table]
  · rw [hm₂ b (ne_of_blocks h.heads hq' (by simp)) (Ne.symm h.ne),h.heads]
  · rw [List.map_set]
    exact Mem.put_same ..
  · refine (hmove _ ?_ fun a ha => ?_).perm (hto q)
    · rw [hentry e,entry_eq_some]
      exact Mem.put_same ..
    · rw [hentry a]
      exact entry_congr (hm₁ a ha)
  · intro i c hc
    rw [List.getElem?_set] at hc
    by_cases hij : j = i
    · subst hij
      rw [if_pos rfl,if_pos hj] at hc
      rw [← Option.some.inj hc,Function.update_self,h.contents j new[j] (List.getElem?_eq_getElem hj)]
      rfl
    · rw [if_neg hij] at hc
      rw [Function.update_of_ne (Ne.symm hij)]
      exact h.contents i c hc
  · refine (cells_perm (hto q)).symm.trans (List.Perm.trans ?_ ((cells_perm hfrom).symm.trans h.all))
    simp only [cells_cons,List.map_cons,List.cons_append]
    exact List.perm_middle
  · have he : e ∈ D := h.all.mem_iff.mp (mem_cells (c := (some e,(e,x)::xs)) (by simp) (by simp))
    exact (h.beside.put (a := e) (by simp [he]) _).put (a := bn) (by simp) _

/-- The entries of one chain are moved. -/
theorem Moving.loop {new_htb : Header δ} {p : Option Addr} {xs : List (Addr × Entry δ)} {fuel : ℕ}
    (h : Moving rest m o b bn D t heads new ((p,xs)::old) chains) (hnew : new_htb.buckets = bn)
    (hsize : new_htb.buckets_size = new.length) (hpos : 0 < new.length) (hfuel : xs.length ≤ fuel) :
    ∃ m' new', moveLoop new_htb fuel p m = some m' ∧ new'.length = new.length ∧
      Moving rest m' o b bn D t heads new' old ((xs.map Prod.snd).foldl (relink new.length) chains) := by
  induction xs generalizing m p new chains fuel with
  | nil =>
    have hp := h.stored.paths (p,[]) (by simp)
    obtain rfl : p = none := hp
    have hstored := (h.stored.perm List.perm_middle).tail
    refine ⟨m,new,by cases fuel <;> rfl,rfl,⟨h.ne,h.table,h.heads,h.buckets,hstored,h.contents,?_,h.beside⟩⟩
    simpa using h.all
  | cons c xs ih =>
    obtain ⟨rfl,_⟩ := h.stored.paths (p,c::xs) (by simp)
    obtain ⟨fuel,rfl,hle⟩ := exists_fuel hfuel
    have hj := rehashIndex_lt c.2.hashval hpos
    obtain ⟨q,m₁,m₂,hq,hload,hnext,hstore,hmoving⟩ := h.step hj
    obtain ⟨m',new',hloop,hlen,hmoving'⟩ := ih hmoving (by simpa using hsize) (by simpa using hpos) hle
    rw [List.length_set] at hlen hmoving'
    refine ⟨m',new',?_,hlen,hmoving'⟩
    simp only [moveLoop,hq,hnew,hsize,hload,hnext,hstore,hloop,Option.bind_eq_bind,Option.bind_some]

/-- The entries of the first `k` chains are moved. -/
theorem Moving.outer (new_htb : Header δ) {l : List (Option Addr × List (Addr × Entry δ))} {fuel : ℕ}
    (h : Moving rest m o b bn D t (l.map Prod.fst) new l chains) (hnew : new_htb.buckets = bn)
    (hsize : new_htb.buckets_size = new.length) (hpos : 0 < new.length) (hfuel : ∀ c ∈ l, c.2.length ≤ fuel)
    {k : ℕ} (hk : k ≤ l.length) {T : ℕ → List (Entry δ)}
    (hT : ∀ i c, l[i]? = some c → T i = c.2.map Prod.snd) :
    ∃ m' new', ((List.range k).foldlM (fun m (i : ℕ) => do
        let e ← (Place.bucket b i).load m
        moveLoop new_htb fuel e m) m) = some m' ∧ new'.length = new.length ∧
      Moving rest m' o b bn D t (l.map Prod.fst) new' (l.drop k)
        ((List.range k).foldl (fun chains i => (T i).foldl (relink new.length) chains) chains) := by
  induction k with
  | zero => exact ⟨m,new,rfl,rfl,by simpa using h⟩
  | succ k ih =>
    obtain ⟨m₁,new₁,hfold,hlen,h₁⟩ := ih (Nat.le_of_succ_le hk)
    have hget : l[k]? = some l[k] := List.getElem?_eq_getElem hk
    rw [List.drop_eq_getElem_cons hk] at h₁
    obtain ⟨m',new',hloop,hlen',h'⟩ := h₁.loop hnew (hsize.trans hlen.symm) (hlen.symm ▸ hpos)
      (hfuel l[k] (List.getElem_mem hk))
    refine ⟨m',new',?_,hlen'.trans hlen,?_⟩
    · rw [List.range_succ,List.foldlM_append,hfold]
      simpa [load_bucket h₁.heads,hget] using hloop
    · rw [List.range_succ,List.foldl_append,List.foldl_cons,List.foldl_nil,hT k _ hget]
      rw [hlen] at h'
      exact h'

end Moving

/-- Lists beside a fresh array of empty ones. -/
lemma Stored.replicate {cell : ℕ → Option (Cell (Entry δ))} {l : List (Option Addr × List (Addr × Entry δ))}
    (h : Stored cell l) (n : ℕ) : Stored cell (List.replicate n (none,[])++l) ∧
      cells (List.replicate n ((none : Option Addr),([] : List (Addr × Entry δ)))++l) = cells l := by
  induction n with
  | zero => exact ⟨h,rfl⟩
  | succ n ih => exact ⟨ih.1.cons rfl List.nodup_nil (by simp),ih.2⟩

/-- Before the first entry is moved. -/
theorem Linked.moving {rest m : Memory δ} {o b bn : Addr} {T : Table δ}
    {l : List (Option Addr × List (Addr × Entry δ))} (h : Linked m o T b l)
    (hbeside : Beside rest m (o::b::cells l)) (hbn : m bn = none) (n : ℕ) :
    Moving rest (m.put bn (.buckets (List.replicate n none))) o b bn (cells l)
      ⟨T.hash,T.free,b,T.buckets_size,T.elm_nums,T.freed⟩ (l.map Prod.fst) (List.replicate n (none,[])) l
        fun _ => [] := by
  have hput : ∀ a, m a ≠ none → Mem.put m bn (.buckets (List.replicate n none)) a = m a := fun a ha =>
    Mem.put_of_ne (fun he : a = bn => ha (he ▸ hbn)) _ _
  have hlists : Stored (Memory.entry (m.put bn (.buckets (List.replicate n none)))) l := by
    refine h.stored.congr fun a ha => entry_congr (hput a fun hnone => h.stored.allocated ha ?_)
    simp [Memory.entry,hnone]
  obtain ⟨hstored,hcells⟩ := Stored.replicate hlists n
  refine ⟨?_,?_,?_,?_,hstored,?_,?_,hbeside.alloc hbn _⟩
  · rintro rfl
    simpa using hbn.symm.trans h.buckets
  · rw [hput o (by simp [h.table]),h.table]
  · rw [hput b (by simp [h.buckets]),h.buckets]
  · rw [List.map_replicate]
    exact Mem.put_same ..
  · intro i c hc
    rw [List.eq_of_mem_replicate (List.mem_of_getElem? hc)]
    rfl
  · rw [hcells]

/-- After the last one the old buckets are released, and the table has the new ones. -/
theorem Moving.finish {rest m : Memory δ} {o b bn : Addr} {D : List Addr} {t : Header δ}
    {heads : List (Option Addr)} {new : List (Option Addr × List (Addr × Entry δ))} {T : Table δ}
    (h : Moving rest m o b bn D t heads new [] T.buckets) (hsized : T.Sized) (hlen : new.length = T.buckets_size) :
    let m' : Memory δ := Mem.put (m.free b) o (.table ⟨T.hash,T.free,bn,T.buckets_size,T.elm_nums,T.freed⟩)
    Linked m' o T bn new ∧ Beside rest m' (o::bn::cells new) := by
  intro m'
  have hrest : ∀ a, a ≠ o → a ≠ b → m' a = m a :=
    fun a hao hab => (Mem.put_of_ne hao _ _).trans (Mem.free_of_ne hab _)
  have hstored : Stored m.entry new := by simpa using h.stored
  have hcells : (cells new).Perm D := by simpa using h.all
  refine ⟨⟨hsized,Mem.put_same _ _ _,?_,hlen,?_,h.contents⟩,?_⟩
  · rw [hrest bn (ne_of_blocks h.buckets h.table (by simp)) h.ne,h.buckets]
  · refine hstored.congr fun a ha => entry_congr ?_
    obtain ⟨c,hc⟩ := Option.ne_none_iff_exists'.mp (hstored.allocated ha)
    rw [entry_eq_some] at hc
    exact hrest a (ne_of_blocks hc h.table (by simp)) (ne_of_blocks hc h.heads (by simp))
  · have hfree : Beside rest (m.free b) (o::bn::cells new) := by
      apply Beside.free
      refine h.beside.of_mem_iff fun a => ?_
      simp only [List.mem_cons,hcells.mem_iff]
      tauto
    exact hfree.put (by simp) _

/-- The rehash of the memory leaves the rehashed table, made of the same cells, and touches nothing beside it. -/
theorem Linked.rehash {rest m : Memory δ} {o b : Addr} {T : Table δ}
    {l : List (Option Addr × List (Addr × Entry δ))} {fuel : ℕ} (h : Linked m o T b l)
    (hbeside : Beside rest m (o::b::cells l)) (hfuel : (cells l).length ≤ fuel) {calloc : Option Addr}
    (hfresh : ∀ bn ∈ calloc, m bn = none) :
    ∃ m' b' l', hashRehash fuel m o calloc = some m' ∧ Linked m' o (Hash.hashRehash T calloc.isSome) b' l' ∧
      Beside rest m' (o::b'::cells l') ∧ (cells l').length = (cells l).length := by
  have htable := table_eq_some.mpr h.table
  by_cases hn : nextSize T.buckets_size = T.buckets_size
  · refine ⟨m,b,l,?_,?_,hbeside,rfl⟩
    · simp [hashRehash,htable,hn]
    · rw [Hash.hashRehash,if_pos hn]
      exact h
  cases calloc with
  | none =>
    refine ⟨m,b,l,?_,?_,hbeside,rfl⟩
    · simp [hashRehash,htable,hashInit]
    · simpa [Hash.hashRehash,hn,Hash.hashInit] using h
  | some bn =>
    obtain ⟨hmin,hmax⟩ := bucketsSizes_range (nextSize_mem T.buckets_size)
    generalize hnext : nextSize T.buckets_size = n at hn hmin hmax
    have hinit : hashInit m n none false (some bn) =
        some (m.put bn (.buckets (List.replicate n none)),⟨defaultHash,false,bn,n,0,[]⟩) := by
      simp [hashInit,not_lt.mpr hmin,not_lt.mpr hmax]
    obtain ⟨m₁,new,hfold,hlen,hmoved⟩ :=
      (h.moving hbeside (hfresh bn rfl) n).outer ⟨defaultHash,false,bn,n,0,[]⟩ rfl
      List.length_replicate.symm (by simpa using lt_of_lt_of_le (by decide) hmin)
      (fun c hc => (patch_length (List.getElem?_of_mem hc).choose_spec).trans hfuel) le_rfl h.contents
    rw [List.drop_length,List.length_replicate,h.length] at hmoved
    rw [List.length_replicate] at hlen
    simp only [h.length,Option.bind_eq_bind] at hfold
    obtain ⟨hlinked,hbeside'⟩ := hmoved.finish (T := { T with
        buckets := (List.range T.buckets_size).foldl (fun c i => (T.buckets i).foldl (relink n) c) fun _ => [],
        buckets_size := n }) ⟨hmin,hmax⟩ hlen
    refine ⟨_,bn,new,?_,?_,hbeside',?_⟩
    · simp only [hashRehash,htable,hnext,if_neg hn,hinit,hfold,dealloc_eq hmoved.heads,Option.bind_eq_bind,
        Option.bind_some]
      rfl
    · simpa only [Hash.hashRehash,hnext,if_neg hn,Hash.hashInit,Option.isSome_some,if_true,not_lt.mpr hmin,
        not_lt.mpr hmax,if_false] using hlinked
    · simpa using hmoved.all.length_eq

/-! ### The end of a table -/

/-- In the course of `jk_hash_destroy`: the entries that are left are in the lists `old`, and the free callback
has got the data in the log of `T`. -/
structure Dropping (rest m : Memory δ) (o b : Addr) (T : Table δ) (heads : List (Option Addr))
    (old : List (Option Addr × List (Addr × Entry δ))) : Prop where
  table : m o = some (.table ⟨T.hash,T.free,b,T.buckets_size,T.elm_nums,T.freed⟩)
  heads : m b = some (.buckets heads)
  stored : Stored m.entry old
  beside : Beside rest m (o::b::cells old)

section Dropping
variable {rest m : Memory δ} {o b : Addr} {T : Table δ} {heads : List (Option Addr)}
  {old l : List (Option Addr × List (Addr × Entry δ))} {fuel : ℕ}

/-- The entries of one chain are released. -/
theorem Dropping.loop {p : Option Addr} {xs : List (Addr × Entry δ)}
    (h : Dropping rest m o b T heads ((p,xs)::old))
    (hfuel : xs.length ≤ fuel) : ∃ m', destroyLoop o fuel p m = some m' ∧
      Dropping rest m' o b ((xs.map Prod.snd).foldl (fun o e => o.release e.data) T) heads old := by
  induction xs generalizing m p T fuel with
  | nil =>
    have hp := h.stored.paths (p,[]) (by simp)
    obtain rfl : p = none := hp
    exact ⟨m,by cases fuel <;> rfl,⟨h.table,h.heads,h.stored.tail,h.beside⟩⟩
  | cons c xs ih =>
    obtain ⟨rfl,_⟩ := h.stored.paths (p,c::xs) (by simp)
    obtain ⟨fuel,rfl,hle⟩ := exists_fuel hfuel
    obtain ⟨q,hq,hdrop⟩ := h.stored.drop
    have hq' := entry_eq_some.mp hq
    have hco : c.1 ≠ o := ne_of_blocks hq' h.table (by simp)
    have hcb : c.1 ≠ b := ne_of_blocks hq' h.heads (by simp)
    obtain ⟨m₁,hrelease,ho₁,hrest₁⟩ : ∃ m₁, m.release o c.2.data = some m₁ ∧
        m₁ o = some (.table ⟨T.hash,T.free,b,T.buckets_size,T.elm_nums,(T.release c.2.data).freed⟩) ∧
        ∀ a, a ≠ o → m₁ a = m a :=
      ⟨_,release_eq h.table c.2.data,Mem.put_same _ _ _,fun a ha => Mem.put_of_ne ha _ _⟩
    have hdealloc : m₁.dealloc c.1 = some (m₁.free c.1) := dealloc_eq ((hrest₁ c.1 hco).trans hq')
    have hnext : Dropping rest (m₁.free c.1) o b (T.release c.2.data) heads ((q,xs)::old) := by
      refine ⟨(Mem.free_of_ne (Ne.symm hco) _).trans ho₁,?_,hdrop _ fun a ha => ?_,Beside.free ?_⟩
      · rw [Mem.free_of_ne (Ne.symm hcb),hrest₁ b (ne_of_blocks h.heads h.table (by simp)),h.heads]
      · by_cases hao : a = o
        · subst hao
          simp [Memory.entry,Mem.free_of_ne ha,ho₁,h.table]
        · exact entry_congr ((Mem.free_of_ne ha _).trans (hrest₁ a hao))
      · refine (h.beside.congr fun a ha => hrest₁ a fun he => ha (by simp [he])).of_mem_iff fun a => ?_
        simp only [List.mem_cons,cells_cons,List.map_cons,List.mem_append]
        tauto
    obtain ⟨m',hloop,hdropping⟩ := ih hnext hle
    refine ⟨m',?_,hdropping⟩
    simp only [destroyLoop,hq,hrelease,hdealloc,hloop,Option.bind_eq_bind,Option.bind_some]

/-- The first `k` chains are released. -/
theorem Dropping.outer (h : Dropping rest m o b T (l.map Prod.fst) l) (hfuel : ∀ c ∈ l, c.2.length ≤ fuel)
    {k : ℕ} (hk : k ≤ l.length) {buckets : ℕ → List (Entry δ)}
    (hT : ∀ i c, l[i]? = some c → buckets i = c.2.map Prod.snd) :
    ∃ m', ((List.range k).foldlM (fun m (i : ℕ) => do
        let e ← (Place.bucket b i).load m
        destroyLoop o fuel e m) m) = some m' ∧
      Dropping rest m' o b ((List.range k).foldl (fun o i => (buckets i).foldl (fun o e => o.release e.data) o) T)
        (l.map Prod.fst) (l.drop k) := by
  induction k with
  | zero => exact ⟨m,rfl,by simpa using h⟩
  | succ k ih =>
    obtain ⟨m₁,hfold,h₁⟩ := ih (Nat.le_of_succ_le hk)
    have hget : l[k]? = some l[k] := List.getElem?_eq_getElem hk
    rw [List.drop_eq_getElem_cons hk] at h₁
    obtain ⟨m',hloop,h'⟩ := h₁.loop (hfuel l[k] (List.getElem_mem hk))
    refine ⟨m',?_,?_⟩
    · rw [List.range_succ,List.foldlM_append,hfold]
      simpa [load_bucket h₁.heads,hget] using hloop
    · rw [List.range_succ,List.foldl_append,List.foldl_cons,List.foldl_nil,hT k _ hget]
      exact h'

end Dropping

/-! ### The calls -/

/-- Both calls are undefined; or they return the same, the table after the one is in the memory after the other,
in at most `k` blocks, and the rest of the memory is as it was. -/
def Agrees (rest : Memory δ) (o : Addr) (k : ℕ) {α : Type} : Option (Memory δ × α) →
    Option (Table δ × α) → Prop :=
  Option.Rel fun r r' => r.2 = r'.2 ∧ ∃ B, Holds r.1 o r'.1 B ∧ Beside rest r.1 B ∧ B.length ≤ k

theorem Agrees.mono {rest : Memory δ} {o : Addr} {k k' : ℕ} {α : Type} {p : Option (Memory δ × α)}
    {q : Option (Table δ × α)} (h : Agrees rest o k p q) (hle : k ≤ k') : Agrees rest o k' p q := by
  cases h with
  | none => exact .none
  | some hr =>
    obtain ⟨hanswer,B,hholds,hbeside,hB⟩ := hr
    exact .some ⟨hanswer,B,hholds,hbeside,hB.trans hle⟩

section Calls
variable {m rest : Memory δ} {o : Addr} {T : Table δ} {B : List Addr} {fuel : ℕ} (h : Holds m o T B)
include h

/-- The find that follows the links returns what the find over the chains returns. -/
theorem hashFind_eq (hfuel : B.length ≤ fuel) (key : Key) : hashFind fuel m o key = Hash.hashFind T key := by
  obtain ⟨b,l,hl,rfl⟩ := h
  unfold hashFind Hash.hashFind
  simp only [table_eq_some.mpr hl.table,Option.bind_eq_bind,Option.bind_some]
  rcases hl.bucket (lookupIndex (T.hash key) T.buckets_size) with ⟨hT,hm⟩ | ⟨i,p,xs,_,hc,hT,hm⟩
  · rw [hT,hm]
    rfl
  · obtain ⟨ys,zs,rfl,hw,hys,hzs⟩ := exists_walk (T.hash key) key xs
    have hpath := hl.stored.paths _ (List.mem_of_getElem? hc)
    have hlen := patch_length hc
    rw [hT,hm,Option.bind_some,Option.bind_some,findLoop_eq hys hzs hpath (by simp at hfuel hlen ⊢; omega),
      Option.bind_some,hw]
    obtain ⟨r,_,hpath,_⟩ := hl.split hc
    cases zs with
    | nil => rfl
    | cons c zs =>
      obtain ⟨_,q,hq,_⟩ := hpath
      simp [hq]

/-- The remove of the memory answers as the remove over the chains, leaves its table and needs no further block. -/
theorem hashRemove_agrees (hbeside : Beside rest m B) (hfuel : B.length ≤ fuel) (key : Key) :
    Agrees rest o B.length (hashRemove fuel m o key) (Hash.hashRemove T key) := by
  obtain ⟨b,l,hl,rfl⟩ := h
  have htable := table_eq_some.mpr hl.table
  rcases hl.bucket (lookupIndex (T.hash key) T.buckets_size) with ⟨hT,hm⟩ | ⟨i,p,xs,hi,hc,hT,hm⟩
  · simp only [hashRemove,Hash.hashRemove,htable,hT,hm,Option.bind_eq_bind,Option.bind_some,Option.bind_none]
    exact .none
  obtain ⟨ys,zs,rfl,hw,hys,hzs⟩ := exists_walk (T.hash key) key xs
  have hlen := patch_length hc
  have hloop := removeLoop_eq hys hzs none (hl.stored.paths _ (List.mem_of_getElem? hc))
    (show _ ≤ fuel by simp only [List.length_cons] at hfuel hlen ⊢; omega)
  cases zs with
  | nil =>
    simp only [hashRemove,Hash.hashRemove,htable,hT,hm,hloop,hw,Option.bind_eq_bind,Option.bind_some]
    exact .some ⟨rfl,_,⟨b,l,hl,rfl⟩,hbeside,le_rfl⟩
  | cons c zs =>
    obtain ⟨q,m₁,p',hq,hco,hstore,ho₁,hc₁,hafter⟩ := hl.unlink hbeside hc
    obtain ⟨m₂,hrelease,ho₂,hrest₂⟩ : ∃ m₂, m₁.release o c.2.data = some m₂ ∧
        m₂ o = some (.table ⟨T.hash,T.free,b,T.buckets_size,T.elm_nums,T.freeing c.2.data⟩) ∧
        ∀ a, a ≠ o → m₂ a = m₁ a :=
      ⟨_,release_eq (ho₁.trans hl.table) c.2.data,Mem.put_same _ _ _,fun a ha => Mem.put_of_ne ha _ _⟩
    have hdealloc : m₂.dealloc c.1 = some (m₂.free c.1) :=
      dealloc_eq ((hrest₂ c.1 hco).trans (hc₁.trans (entry_eq_some.mp hq)))
    have htable₃ : Memory.table (m₂.free c.1) o =
        some ⟨T.hash,T.free,b,T.buckets_size,T.elm_nums,T.freeing c.2.data⟩ := by
      rw [table_eq_some,Mem.free_of_ne (Ne.symm hco),ho₂]
    obtain ⟨hl',hbeside'⟩ := hafter (if T.elm_nums = 0 then 2^32-1 else T.elm_nums-1) (T.freeing c.2.data)
      (Mem.put (m₂.free c.1) o (.table _)) (Mem.put_same _ _ _) (by rw [Mem.put_of_ne hco,Mem.free_same])
      fun a hao hac => by rw [Mem.put_of_ne hao,Mem.free_of_ne hac,hrest₂ a hao]
    rw [Place.after] at hstore
    rw [hi] at hT hm
    simp only [hashRemove,Hash.hashRemove,htable,hi,hT,hm,hloop,hw,Option.bind_eq_bind,Option.bind_some,
      List.head?_cons,Option.map_some,Option.or_none,hq,hstore,hrelease,hdealloc,htable₃]
    refine .some ⟨rfl,_,⟨b,_,?_,rfl⟩,hbeside',?_⟩
    · rw [List.map_append] at hl'
      exact hl'
    · simp only [List.length_cons,(cells_set hc _ _).length_eq,(cells_eraseIdx hc).length_eq,List.length_append,
        List.length_map]
      omega

/-- The insert of the memory answers as the insert over the chains and leaves its table, in at most one block
more. -/
theorem hashInsert_agrees (hbeside : Beside rest m B) (hfuel : B.length ≤ fuel) (key : Key) (data : δ)
    (replace : Bool) {malloc calloc : Option Addr} (hmalloc : ∀ en ∈ malloc, m en = none)
    (hcalloc : ∀ bn ∈ calloc, m bn = none ∧ malloc ≠ some bn) :
    Agrees rest o (B.length+1) (hashInsert fuel m o key data replace malloc calloc)
      (Hash.hashInsert T key data replace malloc.isSome calloc.isSome) := by
  have hholds := h
  obtain ⟨b,l,hl,rfl⟩ := h
  have htable := table_eq_some.mpr hl.table
  rcases hl.bucket (lookupIndex (T.hash key) T.buckets_size) with ⟨hT,hm⟩ | ⟨i,p,xs,hi,hc,hT,hm⟩
  · have hloop : insertLoop m (T.hash key) key fuel (.bucket b (lookupIndex (T.hash key) T.buckets_size)) =
        none := by
      cases fuel <;> simp [insertLoop,hm]
    simp only [hashInsert,Hash.hashInsert,htable,hT,hloop,Option.bind_eq_bind,Option.bind_some,Option.bind_none]
    exact .none
  rw [hi] at hT hm
  obtain ⟨ys,zs,rfl,hw,hys,hzs⟩ := exists_walk (T.hash key) key xs
  have hlen := patch_length hc
  have hloop := insertLoop_eq hys hzs hm (hl.stored.paths _ (List.mem_of_getElem? hc))
    (show _ ≤ fuel by simp only [List.length_cons] at hfuel hlen ⊢; omega)
  rw [Place.after_eq] at hloop
  cases zs with
  | nil =>
    rw [List.append_nil] at hc hT hw
    cases malloc with
    | none =>
      simp only [hashInsert,Hash.hashInsert,htable,hi,hT,hloop,hw,Option.bind_eq_bind,Option.bind_some]
      exact .some ⟨rfl,_,hholds,hbeside,Nat.le_succ _⟩
    | some en =>
      obtain ⟨m₁,p',hstore,ho₁,hfresh,hafter⟩ := hl.append hbeside hc (hmalloc en rfl)
        ⟨wrap 32 (T.hash key),key.length,data,key⟩
      obtain ⟨hl',hbeside'⟩ := hafter ((T.elm_nums+1) % 2^32) T.freed (m₁.put o (.table _))
        (Mem.put_same _ _ _)
        fun a ha => Mem.put_of_ne ha _ _
      have hcells : (cells (l.set i (p',ys++[(en,⟨wrap 32 (T.hash key),key.length,data,key⟩)]))).length =
          (cells l).length+1 := by
        rw [(cells_set hc _ _).length_eq,(cells_eraseIdx hc).length_eq]
        simp only [List.map_append,List.length_append,List.length_map,List.length_singleton]
        omega
      rw [List.map_append] at hl'
      simp only [hashInsert,Hash.hashInsert,htable,hi,hT,hloop,hw,hstore,Option.bind_eq_bind,Option.bind_some,
        Option.isSome_some,if_true,List.head?_nil,Option.map_none,List.map_nil,Table.setBucket]
      by_cases hfull : 2*T.buckets_size < 3*((T.elm_nums+1) % 2^32)
      · obtain ⟨m',b',l',hrehash,hl'',hbeside'',hlen'⟩ := hl'.rehash hbeside'
          (show _ ≤ fuel by rw [hcells]; simp only [List.length_cons] at hfuel; omega)
              fun bn (hbn : bn ∈ calloc) => by
            have hne : bn ≠ o := fun he => by simpa [he,hl.table] using (hcalloc bn hbn).1
            exact (Mem.put_of_ne hne _ _).trans (hfresh bn (hcalloc bn hbn).1 fun he =>
              (hcalloc bn hbn).2 (he ▸ rfl))
        rw [if_pos hfull,if_pos hfull,hrehash]
        exact .some ⟨rfl,_,⟨b',l',hl'',rfl⟩,hbeside'',by simp [hlen',hcells]⟩
      · rw [if_neg hfull,if_neg hfull]
        exact .some ⟨rfl,_,⟨b,_,hl',rfl⟩,hbeside',by simp [hcells]⟩
  | cons c zs =>
    cases replace with
    | false =>
      simp only [hashInsert,Hash.hashInsert,htable,hi,hT,hloop,hw,Option.bind_eq_bind,Option.bind_some]
      exact .some ⟨rfl,_,hholds,hbeside,Nat.le_succ _⟩
    | true =>
      obtain ⟨q,hq,hco,hafter⟩ := hl.replace hbeside hc
      obtain ⟨m₁,hrelease,ho₁,hrest₁⟩ : ∃ m₁, m.release o c.2.data = some m₁ ∧
          m₁ o = some (.table ⟨T.hash,T.free,b,T.buckets_size,T.elm_nums,T.freeing c.2.data⟩) ∧
          ∀ a, a ≠ o → m₁ a = m a :=
        ⟨_,release_eq hl.table c.2.data,Mem.put_same _ _ _,fun a ha => Mem.put_of_ne ha _ _⟩
      obtain ⟨hl',hbeside'⟩ := hafter { c.2 with data := data } T.elm_nums (T.freeing c.2.data)
        (m₁.put c.1 (.entry ⟨{ c.2 with data := data },q⟩)) ((Mem.put_of_ne (Ne.symm hco) _ _).trans ho₁)
        (Mem.put_same _ _ _) fun a hao hac => (Mem.put_of_ne hac _ _).trans (hrest₁ a hao)
      rw [List.map_append] at hl'
      simp only [hashInsert,Hash.hashInsert,htable,hi,hT,hloop,hw,Option.bind_eq_bind,Option.bind_some,
        List.head?_cons,Option.map_some,if_true,hq,hrelease]
      refine .some ⟨rfl,_,⟨b,_,hl',rfl⟩,hbeside',?_⟩
      simp only [List.length_cons,(cells_set hc _ _).length_eq,(cells_eraseIdx hc).length_eq,List.map_append,
        List.map_cons]
      omega

/-- `jk_hash_free` leaves the rest of the memory. -/
theorem hashFree_eq (hbeside : Beside rest m B) (hfuel : B.length ≤ fuel) :
    hashFree fuel m o = some (rest,Hash.hashDestroy T) := by
  obtain ⟨b,l,hl,rfl⟩ := h
  have hdropping : Dropping rest m o b T (l.map Prod.fst) l := ⟨hl.table,hl.buckets,hl.stored,hbeside⟩
  have hle : ∀ c ∈ l, c.2.length ≤ fuel := fun c hc => by
    have hlen := patch_length (List.getElem?_of_mem hc).choose_spec
    simp only [List.length_cons] at hfuel
    omega
  obtain ⟨m₁,hfold,hdropped⟩ := hdropping.outer hle le_rfl hl.contents
  rw [List.drop_length] at hdropped
  simp only [hl.length,Option.bind_eq_bind] at hfold hdropped
  have hbo : b ≠ o := hl.ne.1
  have htable : Memory.table (m₁.free b) o = _ :=
    table_eq_some.mpr ((Mem.free_of_ne (Ne.symm hbo) _).trans hdropped.table)
  have hrest : Mem.free (m₁.free b) o = rest := by
    refine Beside.eq_rest (Beside.free (Beside.free (hdropped.beside.of_mem_iff fun a => ?_)))
    simp only [List.mem_cons,cells_nil]
    tauto
  simp only [hashFree,hashDestroy,table_eq_some.mpr hl.table,hfold,dealloc_eq hdropped.heads,htable,
    dealloc_eq (table_eq_some.mp htable),Option.bind_eq_bind,Option.bind_some,hrest]
  rfl

end Calls

/-- `jk_hash_new` makes an empty table beside the rest of the memory; or it gets no memory for the table and does
nothing; or it gets none for the buckets and leaves a raw table, which the callback gets. -/
theorem hashNew_cases {m : Memory δ} (init_buckets : ℕ) (hash : Option (Key → ℤ)) (free : Bool)
    {malloc calloc : Option Addr} (hmalloc : ∀ o ∈ malloc, m o = none)
    (hcalloc : ∀ b ∈ calloc, m b = none ∧ malloc ≠ some b) :
    (∃ o b m' T, malloc = some o ∧ calloc = some b ∧
      hashNew m init_buckets hash free malloc calloc = some (m',some o,none) ∧
      Hash.hashInit init_buckets hash free true = some T ∧ Holds m' o T [o,b] ∧ Beside m m' [o,b]) ∨
    (malloc = none ∧ hashNew m init_buckets hash free malloc calloc = some (m,none,none)) ∨
    ∃ o, malloc = some o ∧ calloc = none ∧ hashNew m init_buckets hash free malloc calloc =
      if free then some (m.put o .raw,none,some o) else none := by
  cases malloc with
  | none => exact Or.inr (Or.inl ⟨rfl,rfl⟩)
  | some o =>
    have ho := hmalloc o rfl
    cases calloc with
    | none => exact Or.inr (Or.inr ⟨o,rfl,rfl,rfl⟩)
    | some b =>
      obtain ⟨hb,hob⟩ := hcalloc b rfl
      have hbo : b ≠ o := fun he => hob (he ▸ rfl)
      obtain ⟨T,hT⟩ : ∃ T : Table δ, Hash.hashInit init_buckets hash free true = some T := ⟨_,rfl⟩
      have hinit : hashInit (Mem.put m o Block.raw) init_buckets hash free (some b) =
          some (Mem.put (m.put o Block.raw) b (.buckets (List.replicate T.buckets_size none)),
            ⟨T.hash,T.free,b,T.buckets_size,T.elm_nums,T.freed⟩) := by
        cases hT
        rfl
      obtain ⟨n,hmin,hmax,rfl⟩ := hashInit_cases hT
      have hnil : Stored (fun _ => none : ℕ → Option (Cell (Entry δ))) [] := ⟨by simp,List.nodup_nil⟩
      obtain ⟨hstored,hcells⟩ := Stored.replicate hnil n
      rw [List.append_nil] at hstored hcells
      refine Or.inl ⟨o,b,_,_,rfl,rfl,by simp only [hashNew,hinit]; rfl,hT,
        ⟨b,List.replicate n (none,[]),?_,?_⟩,?_⟩
      · refine ⟨⟨hmin,hmax⟩,Mem.put_same _ _ _,?_,List.length_replicate,?_,?_⟩
        · rw [Mem.put_of_ne hbo,Mem.put_same,List.map_replicate]
        · exact hstored.congr fun a ha => absurd ha (hcells ▸ List.not_mem_nil)
        · intro i c hc
          rw [List.eq_of_mem_replicate (List.mem_of_getElem? hc)]
          rfl
      · rw [hcells,cells_nil]
      · have halloc := ((Beside.nil m).alloc ho Block.raw).alloc (a := b) (by rwa [Mem.put_of_ne hbo])
          (.buckets (List.replicate n none))
        exact (halloc.of_mem_iff fun a => by simp only [List.mem_cons]; tauto).put (by simp) _

end JustKit.Hash.Pointers
