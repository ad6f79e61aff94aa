import JustKit.Foundations.LinkedCells
import JustKit.Hash.Model

/-! The functions of `jk_hash.c` on a memory with addresses. A chain is threaded through the pointers of its
entries, and the buckets are an array of pointers. A function returns `none` where the code uses a block that is
not allocated, indexes an array out of its range, releases a block twice or calls a callback that is not there;
`fuel` bounds the passes of each loop over a chain. Callbacks do not touch the memory. -/
namespace JustKit.Hash.Pointers
open Foundations Foundations.LinkedCells

abbrev Addr := ℕ

/-- `jk_hash_s`, and the data given to the free callback so far, which no function reads. -/
structure Header (δ : Type) where
  hash : Key → ℤ
  free : Bool
  buckets : Addr
  buckets_size : ℕ
  elm_nums : ℕ
  freed : List δ

/-- What `malloc` and `calloc` allocate: a table, which is raw before `jk_hash_init` has filled it, an array of
buckets, or an entry with its link. -/
inductive Block (δ : Type) where
  | raw
  | table (o : Header δ)
  | buckets (heads : List (Option Addr))
  | entry (e : Cell (Entry δ))

abbrev Memory (δ : Type) := Mem (Block δ)

variable {δ : Type}

namespace Memory

def table (m : Memory δ) (o : Addr) : Option (Header δ) :=
  match m o with
  | some (.table t) => some t
  | _ => none

def buckets (m : Memory δ) (b : Addr) : Option (List (Option Addr)) :=
  match m b with
  | some (.buckets heads) => some heads
  | _ => none

def entry (m : Memory δ) (e : Addr) : Option (Cell (Entry δ)) :=
  match m e with
  | some (.entry c) => some c
  | _ => none

/-- `free`. -/
def dealloc (m : Memory δ) (a : Addr) : Option (Memory δ) := if m a = none then none else some (m.free a)

/-- Give data to the free callback, if there is one. -/
def release (m : Memory δ) (o : Addr) (data : δ) : Option (Memory δ) := do
  let t ← m.table o
  return m.put o (.table { t with freed := t.freed++(if t.free then [data] else []) })

end Memory

/-- Where a pointer to an entry is stored. -/
inductive Place where
  | bucket (buckets : Addr) (index : ℤ)
  | next (e : Addr)
  deriving Repr, DecidableEq

def Place.load (m : Memory δ) : Place → Option (Option Addr)
  | .bucket b index => do
    let heads ← m.buckets b
    if 0 ≤ index then heads[index.toNat]? else none
  | .next e => do
    let c ← m.entry e
    return c.next

def Place.store (m : Memory δ) (p : Option Addr) : Place → Option (Memory δ)
  | .bucket b index => do
    let heads ← m.buckets b
    if 0 ≤ index ∧ index < heads.length then return m.put b (.buckets (heads.set index.toNat p)) else none
  | .next e => do
    let c ← m.entry e
    return m.put e (.entry { c with next := p })

/-- `jk_hash_init`: `calloc` is the address of the buckets, if they can be allocated. -/
def hashInit (m : Memory δ) (init_buckets : ℕ) (hash : Option (Key → ℤ)) (free : Bool)
    (calloc : Option Addr) : Option (Memory δ × Header δ) :=
  let init_buckets :=
    if init_buckets < bucketsMinSize then bucketsMinSize
    else if bucketsMaxSize < init_buckets then bucketsMaxSize else init_buckets
  match calloc with
  | none => none
  | some b => some (m.put b (.buckets (List.replicate init_buckets none)),
      ⟨hash.getD defaultHash,free,b,init_buckets,0,[]⟩)

/-- `jk_hash_new`: the table, and what the free callback has got. The parameter `free` hides the function of that
name: when there are no buckets, `free(o)` gives the raw table to the callback, and it stays allocated; without a
callback that call is undefined. -/
def hashNew (m : Memory δ) (init_buckets : ℕ) (hash : Option (Key → ℤ)) (free : Bool)
    (malloc calloc : Option Addr) :
    Option (Memory δ × Option Addr × Option Addr) :=
  match malloc with
  | none => return (m,none,none)
  | some o =>
    let m : Memory δ := m.put o .raw
    match hashInit m init_buckets hash free calloc with
    | none => if free then return (m,none,some o) else none
    | some (m,t) => return (m.put o (.table t),some o,none)

/-- The loop of `jk_hash_find`, from the entry `e` on. -/
def findLoop (m : Memory δ) (hashval : ℤ) (key : Key) : ℕ → Option Addr → Option (Option Addr)
  | _,none => return none
  | 0,some _ => none
  | fuel+1,some e => do
    let c ← m.entry e
    if c.item.found hashval key then return some e else findLoop m hashval key fuel c.next

/-- `jk_hash_find`: the status, and what is stored through `ret`. -/
def hashFind (fuel : ℕ) (m : Memory δ) (o : Addr) (key : Key) : Option (Status × Option δ) := do
  let t ← m.table o
  let hashval := t.hash key
  let e ← (Place.bucket t.buckets (lookupIndex hashval t.buckets_size)).load m
  match ← findLoop m hashval key fuel e with
  | some e => do
    let c ← m.entry e
    return (.ok,some c.item.data)
  | none => return (.err,none)

/-- The loops of `jk_hash_rehash` over one chain: each entry is linked to the front of its chain in the new
buckets. -/
def moveLoop (new_htb : Header δ) : ℕ → Option Addr → Memory δ → Option (Memory δ)
  | _,none,m => some m
  | 0,some _,_ => none
  | fuel+1,some e,m => do
    let c ← m.entry e
    let next := c.next
    let index := rehashIndex c.item.hashval new_htb.buckets_size
    let head ← (Place.bucket new_htb.buckets index).load m
    let m ← (Place.next e).store m head
    let m ← (Place.bucket new_htb.buckets index).store m (some e)
    moveLoop new_htb fuel next m

/-- `jk_hash_rehash`. -/
def hashRehash (fuel : ℕ) (m : Memory δ) (o : Addr) (calloc : Option Addr) : Option (Memory δ) := do
  let t ← m.table o
  let buckets_size := nextSize t.buckets_size
  if buckets_size = t.buckets_size then return m
  else match hashInit m buckets_size none false calloc with
    | none => return m
    | some (m,new_htb) => do
      let m ← (List.range t.buckets_size).foldlM (fun m (i : ℕ) => do
        let e ← (Place.bucket t.buckets i).load m
        moveLoop new_htb fuel e m) m
      let m ← m.dealloc t.buckets
      return m.put o (.table { t with buckets := new_htb.buckets, buckets_size := new_htb.buckets_size })

/-- The loop of `jk_hash_insert`: where it stops, and the entry found there. -/
def insertLoop (m : Memory δ) (hashval : ℤ) (key : Key) : ℕ → Place → Option (Place × Option Addr)
  | 0,ei => do
    match ← ei.load m with
    | none => return (ei,none)
    | some _ => none
  | fuel+1,ei => do
    match ← ei.load m with
    | none => return (ei,none)
    | some e => do
      let c ← m.entry e
      if c.item.found hashval key then return (ei,some e) else insertLoop m hashval key fuel (.next e)

/-- `jk_hash_insert`: `malloc` is the address of the entry, `calloc` that of new buckets. -/
def hashInsert (fuel : ℕ) (m : Memory δ) (o : Addr) (key : Key) (data : δ) (replace : Bool)
    (malloc calloc : Option Addr) : Option (Memory δ × Status) :=
  do
  let t ← m.table o
  let hashval := t.hash key
  let index := lookupIndex hashval t.buckets_size
  match ← insertLoop m hashval key fuel (.bucket t.buckets index) with
  | (_,some e) =>
    if replace then do
      let c ← m.entry e
      let m ← m.release o c.item.data
      return (m.put e (.entry { c with item := { c.item with data := data } }),.ok)
    else return (m,.duplicateKey)
  | (ei,none) =>
    match malloc with
    | none => return (m,.err)
    | some en => do
      let m := m.put en (.entry ⟨⟨wrap 32 hashval,key.length,data,key⟩,none⟩)
      let m ← ei.store m (some en)
      let t := { t with elm_nums := (t.elm_nums+1) % 2^32 }
      let m := m.put o (.table t)
      if 2*t.buckets_size < 3*t.elm_nums then do
        let m ← hashRehash fuel m o calloc
        return (m,.ok)
      else return (m,.ok)

/-- The loop of `jk_hash_remove`: the entry found, and the one before it. -/
def removeLoop (m : Memory δ) (hashval : ℤ) (key : Key) : ℕ → Option Addr → Option Addr →
    Option (Option Addr × Option Addr)
  | _,p,none => return (p,none)
  | 0,_,some _ => none
  | fuel+1,p,some e => do
    let c ← m.entry e
    if c.item.found hashval key then return (p,some e) else removeLoop m hashval key fuel (some e) c.next

/-- The pointer to the entry behind `p`, or to the first one. -/
def Place.behind (b : Addr) (index : ℤ) : Option Addr → Place
  | none => .bucket b index
  | some p => .next p

/-- `jk_hash_remove`. -/
def hashRemove (fuel : ℕ) (m : Memory δ) (o : Addr) (key : Key) : Option (Memory δ × Status) := do
  let t ← m.table o
  let hashval := t.hash key
  let index := lookupIndex hashval t.buckets_size
  let e ← (Place.bucket t.buckets index).load m
  match ← removeLoop m hashval key fuel none e with
  | (_,none) => return (m,.err)
  | (p,some e) => do
    let c ← m.entry e
    let m ← (Place.behind t.buckets index p).store m c.next
    let m ← m.release o c.item.data
    let m ← m.dealloc e
    let t ← m.table o
    return (m.put o (.table { t with elm_nums := if t.elm_nums = 0 then 2^32-1 else t.elm_nums-1 }),.ok)

/-- The loop of `jk_hash_destroy` over one chain. -/
def destroyLoop (o : Addr) : ℕ → Option Addr → Memory δ → Option (Memory δ)
  | _,none,m => some m
  | 0,some _,_ => none
  | fuel+1,some e,m => do
    let c ← m.entry e
    let next := c.next
    let m ← m.release o c.item.data
    let m ← m.dealloc e
    destroyLoop o fuel next m

/-- `jk_hash_destroy`. -/
def hashDestroy (fuel : ℕ) (m : Memory δ) (o : Addr) : Option (Memory δ) := do
  let t ← m.table o
  let m ← (List.range t.buckets_size).foldlM (fun m (i : ℕ) => do
    let e ← (Place.bucket t.buckets i).load m
    destroyLoop o fuel e m) m
  m.dealloc t.buckets

/-- `jk_hash_free`: the data given to the free callback until its end. -/
def hashFree (fuel : ℕ) (m : Memory δ) (o : Addr) : Option (Memory δ × List δ) := do
  let m ← hashDestroy fuel m o
  let t ← m.table o
  let m ← m.dealloc o
  return (m,t.freed)

end JustKit.Hash.Pointers
