import JustKit.Foundations.Word

/-! The functions of `jk_hash.c` on an LP64 target with signed characters. A chain is the list of its
entries. A function returns `none` where the code indexes the buckets out of their range. -/
namespace JustKit.Hash
open Foundations

/-- A key as the bytes from `key` to `key+klen`. -/
abbrev Key := List UInt8

/-- `JK_HASH_OK`, `JK_HASH_ERR` and `JK_HASH_DUPLICATE_KEY`. -/
inductive Status where
  | ok
  | err
  | duplicateKey
  deriving Repr, DecidableEq

/-- `jk_hash_entry_s`; the link to the next entry is the place in the chain. -/
structure Entry (δ : Type) where
  hashval : ℤ
  klen : ℕ
  data : δ
  key : Key
  deriving Repr, DecidableEq

/-- `jk_hash_s`, and the data given to the free callback so far, which no function reads. The flag
`free` tells whether there is a callback. -/
structure Table (δ : Type) where
  hash : Key → ℤ
  free : Bool
  buckets : ℕ → List (Entry δ)
  buckets_size : ℕ
  elm_nums : ℕ
  freed : List δ

/-- `JK_HASH_BUCKETS_MIN_SIZE`. -/
def bucketsMinSize : ℕ := 7

/-- `JK_HASH_BUCKETS_MAX_SIZE`. -/
def bucketsMaxSize : ℕ := 2147483647

/-- `jk_hash_buckets_size`, up to its final zero. -/
def bucketsSizes : List ℕ :=
  [7,13,31,61,127,251,509,1021,2039,4093,8191,16381,32749,65521,131071,262143,524287,1048575,2097151,
    4194303,8388607,16777211,33554431,67108863,134217727,268435455,536870911,1073741823,2147483647]

/-- One byte of `jk_hash_default_hash`; the accumulator is a `long` and the byte a signed `char`. -/
def defaultHashStep (h : BitVec 64) (c : UInt8) : BitVec 64 :=
  let h := (h <<< 4)+c.toBitVec.signExtend 64
  let g := h &&& 0xF0000000#64
  if g = 0#64 then h else (h ^^^ (g >>> 24)) ^^^ g

/-- `jk_hash_default_hash`. -/
def defaultHash (key : Key) : ℤ := (key.foldl defaultHashStep 0#64).toInt

/-- `jk_hash_init`: `calloc` tells whether the allocation succeeds. -/
def hashInit {δ : Type} (init_buckets : ℕ) (hash : Option (Key → ℤ))
    (free calloc : Bool) : Option (Table δ) :=
  let init_buckets :=
    if init_buckets < bucketsMinSize then bucketsMinSize
    else if bucketsMaxSize < init_buckets then bucketsMaxSize else init_buckets
  if calloc then some ⟨hash.getD defaultHash,free,fun _ => [],init_buckets,0,[]⟩ else none

/-- `strncmp` on bytes that lie within both keys. -/
def strncmp : ℕ → Key → Key → ℤ
  | n+1,a::as,b::bs => if a ≠ b then a.toNat-b.toNat else if a = 0 then 0 else strncmp n as bs
  | _,_,_ => 0

variable {δ : Type}

/-- The index that find, insert and remove compute: a `long` remainder stored in an `int`. -/
def lookupIndex (hashval : ℤ) (buckets_size : ℕ) : ℤ := wrap 32 (hashval.tmod buckets_size)

/-- The index that the rehash computes: the stored `int` is converted to `unsigned int`. -/
def rehashIndex (hashval : ℤ) (buckets_size : ℕ) : ℕ := ((hashval % 2^32) % buckets_size).toNat

/-- Read `o->buckets[index]`. -/
def Table.bucket (T : Table δ) (index : ℤ) : Option (List (Entry δ)) :=
  if 0 ≤ index ∧ index < T.buckets_size then some (T.buckets index.toNat) else none

/-- The test of an entry against a key and its hash. -/
def Entry.found (hashval : ℤ) (key : Key) (e : Entry δ) : Bool :=
  e.hashval = hashval ∧ e.klen = key.length ∧ strncmp key.length e.key key = 0

/-- The loop over a chain: the entries passed, and the chain from the first entry with the key on. -/
def walk (hashval : ℤ) (key : Key) : List (Entry δ) → List (Entry δ) × List (Entry δ)
  | [] => ([],[])
  | e::es => if e.found hashval key then ([],e::es) else (e::(walk hashval key es).1,(walk hashval key es).2)

/-- `jk_hash_find`: the status, and what is stored through `ret`. -/
def hashFind (T : Table δ) (key : Key) : Option (Status × Option δ) := do
  let hashval := T.hash key
  let chain ← T.bucket (lookupIndex hashval T.buckets_size)
  match walk hashval key chain with
  | (_,e::_) => return (.ok,some e.data)
  | (_,[]) => return (.err,none)

/-- Give data to the free callback, if there is one. -/
def Table.release (T : Table δ) (data : δ) : Table δ :=
  { T with freed := T.freed++(if T.free then [data] else []) }

def Table.setBucket (T : Table δ) (index : ℤ) (chain : List (Entry δ)) : Table δ :=
  { T with buckets := Function.update T.buckets index.toNat chain }

/-- The search for the new number of buckets. -/
def nextSize (buckets_size : ℕ) : ℕ := (bucketsSizes.find? fun n => buckets_size < n).getD bucketsMaxSize

/-- Link an entry to the front of its chain in the new buckets. -/
def relink (buckets_size : ℕ) (buckets : ℕ → List (Entry δ)) (e : Entry δ) : ℕ → List (Entry δ) :=
  Function.update buckets (rehashIndex e.hashval buckets_size) (e::buckets (rehashIndex e.hashval buckets_size))

/-- `jk_hash_rehash`. -/
def hashRehash (T : Table δ) (calloc : Bool) : Table δ :=
  let buckets_size := nextSize T.buckets_size
  if buckets_size = T.buckets_size then T
  else match hashInit (δ := δ) buckets_size none false calloc with
    | none => T
    | some new_htb =>
      let buckets := (List.range T.buckets_size).foldl
        (fun b i => (T.buckets i).foldl (relink new_htb.buckets_size) b) new_htb.buckets
      { T with buckets := buckets, buckets_size := new_htb.buckets_size }

/-- `jk_hash_insert`: `malloc` tells whether the entry, `calloc` whether new buckets can be allocated. -/
def hashInsert (T : Table δ) (key : Key) (data : δ) (replace malloc calloc : Bool) : Option (Table δ × Status) :=
  do
  let hashval := T.hash key
  let index := lookupIndex hashval T.buckets_size
  let chain ← T.bucket index
  match walk hashval key chain with
  | (passed,e::rest) =>
    if replace then return ((T.release e.data).setBucket index (passed++{ e with data := data }::rest),.ok)
    else return (T,.duplicateKey)
  | (passed,[]) =>
    if malloc then
      let T := T.setBucket index (passed++[⟨wrap 32 hashval,key.length,data,key⟩])
      let T := { T with elm_nums := (T.elm_nums+1) % 2^32 }
      if 2*T.buckets_size < 3*T.elm_nums then return (hashRehash T calloc,.ok) else return (T,.ok)
    else return (T,.err)

/-- `jk_hash_remove`. -/
def hashRemove (T : Table δ) (key : Key) : Option (Table δ × Status) := do
  let hashval := T.hash key
  let index := lookupIndex hashval T.buckets_size
  let chain ← T.bucket index
  match walk hashval key chain with
  | (passed,e::rest) =>
    let T := (T.setBucket index (passed++rest)).release e.data
    return ({ T with elm_nums := if T.elm_nums = 0 then 2^32-1 else T.elm_nums-1 },.ok)
  | (_,[]) => return (T,.err)

/-- `jk_hash_destroy`: the data given to the free callback until its end. -/
def hashDestroy (T : Table δ) : List δ :=
  ((List.range T.buckets_size).foldl (fun o i => (T.buckets i).foldl (fun o e => o.release e.data) o) T).freed

end JustKit.Hash
