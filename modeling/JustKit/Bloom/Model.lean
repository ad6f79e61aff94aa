import JustKit.Foundations.Word

/-! The functions of `jk_bloom_filter.c` with signed characters. A function returns `none` where the code
divides by zero, shifts by a negative number or leaves the bytes of the filter. -/
namespace JustKit.Bloom
open Foundations

/-- A key as the bytes from `key` to `key+len`. -/
abbrev Key := List UInt8

/-- `jk_bloom_filter_hash_fn`, without state: a key and an index give an `unsigned int`. -/
abbrev Hash := Key → ℕ → BitVec 32

/-- `__salts`, from index 0 to 7. -/
abbrev Salts := ℕ → BitVec 32

/-- `jk_bloom_filter_s`, with the bytes at `bits`; `none` stands for the default hash, whose salts are not
part of the filter. -/
structure Filter where
  hash : Option Hash
  size : ℤ
  bits : List (BitVec 8)

/-- A pass of the outer loop of `jk_bloom_filter_init_salts`, where `rand` gives the values that `rand()`
returns, converted to `unsigned int`. The `continue` in the inner loop goes on with the inner loop, which
has no effect. -/
def saltStep (rand : ℕ → BitVec 32) (salts : Salts) (i : ℕ) : Salts :=
  Function.update salts i (rand (2*i) ^^^ rand (2*i+1))

/-- `jk_bloom_filter_init_salts`. -/
def initSalts (rand : ℕ → BitVec 32) (salts : Salts) : Salts := (List.range 8).foldl (saltStep rand) salts

/-- One byte of `jk_bloom_filter_default_hash`; the byte is a signed `char`. -/
def defaultHashStep (h : BitVec 32) (c : UInt8) : BitVec 32 :=
  let h := (h <<< 4)+c.toBitVec.signExtend 32
  let g := h &&& 0xF0000000#32
  if g = 0#32 then h else (h ^^^ (g >>> 24)) ^^^ g

/-- `jk_bloom_filter_default_hash`. -/
def defaultHash (salts : Salts) : Hash := fun key index => key.foldl defaultHashStep (salts index)

/-- The function that `filter->hash` points to. -/
def Filter.hashFn (salts : Salts) (f : Filter) : Hash := f.hash.getD (defaultHash salts)

/-- `jk_bloom_filter_init`, on a buffer with room for `size` bytes. -/
def bloomFilterInit (salts : Salts) (rand : ℕ → BitVec 32) (hash : Option Hash) (size : ℤ) :
    Option (Salts × Filter) :=
  let salts := if hash.isNone then initSalts rand salts else salts
  if size < 0 then none else some (salts,⟨hash,wrap 32 (size*8),List.replicate size.toNat 0#8⟩)

/-- `jk_bloom_filter_new`: `malloc` tells whether the allocation succeeds. -/
def bloomFilterNew (salts : Salts) (rand : ℕ → BitVec 32) (hash : Option Hash) (size : ℤ) (malloc : Bool) :
    Option (Salts × Option Filter) :=
  if malloc then (bloomFilterInit salts rand hash size).map fun (salts,f) => (salts,some f) else some (salts,none)

/-- `hash % filter->size`, an `unsigned int` remainder stored in an `int`. -/
def Filter.index (f : Filter) (hashval : BitVec 32) : Option ℤ :=
  let size := f.size % 2^32
  if size = 0 then none else some (wrap 32 (hashval.toNat % size))

/-- The byte and the bit that an index stands for. -/
def Filter.place (f : Filter) (index : ℤ) : Option (ℕ × ℕ) :=
  if 0 ≤ index.tdiv 8 ∧ index.tdiv 8 < f.bits.length ∧ 0 ≤ index.tmod 8 then
    some ((index.tdiv 8).toNat,(index.tmod 8).toNat)
  else none

/-- `c |= 1 << bit`: the character is promoted to `int` and the result narrowed. -/
def orBit (c : BitVec 8) (bit : ℕ) : BitVec 8 := (c.signExtend 32 ||| (1#32 <<< bit)).setWidth 8

/-- `c & (1 << bit)`, as a condition. -/
def andBit (c : BitVec 8) (bit : ℕ) : Bool := c.signExtend 32 &&& (1#32 <<< bit) ≠ 0#32

/-- A pass of the loop of `jk_bloom_filter_set`. -/
def setStep (salts : Salts) (key : Key) (f : Filter) (i : ℕ) : Option Filter := do
  let index ← f.index (f.hashFn salts key i)
  let (byte,bit) ← f.place index
  return { f with bits := f.bits.modify byte fun c => orBit c bit }

/-- `jk_bloom_filter_set`. -/
def bloomFilterSet (salts : Salts) (f : Filter) (key : Key) : Option Filter :=
  (List.range 8).foldlM (setStep salts key) f

/-- The loop of `jk_bloom_filter_isset`. -/
def issetLoop (salts : Salts) (f : Filter) (key : Key) : List ℕ → Option ℤ
  | [] => some 1
  | i::is => do
    let index ← f.index (f.hashFn salts key i)
    let (byte,bit) ← f.place index
    let c ← f.bits[byte]?
    if andBit c bit then issetLoop salts f key is else some 0

/-- `jk_bloom_filter_isset`. -/
def bloomFilterIsset (salts : Salts) (f : Filter) (key : Key) : Option ℤ := issetLoop salts f key (List.range 8)

end JustKit.Bloom
