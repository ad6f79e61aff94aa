import JustKit.Foundations.Word

/-! The functions of `jk_heap.c`. The block that `tree` points to is a list of slots, of which some may
not be set. A function returns `none` where the code reads a slot that is not set, leaves the block,
or runs through more passes of a loop than allowed for. -/
namespace JustKit.Heaps
open Foundations

/-- `jk_heap_s`, without its callbacks. -/
structure Heap (α : Type) where
  tree : List (Option α)
  size : ℤ
  used : ℤ
  deriving Repr, DecidableEq

/-- `JK_HEAP_INIT_SIZE`. -/
def heapInitSize : ℤ := 10

/-- `JK_HEAP_INCR_SIZE`. -/
def heapIncrSize : ℤ := 10

/-- `jk_heap_parent`. -/
def heapParent (pos : ℤ) : ℤ := (wrap 32 (pos-1)).tdiv 2

/-- `jk_heap_left`. -/
def heapLeft (pos : ℤ) : ℤ := wrap 32 (wrap 32 (pos*2)+1)

/-- `jk_heap_right`. -/
def heapRight (pos : ℤ) : ℤ := wrap 32 (wrap 32 (pos*2)+2)

variable {α : Type}

/-- `jk_heap_init` when the allocation succeeds. -/
def heapInit : Heap α := ⟨List.replicate heapInitSize.toNat none,heapInitSize,0⟩

/-- Read `heap->tree[pos]`. -/
def Heap.get (heap : Heap α) (pos : ℤ) : Option α :=
  if 0 ≤ pos then heap.tree[pos.toNat]?.join else none

/-- Assign to `heap->tree[pos]`. -/
def Heap.set (heap : Heap α) (pos : ℤ) (x : α) : Option (Heap α) :=
  if 0 ≤ pos ∧ pos < heap.tree.length then some { heap with tree := heap.tree.set pos.toNat (some x) } else none

/-- A successful `realloc` of the block to `nsize` slots. -/
def Heap.resize (heap : Heap α) (nsize : ℤ) : Heap α :=
  { heap with
    tree := heap.tree.take nsize.toNat++List.replicate (nsize.toNat-heap.tree.length) none
    size := nsize }

/-- The loop of `jk_heap_insert`. The first argument bounds the number of passes. -/
def siftUp (comp : α → α → ℤ) : ℕ → Heap α → ℤ → ℤ → Option (Heap α)
  | 0,_,_,_ => none
  | fuel+1,heap,ipos,ppos =>
    if 0 < ipos then do
      let p ← heap.get ppos
      let c ← heap.get ipos
      if comp p c < 0 then
        let heap ← heap.set ipos p
        let heap ← heap.set ppos c
        siftUp comp fuel heap ppos (heapParent ppos)
      else return heap
    else some heap

/-- The extension of a full block in `jk_heap_insert`; nothing if it is refused. -/
def heapExpand (heap : Heap α) (realloc : Bool) : Option (Heap α) :=
  if heap.size ≤ heap.used then
    if realloc then some (heap.resize (wrap 32 (heap.size+heapIncrSize))) else none
  else some heap

/-- `jk_heap_insert`: `realloc` tells whether the block can grow. -/
def heapInsert (comp : α → α → ℤ) (heap : Heap α) (data : α) (realloc : Bool) : Option (Heap α × ℤ) :=
  match heapExpand heap realloc with
  | none => some (heap,-1)
  | some heap => do
    let heap ← heap.set heap.used data
    let heap ← siftUp comp (heap.used.toNat+1) heap heap.used (heapParent heap.used)
    return ({ heap with used := wrap 32 (heap.used+1) },0)

/-- The choice between a position and the position `mpos` found so far. -/
def betterPos (comp : α → α → ℤ) (heap : Heap α) (pos mpos : ℤ) : Option ℤ :=
  if pos < heap.used then do
    let x ← heap.get pos
    let m ← heap.get mpos
    return if 0 < comp x m then pos else mpos
  else some mpos

/-- The loop of `jk_heap_extract`. The first argument bounds the number of passes. -/
def siftDown (comp : α → α → ℤ) : ℕ → Heap α → ℤ → Option (Heap α)
  | 0,_,_ => none
  | fuel+1,heap,ipos => do
    let mpos ← betterPos comp heap (heapLeft ipos) ipos
    let mpos ← betterPos comp heap (heapRight ipos) mpos
    if mpos = ipos then return heap
    else
      let m ← heap.get mpos
      let c ← heap.get ipos
      let heap ← heap.set mpos c
      let heap ← heap.set ipos m
      siftDown comp fuel heap mpos

/-- The new size of the block in `jk_heap_extract`. The conversion of `used * 1.5` to `int` drops the
fraction. -/
def extractSize (heap : Heap α) : ℤ :=
  if heap.used = 0 then heapInitSize
  else if 3*heap.used < 2*heap.size then 3*heap.used/2
  else heap.size

/-- The attempt of `jk_heap_extract` to resize the block. -/
def heapShrink (heap : Heap α) (realloc : Bool) : Heap α :=
  if extractSize heap ≠ heap.size ∧ realloc then heap.resize (extractSize heap) else heap

/-- `jk_heap_extract` with a place for the result: `realloc` tells whether the block can be resized. -/
def heapExtract (comp : α → α → ℤ) (heap : Heap α) (realloc : Bool) :
    Option (Heap α × ℤ × Option α) :=
  if heap.used = 0 then some (heap,-1,none)
  else do
    let top ← heap.get 0
    let heap := { heap with used := wrap 32 (heap.used-1) }
    let save ← heap.get heap.used
    let heap := heapShrink heap realloc
    if heap.used = 0 then return (heap,0,some top)
    else
      let heap ← heap.set 0 save
      let heap ← siftDown comp heap.used.toNat heap 0
      return (heap,0,some top)

/-- The loop of `jk_heap_destroy`: what is passed to the callback. The first argument bounds the number of passes. -/
def destroyLoop (heap : Heap α) : ℕ → ℤ → Option (List α)
  | 0,_ => none
  | fuel+1,i =>
    if i < heap.used then do
      let x ← heap.get i
      let xs ← destroyLoop heap fuel (wrap 32 (i+1))
      return x::xs
    else some []

/-- `jk_heap_destroy`: the elements passed to the callback, if there is one. -/
def heapDestroy (heap : Heap α) (destroy : Bool) : Option (List α) :=
  if destroy then destroyLoop heap (heap.used.toNat+1) 0 else some []

end JustKit.Heaps
