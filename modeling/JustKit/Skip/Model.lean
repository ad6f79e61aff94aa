import JustKit.Foundations.Memory
import JustKit.Foundations.Word

/-! The functions of `jk_skip.c` over an explicit memory. The level that `jk_skip_random_level` draws
and the result of `malloc` are arguments. A function returns `none` where the code follows a null or
released pointer, uses a forward pointer that a node does not have, overruns its update array, or
goes on beyond a bound on the passes along one chain. -/
namespace JustKit.Skip
open Foundations

abbrev Addr := ℕ

/-- `jk_skip_node_s` with as many forward pointers as its level. -/
structure SkipNode (δ : Type) where
  key : UInt64
  value : δ
  forward : List (Option Addr)
  deriving Repr, DecidableEq

/-- `jk_skip_s` and the memory of its nodes. On an LP64 target `jk_uint32_t`, an `unsigned long`, has 64
bits. -/
structure SkipList (δ : Type) where
  mem : Mem (SkipNode δ)
  header : Addr
  length : UInt64
  level : ℕ

/-- `JK_SKIP_MAX_LEVEL`, the number of forward pointers of the header and the size of `update`. -/
def skipMaxLevel : ℕ := 32

variable {δ : Type}

/-- Read `a->forward[i]`. -/
def SkipList.forward (list : SkipList δ) (a : Addr) (i : ℕ) : Option (Option Addr) :=
  (list.mem a).bind fun n => n.forward[i]?

/-- Assign to `a->forward[i]`. -/
def SkipList.setForward (list : SkipList δ) (a : Addr) (i : ℕ) (p : Option Addr) : Option (SkipList δ) :=
  (list.mem a).bind fun n =>
    if i < n.forward.length then some { list with mem := list.mem.put a { n with forward := n.forward.set i p } }
    else none

/-- `jk_skip_new`, with the address of the header and the null pointer it holds. -/
def skipNew (header : Addr) (null : δ) : SkipList δ :=
  ⟨Mem.put (fun _ => none) header ⟨0,null,List.replicate skipMaxLevel none⟩,header,0,1⟩

/-- The inner loop of the searches, along the chain of level `i`. The first argument bounds the number
of passes. -/
def walk (list : SkipList δ) (key : UInt64) (i : ℕ) : ℕ → Addr → Option Addr
  | 0,n => do
    match ← list.forward n i with
    | none => return n
    | some m => if (← list.mem m).key < key then none else return n
  | fuel+1,n => do
    match ← list.forward n i with
    | none => return n
    | some m => if (← list.mem m).key < key then walk list key i fuel m else return n

/-- The search of insert and delete: the last node reached, and `update` from index 0 on. The argument
after the key is the number of levels to go. -/
def search (fuel : ℕ) (list : SkipList δ) (key : UInt64) : ℕ → Addr → List Addr →
    Option (Addr × List Addr)
  | 0,n,update => some (n,update)
  | i+1,n,update => do
    let n ← walk list key i fuel n
    search fuel list key i n (n::update)

/-- The loop of `jk_skip_insert` that links node `n` in at the levels from `i` on. -/
def link (list : SkipList δ) (n : Addr) (i : ℕ) : List Addr → Option (SkipList δ)
  | [] => some list
  | u::update => do
    let next ← list.forward u i
    let list ← list.setForward n i next
    let list ← list.setForward u i (some n)
    link list n (i+1) update

/-- `jk_skip_insert` with the level drawn. The level of the list grows before the node is allocated. -/
def skipInsert (fuel : ℕ) (list : SkipList δ) (key : UInt64) (value : δ) (level : ℕ) (alloc : Option Addr) :
    Option (SkipList δ × ℤ) := do
  let (_,update) ← search fuel list key list.level list.header []
  let update := update++List.replicate (level-list.level) list.header
  if skipMaxLevel < update.length then none
  else
    let list := { list with level := max list.level level }
    match alloc with
    | none => return (list,-1)
    | some n =>
      -- The forward pointers are not set yet; the loop sets them all.
      let list := { list with mem := list.mem.put n ⟨key,value,List.replicate level none⟩ }
      let list ← link list n 0 (update.take level)
      return ({ list with length := list.length+1 },0)

/-- The loop of `jk_skip_delete` that takes node `n` out of the chains from level `i` on. -/
def unlink (list : SkipList δ) (n : Addr) (i : ℕ) : List Addr → Option (SkipList δ)
  | [] => some list
  | u::update => do
    if (← list.forward u i) = some n then
      let next ← list.forward n i
      let list ← list.setForward u i next
      unlink list n (i+1) update
    else return list

/-- The loop of `jk_skip_delete` that lowers the level. -/
def lowerLevel (list : SkipList δ) : ℕ → Option ℕ
  | 0 => some 0
  | level+1 => do
    if 0 < level ∧ (← list.forward list.header level) = none then lowerLevel list level
    else return level+1

/-- `jk_skip_delete`. -/
def skipDelete (fuel : ℕ) (list : SkipList δ) (key : UInt64) : Option (SkipList δ × ℤ) := do
  let (n,update) ← search fuel list key list.level list.header []
  match ← list.forward n 0 with
  | none => return (list,-1)
  | some n =>
    if (← list.mem n).key = key then
      let list ← unlink list n 0 update
      let list := { list with mem := list.mem.free n }
      let level ← lowerLevel list list.level
      return ({ list with level := level, length := list.length-1 },0)
    else return (list,-1)

/-- The search of `jk_skip_find_node`, which keeps no update array. -/
def findSearch (fuel : ℕ) (list : SkipList δ) (key : UInt64) : ℕ → Addr → Option Addr
  | 0,n => some n
  | i+1,n => do
    let n ← walk list key i fuel n
    findSearch fuel list key i n

/-- `jk_skip_find_node`: the comparisons convert the signed key to an unsigned one. -/
def skipFindNode (fuel : ℕ) (list : SkipList δ) (key : Int64) : Option (Option Addr) := do
  let n ← findSearch fuel list key.toUInt64 list.level list.header
  match ← list.forward n 0 with
  | none => return none
  | some n => if (← list.mem n).key = key.toUInt64 then return some n else return none

/-- `jk_skip_find`: the result and what is stored through `ret`. -/
def skipFind (fuel : ℕ) (list : SkipList δ) (key : Int64) : Option (ℤ × Option δ) := do
  match ← skipFindNode fuel list key with
  | none => return (-1,none)
  | some n => return (0,some (← list.mem n).value)

end JustKit.Skip
