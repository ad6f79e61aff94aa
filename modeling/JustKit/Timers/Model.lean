import JustKit.Avl.Model
import JustKit.Foundations.Word

/-! The functions of `jk_timer.c`. Memory allocation, clock readings and the results of callbacks are
arguments; the lists at the end of the state record what a run has done and no function reads them. -/
namespace JustKit.Timers
open Foundations JustKit.Avl

/-- `jk_timer_node_s` without the embedded tree node, which is the tree's record at the same address.
The serial number tells apart timers that are alike or reuse an address; it is not in the source. -/
structure TimerNode where
  cb : ℕ
  free : Option ℕ
  data : ℕ
  serial : ℕ
  deriving Repr, DecidableEq

/-- The call of the free callback of a node, if it has one. -/
def TimerNode.freeCall (n : TimerNode) : Option (ℕ × ℕ) := n.free.map fun f => (f,n.data)

/-- `jk_timer_s` with the memory of its nodes, the timers pushed, the nodes released and the calls of
free callbacks, in order of time. -/
structure Timer where
  tree : Store Addr
  nodes : Mem TimerNode
  pushed : List TimerNode
  released : List TimerNode
  freeCalls : List (ℕ × ℕ)

/-- `jk_timer_init`. -/
def timerInit : Timer := ⟨⟨none,fun _ => none⟩,fun _ => none,[],[],[]⟩

/-- `jk_timer_push`: `alloc` is the result of `malloc` and `now` the clock reading. -/
def timerPush (T : Timer) (timeout : UInt64) (cb : ℕ) (free : Option ℕ) (data : ℕ) (alloc : Option Addr)
    (now : UInt64) : Option (Timer × ℤ) :=
  match alloc with
  | none => some (T,-1)
  | some a => do
    let n : TimerNode := ⟨cb,free,data,T.pushed.length⟩
    -- The height and the links are not set yet; the insertion overwrites them.
    let tree ← avlInsert (T.tree.put a ⟨timeout+now,a,0,none,none⟩) a
    return ({ T with tree := tree, nodes := T.nodes.put a n, pushed := T.pushed++[n] },0)

/-- `jk_timer_min_node`. No tree has more nodes than were pushed. -/
def timerMinNode (T : Timer) : Option (Option Addr) := do
  match ← avlFindMin T.tree T.pushed.length T.tree.root with
  | none => return none
  | some node => return some (← T.tree.mem node).data

/-- The calls of the free callback, if any, and of `free` on a node. -/
def timerRelease (T : Timer) (a : Addr) : Option Timer := do
  let n ← T.nodes a
  return { T with
    tree := ⟨T.tree.root,T.tree.mem.free a⟩
    nodes := T.nodes.free a
    released := T.released++[n]
    freeCalls := T.freeCalls++n.freeCall.toList }

/-- What one pass of the loop sees: the clock reading before it, the callback's result, and the clock
reading after the callback. -/
structure Tick where
  current : UInt64
  result : UInt64
  later : UInt64

/-- The callback's result as the `int` it is assigned to. -/
def Tick.retval (tick : Tick) : ℤ := wrap 32 tick.result.toNat

/-- The key of a rescheduled timer. -/
def Tick.newKey (tick : Tick) : UInt64 := UInt64.ofInt tick.retval+tick.later

/-- One pass of the loop of `jk_timer_process_timeout`: the timer whose callback was called, or
nothing if the loop ends. -/
def processPass (T : Timer) (tick : Tick) : Option (Timer × Option TimerNode) := do
  match ← timerMinNode T with
  | none => return (T,none)
  | some a =>
    let k ← T.tree.mem a
    if tick.current < k.key then return (T,none)
    else
      let tree ← avlRemove T.tree a
      let n ← T.nodes a
      if 0 < tick.retval then
        let tree ← tree.modify a fun k => { k with key := tick.newKey }
        let tree ← avlInsert tree a
        return ({ T with tree := tree },some n)
      else
        let T ← timerRelease { T with tree := tree } a
        return (T,some n)

/-- `jk_timer_process_timeout`: the timers called, and whether the loop has ended. -/
def timerProcessTimeout (T : Timer) : List Tick → Option (Timer × List TimerNode × Bool)
  | [] => some (T,[],false)
  | tick::ticks => do
    match ← processPass T tick with
    | (T,none) => return (T,[],true)
    | (T,some n) =>
      let (T,events,ended) ← timerProcessTimeout T ticks
      return (T,n::events,ended)

/-- `jk_timer_tree_node_destroy`. The first argument bounds the depth of the recursion. -/
def timerTreeNodeDestroy : ℕ → Timer → Option Addr → Option Timer
  | _,T,none => some T
  | 0,_,some _ => none
  | fuel+1,T,some tree => do
    let n ← T.tree.mem tree
    let T ← timerTreeNodeDestroy fuel T n.left
    let n ← T.tree.mem tree
    let T ← timerTreeNodeDestroy fuel T n.right
    let n ← T.tree.mem tree
    timerRelease T n.data

/-- `jk_timer_destroy`. -/
def timerDestroy (T : Timer) : Option Timer := timerTreeNodeDestroy T.pushed.length T T.tree.root

end JustKit.Timers
