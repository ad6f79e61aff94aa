import JustKit.Foundations.Memory

/-! The functions of `jk_avl.c` over an explicit memory. Every function returns `none` where the
C code has no defined behaviour: a null or released node is accessed, or an entry is written past
the fixed path stack. -/
namespace JustKit.Avl
open Foundations

/-- The address of a node; a `jk_avl_node_t *` is an `Option Addr`. -/
abbrev Addr := ℕ

/-- `jk_avl_node_s`. The height, a `short` in the code, is a natural number. -/
structure Node (δ : Type) where
  key : UInt64
  data : δ
  height : ℕ
  left : Option Addr
  right : Option Addr
  deriving Repr, DecidableEq

/-- A `jk_avl_node_t **`: the cell of the root pointer, or a child field of a node. -/
inductive Place where
  | root
  | left (node : Addr)
  | right (node : Addr)
  deriving Repr, DecidableEq

/-- The cell `*ptree` and the memory of the nodes. -/
structure Store (δ : Type) where
  root : Option Addr
  mem : Mem (Node δ)

namespace Store
variable {δ : Type}

/-- Read `*nodeplace`. -/
def load (s : Store δ) : Place → Option (Option Addr)
  | .root => some s.root
  | .left a => (s.mem a).map Node.left
  | .right a => (s.mem a).map Node.right

/-- Assign to fields of a node. -/
def modify (s : Store δ) (a : Addr) (f : Node δ → Node δ) : Option (Store δ) :=
  (s.mem.modify a f).map fun m => ⟨s.root,m⟩

/-- Assign to `*nodeplace`. -/
def save (s : Store δ) (p : Option Addr) : Place → Option (Store δ)
  | .root => some ⟨p,s.mem⟩
  | .left a => s.modify a fun n => { n with left := p }
  | .right a => s.modify a fun n => { n with right := p }

/-- `JK_AVL_HEIGHT_OF`. -/
def heightOf (s : Store δ) : Option Addr → Option ℕ
  | none => some 0
  | some a => (s.mem a).map Node.height

/-- Store a record at an address, as the owner of a node does before it inserts the node. -/
def put (s : Store δ) (a : Addr) (n : Node δ) : Store δ := ⟨s.root,s.mem.put a n⟩

end Store

variable {δ : Type}

/-- `JK_AVL_MAX_HEIGHT`, the number of entries of the path stack. -/
def maxHeight : ℕ := 41

/-- The single rotation of `jk_avl_rebalance` when the left subtree is too high. -/
def rotateLeftChild (s : Store δ) (nodeplace : Place) (node nodeleft : Addr)
    (nodeleftright : Option Addr) (heightleftright : ℕ) : Option (Store δ) := do
  let s ← s.modify node fun n => { n with left := nodeleftright }
  let s ← s.modify nodeleft fun n => { n with right := some node }
  let s ← s.modify node fun n => { n with height := 1+heightleftright }
  let n ← s.mem node
  let s ← s.modify nodeleft fun k => { k with height := 1+n.height }
  s.save (some nodeleft) nodeplace

/-- The double rotation when the left subtree is too high. -/
def rotateLeftGrandchild (s : Store δ) (nodeplace : Place) (node nodeleft nodeleftright : Addr)
    (heightleft heightleftright : ℕ) : Option (Store δ) := do
  let k ← s.mem nodeleftright
  let s ← s.modify nodeleft fun n => { n with right := k.left }
  let s ← s.modify node fun n => { n with left := k.right }
  let s ← s.modify nodeleftright fun n => { n with left := some nodeleft }
  let s ← s.modify nodeleftright fun n => { n with right := some node }
  let s ← s.modify node fun n => { n with height := heightleftright }
  let s ← s.modify nodeleft fun n => { n with height := heightleftright }
  let s ← s.modify nodeleftright fun n => { n with height := heightleft }
  s.save (some nodeleftright) nodeplace

/-- The single rotation when the right subtree is too high. -/
def rotateRightChild (s : Store δ) (nodeplace : Place) (node noderight : Addr)
    (noderightleft : Option Addr) (heightrightleft : ℕ) : Option (Store δ) := do
  let s ← s.modify node fun n => { n with right := noderightleft }
  let s ← s.modify noderight fun n => { n with left := some node }
  let s ← s.modify node fun n => { n with height := 1+heightrightleft }
  let n ← s.mem node
  let s ← s.modify noderight fun k => { k with height := 1+n.height }
  s.save (some noderight) nodeplace

/-- The double rotation when the right subtree is too high. -/
def rotateRightGrandchild (s : Store δ) (nodeplace : Place) (node noderight noderightleft : Addr)
    (heightright heightrightleft : ℕ) : Option (Store δ) := do
  let k ← s.mem noderightleft
  let s ← s.modify noderight fun n => { n with left := k.right }
  let s ← s.modify node fun n => { n with right := k.left }
  let s ← s.modify noderightleft fun n => { n with right := some noderight }
  let s ← s.modify noderightleft fun n => { n with left := some node }
  let s ← s.modify node fun n => { n with height := heightrightleft }
  let s ← s.modify noderight fun n => { n with height := heightrightleft }
  let s ← s.modify noderightleft fun n => { n with height := heightright }
  s.save (some noderightleft) nodeplace

/-- One pass of the loop of `jk_avl_rebalance`; the flag reports its `break`. -/
def rebalancePass (s : Store δ) (nodeplace : Place) : Option (Store δ × Bool) := do
  let node ← (← s.load nodeplace)
  let n ← s.mem node
  let heightleft ← s.heightOf n.left
  let heightright ← s.heightOf n.right
  if heightright+1 < heightleft then
    let nodeleft ← n.left
    let nl ← s.mem nodeleft
    let heightleftright ← s.heightOf nl.right
    let heightleftleft ← s.heightOf nl.left
    if heightleftright ≤ heightleftleft then
      let s ← rotateLeftChild s nodeplace node nodeleft nl.right heightleftright
      return (s,false)
    else
      let nodeleftright ← nl.right
      let s ← rotateLeftGrandchild s nodeplace node nodeleft nodeleftright heightleft heightleftright
      return (s,false)
  else if heightleft+1 < heightright then
    let noderight ← n.right
    let nr ← s.mem noderight
    let heightrightleft ← s.heightOf nr.left
    let heightrightright ← s.heightOf nr.right
    if heightrightleft ≤ heightrightright then
      let s ← rotateRightChild s nodeplace node noderight nr.left heightrightleft
      return (s,false)
    else
      let noderightleft ← nr.left
      let s ← rotateRightGrandchild s nodeplace node noderight noderightleft heightright heightrightleft
      return (s,false)
  else
    let height := (if heightleft < heightright then heightright else heightleft)+1
    if height = n.height then
      return (s,true)
    else
      let s ← s.modify node fun n => { n with height := height }
      return (s,false)

/-- `jk_avl_rebalance`, on the part of the path stack in use with its top first. -/
def avlRebalance (s : Store δ) : List Place → Option (Store δ)
  | [] => some s
  | nodeplace::stack => do
    let (s,stop) ← rebalancePass s nodeplace
    if stop then return s else avlRebalance s stack

/-- `jk_avl_find_min`, from a given node. The first argument bounds the number of passes. -/
def avlFindMin (s : Store δ) : ℕ → Option Addr → Option (Option Addr)
  | _,none => some none
  | 0,some _ => none
  | fuel+1,some node => do
    let n ← s.mem node
    if n.left = none then return some node else avlFindMin s fuel n.left

/-- `jk_avl_find_max`. -/
def avlFindMax (s : Store δ) : ℕ → Option Addr → Option (Option Addr)
  | _,none => some none
  | 0,some _ => none
  | fuel+1,some node => do
    let n ← s.mem node
    if n.right = none then return some node else avlFindMax s fuel n.right

/-- `jk_avl_find_node`. -/
def avlFindNode (s : Store δ) (key : UInt64) : ℕ → Option Addr → Option (Option Addr)
  | _,none => some none
  | 0,some _ => none
  | fuel+1,some node => do
    let n ← s.mem node
    if n.key = key then return some node
    else if key < n.key then avlFindNode s key fuel n.left
    else avlFindNode s key fuel n.right

/-- The search loop of `jk_avl_insert`: the empty cell reached and the stack, top first. The first
argument is the number of free entries of the stack. -/
def insertSearch (s : Store δ) (key : UInt64) : ℕ → Place → List Place → Option (Place × List Place)
  | 0,nodeplace,stack => do
    match ← s.load nodeplace with
    | none => return (nodeplace,stack)
    | some _ => none
  | room+1,nodeplace,stack => do
    match ← s.load nodeplace with
    | none => return (nodeplace,stack)
    | some node =>
      let n ← s.mem node
      insertSearch s key room (if key < n.key then .left node else .right node) (nodeplace::stack)

/-- `jk_avl_insert`. -/
def avlInsert (s : Store δ) (new_node : Addr) : Option (Store δ) := do
  let n ← s.mem new_node
  let (nodeplace,stack) ← insertSearch s n.key maxHeight .root []
  let s ← s.modify new_node fun n => { n with left := none, right := none, height := 1 }
  let s ← s.save (some new_node) nodeplace
  avlRebalance s stack

/-- The search loop of `jk_avl_remove`: the cell of the first node found with the key, and the
stack, which includes that cell. -/
def removeSearch (s : Store δ) (key : UInt64) : ℕ → Place → List Place → Option (Place × List Place)
  | 0,_,_ => none
  | room+1,nodeplace,stack => do
    let node ← (← s.load nodeplace)
    let n ← s.mem node
    if key = n.key then return (nodeplace,nodeplace::stack)
    else removeSearch s key room (if key < n.key then .left node else .right node) (nodeplace::stack)

/-- The loop of `jk_avl_remove` that looks for the in-order predecessor. -/
def predecessorSearch (s : Store δ) : ℕ → Place → List Place → Option (Place × Addr × List Place)
  | 0,nodeplace,stack => do
    let node ← (← s.load nodeplace)
    match (← s.mem node).right with
    | none => return (nodeplace,node,stack)
    | some _ => none
  | room+1,nodeplace,stack => do
    let node ← (← s.load nodeplace)
    match (← s.mem node).right with
    | none => return (nodeplace,node,stack)
    | some _ => predecessorSearch s room (.right node) (nodeplace::stack)

/-- Assign to entry `k` of the path stack, counted from the bottom. An entry at or above the top is
written too, but no one reads it. -/
def patch (stack : List Place) (k : ℕ) (p : Place) : Option (List Place) :=
  if k < maxHeight then some ((stack.reverse.set k p).reverse) else none

/-- `jk_avl_remove`. -/
def avlRemove (s : Store δ) (node_to_delete : Addr) : Option (Store δ) := do
  let d ← s.mem node_to_delete
  let (nodeplace_to_delete,stack) ← removeSearch s d.key maxHeight .root []
  match d.left with
  | none =>
    let s ← s.save d.right nodeplace_to_delete
    avlRebalance s stack.tail
  | some _ =>
    let stack_ptr_to_delete := stack.length
    let (nodeplace,node,stack) ←
      predecessorSearch s (maxHeight-stack.length) (.left node_to_delete) stack
    let n ← s.mem node
    let s ← s.save n.left nodeplace
    let d ← s.mem node_to_delete
    let s ← s.modify node fun n => { n with left := d.left, right := d.right, height := d.height }
    let s ← s.save (some node) nodeplace_to_delete
    let stack ← patch stack stack_ptr_to_delete (.left node)
    avlRebalance s stack

end JustKit.Avl
