import JustKit.Foundations.Memory

/-! The functions and the loops of `jk_list.h` over an explicit memory. A function returns `none` where the
code follows a null pointer or one to no node, and a loop also when it goes on beyond a bound on its passes. -/
namespace JustKit.Lists
open Foundations

abbrev Addr := ℕ

/-- `jk_list_s`. The links of a node that is in no list may be anything. -/
structure ListNode where
  prev : Option Addr
  next : Option Addr
  deriving Repr, DecidableEq

/-- The memory of all nodes and heads. -/
abbrev Memory := Mem ListNode

/-- Read `p->prev`. -/
def readPrev (m : Memory) (p : Option Addr) : Option (Option Addr) := p.bind fun a => (m a).map ListNode.prev

/-- Read `p->next`. -/
def readNext (m : Memory) (p : Option Addr) : Option (Option Addr) := p.bind fun a => (m a).map ListNode.next

/-- Assign to `p->prev`. -/
def setPrev (m : Memory) (p q : Option Addr) : Option Memory :=
  p.bind fun a => m.modify a fun node => { node with prev := q }

/-- Assign to `p->next`. -/
def setNext (m : Memory) (p q : Option Addr) : Option Memory :=
  p.bind fun a => m.modify a fun node => { node with next := q }

/-- `jk_list_init`. -/
def listInit (m : Memory) (head : Addr) : Option Memory := do
  let m ← setNext m head head
  setPrev m head head

/-- `jk_list_add`. -/
def listAdd (m : Memory) (head node : Addr) : Option Memory := do
  let m ← setPrev m node (← readPrev m head)
  let m ← setNext m node head
  let m ← setNext m (← readPrev m head) node
  setPrev m head node

/-- `jk_list_del`. -/
def listDel (m : Memory) (node : Addr) : Option Memory := do
  let m ← setNext m (← readPrev m node) (← readNext m node)
  setPrev m (← readNext m node) (← readPrev m node)

/-- The passes of a loop from `node` to `head`, along one of the links: the nodes for which the body runs. The
body changes nothing. -/
def passes (link : Option Addr → Option (Option Addr)) (head : Addr) : ℕ → Option Addr → Option (List Addr)
  | 0,_ => none
  | fuel+1,node =>
    if node = head then some []
    else do
      let a ← node
      return a::(← passes link head fuel (← link node))

/-- `jk_list_for_each`. -/
def listForEach (m : Memory) (fuel : ℕ) (head : Addr) : Option (List Addr) := do
  passes (readNext m) head fuel (← readNext m head)

/-- `jk_list_for_each2`. -/
def listForEach2 (m : Memory) (fuel : ℕ) (head : Addr) : Option (List Addr) := do
  passes (readPrev m) head fuel (← readPrev m head)

/-- The passes of a safe loop, with the memory after them. The body may change the memory, so that `n` has been
read before it. -/
def safePasses (link : Memory → Option Addr → Option (Option Addr)) (head : Addr)
    (body : Memory → Addr → Option Memory) :
    ℕ → Memory → Option Addr → Option Addr → Option (Memory × List Addr)
  | 0,_,_,_ => none
  | fuel+1,m,node,n =>
    if node = head then some (m,[])
    else do
      let a ← node
      let m ← body m a
      let (m,as) ← safePasses link head body fuel m n (← link m n)
      return (m,a::as)

/-- `jk_list_for_each_safe`. -/
def listForEachSafe (m : Memory) (fuel : ℕ) (head : Addr) (body : Memory → Addr → Option Memory) :
    Option (Memory × List Addr) := do
  let node ← readNext m head
  let n ← readNext m node
  safePasses readNext head body fuel m node n

/-- `jk_list_for_each2_safe`. -/
def listForEach2Safe (m : Memory) (fuel : ℕ) (head : Addr) (body : Memory → Addr → Option Memory) :
    Option (Memory × List Addr) := do
  let node ← readPrev m head
  let n ← readPrev m node
  safePasses readPrev head body fuel m node n

/-- A call of one of the functions. -/
inductive Op where
  | init (head : Addr)
  | add (head node : Addr)
  | del (node : Addr)
  deriving Repr, DecidableEq

def Op.exec (m : Memory) : Op → Option Memory
  | .init head => listInit m head
  | .add head node => listAdd m head node
  | .del node => listDel m node

end JustKit.Lists
