import Mathlib.Data.Int.Order.Basic
import Mathlib.Logic.Function.Basic

/-!
# The AVL tree: the code

`avl/allocator.go`, `avl/insert.go` and `avl/delete.go`. The nodes of the tree are records in a
memory, linked by pointers, and the code changes them in place; what is translated here does so too.
A program is a function from the memory to its result and the memory after it, or to nothing where
the code would dereference a nil pointer.

The code for the left and for the right branch is one code with the sides exchanged and the signs of
the balance turned; it is written once here, with the `Side` as a parameter. The recursion follows
pointers, so nothing but the shape of the memory bounds it; the functions take the depth to which
they may recurse.
-/

namespace Bitmarkd.Avl

/-! ## Memory -/

/-- Where a node is. -/
abbrev Addr := ℕ

/-- `*Node`, where `none` is nil. -/
abbrev Pointer := Option Addr

inductive Side
  | left
  | right
deriving DecidableEq, Repr

/-- The opposite side. -/
def Side.other : Side → Side
  | .left => .right
  | .right => .left

/-- The balance of a node that is higher on this side. -/
def Side.sign : Side → ℤ
  | .left => -1
  | .right => 1

variable {κ ν : Type}

/-- `Node`. An interface value that is nil is `none`. -/
structure Node (κ ν : Type) where
  left : Pointer
  right : Pointer
  up : Pointer
  key : Option κ
  value : Option ν
  leftNodes : ℤ
  rightNodes : ℤ
  balance : ℤ

namespace Node

/-- `left` or `right`. -/
def child (n : Node κ ν) : Side → Pointer
  | .left => n.left
  | .right => n.right

def setChild (n : Node κ ν) (s : Side) (p : Pointer) : Node κ ν :=
  match s with
  | .left => { n with left := p }
  | .right => { n with right := p }

/-- `leftNodes` or `rightNodes`. -/
def nodes (n : Node κ ν) : Side → ℤ
  | .left => n.leftNodes
  | .right => n.rightNodes

def setNodes (n : Node κ ν) (s : Side) (count : ℤ) : Node κ ν :=
  match s with
  | .left => { n with leftNodes := count }
  | .right => { n with rightNodes := count }

def setBalance (n : Node κ ν) (balance : ℤ) : Node κ ν := { n with balance }

def setUp (n : Node κ ν) (up : Pointer) : Node κ ν := { n with up }

end Node

/-- The nodes, the `Tree`, and the allocator's variables: `pool` heads a list of reclaimed nodes
that are linked by their `up` pointers. A node that is not from the pool is placed at `totalNodes`.
-/
structure Memory (κ ν : Type) where
  heap : Addr → Node κ ν
  root : Pointer
  count : ℤ
  pool : Pointer
  totalNodes : ℕ
  freeNodes : ℤ

/-- A program on the memory; `none` if it panics. -/
abbrev Code (κ ν : Type) := StateT (Memory κ ν) Option

/-- The node of a pointer. -/
def deref (p : Pointer) : Code κ ν (Node κ ν) := fun m => p.map fun a => (m.heap a, m)

/-- Assign to fields of the node of a pointer. -/
def assign (p : Pointer) (f : Node κ ν → Node κ ν) : Code κ ν Unit := fun m =>
  p.map fun a => ((), { m with heap := Function.update m.heap a (f (m.heap a)) })

/-- `if p != nil { p.up = up }`. -/
def assignUp (p up : Pointer) : Code κ ν Unit :=
  if p = none then pure () else assign p (·.setUp up)

/-- What a `**Node` points to: the root of the tree, or a field of a node. -/
inductive Ref
  | root
  | child (a : Addr) (s : Side)
deriving DecidableEq, Repr

def Memory.load (m : Memory κ ν) : Ref → Pointer
  | .root => m.root
  | .child a s => (m.heap a).child s

def Memory.store (m : Memory κ ν) (pp : Ref) (p : Pointer) : Memory κ ν :=
  match pp with
  | .root => { m with root := p }
  | .child a s => { m with heap := Function.update m.heap a ((m.heap a).setChild s p) }

/-- `*pp`. -/
def load (pp : Ref) : Code κ ν Pointer := fun m => some (m.load pp, m)

/-- `*pp = p`. -/
def store (pp : Ref) (p : Pointer) : Code κ ν Unit := fun m => some ((), m.store pp p)

/-! ## The allocator -/

/-- `newNode`. -/
def newNode (key : κ) (value : Option ν) : Code κ ν Pointer := fun m =>
  let node : Node κ ν := ⟨none, none, none, some key, value, 0, 0, 0⟩
  match m.pool with
  | none =>
    -- The code panics if the pool is corrupt.
    if m.freeNodes ≠ 0 then none
    else some (some m.totalNodes, { m with
      heap := Function.update m.heap m.totalNodes node
      totalNodes := m.totalNodes + 1 })
  | some p => some (some p, { m with
      heap := Function.update m.heap p node
      pool := (m.heap p).up
      freeNodes := m.freeNodes - 1 })

/-- `freeNode`. -/
def freeNode (node : Pointer) : Code κ ν Unit := fun m =>
  node.map fun a => ((), { m with
    heap := Function.update m.heap a ⟨none, none, m.pool, none, none, 0, 0, 0⟩
    pool := node
    freeNodes := m.freeNodes + 1 })

/-! ## Rotations

A rotation stands four times in the code: on either side, in `insert` and in the balancers of
delete. The assignments to the balance of the node that comes up are left to those. -/

/-- A single rotation: LL on the left side, RR on the right. -/
def rotateSingle (s : Side) (p p1 : Pointer) : Code κ ν Unit := do
  assign p (·.setChild s ((← deref p1).child s.other))
  assign p1 (·.setChild s.other p)
  let nn := 1 + (← deref p1).nodes s.other + (← deref p).nodes s.other
  assign p (·.setNodes s ((← deref p1).nodes s.other))
  assign p1 (·.setNodes s.other nn)
  assign p1 (·.setUp (← deref p).up)
  assign p (·.setUp p1)
  assignUp ((← deref p).child s) p

/-- A double rotation: LR on the left side, RL on the right. -/
def rotateDouble (s : Side) (p p1 p2 : Pointer) : Code κ ν Unit := do
  assign p1 (·.setChild s.other ((← deref p2).child s))
  assign p2 (·.setChild s p1)
  assign p (·.setChild s ((← deref p2).child s.other))
  assign p2 (·.setChild s.other p)
  let b2 := (← deref p2).balance
  assign p (·.setBalance (if b2 = s.sign then -s.sign else 0))
  assign p1 (·.setBalance (if b2 = -s.sign then s.sign else 0))
  let ns := 1 + (← deref p1).nodes s + (← deref p2).nodes s
  let no := 1 + (← deref p2).nodes s.other + (← deref p).nodes s.other
  assign p1 (·.setNodes s.other ((← deref p2).nodes s))
  assign p (·.setNodes s ((← deref p2).nodes s.other))
  assign p2 (·.setNodes s ns)
  assign p2 (·.setNodes s.other no)
  assignUp ((← deref p).child s) p
  assignUp ((← deref p1).child s.other) p1
  assign p2 (·.setUp (← deref p).up)
  assign p (·.setUp p2)
  assign p1 (·.setUp p2)

/-! ## Insert -/

/-- `insert` after the branch on a side has grown: the node that is now on top, and whether it is
higher than the one before. -/
def grown (s : Side) (p : Pointer) : Code κ ν (Pointer × Bool) := do
  assignUp ((← deref p).child s) p
  let n ← deref p
  if n.balance = -s.sign then
    assign p (·.setBalance 0)
    return (p, false)
  else if n.balance = 0 then
    assign p (·.setBalance s.sign)
    return (p, true)
  else
    let p1 := n.child s
    let n1 ← deref p1
    if n1.balance = s.sign then
      assign p (·.setBalance 0)
      rotateSingle s p p1
      assign p1 (·.setBalance 0)
      return (p1, false)
    else
      let p2 := n1.child s.other
      rotateDouble s p p1 p2
      assign p2 (·.setBalance 0)
      return (p2, false)

/-- The method call `key.Compare` on a key that may be nil. -/
def compareKeys (compare : κ → κ → ℤ) (key : Option κ) (key' : κ) : Code κ ν ℤ := fun m =>
  key.map fun k => (compare k key', m)

/-- `insert` after its call for the branch on a side. -/
def inserted (s : Side) (p : Pointer) (result : Pointer × Bool × Bool) :
    Code κ ν (Pointer × Bool × Bool) := do
  let (child, added, h) := result
  assign p (·.setChild s child)
  if added then assign p fun n => n.setNodes s (n.nodes s + 1)
  if h then
    let (p, h) ← grown s p
    return (p, added, h)
  else return (p, added, h)

/-- `insert`: the node that is now on top, whether a node was added, and whether the branch has
grown. -/
def insert (compare : κ → κ → ℤ) (key : κ) (value : Option ν) :
    ℕ → Pointer → Code κ ν (Pointer × Bool × Bool)
  | 0, _ => failure
  | depth + 1, p =>
    if p = none then do
      let p ← newNode key value
      return (p, true, true)
    else do
      let n ← deref p
      let c ← compareKeys compare n.key key
      if c = 1 then inserted .left p (← insert compare key value depth n.left)
      else if c = -1 then inserted .right p (← insert compare key value depth n.right)
      else
        assign p ({ · with value })
        return (p, false, false)

/-- `Tree.Insert`. -/
def treeInsert (compare : κ → κ → ℤ) (depth : ℕ) (key : κ) (value : Option ν) :
    Code κ ν Bool := do
  let (root, added, _) ← insert compare key value depth (← load .root)
  store .root root
  if added then modify fun m => { m with count := m.count + 1 }
  return added

/-! ## Delete -/

/-- `balanceLeft` and `balanceRight`: the branch on a side has shrunk. Whether the whole has. -/
def shrunk (s : Side) (pp : Ref) : Code κ ν Bool := do
  let p ← load pp
  let n ← deref p
  if n.balance = s.sign then
    assign p (·.setBalance 0)
    return true
  else if n.balance = 0 then
    assign p (·.setBalance (-s.sign))
    return false
  else
    let p1 := n.child s.other
    let n1 ← deref p1
    if s.sign * n1.balance ≤ 0 then
      let level := n1.balance = 0
      assign p (·.setBalance (if level then -s.sign else 0))
      assign p1 (·.setBalance (if level then s.sign else 0))
      rotateSingle s.other p p1
      store pp p1
      return !level
    else
      let p2 := n1.child s
      rotateDouble s.other p p1 p2
      assign p2 (·.setBalance 0)
      store pp p2
      return true

def balanceLeft : Ref → Code κ ν Bool := shrunk .left

def balanceRight : Ref → Code κ ν Bool := shrunk .right

/-- `del` at the last node, which takes the place of the node at `qq`. -/
def delLast (qq rr : Ref) (r : Pointer) : Code κ ν Unit := do
  let q ← load qq
  let rl := (← deref r).left
  assignUp rl (← deref r).up
  let nq ← deref q
  if r ≠ nq.left then
    assign r ({ · with left := nq.left, leftNodes := nq.leftNodes - 1 })
  assign r ({ · with
    right := nq.right, up := nq.up, balance := nq.balance, rightNodes := nq.rightNodes })
  assignUp (← deref r).right r
  assignUp (← deref r).left r
  store qq r
  store rr rl

/-- `del` after its call for the right branch. -/
def delAbove (rr : Ref) (h : Bool) : Code κ ν Bool := do
  assign (← load rr) fun n => { n with rightNodes := n.rightNodes - 1 }
  if h then balanceRight rr else return h

/-- `del`: the last node below `rr` takes the place of the node at `qq`. -/
def del (qq : Ref) : ℕ → Ref → Code κ ν Bool
  | 0, _ => failure
  | depth + 1, rr => do
    match ← load rr with
    | none => failure
    | some r =>
      let n ← deref r
      if n.right ≠ none then delAbove rr (← del qq depth (.child r .right))
      else
        delLast qq rr r
        return true

/-- `intdelete` after its call for the branch on a side. -/
def deleted (s : Side) (pp : Ref) (result : Option ν × Bool × Bool) :
    Code κ ν (Option ν × Bool × Bool) := do
  let (value, removed, h) := result
  if removed then assign (← load pp) fun n => n.setNodes s (n.nodes s - 1)
  if h then return (value, removed, ← shrunk s pp) else return (value, removed, h)

/-- `intdelete` where the key is found: the node is unlinked. Whether the branch has shrunk. -/
def unlink (depth : ℕ) (pp : Ref) (q : Addr) : Code κ ν Bool := do
  let n ← deref q
  if n.right = none then
    assignUp n.left n.up
    store pp n.left
    return true
  else if n.left = none then
    assignUp n.right n.up
    store pp n.right
    return true
  else
    let h ← del pp depth (.child q .left)
    assign (← load pp) (·.setChild .left (← deref q).left)
    if h then balanceLeft pp else return h

/-- `intdelete`: the value that was removed, whether there was one, and whether the branch has
shrunk. -/
def intdelete (compare : κ → κ → ℤ) (key : κ) : ℕ → Ref → Code κ ν (Option ν × Bool × Bool)
  | 0, _ => failure
  | depth + 1, pp => do
    match ← load pp with
    | none => return (none, false, false)
    | some q =>
      let n ← deref q
      let c ← compareKeys compare n.key key
      if c = 1 then deleted .left pp (← intdelete compare key depth (.child q .left))
      else if c = -1 then deleted .right pp (← intdelete compare key depth (.child q .right))
      else
        let h ← unlink depth pp q
        freeNode q
        return (n.value, true, h)

/-- `Tree.Delete`. -/
def treeDelete (compare : κ → κ → ℤ) (depth : ℕ) (key : κ) : Code κ ν (Option ν) := do
  let (value, removed, _) ← intdelete compare key depth .root
  if removed then modify fun m => { m with count := m.count - 1 }
  return value

end Bitmarkd.Avl
