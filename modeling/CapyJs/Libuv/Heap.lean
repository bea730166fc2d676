import CapyJs.Heap.Order
import Mathlib.Algebra.Group.Nat.Defs
import Mathlib.Logic.Function.Basic

/-!
# The timer heap

The heap is a complete binary tree of nodes with three links each. A node keeps its address, so
two nodes change places by exchanging their links. The way to a place is in the bits of its
number: the place of a new node is one behind the last.
-/
namespace CapyJs.Libuv

/-- `struct heap_node` -/
structure HeapNode (ι : Type*) where
  left : Option ι
  right : Option ι
  parent : Option ι
  deriving DecidableEq

/-- `struct heap` with the memory that its nodes are in. `nelts` is an `unsigned int`. -/
structure Heap (ι : Type*) where
  min : Option ι
  nelts : ℕ
  node : ι → HeapNode ι

/-- What a `struct heap_node **` points to. -/
inductive Link (ι : Type*)
  | min
  | left (x : ι)
  | right (x : ι)

namespace Heap
variable {ι : Type*} [DecidableEq ι]

def setNode (h : Heap ι) (x : ι) (node : HeapNode ι) : Heap ι :=
  { h with node := Function.update h.node x node }

def setLeft (h : Heap ι) (x : ι) (left : Option ι) : Heap ι :=
  h.setNode x { h.node x with left }

def setRight (h : Heap ι) (x : ι) (right : Option ι) : Heap ι :=
  h.setNode x { h.node x with right }

/-- `if (x != NULL) x->parent = parent` -/
def setParent (h : Heap ι) (parent : ι) : Option ι → Heap ι
  | none => h
  | some x => h.setNode x { h.node x with parent := some parent }

def deref (h : Heap ι) : Link ι → Option ι
  | .min => h.min
  | .left x => (h.node x).left
  | .right x => (h.node x).right

def assign (h : Heap ι) (value : Option ι) : Link ι → Heap ι
  | .min => { h with min := value }
  | .left x => h.setLeft x value
  | .right x => h.setRight x value

/-- The link to `old`, in its parent or in the heap, comes to point to `new`. -/
def replaceChild (h : Heap ι) (old new : ι) : Option ι → Heap ι
  | none => { h with min := some new }
  | some g => if (h.node g).left = some old then h.setLeft g (some new) else h.setRight g (some new)

/-- The end of `heap_node_swap`: what is beside the two nodes comes to point to them. -/
def relink (h : Heap ι) (parent child : ι) (sibling : Option ι) : Heap ι :=
  let h := h.setParent child sibling
  let h := h.setParent parent (h.node parent).left
  let h := h.setParent parent (h.node parent).right
  h.replaceChild parent child (h.node child).parent

/-- `heap_node_swap` -/
def nodeSwap (h : Heap ι) (parent child : ι) : Heap ι :=
  let t := h.node parent
  let h := h.setNode parent (h.node child)
  let h := h.setNode child t
  let h := h.setParent child (some parent)
  if (h.node child).left = some child then
    let h := h.setLeft child (some parent)
    h.relink parent child (h.node child).right
  else
    let h := h.setRight child (some parent)
    h.relink parent child (h.node child).left

/-! ## The way to a place -/

/-- `for (...; n >= 2; k += 1, n /= 2) path = (path << 1) | (n & 1)`, with an `unsigned int` of
32 bits. -/
def pathLoop : ℕ → ℕ → ℕ → ℕ → ℕ × ℕ
  | 0, path, _, k => (path, k)
  | fuel + 1, path, n, k =>
    if 2 ≤ n then pathLoop fuel ((path <<< 1 ||| n &&& 1) % 2 ^ 32) (n / 2) (k + 1) else (path, k)

/-- The path to place `n` and its length. -/
def pathTo (n : ℕ) : ℕ × ℕ := pathLoop 32 0 n 0

/-- The loop that follows a path, from the links `parent` and `child`; `none` when it would read
through a null pointer. -/
def follow (h : Heap ι) : ℕ → ℕ → Link ι → Link ι → Option (Link ι × Link ι)
  | 0, _, parent, child => some (parent, child)
  | k + 1, path, _, child =>
    match h.deref child with
    | none => none
    | some x => follow h k (path >>> 1) child (if path &&& 1 = 1 then .right x else .left x)

/-! ## Moving a node -/

/-- `while (x->parent != NULL && less_than(x, x->parent)) heap_node_swap(heap, x->parent, x)` -/
def walkUp (lessThan : ι → ι → Bool) (x : ι) : ℕ → Heap ι → Option (Heap ι)
  | 0, _ => none
  | fuel + 1, h =>
    match (h.node x).parent with
    | none => some h
    | some parent =>
      if lessThan x parent then walkUp lessThan x fuel (h.nodeSwap parent x) else some h

def smaller (lessThan : ι → ι → Bool) (smallest : ι) : Option ι → ι
  | none => smallest
  | some x => if lessThan x smallest then x else smallest

def walkDown (lessThan : ι → ι → Bool) (child : ι) : ℕ → Heap ι → Option (Heap ι)
  | 0, _ => none
  | fuel + 1, h =>
    let smallest := smaller lessThan child (h.node child).left
    let smallest := smaller lessThan smallest (h.node child).right
    if smallest = child then some h
    else walkDown lessThan child fuel (h.nodeSwap child smallest)

/-- `heap_insert`; the fuel of the loop is the number of nodes. -/
def insert (lessThan : ι → ι → Bool) (h : Heap ι) (newnode : ι) : Option (Heap ι) := do
  let h := h.setNode newnode ⟨none, none, none⟩
  let (path, k) := pathTo ((1 + h.nelts) % 2 ^ 32)
  let (parent, child) ← h.follow k path .min .min
  let h := h.setNode newnode { h.node newnode with parent := h.deref parent }
  let h := h.assign (some newnode) child
  let h := { h with nelts := (h.nelts + 1) % 2 ^ 32 }
  walkUp lessThan newnode (h.nelts + 1) h

/-- `child` takes over the links of `node`, and what is beside `node` comes to point to `child`. -/
def takeOver (h : Heap ι) (node child : ι) : Heap ι :=
  let h := h.setNode child (h.node node)
  let h := h.setParent child (h.node child).left
  let h := h.setParent child (h.node child).right
  h.replaceChild node child (h.node node).parent

/-- `heap_remove` -/
def remove (lessThan : ι → ι → Bool) (h : Heap ι) (node : ι) : Option (Heap ι) :=
  if h.nelts = 0 then some h
  else do
    let (path, k) := pathTo h.nelts
    let (_, max) ← h.follow k path .min .min
    let h := { h with nelts := h.nelts - 1 }
    let child ← h.deref max
    let h := h.assign none max
    if child = node then
      if h.min = some child then some { h with min := none } else some h
    else
      let h := h.takeOver node child
      let h ← walkDown lessThan child (h.nelts + 1) h
      walkUp lessThan child (h.nelts + 1) h

end Heap
end CapyJs.Libuv
