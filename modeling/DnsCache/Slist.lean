import DnsCache.Lib.BoundedSeq
import DnsCache.Lib.Chain

/-! # The single linked list of `slist.c`

A list takes its nodes from blocks that `my_alloc` has returned: the nodes in
use are chained from `head`, the others from `blank`. Memory is explicit, a
step through NULL or through a field that was never written has no result.

* `mkSlist`, `append`, `pop`, `push`, `find`, `mv2head`, `slExpand`, `traverse`,
  `slFree`: the functions of the source.
* `slStep`, `slRun`: the operations as one type, and a sequence of them.
-/

namespace DnsCache

open Chain

/-! ## Memory -/

/-- The address of a node: a block and the node's place in it. Blocks are
numbered in the order `my_alloc` returned them. -/
structure NodeAddr where
  block : Nat
  index : Nat
deriving DecidableEq, Repr

/-- `sl_node` as a node of the list. The datum is `none` before it is first written. -/
structure SlNode (α : Type) where
  data : Option α
  next : Option NodeAddr

/-- `sl_node` as a node of `memlist`, alone in its block: its datum is another block. -/
structure MemNode where
  data : Nat
  next : Option Nat

/-- The nodes whose next field has been written. -/
abbrev Nodes (α : Type) := NodeAddr → Option (SlNode α)

/-- `slist`, with the memory of its nodes and the number of blocks obtained so far.
The nodes that `capacity` counts lie apart in memory, so that it never wraps. -/
structure Slist (α : Type) where
  nodes : Nodes α
  memNodes : Nat → Option MemNode
  blocks : Nat
  head : Option NodeAddr
  end_ : Option NodeAddr
  blank : Option NodeAddr
  length : Nat
  capacity : Nat
  memlist : Option Nat

variable {α : Type}

/-- The next fields and the data. -/
def Nodes.next (m : Nodes α) (a : NodeAddr) : Option (Option NodeAddr) := (m a).map (·.next)

def Nodes.data (m : Nodes α) (a : NodeAddr) : Option α := (m a).bind (·.data)

namespace Slist

/-- `*p`. -/
def deref (sl : Slist α) (p : Option NodeAddr) : Option (SlNode α) := p.bind sl.nodes

/-- `p->next = q`. -/
def setNext (sl : Slist α) (p q : Option NodeAddr) : Option (Slist α) := do
  let a ← p
  let node ← sl.nodes a
  return { sl with nodes := Function.update sl.nodes a (some { node with next := q }) }

/-- `p->data = d`. -/
def setData (sl : Slist α) (p : Option NodeAddr) (d : α) : Option (Slist α) := do
  let a ← p
  let node ← sl.nodes a
  return { sl with nodes := Function.update sl.nodes a (some { node with data := some d }) }

end Slist

/-! ## The functions -/

/-- `sizeof (struct sl_node)`. -/
def slNodeSize : UInt64 := 16

/-- `sizeof (struct slist)`. -/
def slistSize : UInt64 := 48

/-- The bytes that `mk_slist` asks `my_alloc` for. -/
def listBytes (capacity : Nat) : UInt64 := slistSize + slNodeSize * UInt64.ofNat capacity

/-- The bytes that `sl_expand` asks `my_alloc` for. -/
def nodesBytes (delta : Nat) : UInt64 := UInt64.ofNat delta * slNodeSize

/-- The block has room for `count` nodes behind its first `front` bytes. -/
def HoldsNodes (bytes front : UInt64) (count : Nat) : Prop :=
  front.toNat + slNodeSize.toNat * count ≤ bytes.toNat

instance (bytes front : UInt64) (count : Nat) : Decidable (HoldsNodes bytes front count) :=
  inferInstanceAs (Decidable (_ ≤ _))

/-- The loop of `mk_slist` and `sl_expand` that links the nodes of a new block.
`ptr` points to the node at `index`; the result is where it points in the end. -/
def linkNodes (block : Nat) : Nat → Nat → Nodes α → Nodes α × Nat
  | count + 2, index, m =>
      linkNodes block (count + 1) (index + 1)
        (Function.update m ⟨block, index⟩ (some ⟨none, some ⟨block, index + 1⟩⟩))
  | _, index, m => (m, index)

/-- `mk_slist`. Without a node to write to, the store behind the loop leaves the
block; when the byte count has wrapped, the loop does. -/
def mkSlist (capacity : Nat) : Option (Slist α) :=
  if capacity = 0 ∨ ¬ HoldsNodes (listBytes capacity) slistSize capacity then none
  else
    let (m, last) := linkNodes 0 capacity 0 fun _ => none
    some
      { nodes := Function.update m ⟨0, last⟩ (some ⟨none, none⟩)
        memNodes := Function.update (fun _ => none) 1 (some ⟨0, none⟩)
        blocks := 2
        head := none
        end_ := none
        blank := some ⟨0, 0⟩
        length := 0
        capacity := capacity
        memlist := some 1 }

/-- `sl_expand`, which leaves its block in the same cases. -/
def slExpand (delta : Nat) (sl : Slist α) : Option (Slist α) :=
  if delta = 0 ∨ ¬ HoldsNodes (nodesBytes delta) 0 delta then none
  else
    let block := sl.blocks
    let (m, last) := linkNodes block delta 0 sl.nodes
    some
      { sl with
        capacity := sl.capacity + delta
        -- the new nodes come before the unused ones
        nodes := Function.update m ⟨block, last⟩ (some ⟨none, sl.blank⟩)
        blank := some ⟨block, 0⟩
        memNodes := Function.update sl.memNodes (block + 1) (some ⟨block, sl.memlist⟩)
        memlist := some (block + 1)
        blocks := block + 2 }

/-- The branch of `append` on an empty list: the node `ptr` becomes the only one
or is linked behind the last. -/
def Slist.linkEnd (sl : Slist α) (ptr : Option NodeAddr) : Option (Slist α) :=
  if sl.head = none then some { sl with head := ptr, end_ := ptr }
  else (sl.setNext sl.end_ ptr).map fun sl => { sl with end_ := ptr }

/-- `append`. -/
def append (d : α) (sl : Slist α) : Option (Nat × Slist α) :=
  if sl.length = sl.capacity then some (1, sl)
  else do
    let ptr := sl.blank
    let node ← sl.deref ptr
    let sl ← { sl with blank := node.next }.setData ptr d
    let sl ← sl.linkEnd ptr
    let sl ← sl.setNext ptr none
    return (0, { sl with length := sl.length + 1 })

/-- `pop`. -/
def pop (sl : Slist α) : Option (Option α × Slist α) :=
  if sl.head = none then some (none, sl)
  else do
    let node ← sl.deref sl.head
    let toReturn ← node.data
    let ptr := sl.head
    let sl := { sl with head := node.next, end_ := if node.next = none then none else sl.end_ }
    -- the node is the first of the unused ones again
    let sl ← sl.setNext ptr sl.blank
    return (some toReturn, { sl with blank := ptr, length := sl.length - 1 })

/-- `push`. -/
def push (d : α) (sl : Slist α) : Option (Nat × Slist α) :=
  if sl.length = sl.capacity then some (1, sl)
  else do
    let ptr := sl.blank
    let node ← sl.deref ptr
    let sl ← { sl with blank := node.next }.setData ptr d
    let sl ← sl.setNext ptr sl.head
    return (0, { sl with
      head := ptr
      end_ := if sl.end_ = none then ptr else sl.end_
      length := sl.length + 1 })

variable [DecidableEq α]

/-- The loop of `find`. -/
def findLoop (d : α) (sl : Slist α) : Nat → Option NodeAddr → Option Nat
  | 0, _ => none
  | fuel + 1, ptr =>
      if ptr = none then some 0
      else do
        let node ← sl.deref ptr
        let x ← node.data
        if x = d then return 1 else findLoop d sl fuel node.next

/-- The rounds a loop along a chain can make: one that goes on has met a node
twice and never ends. -/
def Slist.rounds (sl : Slist α) : Nat := sl.capacity + 1

/-- `find`. -/
def find (d : α) (sl : Slist α) : Option Nat := findLoop d sl sl.rounds sl.head

/-- What `mv2head` does once it has found the node `cur`, which comes behind `pre`
and before `next`. -/
def Slist.toHead (sl : Slist α) (pre cur next : Option NodeAddr) : Option (Slist α) := do
  let sl := { sl with end_ := if cur = sl.end_ then pre else sl.end_ }
  let sl ← sl.setNext pre next
  let sl ← sl.setNext cur sl.head
  return { sl with head := cur }

/-- The loop of `mv2head`. -/
def mv2headLoop (d : α) (sl : Slist α) : Nat → Option NodeAddr → Option NodeAddr →
    Option (Nat × Slist α)
  | 0, _, _ => none
  | fuel + 1, pre, cur =>
      if cur = none then some (1, sl)
      else do
        let node ← sl.deref cur
        let x ← node.data
        if x = d then (sl.toHead pre cur node.next).map fun sl => (0, sl)
        else mv2headLoop d sl fuel cur node.next

/-- `mv2head`. It looks at the first node without asking whether there is one. -/
def mv2head (d : α) (sl : Slist α) : Option (Nat × Slist α) := do
  let node ← sl.deref sl.head
  let x ← node.data
  if x = d then return (0, sl) else mv2headLoop d sl sl.rounds sl.head node.next

omit [DecidableEq α] in
/-- The loop of `traverse`, with a `visit` that looks at the datum. -/
def traverseLoop (sl : Slist α) : Nat → Option NodeAddr → Option (List α)
  | 0, _ => none
  | fuel + 1, ptr =>
      if ptr = none then some []
      else do
        let node ← sl.deref ptr
        let x ← node.data
        (traverseLoop sl fuel node.next).map (x :: ·)

/-- `traverse`: the data visited. -/
def traverse (sl : Slist α) : Option (List α) := traverseLoop sl sl.rounds sl.head

/-- The loop of `sl_free`: the blocks handed to `my_free`. A node whose block
has been freed cannot be read any more. -/
def slFreeLoop (sl : Slist α) : Nat → Option Nat → List Nat → Option (List Nat)
  | 0, _, _ => none
  | fuel + 1, ptr, freed =>
      match ptr with
      | none => some freed
      | some a => do
          let node ← if a ∈ freed then none else sl.memNodes a
          slFreeLoop sl fuel node.next (freed ++ [node.data, a])

/-- `sl_free`. -/
def slFree (sl : Slist α) : Option (List Nat) := slFreeLoop sl (sl.blocks + 1) sl.memlist []

/-- One operation of the list. -/
def slStep (sl : Slist α) : BoundedSeq.Op α → Option (BoundedSeq.Result α × Slist α)
  | .push d => (push d sl).map fun r => (.code r.1, r.2)
  | .append d => (append d sl).map fun r => (.code r.1, r.2)
  | .pop => (pop sl).map fun r => (.datum r.1, r.2)
  | .expand delta => (slExpand delta sl).map fun sl => (.done, sl)
  | .mv2head d => (mv2head d sl).map fun r => (.code r.1, r.2)

/-- A sequence of operations, with their results. -/
def slRun (sl : Slist α) : List (BoundedSeq.Op α) → Option (List (BoundedSeq.Result α) × Slist α)
  | [] => some ([], sl)
  | op :: ops => do
      let (result, sl) ← slStep sl op
      let (results, sl) ← slRun sl ops
      return (result :: results, sl)

end DnsCache
