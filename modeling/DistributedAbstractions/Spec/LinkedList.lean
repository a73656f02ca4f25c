import DistributedAbstractions.Lib.Heap
import DistributedAbstractions.Lib.Machine
import Mathlib.Algebra.Group.Nat.Defs
import Mathlib.Data.Int.Notation

/-! The lists that all protocol state lives in, on explicit nodes. Allocations succeed, and `count`, a
`size_t`, does not overflow, since no memory has room for that many nodes. -/

namespace DSA

open Memory

/-- A `void *`, which may be `NULL`. -/
abbrev Ptr := Option ℕ

structure LNode where
  element : Ptr
  next : Option ℕ

structure CList where
  start : Option ℕ
  count : ℕ

/-- A list and the heap that its nodes are on. -/
structure ListState where
  heap : Heap LNode
  list : CList

/-- The conversion of a `size_t` to an `int`. -/
def toInt (n : ℕ) : ℤ := (n : ℤ).bmod (2 ^ 32)

def listInit : ListState := ⟨[], ⟨none, 0⟩⟩

def listAdd (s : ListState) (elem : Ptr) : Option ListState := do
  let new := s.heap.length
  let heap := s.heap.alloc ⟨none, none⟩
  let (heap, start) ←
    if s.list.count = 0 then some (heap, some new)
    else do
      let n ← (← follow LNode.next heap (s.list.count - 1) s.list.start)
      let node ← heap.load n
      let heap ← heap.store n { node with next := some new }
      some (heap, s.list.start)
  let node ← heap.load new
  let heap ← heap.store new { node with element := elem }
  some ⟨heap, ⟨start, s.list.count + 1⟩⟩

/-- The list afterwards with what is returned. -/
def listRemove (s : ListState) (idx : ℕ) : Option (ListState × ℤ) :=
  if idx ≥ s.list.count then some (s, -1)
  else do
    let (heap, start) ←
      if idx = 0 then do
        let toRemove ← s.list.start
        let node ← s.heap.load toRemove
        let heap ← s.heap.free toRemove
        some (heap, node.next)
      else do
        let prev ← (← follow LNode.next s.heap (idx - 1) s.list.start)
        let prevNode ← s.heap.load prev
        let toRemove ← prevNode.next
        let node ← s.heap.load toRemove
        let heap ← s.heap.store prev { prevNode with next := node.next }
        let heap ← heap.free toRemove
        some (heap, s.list.start)
    some (⟨heap, ⟨start, s.list.count - 1⟩⟩, 0)

/-- The loop of `list_index` with `rounds` to go, at node `n` with number `i - 1`. -/
def listIndexLoop (heap : Heap LNode) (elem : Ptr) : ℕ → ℕ → LNode → Option ℤ
  | 0, _, _ => some (-1)
  | rounds + 1, i, n => do
    let n ← heap.load (← n.next)
    if n.element = elem then some (toInt i) else listIndexLoop heap elem rounds (i + 1) n

def listIndex (s : ListState) (elem : Ptr) : Option ℤ :=
  if s.list.count = 0 then some (-1)
  else do
    let n ← s.heap.load (← s.list.start)
    if n.element = elem then some 0 else listIndexLoop s.heap elem (s.list.count - 1) 1 n

/-- What is returned for an index that is out of bounds is `NULL`. -/
def listGet (s : ListState) (idx : ℕ) : Option Ptr :=
  if idx ≥ s.list.count then some none
  else do
    let node ← s.heap.load (← (← follow LNode.next s.heap idx s.list.start))
    some node.element

inductive ListCall
  | add (elem : Ptr)
  | remove (idx : ℕ)
deriving DecidableEq

/-- A call, with what `list_remove` returns. -/
def ListState.call (s : ListState) : ListCall → Option (ListState × List ℤ)
  | .add elem => (listAdd s elem).map (·, [])
  | .remove idx => (listRemove s idx).map fun out => (out.1, [out.2])

/-- A list that has been through `calls`, and all that has been returned. -/
def ListState.calls (s : ListState) : List ListCall → Option (ListState × List ℤ)
  | [] => some (s, [])
  | c :: cs => do
    let (s, returned) ← s.call c
    let (s, returned') ← s.calls cs
    some (s, returned ++ returned')

/-- What the calls are meant to do to the list of elements, and to return. -/
def ListCall.apply (xs : List Ptr) : ListCall → List Ptr × List ℤ
  | .add elem => (xs ++ [elem], [])
  | .remove idx => (xs.eraseIdx idx, [if idx < xs.length then 0 else -1])

/-- The chain from `start` has `count` nodes with the elements `xs`, then `NULL`. `list_get` and
`list_index` find what is at a place and the first place of what there is, and a call of `list_remove`
with an index out of bounds changes nothing. -/
structure ListCorrect (s : ListState) (xs : List Ptr) : Prop where
  count : s.list.count = xs.length
  chain : ∀ i, i < xs.length → ∃ a node, follow LNode.next s.heap i s.list.start = some (some a) ∧
    s.heap.load a = some node ∧ xs[i]? = some node.element
  ends : follow LNode.next s.heap s.list.count s.list.start = some none
  get : ∀ i, listGet s i = some (xs[i]?.getD none)
  index : ∀ p, listIndex s p = some (if p ∈ xs then (xs.idxOf p : ℤ) else -1)
  outside : ∀ i, xs.length ≤ i → listRemove s i = some (s, -1)

/-- No element has its first place where an `int` does not reach. -/
def Indexable (xs : List Ptr) : Prop := ∀ p ∈ xs, xs.idxOf p < 2 ^ 31

/-- The calls get by without an access outside the nodes, return what they should, and leave the list
as it should be. -/
def ListsCorrectly (calls : List ListCall) : Prop :=
  ∃ s, listInit.calls calls = some (s, Machine.outputs ListCall.apply [] calls) ∧
    ListCorrect s (Machine.state ListCall.apply [] calls)

end DSA
