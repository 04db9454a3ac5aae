import Scalloc.Heap.Labels
import Scalloc.Lib.Ring
import Scalloc.Lib.Transition

/-! # The deque as a ring of nodes

The deque of the source is a ring of `DoubleListNode`s that closes at a sentinel
inside the deque. A node is its address, 0 is the null pointer, and following the
null pointer is an error. The list on which the rest of the development works is the
abstract deque that the ring refines.
-/
namespace Scalloc
open Function Transition LinkedRing

/-- A deque with the links of all nodes. A node that is in no deque has null links. -/
structure RingDeque where
  owner : CoreId
  sentinel : ℕ
  next : ℕ → ℕ
  prev : ℕ → ℕ
  sentinel_ne : sentinel ≠ 0

namespace RingDeque
variable {cfg : Config} {d : RingDeque} {a : Deque} {node : ℕ} {owner : CoreId}

/-- `Deque::Deque`. The constructor does not set the owner. -/
def new (owner : CoreId) (sentinel : ℕ) (h : sentinel ≠ 0) : RingDeque :=
  ⟨owner,sentinel,update (fun _ => 0) sentinel sentinel,update (fun _ => 0) sentinel sentinel,h⟩

/-- `DoubleListNode::next`. -/
def nextOf (d : RingDeque) (node : ℕ) : Result ℕ :=
  if node = 0 then .error .nullPointer else .ok (d.next node)

/-- `DoubleListNode::prev`. -/
def prevOf (d : RingDeque) (node : ℕ) : Result ℕ :=
  if node = 0 then .error .nullPointer else .ok (d.prev node)

/-- `DoubleListNode::set_next`. -/
def setNext (cfg : Config) (d : RingDeque) (node v : ℕ) : Result RingDeque := do
  scallocAssert cfg .linkNotNull (v != 0)
  if node = 0 then throw .nullPointer
  return { d with next := update d.next node v }

/-- `DoubleListNode::set_prev`. -/
def setPrev (cfg : Config) (d : RingDeque) (node v : ℕ) : Result RingDeque := do
  scallocAssert cfg .linkNotNull (v != 0)
  if node = 0 then throw .nullPointer
  return { d with prev := update d.prev node v }

/-- `DoubleListNode::clear_prev` and then `clear_next`. -/
def clear (d : RingDeque) (node : ℕ) : RingDeque :=
  { d with prev := update d.prev node 0, next := update d.next node 0 }

def openOwner (d : RingDeque) (owner : CoreId) : RingDeque := { d with owner := owner }

def close (d : RingDeque) : RingDeque := { d with owner := kTerminated }

/-- `Deque::PushFront`. -/
def pushFront (cfg : Config) (d : RingDeque) (owner : CoreId) (node : ℕ) : Result RingDeque := do
  scallocAssert cfg .pushedNode (node != 0)
  if owner ≠ d.owner then return d
  let d ← d.setPrev cfg node d.sentinel
  let d ← d.setNext cfg node (d.next d.sentinel)
  let d ← d.setPrev cfg (d.next d.sentinel) node
  d.setNext cfg d.sentinel node

/-- `Deque::PushBack`. -/
def pushBack (cfg : Config) (d : RingDeque) (owner : CoreId) (node : ℕ) : Result RingDeque := do
  scallocAssert cfg .pushedNode (node != 0)
  if owner ≠ d.owner then return d
  let d ← d.setPrev cfg node (d.prev d.sentinel)
  let d ← d.setNext cfg node d.sentinel
  let d ← d.setNext cfg (d.prev d.sentinel) node
  d.setPrev cfg d.sentinel node

/-- `Deque::RemoveFront`; 0 is `nullptr`. The links are written before the test
whether the deque was empty. -/
def removeFront (cfg : Config) (d : RingDeque) : Result (ℕ × RingDeque) := do
  let node := d.next d.sentinel
  let second ← d.nextOf node
  let d ← d.setNext cfg d.sentinel second
  let second ← d.nextOf node
  let d ← d.setPrev cfg second d.sentinel
  if node = d.sentinel then return (0,d)
  return (node,d.clear node)

/-- `Deque::RemoveBack`. -/
def removeBack (cfg : Config) (d : RingDeque) : Result (ℕ × RingDeque) := do
  let node := d.prev d.sentinel
  let second ← d.prevOf node
  let d ← d.setPrev cfg d.sentinel second
  let second ← d.prevOf node
  let d ← d.setNext cfg second d.sentinel
  if node = d.sentinel then return (0,d)
  return (node,d.clear node)

/-- `Deque::Remove`. -/
def remove (cfg : Config) (d : RingDeque) (owner : CoreId) (node : ℕ) : Result RingDeque := do
  let p ← d.prevOf node
  let n ← d.nextOf node
  if p = 0 ∧ n = 0 then return d
  if owner ≠ d.owner then return d
  scallocAssert cfg .removedNode (n != 0 && p != 0)
  let d ← if d.next node ≠ 0 then d.setPrev cfg (d.next node) (d.prev node) else pure d
  let d ← if d.prev node ≠ 0 then d.setNext cfg (d.prev node) (d.next node) else pure d
  return d.clear node

/-- `Deque::RemoveAll`, a loop that ends when `RemoveFront` returns null. -/
def removeAll (cfg : Config) (d : RingDeque) : ℕ → Result RingDeque
  | 0 => .error .diverges
  | fuel + 1 => do
    let (node,d) ← d.removeFront cfg
    if node = 0 then return d else removeAll cfg d fuel

def Unlinked (d : RingDeque) (node : ℕ) : Prop := d.next node = 0 ∧ d.prev node = 0

/-- The ring of the deque goes through the node. -/
def Contains (d : RingDeque) (node : ℕ) : Prop :=
  ∃ l, IsRing d.next d.prev d.sentinel l ∧ node ∈ l

end RingDeque

/-- The calls on a deque. -/
inductive DequeOp
  | openOwner (owner : CoreId)
  | close
  | pushFront (owner : CoreId) (node : ℕ)
  | pushBack (owner : CoreId) (node : ℕ)
  | remove (owner : CoreId) (node : ℕ)
  | removeFront
  | removeBack
  | removeAll
deriving DecidableEq, Repr

/-- What a call returns, 0 if it returns nothing, and what it leaves: the deque as a
list, front first. -/
def Deque.apply (d : Deque) : DequeOp → ℕ × Deque
  | .openOwner owner => (0,{ d with owner := owner })
  | .close => (0,{ d with owner := kTerminated })
  | .pushFront owner node => (0,if owner = d.owner then { d with nodes := node :: d.nodes } else d)
  | .pushBack owner node => (0,if owner = d.owner then { d with nodes := d.nodes ++ [node] } else d)
  | .remove owner node =>
    (0,if node ∈ d.nodes ∧ owner = d.owner then { d with nodes := d.nodes.erase node } else d)
  | .removeFront => (d.nodes.headD 0,{ d with nodes := d.nodes.tail })
  | .removeBack => (d.nodes.getLastD 0,{ d with nodes := d.nodes.dropLast })
  | .removeAll => (0,{ d with nodes := [] })

namespace RingDeque
variable {cfg : Config} {d : RingDeque} {a : Deque} {node fuel : ℕ} {owner : CoreId}

/-- A call on the ring, with a bound on the iterations of `RemoveAll`. -/
def apply (cfg : Config) (d : RingDeque) (fuel : ℕ) : DequeOp → Result (ℕ × RingDeque)
  | .openOwner owner => .ok (0,d.openOwner owner)
  | .close => .ok (0,d.close)
  | .pushFront owner node => (0,·) <$> d.pushFront cfg owner node
  | .pushBack owner node => (0,·) <$> d.pushBack cfg owner node
  | .remove owner node => (0,·) <$> d.remove cfg owner node
  | .removeFront => d.removeFront cfg
  | .removeBack => d.removeBack cfg
  | .removeAll => (0,·) <$> d.removeAll cfg fuel

theorem ok_bind {α β : Type} (x : α) (f : α → Result β) : (Except.ok x >>= f) = f x := rfl

theorem nextOf_ok (hn : node ≠ 0) : d.nextOf node = .ok (d.next node) := if_neg hn

theorem prevOf_ok (hn : node ≠ 0) : d.prevOf node = .ok (d.prev node) := if_neg hn

theorem setNext_ok {v : ℕ} (hn : node ≠ 0) (hv : v ≠ 0) :
    d.setNext cfg node v = .ok { d with next := update d.next node v } := by
  simp [setNext, scallocAssert, hn, hv]

theorem setPrev_ok {v : ℕ} (hn : node ≠ 0) (hv : v ≠ 0) :
    d.setPrev cfg node v = .ok { d with prev := update d.prev node v } := by
  simp [setPrev, scallocAssert, hn, hv]

theorem pushFront_eq (hn : node ≠ 0) (hs : node ≠ d.sentinel) (hf : d.next d.sentinel ≠ 0) :
    d.pushFront cfg d.owner node = .ok { d with
      next := update (update d.next node (d.next d.sentinel)) d.sentinel node
      prev := update (update d.prev node d.sentinel) (d.next d.sentinel) node } := by
  have hv : update d.next node (d.next d.sentinel) d.sentinel = d.next d.sentinel :=
    update_of_ne hs.symm _ _
  simp [pushFront, scallocAssert, hn, setPrev_ok, setNext_ok, ok_bind, d.sentinel_ne, hf, hv]

theorem pushBack_eq (hn : node ≠ 0) (hs : node ≠ d.sentinel) (hf : d.prev d.sentinel ≠ 0) :
    d.pushBack cfg d.owner node = .ok { d with
      next := update (update d.next node d.sentinel) (d.prev d.sentinel) node
      prev := update (update d.prev node (d.prev d.sentinel)) d.sentinel node } := by
  have hv : update d.prev node (d.prev d.sentinel) d.sentinel = d.prev d.sentinel :=
    update_of_ne hs.symm _ _
  simp [pushBack, scallocAssert, hn, setPrev_ok, setNext_ok, ok_bind, d.sentinel_ne, hf, hv]

theorem removeFront_eq (hs : d.next d.sentinel ≠ d.sentinel) (hf : d.next d.sentinel ≠ 0)
    (hn : d.next (d.next d.sentinel) ≠ 0) :
    d.removeFront cfg = .ok (d.next d.sentinel,clear { d with
      next := update d.next d.sentinel (d.next (d.next d.sentinel))
      prev := update d.prev (d.next (d.next d.sentinel)) d.sentinel } (d.next d.sentinel)) := by
  simp [removeFront, nextOf_ok, hf, setNext_ok, setPrev_ok, ok_bind, d.sentinel_ne, hn, hs]
  rfl

theorem removeFront_nil (hn : d.next d.sentinel = d.sentinel) (hp : d.prev d.sentinel = d.sentinel) :
    d.removeFront cfg = .ok (0,d) := by
  have h1 : update d.next d.sentinel d.sentinel = d.next := update_eq_self_iff.mpr hn.symm
  have h2 : update d.prev d.sentinel d.sentinel = d.prev := update_eq_self_iff.mpr hp.symm
  simp [removeFront, nextOf_ok, hn, setNext_ok, setPrev_ok, ok_bind, d.sentinel_ne, h1, h2]
  rfl

theorem removeBack_eq (hs : d.prev d.sentinel ≠ d.sentinel) (hf : d.prev d.sentinel ≠ 0)
    (hn : d.prev (d.prev d.sentinel) ≠ 0) :
    d.removeBack cfg = .ok (d.prev d.sentinel,clear { d with
      next := update d.next (d.prev (d.prev d.sentinel)) d.sentinel
      prev := update d.prev d.sentinel (d.prev (d.prev d.sentinel)) } (d.prev d.sentinel)) := by
  simp [removeBack, prevOf_ok, hf, setNext_ok, setPrev_ok, ok_bind, d.sentinel_ne, hn, hs]
  rfl

theorem removeBack_nil (hn : d.next d.sentinel = d.sentinel) (hp : d.prev d.sentinel = d.sentinel) :
    d.removeBack cfg = .ok (0,d) := by
  have h1 : update d.next d.sentinel d.sentinel = d.next := update_eq_self_iff.mpr hn.symm
  have h2 : update d.prev d.sentinel d.sentinel = d.prev := update_eq_self_iff.mpr hp.symm
  simp [removeBack, prevOf_ok, hp, setNext_ok, setPrev_ok, ok_bind, d.sentinel_ne, h1, h2]
  rfl

theorem remove_eq (h0 : node ≠ 0) (hn : d.next node ≠ 0) (hp : d.prev node ≠ 0)
    (hne : d.next node ≠ node) :
    d.remove cfg d.owner node = .ok (clear { d with
      next := update d.next (d.prev node) (d.next node)
      prev := update d.prev (d.next node) (d.prev node) } node) := by
  have hv : update d.prev (d.next node) (d.prev node) node = d.prev node := update_of_ne hne.symm _ _
  simp [remove, nextOf_ok, prevOf_ok, h0, setNext_ok, setPrev_ok, ok_bind, scallocAssert, hn, hp, hv]

end RingDeque
end Scalloc
