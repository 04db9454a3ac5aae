import Scalloc.Base.Arena
import Scalloc.Span.FreeList

/-! # The state of the allocator

Cores with their hot spans and deques, the span pool, the two arenas, the memory and
the span headers. Pointers are addresses and 0 is the null pointer; a map from
addresses to objects is a total function whose unused values are zeroed objects.
-/
namespace Scalloc
open ByteMemory

/-- The build and the machine: the reuse threshold in percent, whether spans are
cleaned up in `Core::Free`, whether assertions are checked, the number of online
processors and the limit on backends. -/
structure Config where
  reuseThreshold : ℕ := kReuseThreshold
  cleanupInFree : Bool := true
  debug : Bool := false
  cpus : ℕ
  hardLimit : ℕ := 16384
  cpus_pos : 1 ≤ cpus
  hardLimit_pos : 1 ≤ hardLimit := by decide

/-- The build options as they are when the build sets none. -/
structure Config.Default (cfg : Config) : Prop where
  reuseThreshold : cfg.reuseThreshold = kReuseThreshold
  cleanupInFree : cfg.cleanupInFree = true

/-- A deque of reusable spans, front first. It accepts only callers that name its
present owner. -/
structure Deque where
  owner : CoreId
  nodes : List ℕ
deriving DecidableEq, Repr

/-- No `next` or `prev` word of the ring is null. Each is the sentinel or a node, and
`set_next` and `set_prev` are given only such words and the pushed node. -/
def Deque.noNull (d : Deque) : Bool := !d.nodes.contains 0

structure Core where
  id : CoreId
  hotSpan : ℕ → ℕ
  rSpans : ℕ → Deque

/-- A core as its constructor leaves it in zeroed memory. -/
def Core.new : Core := ⟨kTerminated,fun _ => 0,fun _ => ⟨kTerminated,[]⟩⟩

def kSizeClassSlots : ℕ := kCoarseClasses + 1

/-- The span pool: stacks of spans by size-class slot and backend. -/
structure SpanPool where
  currentThreads : ℤ
  limit : ℕ
  spans : ℕ → ℕ → List ℕ

structure Heap where
  coreSpace : Arena
  objectSpace : Arena
  mem : Memory
  spans : ℕ → Span
  cores : ℕ → Core
  pool : SpanPool
  freeAbs : List ℕ
  threadIds : ℕ
  tls : ℕ → ℕ
  seenMemalign : Bool

/-- The assertions that a debug build checks in the modelled functions. -/
inductive Assertion
  | coreNotTerminated
  | hotSpanOwned
  | cleanupMarkedFull
  | fullSpanNotHot
  | deletedSpanUnlinked
  | newSpanComplete
  | newSpanOwner
  | reviveCaller
  | movedAll
  | linkNotNull
  | removedNode
  | poolHasBackend
  | pushedNode
deriving DecidableEq, Repr

/-- The ways a call ends without returning. -/
inductive Fatal
  | assertion (a : Assertion)
  | coreSpaceOOM
  | objectSpaceOOM
  | nullPointer
  | diverges
deriving DecidableEq, Repr

abbrev Result := Except Fatal

/-- `ScallocAssert`, which only a debug build checks. -/
def scallocAssert (cfg : Config) (a : Assertion) (c : Bool) : Result Unit :=
  if cfg.debug && !c then .error (.assertion a) else .ok ()

namespace Heap

def setSpan (h : Heap) (s : ℕ) (x : Span) : Heap := { h with spans := Function.update h.spans s x }

def setCore (h : Heap) (c : ℕ) (x : Core) : Heap := { h with cores := Function.update h.cores c x }

def setEpoch (h : Heap) (s : ℕ) (e : Epoch) : Heap :=
  h.setSpan s { h.spans s with epoch := e }

def setHot (h : Heap) (c sc s : ℕ) : Heap :=
  h.setCore c { h.cores c with hotSpan := Function.update (h.cores c).hotSpan sc s }

def setDeque (h : Heap) (c sc : ℕ) (d : Deque) : Heap :=
  h.setCore c { h.cores c with rSpans := Function.update (h.cores c).rSpans sc d }

def setLink (h : Heap) (s : ℕ) (l : Option (ℕ × ℕ)) : Heap :=
  h.setSpan s { h.spans s with spanLink := l }

def deque (h : Heap) (c sc : ℕ) : Deque := (h.cores c).rSpans sc

/-- `Deque::PushFront` on the deque of core `c` for class `sc`. -/
def pushFront (cfg : Config) (h : Heap) (c sc : ℕ) (owner : CoreId) (node : ℕ) : Result Heap := do
  scallocAssert cfg .pushedNode (node != 0)
  let d := h.deque c sc
  if owner ≠ d.owner then return h
  scallocAssert cfg .linkNotNull d.noNull
  return (h.setDeque c sc { d with nodes := node :: d.nodes }).setLink node (some (c,sc))

/-- `Deque::RemoveBack`; 0 is `nullptr`. -/
def removeBack (cfg : Config) (h : Heap) (c sc : ℕ) : Result (ℕ × Heap) := do
  let d := h.deque c sc
  scallocAssert cfg .linkNotNull d.noNull
  match d.nodes.getLast? with
  | none => return (0,h)
  | some node =>
    return (node,(h.setDeque c sc { d with nodes := d.nodes.dropLast }).setLink node none)

/-- `Deque::RemoveFront`. -/
def removeFront (cfg : Config) (h : Heap) (c sc : ℕ) : Result (ℕ × Heap) := do
  let d := h.deque c sc
  scallocAssert cfg .linkNotNull d.noNull
  match d.nodes with
  | [] => return (0,h)
  | node :: rest => return (node,(h.setDeque c sc { d with nodes := rest }).setLink node none)

/-- `Deque::RemoveAll`, a loop that ends when `RemoveFront` finds the deque empty. -/
def removeAll (cfg : Config) (h : Heap) (c sc : ℕ) : ℕ → Result Heap
  | 0 => return h
  | fuel + 1 => do
    let (node,h) ← h.removeFront cfg c sc
    if node = 0 then return h else removeAll cfg h c sc fuel

/-- `Deque::Remove`. A node is unlinked from the ring its links point into, provided
the caller names the owner of the deque it calls. -/
def remove (cfg : Config) (h : Heap) (c sc : ℕ) (owner : CoreId) (node : ℕ) : Result Heap :=
  match (h.spans node).spanLink with
  | none => return h
  | some (c',sc') =>
    if owner ≠ (h.deque c sc).owner then return h
    else do
      let d := h.deque c' sc'
      scallocAssert cfg .removedNode (d.nodes.contains node && d.noNull)
      return (h.setDeque c' sc' { d with nodes := d.nodes.erase node }).setLink node none

def openDeque (h : Heap) (c sc : ℕ) (owner : CoreId) : Heap :=
  h.setDeque c sc { h.deque c sc with owner := owner }

def closeDeque (h : Heap) (c sc : ℕ) : Heap := h.openDeque c sc kTerminated

end Heap
end Scalloc
