import Scalloc.Span.Conservation
import Scalloc.Lib.Transition

/-! # A span shared by its owner and other threads

The owner allocates, frees and moves remote objects to its local list; other threads
free objects with `PushReturnTag`. Every load, link write and compare-exchange on the
remote stack is a step of its own. The words that a thread has read are in its program
counter.
-/
namespace Scalloc
open ByteMemory Linked Transition

/-- What the owner does next. -/
inductive OwnerPc
  | idle
  /-- In `Free`, with the local length that `Push` returned: `Empty()`, then `Length()`. -/
  | freeEmpty (len : ℤ)
  | freeLength (len : ℤ)
  /-- In `MoveRemoteToLocalObjects`: `Empty()`, then `Length()`. -/
  | moveEmpty
  | moveLength
  /-- In `PopAll`. -/
  | popLoad
  | popSwap (old : TaggedValue)
  /-- `PopAll` has returned `objects` and `len`. -/
  | moveTest (objects len : ℕ)
  | moveLoop (objects count len : ℕ)
deriving DecidableEq

/-- What another thread does next in its `Free`. -/
inductive OtherPc
  | idle
  /-- In `PushReturnTag` of `p`. -/
  | load (p : ℕ)
  | link (p : ℕ) (old : TaggedValue)
  | swap (p : ℕ) (old : TaggedValue)
  /-- `PushReturnTag` has returned `tag`; the local length is read next. -/
  | count (tag : ℕ)
deriving DecidableEq

/-- The object that a thread has neither in the hands of the program nor on a list. -/
def OtherPc.object : OtherPc → Option ℕ
  | load p => some p
  | link p _ => some p
  | swap p _ => some p
  | _ => none

/-- A span, the threads at work on it, the slots with the program and what `Free` returned
so far, the latest first. -/
structure Shared where
  mem : Memory
  span : Span
  live : List ℕ
  owner : OwnerPc
  other : ℕ → OtherPc
  returned : List ℤ

namespace Shared

/-- A new span. -/
def init (m : Memory) (old : Span) (s sc : ℕ) (id : CoreId) : Shared :=
  ⟨m,old.construct s sc id,[],.idle,fun _ => .idle,[]⟩

def setOther (st : Shared) (t : ℕ) (pc : OtherPc) : Shared :=
  { st with other := Function.update st.other t pc }

/-- The next step of the owner. -/
def ownerStep (st : Shared) : Option Shared :=
  match st.owner with
  | .idle => none
  | .freeEmpty len =>
    if st.span.remoteFreeList = Stack.empty then
      some { st with owner := .idle, returned := len :: st.returned }
    else some { st with owner := .freeLength len }
  | .freeLength len =>
    some { st with
      owner := .idle
      returned := (len + Stack.length st.span.remoteFreeList) :: st.returned }
  | .moveEmpty =>
    if st.span.remoteFreeList = Stack.empty then some { st with owner := .idle }
    else some { st with owner := .moveLength }
  | .moveLength =>
    if Stack.length st.span.remoteFreeList = 0 then some { st with owner := .idle }
    else some { st with owner := .popLoad }
  | .popLoad =>
    let old := st.span.remoteFreeList
    if old.value = 0 then some { st with owner := .moveTest old.value old.tag.toNat }
    else some { st with owner := .popSwap old }
  | .popSwap old =>
    if st.span.remoteFreeList = old then
      some { st with
        span := { st.span with remoteFreeList := Stack.empty }
        owner := .moveTest old.value old.tag.toNat }
    else some { st with owner := .popLoad }
  | .moveTest objects len =>
    if st.span.nrLocalObjects = 0 then
      some { st with
        span := { st.span with localFreeList := st.span.localFreeList.setList objects len }
        owner := .idle }
    else some { st with owner := .moveLoop objects 0 len }
  | .moveLoop objects count len =>
    if objects = 0 then some { st with owner := .idle }
    else
      let next := loadPtr st.mem objects
      let (l,m) := st.span.localFreeList.push st.mem objects
      some { st with
        mem := m
        span := { st.span with localFreeList := l }
        owner := .moveLoop next (count + 1) len }

/-- The next step of thread `t`. -/
def otherStep (st : Shared) (t : ℕ) : Option Shared :=
  match st.other t with
  | .idle => none
  | .load p => some (st.setOther t (.link p st.span.remoteFreeList))
  | .link p old => some { st.setOther t (.swap p old) with mem := storePtr st.mem p old.value }
  | .swap p old =>
    if st.span.remoteFreeList = old then
      some { st.setOther t (.count (old.tag.toNat + 1)) with
        span := { st.span with remoteFreeList := ⟨p,old.tag + 1⟩ } }
    else some (st.setOther t (.load p))
  | .count tag =>
    some { st.setOther t .idle with returned := (tag + st.span.nrLocalObjects) :: st.returned }

/-- A call begins, a call under way takes its next step, or the program writes to a slot
it holds. -/
inductive Event
  | allocate
  | free (p : ℕ)
  | move
  | owner
  | otherFree (t p : ℕ)
  | other (t : ℕ)
  | write (p a : ℕ) (v : UInt8)

def step (st : Shared) : Event → Option Shared
  | .allocate =>
    if st.owner = .idle then
      let (p,x) := st.span.allocate st.mem
      some { st with span := x, live := if p = 0 then st.live else p :: st.live }
    else none
  | .free p =>
    if st.owner = .idle ∧ p ∈ st.live then
      let (l,m) := st.span.localFreeList.push st.mem p
      some { st with
        mem := m
        span := { st.span with localFreeList := l }
        live := st.live.erase p
        owner := .freeEmpty l.len }
    else none
  | .move => if st.owner = .idle then some { st with owner := .moveEmpty } else none
  | .owner => st.ownerStep
  | .otherFree t p =>
    if st.other t = .idle ∧ p ∈ st.live then
      some { st.setOther t (.load p) with live := st.live.erase p }
    else none
  | .other t => st.otherStep t
  | .write p a v =>
    if p ∈ st.live ∧ p ≤ a ∧ a < p + classToSize st.span.sizeClass then
      some { st with mem := Function.update st.mem a v }
    else none

end Shared
end Scalloc
