import Scalloc.Span.BlockStart
import Scalloc.Span.Epoch

/-! # Free lists and the span header

A span keeps its free objects in three places: a list threaded through the objects
and used by the owner, the untouched rest behind the bump pointer, and a stack of
objects freed by other threads whose tag is its length.
-/
namespace Scalloc
open ByteMemory

/-- A pointer and a 16-bit tag, compared and exchanged as one word. -/
structure TaggedValue where
  value : ℕ
  tag : BitVec 16
deriving DecidableEq, Repr

abbrev CoreId := TaggedValue

def kTerminated : CoreId := ⟨0,0⟩

def loadPtr (m : Memory) (p : ℕ) : ℕ := load m p 8
def storePtr (m : Memory) (p v : ℕ) : Memory := store m p 8 v

structure IncrementalFreeList where
  list : ℕ
  bumpPointer : ℕ
  len : ℤ
  increment : ℕ
deriving DecidableEq, Repr

namespace IncrementalFreeList

def new (start sc : ℕ) : IncrementalFreeList := ⟨0,start,classToObjects sc,classToSize sc⟩

/-- `Push`; its result is the new length. -/
def push (l : IncrementalFreeList) (m : Memory) (obj : ℕ) : IncrementalFreeList × Memory :=
  ({ l with list := obj, len := l.len + 1 },storePtr m obj l.list)

def setList (l : IncrementalFreeList) (objs : ℕ) (len : ℤ) : IncrementalFreeList :=
  { l with list := objs, len := len }

/-- `Pop`; 0 is `NULL`. -/
def pop (l : IncrementalFreeList) (m : Memory) : ℕ × IncrementalFreeList :=
  if l.list ≠ 0 then (l.list,{ l with list := loadPtr m l.list, len := l.len - 1 })
  else if l.len = 0 then (0,l)
  else (l.bumpPointer,{ l with bumpPointer := l.bumpPointer + l.increment, len := l.len - 1 })

end IncrementalFreeList

namespace Stack

/-- The top word of an empty stack. -/
def empty : TaggedValue := ⟨0,0⟩

def length (top : TaggedValue) : ℕ := top.tag.toNat

/-- `PushReturnTag` without interference: the new top, the memory and the result. -/
def pushReturnTag (top : TaggedValue) (m : Memory) (p : ℕ) : TaggedValue × Memory × ℕ :=
  (⟨p,top.tag + 1⟩,storePtr m p top.value,top.tag.toNat + 1)

/-- `PopAll` without interference: the first element, the length and the new top. -/
def popAll (top : TaggedValue) : ℕ × ℕ × TaggedValue :=
  if top.value = 0 then (top.value,top.tag.toNat,top) else (top.value,top.tag.toNat,empty)

end Stack

/-- The header of a span. `spanLink` is the ring of `r_spans_` into which the two
link words point, `none` when both are null. -/
structure Span where
  spanLink : Option (ℕ × ℕ)
  owner : CoreId
  epoch : Epoch
  sizeClass : ℕ
  localFreeList : IncrementalFreeList
  remoteFreeList : TaggedValue
deriving DecidableEq, Repr

namespace Span

/-- A header in memory that was never written. -/
def zero : Span := ⟨none,kTerminated,0,0,⟨0,0,0,0⟩,Stack.empty⟩

def nrRemoteObjects (s : Span) : ℤ :=
  if s.remoteFreeList = Stack.empty then 0 else Stack.length s.remoteFreeList

def nrLocalObjects (s : Span) : ℤ := s.localFreeList.len

def nrFreeObjects (s : Span) : ℤ := s.nrLocalObjects + s.nrRemoteObjects

def allocate (s : Span) (m : Memory) : ℕ × Span :=
  let (obj,l) := s.localFreeList.pop m
  (obj,{ s with localFreeList := l })

/-- `Span::Free`: the header, the memory and the number of free objects. -/
def free (s : Span) (m : Memory) (p : ℕ) (caller : CoreId) : Span × Memory × ℤ :=
  if s.owner = caller then
    let (l,m) := s.localFreeList.push m p
    let s := { s with localFreeList := l }
    (s,m,l.len + s.nrRemoteObjects)
  else
    let (top,m,tag) := Stack.pushReturnTag s.remoteFreeList m p
    let s := { s with remoteFreeList := top }
    (s,m,(tag : ℤ) + s.nrLocalObjects)

/-- The loop of `MoveRemoteToLocalObjects`, with the number of moved objects. It runs
until the null link; `none` if that is not met within `fuel` objects. -/
def moveLoop (l : IncrementalFreeList) (m : Memory) (objects count : ℕ) :
    ℕ → Option (IncrementalFreeList × Memory × ℕ)
  | 0 => if objects = 0 then some (l,m,count) else none
  | fuel + 1 =>
    if objects = 0 then some (l,m,count)
    else
      let next := loadPtr m objects
      let (l,m) := l.push m objects
      moveLoop l m next (count + 1) fuel

/-- `MoveRemoteToLocalObjects`: the header, the memory and whether the counted length
agrees with the tag. A virtual span has fewer objects than bytes, so its size bounds
the loop. -/
def moveRemoteToLocalObjects (s : Span) (m : Memory) : Option (Span × Memory × Bool) :=
  if s.nrRemoteObjects ≠ 0 then
    let (objects,actualLen,top) := Stack.popAll s.remoteFreeList
    let s := { s with remoteFreeList := top }
    if s.nrLocalObjects = (0 : ℤ) then
      some ({ s with localFreeList := s.localFreeList.setList objects actualLen },m,true)
    else
      (moveLoop s.localFreeList m objects 0 kVirtualSpanSize).map fun (l,m,count) =>
        ({ s with localFreeList := l },m,count == actualLen)
  else some (s,m,true)

/-- The constructor on a header whose epoch survives from an earlier life. -/
def construct (old : Span) (s sc : ℕ) (owner : CoreId) : Span where
  spanLink := none
  owner := owner
  epoch := (Epoch.newMarkHot old.epoch old.epoch).getD old.epoch
  sizeClass := sc
  localFreeList := .new (headerEnd s) sc
  remoteFreeList := Stack.empty

end Span
end Scalloc
