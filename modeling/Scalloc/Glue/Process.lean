import Scalloc.Heap.Refinement
import Scalloc.Glue.Dispatch
import Scalloc.Glue.LargeRequest

/-! # The allocator of a process

`malloc`, `calloc`, `realloc` and `free` over the cores of the threads and the mappings of
large objects, in one memory. What kind of object a pointer is, is decided by
`Arena::Contains` and by the words in front of it, as in the source.
-/
namespace Scalloc.Process
open ByteMemory Transition

/-- The heap with the memory of the process, and the regions that are mapped for large
objects, each with its length. -/
structure Machine where
  heap : Heap
  maps : List (ℕ × ℕ)

/-- The memory, the rest of the machine as it is. -/
def Machine.setMem (mc : Machine) (m : Memory) : Machine :=
  { mc with heap := { mc.heap with mem := m } }

/-- What `mmap` may return for a length: whole pages that nothing else uses. -/
def Machine.mayMap (mc : Machine) (len base : ℕ) : Bool :=
  decide (0 < len ∧ 0 < base ∧ base % kPageSize = 0 ∧ base + len ≤ kWord ∧
    (base + len ≤ mc.heap.objectSpace.start ∨ mc.heap.objectSpace.fin ≤ base)) &&
  mc.maps.all fun r => decide (base + len ≤ r.1 ∨ r.1 + r.2 ≤ base)

/-- `mmap` failed or returned a region that it may return. -/
def Machine.grants (mc : Machine) (len : ℕ) (map : Option ℕ) : Bool := map.all (mc.mayMap len)

section Calls
variable (cfg : Config) (mc : Machine) (t : ℕ)

/-- `LargeObject::Allocate`, where `mmap` returned `map`; `none` is the fatal "mmap failed". -/
def largeAllocate (size : ℕ) (map : Option ℕ) : Option (ℕ × Machine) :=
  map.map fun base =>
    let r := LargeObject.allocate base size mc.heap.mem
    (r.1,{ mc.setMem r.2 with maps := (base,LargeObject.actualSize size) :: mc.maps })

/-- `malloc` by thread `t`. `none` stands for every fatal error. -/
def malloc (size : ℕ) (rand : ℕ → ℕ → ℕ) (map : Option ℕ) : Option (ℕ × Machine) :=
  match mc.heap.allocate cfg (mc.heap.tls t) size rand with
  | .ok (.object p,h) => some (p,{ mc with heap := h })
  | .ok (.large size,h) => largeAllocate { mc with heap := h } size map
  | .error _ => none

/-- `free`. The `munmap` of a large object takes its region and length from the header. -/
def free (p : ℕ) : Option Machine :=
  if mc.heap.objectSpace.contains p then
    (mc.heap.free cfg (mc.heap.tls t) p).toOption.map fun h => { mc with heap := h }
  else if p = 0 then some mc
  else (LargeObject.free mc.heap.mem p).map fun r => { mc with maps := mc.maps.erase r }

def calloc (nmemb size : ℕ) (rand : ℕ → ℕ → ℕ) (map : Option ℕ) : Option (ℕ × Machine) :=
  let mallocSize := nmemb * size % kWord
  if size ≠ 0 ∧ mallocSize / size ≠ nmemb then some (0,mc)
  else (malloc cfg mc t mallocSize rand map).map fun r =>
    if r.1 ≠ 0 then (r.1,r.2.setMem (clear r.2.heap.mem r.1 mallocSize)) else r

/-- The size that `realloc` takes the old object to have. -/
def oldSize (p : ℕ) : Option ℕ :=
  if mc.heap.objectSpace.contains p then
    some (classToSize (mc.heap.spans (fromObject p)).sizeClass)
  else LargeObject.payloadSize mc.heap.mem p

def realloc (ptr size : ℕ) (rand : ℕ → ℕ → ℕ) (map : Option ℕ) : Option (ℕ × Machine) :=
  if ptr = 0 then malloc cfg mc t size rand map
  else (oldSize mc ptr).bind fun old =>
    if size ≤ old then some (ptr,mc)
    else (malloc cfg mc t size rand map).bind fun r =>
      if r.1 = 0 then some r
      else (free cfg (r.2.setMem (move r.2.heap.mem r.1 ptr old)) t ptr).map fun mc => (r.1,mc)

end Calls

/-- A block in the hands of the program: of a span, or the payload of a mapping. -/
inductive Held
  | small (b : Block)
  | large (base len : ℕ)
deriving DecidableEq, Repr

namespace Held

def start : Held → ℕ
  | small b => b.start
  | large base _ => LargeObject.objectStart base

def size : Held → ℕ
  | small b => b.size
  | large _ len => len - LargeObject.kHeaderSize

def foot (x : Held) : Set ℕ := Set.Ico x.start (x.start + x.size)

/-- The block at `q` that a request of `size` bytes gets. -/
def of (q size : ℕ) : Held :=
  if sizeToClass size = 0 then
    large (q - LargeObject.kHeaderSize) (LargeObject.actualSize size)
  else small ⟨q,sizeToClass size⟩

/-- `Arena::Contains` tells what kind of object the pointer is. -/
def Routed (a : Arena) : Held → Bool
  | small b => a.contains b.start
  | large base _ => !a.contains (LargeObject.objectStart base)

end Held

structure State where
  machine : Machine
  live : List Held

/-- The calls of the program, with the answers of `hwrand` and `mmap`. -/
inductive Call
  | start (t : ℕ)
  | exit (t : ℕ)
  | malloc (t size : ℕ) (rand : ℕ → ℕ → ℕ) (map : Option ℕ)
  | free (t p : ℕ)
  | calloc (t nmemb size : ℕ) (rand : ℕ → ℕ → ℕ) (map : Option ℕ)
  | realloc (t p size : ℕ) (rand : ℕ → ℕ → ℕ) (map : Option ℕ)
  | write (x : Held) (a : ℕ) (v : UInt8)

/-- The pointer is null or in the hands of the program. -/
def State.owns (st : State) (p : ℕ) : Bool := decide (p = 0) || st.live.any fun x => x.start == p

/-- The program keeps the pointer it got, unless it is null or the one it had. -/
def State.keep (st : State) (old size : ℕ) (r : ℕ × Machine) : State :=
  if r.1 = 0 ∨ r.1 = old then ⟨r.2,st.live⟩
  else ⟨r.2,Held.of r.1 size :: st.live.filter fun x => x.start ≠ old⟩

/-- One call. It is enabled when its thread has a core, its arguments are words and valid
pointers, and `mmap` answers as it may. A fatal error has no next state. -/
def step (cfg : Config) (st : State) : Call → Option State
  | .start t =>
    let h := st.machine.heap
    if h.tls t = 0 then
      (h.getMeALAB cfg t).toOption.map fun h => { st with machine := { st.machine with heap := h } }
    else none
  | .exit t =>
    let h := st.machine.heap
    if h.tls t ≠ 0 then
      (h.threadDestructor cfg t).toOption.map fun h =>
        { st with machine := { st.machine with heap := h } }
    else none
  | .malloc t size rand map =>
    if st.machine.heap.tls t ≠ 0 ∧ size < kWord ∧
        st.machine.grants (LargeObject.actualSize size) map then
      (malloc cfg st.machine t size rand map).map (st.keep 0 size)
    else none
  | .free t p =>
    if st.machine.heap.tls t ≠ 0 ∧ st.owns p then
      (free cfg st.machine t p).map fun mc => ⟨mc,st.live.filter fun x => x.start ≠ p⟩
    else none
  | .calloc t nmemb size rand map =>
    if st.machine.heap.tls t ≠ 0 ∧ nmemb < kWord ∧ size < kWord ∧
        st.machine.grants (LargeObject.actualSize (nmemb * size % kWord)) map then
      (calloc cfg st.machine t nmemb size rand map).map (st.keep 0 (nmemb * size))
    else none
  | .realloc t p size rand map =>
    if st.machine.heap.tls t ≠ 0 ∧ size < kWord ∧ st.owns p ∧
        st.machine.grants (LargeObject.actualSize size) map then
      (realloc cfg st.machine t p size rand map).map (st.keep p size)
    else none
  | .write x a v =>
    if x ∈ st.live ∧ x.start ≤ a ∧ a < x.start + x.size then
      some { st with machine := st.machine.setMem (Function.update st.machine.heap.mem a v) }
    else none

def State.init (l : Layout) (seenMemalign : Bool) : State := ⟨⟨Heap.init l seenMemalign,[]⟩,[]⟩

/-- The call asks for no more than fits with the header of a large object. -/
def Call.Fits : Call → Prop
  | .malloc _ size _ _ => size + 15 < kWord
  | .calloc _ nmemb size _ _ => nmemb * size + 15 < kWord ∨ kWord ≤ nmemb * size
  | .realloc _ _ size _ _ => size + 15 < kWord
  | _ => True

/-- `Arena::Contains` tells the two kinds of live pointers apart. -/
def State.Routed (st : State) : Prop :=
  ∀ x ∈ st.live, x.Routed st.machine.heap.objectSpace = true

end Scalloc.Process
