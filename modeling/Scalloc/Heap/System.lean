import Scalloc.Heap.Core
import Scalloc.Lib.Transition

/-! # The allocator as a transition system

Threads start and exit, allocate and free, and write to their live blocks; every
call is one indivisible step. The program frees only live blocks.
-/
namespace Scalloc
open ByteMemory Transition

namespace Heap

/-- `sizeof(Core)`. -/
def kCoreSize : ℕ := 2344

/-- `FindFreeAB`: a core of an exited thread, or a new one. -/
def findFreeAB (h : Heap) : Result (ℕ × Heap) :=
  match h.freeAbs with
  | c :: rest => .ok (c,{ h with freeAbs := rest })
  | [] =>
    match h.coreSpace.allocate kCoreSize with
    | none => .error .coreSpaceOOM
    | some (c,coreSpace) => .ok (c,{ h with coreSpace := coreSpace }.setCore c Core.new)

/-- `GetMeALAB` by a thread without a core; the tag is the thread number, cut to the
16 bits of a tag. -/
def getMeALAB (cfg : Config) (h : Heap) (t : ℕ) : Result Heap := do
  let (c,h) ← h.findFreeAB
  let id : CoreId := ⟨c,BitVec.ofNat 16 (h.threadIds + 1)⟩
  let h := { h with threadIds := h.threadIds + 1 }.initCore c id
  return { h with
    tls := Function.update h.tls t c
    pool := h.pool.announceNewThread cfg }

/-- `ThreadDestructor`. -/
def threadDestructor (cfg : Config) (h : Heap) (t : ℕ) : Result Heap := do
  let c := h.tls t
  let h ← h.destroy cfg c
  return { h with
    pool := h.pool.announceLeavingThread
    freeAbs := c :: h.freeAbs
    tls := Function.update h.tls t 0 }

end Heap

/-- Where `mmap` placed the arenas: `Arena::Init` aligns the object space to its size
and the regions do not reach the end of the address space. -/
structure Layout where
  coreStart : ℕ
  objectStart : ℕ
  coreStart_pos : 0 < coreStart
  objectStart_pos : 0 < objectStart
  objectStart_aligned : objectStart % kObjectSpaceSize = 0
  object_bounded : objectStart + kObjectSpaceSize ≤ kWord

/-- The allocator after `ScallocInit`, before the first thread takes a core. -/
def Heap.init (l : Layout) (seenMemalign : Bool) : Heap where
  coreSpace := ⟨l.coreStart,l.coreStart + kLABSpaceSize,kLABSpaceSize,l.coreStart⟩
  objectSpace := ⟨l.objectStart,l.objectStart + kObjectSpaceSize,kObjectSpaceSize,l.objectStart⟩
  mem := fun _ => 0
  spans := fun _ => Span.zero
  cores := fun _ => Core.new
  pool := ⟨0,0,fun _ _ => []⟩
  freeAbs := []
  threadIds := 0
  tls := fun _ => 0
  seenMemalign := seenMemalign

/-- An object in the hands of the program, with the class it was requested in. -/
structure Block where
  start : ℕ
  sizeClass : ℕ
deriving DecidableEq, Repr

def Block.size (b : Block) : ℕ := classToSize b.sizeClass

/-- The heap and the blocks the program holds. -/
structure State where
  heap : Heap
  live : List Block

inductive Event
  | start (t : ℕ)
  | exit (t : ℕ)
  | allocate (t size : ℕ) (rand : ℕ → ℕ → ℕ)
  | free (t : ℕ) (b : Block)
  | write (b : Block) (a : ℕ) (v : UInt8)

def State.init (l : Layout) (seenMemalign : Bool) : State := ⟨Heap.init l seenMemalign,[]⟩

/-- One call of the program. A call is enabled when its thread has a core and its
arguments are valid; a call that ends in a fatal error has no next state. -/
def step (cfg : Config) (st : State) : Event → Option State
  | .start t =>
    if st.heap.tls t = 0 then (st.heap.getMeALAB cfg t).toOption.map fun h => { st with heap := h }
    else none
  | .exit t =>
    if st.heap.tls t ≠ 0 then
      (st.heap.threadDestructor cfg t).toOption.map fun h => { st with heap := h }
    else none
  | .allocate t size rand =>
    if st.heap.tls t ≠ 0 ∧ 0 < size ∧ size ≤ kMaxMediumSize then
      match st.heap.allocate cfg (st.heap.tls t) size rand with
      | .ok (.object p,h) =>
        some ⟨h,if p = 0 then st.live else ⟨p,sizeToClass size⟩ :: st.live⟩
      | _ => none
    else none
  | .free t b =>
    if st.heap.tls t ≠ 0 ∧ b ∈ st.live then
      (st.heap.free cfg (st.heap.tls t) b.start).toOption.map fun h => ⟨h,st.live.erase b⟩
    else none
  | .write b a v =>
    if b ∈ st.live ∧ b.start ≤ a ∧ a < b.start + b.size then
      some { st with heap := { st.heap with mem := Function.update st.heap.mem a v } }
    else none

/-- The states reached by runs all of whose steps meet `ok`. -/
def ReachableIf (cfg : Config) (ok : State → Event → Prop) (st : State) : Prop :=
  ∃ l seen, Runs (step cfg) ok (State.init l seen) st

/-- The states reached by arbitrary runs. -/
def Reachable (cfg : Config) (st : State) : Prop := ReachableIf cfg Always st

/-- A machine with four processors and the default build. -/
def sampleConfig : Config := { cpus := 4, cpus_pos := by decide }

theorem sampleConfig_default : sampleConfig.Default := ⟨rfl,rfl⟩

def sampleLayout : Layout where
  coreStart := kPageSize
  objectStart := kObjectSpaceSize
  coreStart_pos := by decide
  objectStart_pos := by decide
  objectStart_aligned := by decide
  object_bounded := by decide

/-- The state after the events, if all are enabled. -/
def sampleRun (es : List Event) : Option State :=
  exec (step sampleConfig) Always (State.init sampleLayout false) es

theorem reachable_sampleRun {es : List Event} {st : State} (h : sampleRun es = some st) :
    Reachable sampleConfig st := ⟨sampleLayout,false,runs_of_exec h⟩

end Scalloc
