import Scalloc.Heap.State

/-! # The span pool

Spans without live objects wait in stacks, one for each size-class slot and backend.
An allocation first tries its own backend, then every backend of every slot; only
if all are empty it takes fresh memory from the arena.
-/
namespace Scalloc
open ByteMemory

namespace SpanPool

/-- The slot of a class; all fine classes share slot 0. -/
def slot (sc : ℕ) : ℕ := if sc ≤ kFineClasses then 0 else sc - kFineClasses

/-- The slot tried in round `i` of the search: downwards, wrapping below 0. -/
def slotAt (slot i : ℕ) : ℕ := if i ≤ slot then slot - i else slot + kSizeClassSlots - i

/-- The backends in the order in which an allocation pops them. `rand` is what
`hwrand` returns in each round. -/
def probes (pool : SpanPool) (sc id : ℕ) (rand : ℕ → ℕ) : List (ℕ × ℕ) :=
  (slot sc,id % pool.limit) ::
    (List.range kSizeClassSlots).flatMap fun i =>
      (List.range pool.limit).map fun j =>
        (slotAt (slot sc) i,(rand i % pool.limit + j) % pool.limit)

def setStack (pool : SpanPool) (a b : ℕ) (l : List ℕ) : SpanPool :=
  { pool with spans := Function.update pool.spans a (Function.update (pool.spans a) b l) }

def pop (pool : SpanPool) (a b : ℕ) : Option (ℕ × SpanPool) :=
  match pool.spans a b with
  | [] => none
  | s :: rest => some (s,pool.setStack a b rest)

def push (pool : SpanPool) (a b s : ℕ) : SpanPool := pool.setStack a b (s :: pool.spans a b)

/-- The first successful pop along the probes; a pop of an empty stack does nothing. -/
def popFirst (pool : SpanPool) : List (ℕ × ℕ) → Option (ℕ × SpanPool)
  | [] => none
  | (a,b) :: rest =>
    match pool.pop a b with
    | some r => some r
    | none => popFirst pool rest

/-- `AnnounceNewThread` without interference. The number of threads is an `int32_t`. -/
def announceNewThread (cfg : Config) (pool : SpanPool) : SpanPool :=
  let newLimit := (pool.currentThreads + 1).bmod (2 ^ 32)
  let pool := { pool with currentThreads := newLimit }
  if newLimit > cfg.cpus ∨ newLimit > cfg.hardLimit then pool
  else if newLimit ≤ pool.limit then pool
  else { pool with limit := pool.limit + 1 }

def announceLeavingThread (pool : SpanPool) : SpanPool :=
  { pool with currentThreads := (pool.currentThreads - 1).bmod (2 ^ 32) }

/-- A new thread raises the limit by at most one and leaves the spans alone. -/
theorem announceNewThread_spec (cfg : Config) (pool : SpanPool) :
    (pool.announceNewThread cfg).spans = pool.spans ∧
      pool.limit ≤ (pool.announceNewThread cfg).limit := by
  simp only [announceNewThread]
  split_ifs
  · exact ⟨rfl,le_rfl⟩
  · exact ⟨rfl,le_rfl⟩
  · exact ⟨rfl,Nat.le_succ _⟩

/-- The first thread opens the first backend. -/
theorem announceNewThread_first (cfg : Config) {pool : SpanPool} (hl : pool.limit = 0)
    (hc : pool.currentThreads = 0) : (pool.announceNewThread cfg).limit = 1 := by
  have h1 := cfg.cpus_pos
  have h2 := cfg.hardLimit_pos
  have hone : Int.bmod (0 + 1) (2 ^ 32) = 1 := by decide
  simp only [announceNewThread, hl, hc, hone]
  rw [if_neg (by omega), if_neg (by omega)]

/-- Some backend holds the span. -/
def Holds (pool : SpanPool) (s : ℕ) : Prop := ∃ a b, s ∈ pool.spans a b

end SpanPool

namespace Heap

/-- `SpanPool::Allocate`. -/
def spanPoolAllocate (cfg : Config) (h : Heap) (sc id : ℕ) (rand : ℕ → ℕ) : Result (ℕ × Heap) := do
  scallocAssert cfg .poolHasBackend (h.pool.limit != 0)
  match h.pool.popFirst (h.pool.probes sc id rand) with
  | some (s,pool) => return (s,{ h with pool := pool })
  | none =>
    match h.objectSpace.allocateVirtualSpan with
    | none => .error .objectSpaceOOM
    | some (s,objectSpace) => return (s,{ h with objectSpace := objectSpace })

/-- The first class whose spans `SpanPool::Free` gives back to the system. -/
def kMadviseClass : ℕ := 17

/-- `SpanPool::Free` with the eager `madvise`, which zeroes all but the first page. -/
def spanPoolFree (cfg : Config) (h : Heap) (sc s id : ℕ) : Result Heap := do
  scallocAssert cfg .poolHasBackend (h.pool.limit != 0)
  let m := if kMadviseClass ≤ sc then clear h.mem (s + kPageSize) (kVirtualSpanSize - kPageSize)
    else h.mem
  return { h with mem := m, pool := h.pool.push (SpanPool.slot sc) (id % h.pool.limit) s }

end Heap
end Scalloc
