import Scalloc.Base.Arena
import Scalloc.Glue.LargeObject

/-! # Reallocation

`realloc` and the inner `free` over an arbitrary `malloc`. What matters of the heap
is the memory, the size class in each span header, the arena bounds and whether
`posix_memalign` has been called.
-/
namespace Scalloc.Glue
open ByteMemory

structure Image where
  mem : Memory
  sizeClass : ℕ → ℕ
  objectSpace : Arena
  seenMemalign : Bool

/-- What a free gives back: an address put on the free list of its span, or a
mapping returned to the system. -/
inductive Release
  | block (addr : ℕ)
  | unmap (base len : ℕ)
deriving DecidableEq, Repr

/-- `free`, where `link` is the word `Core::Free` writes into the freed object.
`none` is the fatal error of an invalid large object. -/
def free (g : Image) (link p : ℕ) : Option (Memory × List Release) :=
  if g.objectSpace.contains p then
    let s := fromObject p
    let addr := freedAddress kIntFast32Linux g.seenMemalign g.mem s (g.sizeClass s) p
    some (store g.mem addr 8 link,[.block addr])
  else if p = 0 then some (g.mem,[])
  else (LargeObject.free g.mem p).map fun r => (g.mem,[.unmap r.1 r.2])

/-- The size `realloc` takes the old object to have. -/
def oldSize (g : Image) (p : ℕ) : Option ℕ :=
  if g.objectSpace.contains p then some (classToSize (g.sizeClass (fromObject p)))
  else LargeObject.payloadSize g.mem p

inductive Outcome
  | fatal
  | returns (q : ℕ) (mem : Memory) (released : List Release)

/-- `realloc`. -/
def realloc (malloc : Malloc) (link : ℕ) (g : Image) (ptr size : ℕ) : Outcome :=
  if ptr = 0 then
    let (q,m) := malloc size g.mem
    .returns q m []
  else
    match oldSize g ptr with
    | none => .fatal
    | some old =>
      if size ≤ old then .returns ptr g.mem []
      else
        let (q,m) := malloc size g.mem
        if q = 0 then .returns 0 m []
        else
          match free { g with mem := move m q ptr old } link ptr with
          | none => .fatal
          | some (m,released) => .returns q m released

/-- The block that holds a live pointer: the region `[lo, fin)` that is the
caller's together with its header, and the release that gives back exactly this
block. -/
structure Holding where
  lo : ℕ
  fin : ℕ
  release : Release

/-- A live pointer into block `i` of the span at `s`: the block start, or a pointer
that `posix_memalign` moved, whose last tag byte the program has to leave alone. -/
structure SpanPointer (g : Image) (p s i : ℕ) : Prop where
  span : IsVirtualSpan s
  objectClass : IsObjectClass (g.sizeClass s)
  slot : i < classToObjects (g.sizeClass s)
  start_le : blockStart s (g.sizeClass s) i ≤ p
  lt_fin : p < blockStart s (g.sizeClass s) i + classToSize (g.sizeClass s)
  tagged : p ≠ blockStart s (g.sizeClass s) i → g.mem (p - 1) = 0xAA
  routed : g.objectSpace.contains p = true

/-- A live pointer into the payload of the mapping of `len` bytes at `base`. -/
structure LargePointer (g : Image) (p base len : ℕ) : Prop where
  pageAligned : base % kPageSize = 0
  wholePages : len % kPageSize = 0
  mapped : base + len ≤ kWord
  header : LargeObject.HasHeader g.mem base len
  start_le : LargeObject.objectStart base ≤ p
  lt_fin : p < base + len
  routed : g.objectSpace.contains p = false

def spanHolding (g : Image) (s i : ℕ) : Holding where
  lo := blockStart s (g.sizeClass s) i
  fin := blockStart s (g.sizeClass s) i + classToSize (g.sizeClass s)
  release := .block (blockStart s (g.sizeClass s) i)

def largeHolding (base len : ℕ) : Holding where
  lo := base
  fin := base + len
  release := .unmap base len

/-- A live pointer and the block that holds it. -/
inductive LivePointer (g : Image) (p : ℕ) : Holding → Prop
  | span {s i : ℕ} : SpanPointer g p s i → LivePointer g p (spanHolding g s i)
  | large {base len : ℕ} : LargePointer g p base len → LivePointer g p (largeHolding base len)

/-- The pointer leads a free back to the block that holds it: it is the block start
of a span object, or lies on the page of the large object's header. -/
def LeadsBack (p : ℕ) (b : Holding) : Prop :=
  match b.release with
  | .block addr => p = addr
  | .unmap base _ => p &&& kPageNrMask = base

/-- In place the new size has to fit behind the pointer; a move needs a pointer that
leads back to its block, unless nothing is allocated. -/
def Fits (malloc : Malloc) (g : Image) (p size : ℕ) (b : Holding) : Prop :=
  match oldSize g p with
  | none => True
  | some old =>
    (size ≤ old ∧ p + size ≤ b.fin) ∨
    (old < size ∧ ((malloc size g.mem).1 = 0 ∨ LeadsBack p b))

end Scalloc.Glue
