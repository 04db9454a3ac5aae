import Scalloc.Heap.Pool

/-! # Allocation and deallocation of a core

`Core::Allocate`, `Core::Free`, `Core::GetSpan` and what they call, each run without
interference. `rand` stands for the values of `hwrand`.
-/
namespace Scalloc.Heap
open ByteMemory

/-- `Span::New`. -/
def newSpan (cfg : Config) (h : Heap) (sc : ℕ) (owner : CoreId) (rand : ℕ → ℕ) :
    Result (ℕ × Heap) := do
  let (s,h) ← h.spanPoolAllocate cfg sc owner.tag.toNat rand
  let x := (h.spans s).construct s sc owner
  scallocAssert cfg .newSpanComplete
    (x.localFreeList.len == classToObjects sc && Stack.length x.remoteFreeList == 0)
  scallocAssert cfg .newSpanOwner (owner.value != 0)
  return (s,h.setSpan s x)

/-- `Span::Delete`. -/
def deleteSpan (cfg : Config) (h : Heap) (s : ℕ) : Result Heap := do
  scallocAssert cfg .deletedSpanUnlinked (h.spans s).spanLink.isNone
  h.spanPoolFree cfg (h.spans s).sizeClass s (h.spans s).owner.tag.toNat

/-- `Span::MoveRemoteToLocalObjects` on the span at `s`. -/
def moveRemote (cfg : Config) (h : Heap) (s : ℕ) : Result Heap :=
  match (h.spans s).moveRemoteToLocalObjects h.mem with
  | none => .error .diverges
  | some (x,m,agrees) => do
    scallocAssert cfg .movedAll agrees
    return { h.setSpan s x with mem := m }

/-- The first loop of `GetSpan`: the back of the deque that can be marked hot, 0 if
there is none. -/
def takeReusable (cfg : Config) (h : Heap) (c sc : ℕ) : ℕ → Result (ℕ × Heap)
  | 0 => return (0,h)
  | fuel + 1 => do
    let (s,h) ← h.removeBack cfg c sc
    if s = 0 then return (0,h)
    else
      let e := (h.spans s).epoch
      match Epoch.newMarkHot e e with
      | some e' => do
        let h := h.setEpoch s e'
        scallocAssert cfg .hotSpanOwned ((h.spans s).owner == (h.cores c).id)
        let h ← h.moveRemote cfg s
        return (s,h)
      | none => takeReusable cfg h c sc fuel

/-- The second loop of `GetSpan`, in builds that do not clean up in `Core::Free`. -/
def cleanup (cfg : Config) (h : Heap) (c sc : ℕ) : ℕ → Result Heap
  | 0 => return h
  | fuel + 1 => do
    let (s,h) ← h.removeBack cfg c sc
    if s = 0 then return h
    else
      let x := h.spans s
      if x.nrFreeObjects = classToObjects x.sizeClass then do
        let marked := Epoch.newMarkFull x.epoch x.epoch
        scallocAssert cfg .cleanupMarkedFull marked.isSome
        let h ← (h.setEpoch s (marked.getD x.epoch)).deleteSpan cfg s
        cleanup cfg h c sc fuel
      else cleanup cfg h c sc fuel

/-- `Core::GetSpan`. -/
def getSpan (cfg : Config) (h : Heap) (c sc : ℕ) (rand : ℕ → ℕ) : Result (ℕ × Heap) := do
  let (s,h) ← h.takeReusable cfg c sc (h.deque c sc).nodes.length
  let (s,h) ← if s = 0 then h.newSpan cfg sc (h.cores c).id rand else pure (s,h)
  let h ← if cfg.cleanupInFree then pure h else h.cleanup cfg c sc (h.deque c sc).nodes.length
  return (s,h)

/-- What a request gets: an object (0 is `nullptr`), or it is passed on to
`LargeObject::Allocate`. -/
inductive Allocation
  | object (p : ℕ)
  | large (size : ℕ)
deriving DecidableEq, Repr

/-- `hot_span_[sc]->Allocate()`. -/
def allocateFrom (h : Heap) (c sc : ℕ) : ℕ × Heap :=
  let s := (h.cores c).hotSpan sc
  let (obj,x) := (h.spans s).allocate h.mem
  (obj,h.setSpan s x)

/-- The part of `Core::Allocate` that runs with a hot span in place. -/
def allocateHot (cfg : Config) (h : Heap) (c sc : ℕ) (rand : ℕ → ℕ) :
    Result (Allocation × Heap) := do
  let s := (h.cores c).hotSpan sc
  let (obj,h) := h.allocateFrom c sc
  if obj ≠ 0 then return (.object obj,h)
  else if (h.spans s).nrFreeObjects > classToReuseThreshold cfg.reuseThreshold sc then
    let h ← h.moveRemote cfg s
    let (obj,h) := h.allocateFrom c sc
    return (.object obj,h)
  else
    let h := h.setEpoch s (Epoch.newMarkFloating (h.spans s).epoch)
    let (s,h) ← h.getSpan cfg c sc rand
    let h := h.setHot c sc s
    if s = 0 then return (.object 0,h)
    else
      let (obj,h) := h.allocateFrom c sc
      return (.object obj,h)

/-- `Core::Allocate`. -/
def allocate (cfg : Config) (h : Heap) (c size : ℕ) (rand : ℕ → ℕ → ℕ) :
    Result (Allocation × Heap) := do
  scallocAssert cfg .coreNotTerminated ((h.cores c).id != kTerminated)
  let sc := sizeToClass size
  if (h.cores c).hotSpan sc = 0 then
    if sc = 0 then
      if size = 0 then return (.object 0,h) else return (.large size,h)
    else
      let (s,h) ← h.getSpan cfg c sc (rand 0)
      (h.setHot c sc s).allocateHot cfg c sc (rand 1)
  else h.allocateHot cfg c sc (rand 1)

/-- The test of `Core::Free` that the owner it read has terminated, or that its core
was recycled for another thread. -/
def ownerGone (h : Heap) (owner : CoreId) : Bool :=
  (h.cores owner.value).id == kTerminated || owner != (h.cores owner.value).id

/-- The caller takes over a span whose owner is gone. -/
def revive (cfg : Config) (h : Heap) (s : ℕ) (oldOwner : CoreId) (oldEpoch : Epoch)
    (caller : CoreId) : Result (CoreId × Heap) := do
  if h.ownerGone oldOwner then
    scallocAssert cfg .reviveCaller (caller.value != 0)
    if (h.spans s).owner = oldOwner then
      let x := { h.spans s with owner := caller }
      let e := (Epoch.tryMarkFloating x.epoch oldEpoch).getD x.epoch
      return (caller,h.setSpan s { x with epoch := e })
    else return (oldOwner,h)
  else return (oldOwner,h)

/-- The end of `Core::Free`: a span without live objects goes to the pool, a span
above the threshold to the deque of its owner. -/
def settle (cfg : Config) (h : Heap) (s sc : ℕ) (oldOwner : CoreId) (oldEpoch : Epoch)
    (freeObjects : ℤ) : Result Heap := do
  if cfg.cleanupInFree ∧ freeObjects = classToObjects sc ∧ Epoch.isFloatingOrReusable oldEpoch then
    match Epoch.newMarkFull (h.spans s).epoch oldEpoch with
    | none => return h
    | some e =>
      let h := h.setEpoch s e
      let h ← if Epoch.isReusable oldEpoch then h.remove cfg oldOwner.value sc oldOwner s else pure h
      scallocAssert cfg .fullSpanNotHot (!Epoch.isHot (h.spans s).epoch)
      h.deleteSpan cfg s
  else if freeObjects > classToReuseThreshold cfg.reuseThreshold sc ∧ !Epoch.isReusable oldEpoch then
    match Epoch.newMarkReuse (h.spans s).epoch oldEpoch with
    | none => return h
    | some e => (h.setEpoch s e).pushFront cfg oldOwner.value sc oldOwner s
  else return h

/-- `Core::Free`. -/
def free (cfg : Config) (h : Heap) (c p : ℕ) : Result Heap := do
  scallocAssert cfg .coreNotTerminated ((h.cores c).id != kTerminated)
  let s := fromObject p
  let x := h.spans s
  let p := freedAddress kIntFast32Linux h.seenMemalign h.mem s x.sizeClass p
  let (y,m,freeObjects) := x.free h.mem p (h.cores c).id
  let h := { h.setSpan s y with mem := m }
  let (oldOwner,h) ← h.revive cfg s x.owner x.epoch (h.cores c).id
  h.settle cfg s x.sizeClass oldOwner x.epoch freeObjects

/-- One round of the loop in `Core::Destroy`. -/
def destroyClass (cfg : Config) (h : Heap) (c sc : ℕ) : Result Heap :=
  let h := h.closeDeque c sc
  let s := (h.cores c).hotSpan sc
  let h := if s ≠ 0 then
      (h.setEpoch s (Epoch.newMarkFloating (h.spans s).epoch)).setHot c sc 0
    else h
  h.removeAll cfg c sc ((h.deque c sc).nodes.length + 1)

/-- `Core::Destroy`. -/
def destroy (cfg : Config) (h : Heap) (c : ℕ) : Result Heap := do
  let h ← (List.range kNumClasses).foldlM (fun h sc => h.destroyClass cfg c sc) h
  return h.setCore c { h.cores c with id := kTerminated }

/-- `Core::Init`. -/
def initCore (h : Heap) (c : ℕ) (id : CoreId) : Heap :=
  (List.range kNumClasses).foldl (fun h sc => h.openDeque c sc id)
    (h.setCore c { h.cores c with id := id })

end Scalloc.Heap
