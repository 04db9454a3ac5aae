import Scalloc.Heap.State

/-! # Where every span is

The board forgets memory and keeps, for every span, its card (mark, owner, class, link
and number of free objects) and where it is: in a hot slot, in a deque, in the pool or
nowhere. The moves are what the calls of the allocator do to one span; each keeps the
board in order.
-/
namespace Scalloc
open Epoch

/-- What the header of a span says about it. -/
structure Card where
  mark : Mark
  owner : CoreId
  sizeClass : ℕ
  link : Option (ℕ × ℕ)
  free : ℤ

structure Board where
  known : ℕ → Prop
  card : ℕ → Card
  ids : ℕ → CoreId
  deque : ℕ → ℕ → Deque
  hot : ℕ → ℕ → ℕ
  pool : ℕ → ℕ → List ℕ

/-- A function of two arguments changed at one pair. -/
def update₂ {α : Type*} (f : ℕ → ℕ → α) (a b : ℕ) (v : α) : ℕ → ℕ → α := fun a' b' =>
  if a' = a ∧ b' = b then v else f a' b'

namespace Board

def Live (B : Board) (c : ℕ) : Prop := B.ids c ≠ kTerminated

def Pooled (B : Board) (s : ℕ) : Prop := ∃ a b, s ∈ B.pool a b

def IsHot (B : Board) (s : ℕ) : Prop := ∃ c sc, B.hot c sc = s

/-- The owner has terminated or its core was recycled. -/
def Gone (B : Board) (owner : CoreId) : Prop :=
  B.ids owner.value = kTerminated ∨ owner ≠ B.ids owner.value

instance (B : Board) (owner : CoreId) : Decidable (B.Gone owner) :=
  inferInstanceAs (Decidable (_ ∨ _))

end Board

/-- Where a span can be. -/
inductive Place
  | hot (c sc : ℕ)
  | linked (c sc : ℕ)
  | pooled (a b : ℕ)
  | loose
deriving DecidableEq

namespace Place

def link : Place → Option (ℕ × ℕ)
  | linked c sc => some (c,sc)
  | _ => none

/-- The cards a span may have at a place. -/
def Allows (percent : ℕ) (B : Board) (x : Card) : Place → Prop
  | hot c sc => B.Live c ∧ x.sizeClass = sc ∧ x.owner = B.ids c ∧ (x.mark = .hot ∨ x.mark = .full)
  | linked c sc => B.Live c ∧ x.sizeClass = sc ∧ x.owner = B.ids c ∧ x.mark = .reusable ∧
      (classToReuseThreshold percent sc : ℤ) < x.free
  | pooled _ _ => x.mark = .full
  | loose => x.mark = .floating ∨ x.mark = .reusable ∧
      (classToReuseThreshold percent x.sizeClass : ℤ) < x.free

end Place

namespace Board

/-- The span is at this place and nowhere else, and its card is allowed there. -/
structure At (percent : ℕ) (B : Board) (s : ℕ) (w : Place) : Prop where
  hot : ∀ c sc, B.hot c sc = s ↔ w = .hot c sc
  deque : ∀ c sc, s ∈ (B.deque c sc).nodes ↔ w = .linked c sc
  pool : ∀ a b, s ∈ B.pool a b ↔ w = .pooled a b
  link : (B.card s).link = w.link
  allowed : w.Allows percent B (B.card s)
  objectClass : IsObjectClass (B.card s).sizeClass

/-- What holds of an address that is no span. -/
structure Absent (B : Board) (s : ℕ) : Prop where
  hot : ∀ c sc, B.hot c sc = s → s = 0
  deque : ∀ c sc, s ∉ (B.deque c sc).nodes
  pool : ∀ a b, s ∉ B.pool a b

/-- A board in order. `percent` is the reuse threshold of the build. -/
structure Inv (percent : ℕ) (B : Board) : Prop where
  null : ¬ B.known 0
  placed : ∀ s, B.known s → ∃ w, B.At percent s w
  absent : ∀ s, ¬ B.known s → B.Absent s
  nodup : ∀ c sc, (B.deque c sc).nodes.Nodup
  poolNodup : ∀ a b, (B.pool a b).Nodup
  coreId : ∀ c, B.Live c → (B.ids c).value = c
  dequeOwner : ∀ c sc, B.Live c → sc < kNumClasses → (B.deque c sc).owner = B.ids c

def setCard (B : Board) (s : ℕ) (x : Card) : Board := { B with card := Function.update B.card s x }

/-- Objects of a span are given out, taken back or moved between its lists. -/
def setFree (B : Board) (s : ℕ) (f : ℤ) : Board := B.setCard s { B.card s with free := f }

/-- A hot span is given up: floating, and its slot empty. -/
def retire (B : Board) (c sc : ℕ) : Board :=
  { B.setCard (B.hot c sc) { B.card (B.hot c sc) with mark := .floating } with
    hot := update₂ B.hot c sc 0 }

/-- The last span of a deque becomes hot. -/
def reuse (B : Board) (c sc s : ℕ) : Board :=
  { B.setCard s { B.card s with mark := .hot, link := none } with
    deque := update₂ B.deque c sc
      { B.deque c sc with nodes := (B.deque c sc).nodes.dropLast }
    hot := update₂ B.hot c sc s }

/-- A span from the arena or the pool is constructed and becomes hot. -/
def adopt (B : Board) (c sc s : ℕ) (m : Mark) (pool : ℕ → ℕ → List ℕ) : Board where
  known := fun x => x = s ∨ B.known x
  card := Function.update B.card s ⟨m,B.ids c,sc,none,classToObjects sc⟩
  ids := B.ids
  deque := B.deque
  hot := update₂ B.hot c sc s
  pool := pool

/-- A caller takes over an unplaced span. -/
def takeOver (B : Board) (s : ℕ) (id : CoreId) : Board :=
  B.setCard s { B.card s with owner := id, mark := .floating }

/-- A linked span leaves its deque. -/
def unlink (B : Board) (c sc s : ℕ) : Board :=
  { B.setCard s { B.card s with link := none } with
    deque := update₂ B.deque c sc { B.deque c sc with nodes := (B.deque c sc).nodes.erase s } }

/-- An unplaced span goes to the pool. -/
def toPool (B : Board) (s a b : ℕ) : Board :=
  { B.setCard s { B.card s with mark := .full } with pool := update₂ B.pool a b (s :: B.pool a b) }

/-- A floating span becomes reusable and enters a deque. -/
def relink (B : Board) (c sc s : ℕ) : Board :=
  { B.setCard s { B.card s with mark := .reusable, link := some (c,sc) } with
    deque := update₂ B.deque c sc { B.deque c sc with nodes := s :: (B.deque c sc).nodes } }

/-- The caller takes over a span whose owner is gone. -/
def revive (B : Board) (s : ℕ) (id : CoreId) : Board :=
  if B.Gone (B.card s).owner then B.takeOver s id else B

/-- A span without live objects leaves its deque and goes to the pool. -/
def discard (B : Board) (s a b : ℕ) : Board :=
  match (B.card s).link with
  | some (c,sc) => (B.unlink c sc s).toPool s a b
  | none => B.toPool s a b

/-- The end of a free on a span that had mark `old` before the call. -/
def settle (percent : ℕ) (B : Board) (old : Mark) (s a b : ℕ) : Board :=
  let x := B.card s
  if old = .hot ∨ old = .full then B
  else if x.free = classToObjects x.sizeClass then
    if x.mark = old then B.discard s a b else B
  else if (classToReuseThreshold percent x.sizeClass : ℤ) < x.free ∧ old ≠ .reusable then
    B.relink x.owner.value x.sizeClass s
  else B

/-- The end of a free in a build that cleans up in `GetSpan` instead. -/
def settleKept (percent : ℕ) (B : Board) (old : Mark) (s : ℕ) : Board :=
  let x := B.card s
  if old = .hot ∨ old = .full then B
  else if (classToReuseThreshold percent x.sizeClass : ℤ) < x.free ∧ old ≠ .reusable then
    B.relink x.owner.value x.sizeClass s
  else B

/-- The end of a free in either build. -/
def settleIn (clean : Bool) (percent : ℕ) (B : Board) (old : Mark) (s a b : ℕ) : Board :=
  if clean then B.settle percent old s a b else B.settleKept percent old s

/-- A free by the core with this id; `a` and `b` say where the span would go in the pool. -/
def freed (percent : ℕ) (B : Board) (s : ℕ) (id : CoreId) (a b : ℕ) : Board :=
  ((B.setFree s ((B.card s).free + 1)).revive s id).settle percent (B.card s).mark s a b

/-- A free in either build. -/
def freedIn (clean : Bool) (percent : ℕ) (B : Board) (s : ℕ) (id : CoreId) (a b : ℕ) : Board :=
  ((B.setFree s ((B.card s).free + 1)).revive s id).settleIn clean percent (B.card s).mark s a b

end Board
end Scalloc
