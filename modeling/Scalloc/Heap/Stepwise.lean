import Scalloc.Heap.Board
import Scalloc.Heap.System
import Scalloc.Span.Slots

/-! # `Core::Allocate` and `Core::Free` step by step

Any number of threads, each with its core, allocate and free at once. Every load, store and
compare-exchange, every operation of a deque, of a span-pool stack and of a free list of a span
is one step, and what a call has read is in its program counter. Free lists are lists of
objects. The cores stay open, the program frees the blocks that it got, and the build is a
release build that cleans up in `Core::Free`.
-/
namespace Scalloc
open Epoch Transition

namespace Stepwise

/-- The reuse threshold, the number of backends and the tags of the cores. Thread `c` has the
core at address `c`. -/
structure Machine where
  percent : ℕ
  backends : ℕ
  tag : ℕ → BitVec 16

def Machine.id (m : Machine) (c : ℕ) : CoreId := ⟨c,m.tag c⟩

/-- The header of a span and the objects on its free lists. `link` is the deque into which
the link words point. -/
structure Header where
  link : Option (ℕ × ℕ)
  owner : CoreId
  epoch : Epoch
  sizeClass : ℕ
  locals : List ℕ
  remotes : List ℕ

/-- A header in memory that was never written. -/
def Header.zero : Header := ⟨none,kTerminated,0,0,[],[]⟩

/-- What a call of `Core::Free` has read. -/
structure FreeCall where
  span : ℕ
  epoch : Epoch
  owner : CoreId
  sizeClass : ℕ

/-- A call of `GetSpan`: for a slot that is null, or for one whose span was given up. -/
structure Fetch where
  sizeClass : ℕ
  first : Bool

/-- What follows `MoveRemoteToLocalObjects`. -/
inductive Then
  | again (sc : ℕ)
  | hot (g : Fetch)

/-- The next step of a thread. -/
inductive Pc
  | idle
  /-- `Core::Allocate` has returned. -/
  | done (obj : ℕ)
  /-- `Core::Free` of `p`. -/
  | loadEpoch (p : ℕ)
  | loadOwner (p : ℕ) (e : Epoch)
  | loadClass (p : ℕ) (e : Epoch) (owner : CoreId)
  /-- In `Span::Free`. -/
  | compareOwner (p : ℕ) (f : FreeCall)
  | pushLocal (p : ℕ) (f : FreeCall)
  | remoteEmpty (n : ℕ) (f : FreeCall)
  | remoteLength (n : ℕ) (f : FreeCall)
  | pushRemote (p : ℕ) (f : FreeCall)
  | localLength (n : ℕ) (f : FreeCall)
  /-- `free_objects` is known. -/
  | ownerTerminated (n : ℕ) (f : FreeCall)
  | ownerRecycled (n : ℕ) (f : FreeCall)
  | tryRevive (n : ℕ) (f : FreeCall)
  | tryFloating (n : ℕ) (f : FreeCall)
  | markFull (f : FreeCall)
  | remove (f : FreeCall)
  | deleteSpan (f : FreeCall)
  | poolPush (s sc id : ℕ)
  | markReuse (f : FreeCall)
  | pushFront (f : FreeCall)
  /-- `hot_span_[sc]->Allocate()`, then `NrFreeObjects()`. -/
  | allocate (sc : ℕ)
  | countLocal (sc : ℕ)
  | countEmpty (sc n : ℕ)
  | countLength (sc n : ℕ)
  /-- `MoveRemoteToLocalObjects` of the span `s`. -/
  | moveEmpty (s : ℕ) (k : Then)
  | moveLength (s : ℕ) (k : Then)
  | popAll (s : ℕ) (k : Then)
  | moveTest (s : ℕ) (objects : List ℕ) (k : Then)
  | moveLoop (s : ℕ) (objects : List ℕ) (k : Then)
  /-- The last `hot_span_[sc]->Allocate()` of a call. -/
  | allocateLast (sc : ℕ)
  | floatingLoad (sc : ℕ)
  | floatingStore (sc : ℕ) (e : Epoch)
  /-- `GetSpan`. -/
  | removeBack (g : Fetch)
  | takeEpoch (g : Fetch) (s : ℕ)
  | markHot (g : Fetch) (s : ℕ) (e : Epoch)
  | probe (g : Fetch) (rest : List (ℕ × ℕ))
  /-- The constructor of the span `s`. -/
  | newLink (g : Fetch) (s : ℕ)
  | newOwner (g : Fetch) (s : ℕ)
  | newClass (g : Fetch) (s : ℕ)
  | newLocal (g : Fetch) (s : ℕ)
  | newRemote (g : Fetch) (s : ℕ)
  | newEpoch (g : Fetch) (s : ℕ)
  | newMark (g : Fetch) (s : ℕ) (e : Epoch)
  | setHot (g : Fetch) (s : ℕ)

structure State where
  spans : ℕ → Header
  deque : ℕ → ℕ → List ℕ
  hot : ℕ → ℕ → ℕ
  pool : SpanPool
  arena : Arena
  live : List ℕ
  pc : ℕ → Pc

/-- Thread `c` calls `Core::Allocate` or `Core::Free` or takes its next step. `rand` stands
for the values of `hwrand`. -/
inductive Event
  | allocate (c size : ℕ)
  | free (c p : ℕ)
  | next (c : ℕ) (rand : ℕ → ℕ)

namespace State

def goto (st : State) (c : ℕ) (pc : Pc) : State := { st with pc := Function.update st.pc c pc }

def setSpan (st : State) (s : ℕ) (x : Header) : State :=
  { st with spans := Function.update st.spans s x }

def setEpoch (st : State) (s : ℕ) (e : Epoch) : State := st.setSpan s { st.spans s with epoch := e }

def setLocals (st : State) (s : ℕ) (l : List ℕ) : State :=
  st.setSpan s { st.spans s with locals := l }

def setRemotes (st : State) (s : ℕ) (l : List ℕ) : State :=
  st.setSpan s { st.spans s with remotes := l }

/-- A deque and the link words of a span of it change together. -/
def setDeque (st : State) (c sc : ℕ) (l : List ℕ) (s : ℕ) (link : Option (ℕ × ℕ)) : State :=
  { st.setSpan s { st.spans s with link := link } with deque := update₂ st.deque c sc l }

end State

/-- The two tests at the end of `Core::Free`. -/
def Machine.settle (m : Machine) (n : ℕ) (f : FreeCall) : Pc :=
  if n = classToObjects f.sizeClass ∧ isFloatingOrReusable f.epoch then .markFull f
  else if n > classToReuseThreshold m.percent f.sizeClass ∧ !isReusable f.epoch then .markReuse f
  else .idle

/-- The test of `Core::Allocate` on the number of free objects of the hot span `s`. -/
def Machine.retire (m : Machine) (sc s n : ℕ) : Pc :=
  if n > classToReuseThreshold m.percent sc then .moveEmpty s (.again sc) else .floatingLoad sc

def Then.pc (s : ℕ) : Then → Pc
  | again sc => .allocateLast sc
  | hot g => .setHot g s

/-- The next step of `Core::Free`. -/
def freeStep (m : Machine) (st : State) (c : ℕ) : Option State :=
  match st.pc c with
  | .loadEpoch p => some (st.goto c (.loadOwner p (st.spans (fromObject p)).epoch))
  | .loadOwner p e => some (st.goto c (.loadClass p e (st.spans (fromObject p)).owner))
  | .loadClass p e owner =>
    some (st.goto c (.compareOwner p
      ⟨fromObject p,e,owner,(st.spans (fromObject p)).sizeClass⟩))
  | .compareOwner p f =>
    if (st.spans f.span).owner = m.id c then some (st.goto c (.pushLocal p f))
    else some (st.goto c (.pushRemote p f))
  | .pushLocal p f =>
    let l := p :: (st.spans f.span).locals
    some ((st.setLocals f.span l).goto c (.remoteEmpty l.length f))
  | .remoteEmpty n f =>
    if (st.spans f.span).remotes = [] then some (st.goto c (.ownerTerminated n f))
    else some (st.goto c (.remoteLength n f))
  | .remoteLength n f =>
    some (st.goto c (.ownerTerminated (n + (st.spans f.span).remotes.length) f))
  | .pushRemote p f =>
    let l := p :: (st.spans f.span).remotes
    some ((st.setRemotes f.span l).goto c (.localLength l.length f))
  | .localLength n f =>
    some (st.goto c (.ownerTerminated (n + (st.spans f.span).locals.length) f))
  | .ownerTerminated n f =>
    if m.id f.owner.value = kTerminated then some (st.goto c (.tryRevive n f))
    else some (st.goto c (.ownerRecycled n f))
  | .ownerRecycled n f =>
    if f.owner ≠ m.id f.owner.value then some (st.goto c (.tryRevive n f))
    else some (st.goto c (m.settle n f))
  | .tryRevive n f =>
    if (st.spans f.span).owner = f.owner then
      some ((st.setSpan f.span { st.spans f.span with owner := m.id c }).goto c
        (.tryFloating n { f with owner := m.id c }))
    else some (st.goto c (m.settle n f))
  | .tryFloating n f =>
    match tryMarkFloating (st.spans f.span).epoch f.epoch with
    | some e => some ((st.setEpoch f.span e).goto c (m.settle n f))
    | none => some (st.goto c (m.settle n f))
  | .markFull f =>
    match newMarkFull (st.spans f.span).epoch f.epoch with
    | some e =>
      some ((st.setEpoch f.span e).goto c (if isReusable f.epoch then .remove f else .deleteSpan f))
    | none => some (st.goto c .idle)
  | .remove f =>
    match (st.spans f.span).link with
    | none => some (st.goto c (.deleteSpan f))
    | some (c',sc) =>
      if f.owner ≠ m.id f.owner.value then some (st.goto c (.deleteSpan f))
      else some ((st.setDeque c' sc ((st.deque c' sc).erase f.span) f.span none).goto c
        (.deleteSpan f))
  | .deleteSpan f =>
    some (st.goto c (.poolPush f.span (st.spans f.span).sizeClass
      (st.spans f.span).owner.tag.toNat))
  | .poolPush s sc id =>
    some ({ st with pool := st.pool.push (SpanPool.slot sc) (id % m.backends) s }.goto c .idle)
  | .markReuse f =>
    match newMarkReuse (st.spans f.span).epoch f.epoch with
    | some e => some ((st.setEpoch f.span e).goto c (.pushFront f))
    | none => some (st.goto c .idle)
  | .pushFront f =>
    if f.owner ≠ m.id f.owner.value then some (st.goto c .idle)
    else some ((st.setDeque f.owner.value f.sizeClass
      (f.span :: st.deque f.owner.value f.sizeClass) f.span (some (f.owner.value,f.sizeClass))).goto
        c .idle)
  | _ => none

/-- `local_free_list_.Pop()` on the hot span of class `sc`, where `empty` follows a null. -/
def popLocal (st : State) (c sc : ℕ) (empty : Pc) : State :=
  match (st.spans (st.hot c sc)).locals with
  | [] => st.goto c empty
  | p :: l => { st.setLocals (st.hot c sc) l with live := p :: st.live }.goto c (.done p)

/-- The next step of `Core::Allocate` outside `GetSpan`. -/
def allocateStep (m : Machine) (st : State) (c : ℕ) : Option State :=
  match st.pc c with
  | .allocate sc => some (popLocal st c sc (.countLocal sc))
  | .countLocal sc =>
    some (st.goto c (.countEmpty sc (st.spans (st.hot c sc)).locals.length))
  | .countEmpty sc n =>
    if (st.spans (st.hot c sc)).remotes = [] then
      some (st.goto c (m.retire sc (st.hot c sc) n))
    else some (st.goto c (.countLength sc n))
  | .countLength sc n =>
    some (st.goto c (m.retire sc (st.hot c sc) (n + (st.spans (st.hot c sc)).remotes.length)))
  | .moveEmpty s k =>
    if (st.spans s).remotes = [] then some (st.goto c (k.pc s))
    else some (st.goto c (.moveLength s k))
  | .moveLength s k =>
    if (st.spans s).remotes.length = 0 then some (st.goto c (k.pc s))
    else some (st.goto c (.popAll s k))
  | .popAll s k =>
    some ((st.setRemotes s []).goto c (.moveTest s (st.spans s).remotes k))
  | .moveTest s objects k =>
    if (st.spans s).locals.length = 0 then some ((st.setLocals s objects).goto c (k.pc s))
    else some (st.goto c (.moveLoop s objects k))
  | .moveLoop s objects k =>
    match objects with
    | [] => some (st.goto c (k.pc s))
    | p :: objects =>
      some ((st.setLocals s (p :: (st.spans s).locals)).goto c (.moveLoop s objects k))
  | .allocateLast sc => some (popLocal st c sc (.done 0))
  | .floatingLoad sc =>
    some (st.goto c (.floatingStore sc (st.spans (st.hot c sc)).epoch))
  | .floatingStore sc e =>
    some ((st.setEpoch (st.hot c sc) (newMarkFloating e)).goto c (.removeBack ⟨sc,false⟩))
  | _ => none

/-- The next step of `GetSpan`, up to the store of its result. -/
def fetchStep (m : Machine) (st : State) (c : ℕ) (rand : ℕ → ℕ) : Option State :=
  match st.pc c with
  | .removeBack g =>
    match (st.deque c g.sizeClass).getLast? with
    | some s =>
      some ((st.setDeque c g.sizeClass (st.deque c g.sizeClass).dropLast s none).goto c
        (.takeEpoch g s))
    | none => some (st.goto c (.probe g (st.pool.probes g.sizeClass (m.tag c).toNat rand)))
  | .takeEpoch g s => some (st.goto c (.markHot g s (st.spans s).epoch))
  | .markHot g s e =>
    match newMarkHot (st.spans s).epoch e with
    | some e => some ((st.setEpoch s e).goto c (.moveEmpty s (.hot g)))
    | none => some (st.goto c (.removeBack g))
  | .probe g ((a,b) :: rest) =>
    match st.pool.pop a b with
    | some (s,pool) => some ({ st with pool := pool }.goto c (.newLink g s))
    | none => some (st.goto c (.probe g rest))
  | .probe g [] =>
    match st.arena.allocateVirtualSpan with
    | some (s,arena) => some ({ st with arena := arena }.goto c (.newLink g s))
    | none => none
  | .newLink g s =>
    some ((st.setSpan s { st.spans s with link := none }).goto c (.newOwner g s))
  | .newOwner g s =>
    some ((st.setSpan s { st.spans s with owner := m.id c }).goto c (.newClass g s))
  | .newClass g s =>
    some ((st.setSpan s { st.spans s with sizeClass := g.sizeClass }).goto c (.newLocal g s))
  | .newLocal g s => some ((st.setLocals s (slots s g.sizeClass)).goto c (.newRemote g s))
  | .newRemote g s => some ((st.setRemotes s []).goto c (.newEpoch g s))
  | .newEpoch g s => some (st.goto c (.newMark g s (st.spans s).epoch))
  | .newMark g s e =>
    match newMarkHot (st.spans s).epoch e with
    | some e => some ((st.setEpoch s e).goto c (.setHot g s))
    | none => some (st.goto c (.setHot g s))
  | .setHot g s =>
    let st := { st with hot := update₂ st.hot c g.sizeClass s }
    if g.first then some (st.goto c (.allocate g.sizeClass))
    else if s = 0 then some (st.goto c (.done 0))
    else some (st.goto c (.allocateLast g.sizeClass))
  | _ => none

/-- A thread that is in no call. -/
def Pc.rests : Pc → Bool
  | idle => true
  | done _ => true
  | _ => false

def step (m : Machine) (st : State) : Event → Option State
  | .allocate c size =>
    if c ≠ 0 ∧ (st.pc c).rests ∧ 0 < size ∧ size ≤ kMaxMediumSize then
      some (st.goto c (if st.hot c (sizeToClass size) = 0 then .removeBack ⟨sizeToClass size,true⟩
        else .allocate (sizeToClass size)))
    else none
  | .free c p =>
    if c ≠ 0 ∧ (st.pc c).rests ∧ p ∈ st.live then
      some ({ st with live := st.live.erase p }.goto c (.loadEpoch p))
    else none
  | .next c rand =>
    ((freeStep m st c).or (allocateStep m st c)).or (fetchStep m st c rand)

def init (m : Machine) (l : Layout) : State where
  spans := fun _ => Header.zero
  deque := fun _ _ => []
  hot := fun _ _ => 0
  pool := ⟨0,m.backends,fun _ _ => []⟩
  arena := ⟨l.objectStart,l.objectStart + kObjectSpaceSize,kObjectSpaceSize,l.objectStart⟩
  live := []
  pc := fun _ => .idle

end Stepwise
end Scalloc
