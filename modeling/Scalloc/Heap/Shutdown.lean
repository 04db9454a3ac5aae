import Scalloc.Heap.State
import Scalloc.Lib.LinkCode
import Scalloc.Lib.Ring
import Scalloc.Lib.Transition

/-! # A core under destruction

The deques of one core while its thread runs `Core::Destroy`, and later `Core::Init`,
and any number of other threads call `PushFront` and `Remove` on them. `Close` and
`Open` store the owner without the lock. Every call takes the lock of the deque, tests
the owner, assigns the links one at a time and gives the lock back, each in a step of its
own. Waiting for a lock is not a step. A step that fails an assertion or follows the null
pointer does not exist; it is shown below that no call under way ever gets there.
-/
namespace Scalloc.Shutdown
open Function Transition LinkCode LinkedRing

abbrev Class := Fin kNumClasses

/-- The sentinels of the deques are distinct objects inside the core. -/
structure Sentinels where
  addr : Class → ℕ
  injective : Injective addr
  ne_zero : ∀ i, addr i ≠ 0

/-- The link assignments of `PushFront` after the first one, `node->set_prev(sentinel())`. -/
def pushFrontCode (s node : ℕ) : List (Stmt ℕ) :=
  [.setNext (.node node) (.next s),.setPrev (.next s) (.node node),.setNext (.node s) (.node node)]

/-- `clear_prev` and `clear_next`. -/
def clearCode (node : ℕ) : List (Stmt ℕ) := [.clearPrev node,.clearNext node]

/-- The link assignments of `Remove`. The tests whether the neighbours are null repeat
the assertion before them. -/
def removeCode (node : ℕ) : List (Stmt ℕ) :=
  [.setPrev (.next node) (.prev node),.setNext (.prev node) (.next node)] ++ clearCode node

/-- The link assignments of `RemoveFront` before it tests for the sentinel. -/
def removeFrontCode (s node : ℕ) : List (Stmt ℕ) :=
  [.setNext (.node s) (.next node),.setPrev (.next node) (.node s)]

inductive Method
  | pushFront
  | remove
deriving DecidableEq, Repr

/-- A call on the deque of a class. -/
structure Call where
  method : Method
  cls : Class
  owner : CoreId
  node : ℕ

/-- A call that holds the lock: before its first test, at the owner test of `Remove`,
before the first assignment of an accepted `PushFront`, or with these assignments left. -/
inductive Stage
  | enter
  | owner
  | accepted
  | links (code : List (Stmt ℕ))

inductive Pc
  | idle
  | waiting (c : Call)
  | inside (c : Call) (g : Stage)

/-- `RemoveFront`: waiting for the lock, at the read of the first node, with assignments
left, with clears left, or returning null. -/
inductive Front
  | lock
  | read
  | links (node : ℕ) (code : List (Stmt ℕ))
  | clear (code : List (Stmt ℕ))
  | last

/-- Where the thread of the core stands: using the core, in a round of the loop of
`Destroy`, at its last store, gone, or in `Init`. -/
inductive Life
  | live
  | close (i : Class)
  | mark (i : Class)
  | unhot (i : Class)
  | removeAll (i : Class) (f : Front)
  | terminate
  | dead
  | init (id : CoreId)
  | opening (i : Class) (id : CoreId)

structure State where
  id : CoreId
  hotSpan : Class → ℕ
  owner : Class → CoreId
  locked : Class → Bool
  links : Links ℕ
  epoch : ℕ → Epoch
  life : Life
  pc : ℕ → Pc

/-- The step of a loop over all classes. -/
def Class.next? (i : Class) : Option Class :=
  if h : i.val + 1 < kNumClasses then some ⟨i.val + 1,h⟩ else none

def Class.first : Class := ⟨0,by decide⟩

variable (s : Sentinels)

/-- The next step of the thread of the core. -/
def coreStep (st : State) : Option State :=
  match st.life with
  | .live => none
  | .close i => some { st with owner := update st.owner i kTerminated, life := .mark i }
  | .mark i =>
    if st.hotSpan i = 0 then some { st with life := .removeAll i .lock }
    else
      some { st with
        epoch := update st.epoch (st.hotSpan i) (Epoch.newMarkFloating (st.epoch (st.hotSpan i)))
        life := .unhot i }
  | .unhot i => some { st with hotSpan := update st.hotSpan i 0, life := .removeAll i .lock }
  | .removeAll i .lock =>
    if st.locked i then none
    else some { st with locked := update st.locked i true, life := .removeAll i .read }
  | .removeAll i .read =>
    let node := st.links.next (s.addr i)
    some { st with life := .removeAll i (.links node (removeFrontCode (s.addr i) node)) }
  | .removeAll i (.links node (c :: cs)) =>
    (st.links.exec 0 c).map fun L => { st with links := L, life := .removeAll i (.links node cs) }
  | .removeAll i (.links node []) =>
    some { st with
      life := .removeAll i (if node = s.addr i then .last else .clear (clearCode node)) }
  | .removeAll i (.clear (c :: cs)) =>
    (st.links.exec 0 c).map fun L => { st with links := L, life := .removeAll i (.clear cs) }
  | .removeAll i (.clear []) =>
    some { st with locked := update st.locked i false, life := .removeAll i .lock }
  | .removeAll i .last =>
    some { st with
      locked := update st.locked i false
      life := match i.next? with | some j => .close j | none => .terminate }
  | .terminate => some { st with id := kTerminated, life := .dead }
  | .dead => none
  | .init id => some { st with id := id, life := .opening Class.first id }
  | .opening i id =>
    some { st with
      owner := update st.owner i id
      life := match i.next? with | some j => .opening j id | none => .live }

/-- The next place of a call that holds the lock, and the links it leaves. -/
def callStep (st : State) (c : Call) : Stage → Option (Stage × Links ℕ)
  | .enter =>
    match c.method with
    | .pushFront =>
      if c.node = 0 then none
      else some (if c.owner ≠ st.owner c.cls then .links [] else .accepted,st.links)
    | .remove =>
      some (if st.links.prev c.node = 0 ∧ st.links.next c.node = 0 then .links [] else .owner,
        st.links)
  | .owner =>
    if c.owner ≠ st.owner c.cls then some (.links [],st.links)
    else if st.links.next c.node = 0 ∨ st.links.prev c.node = 0 then none
    else some (.links (removeCode c.node),st.links)
  | .accepted =>
    (st.links.exec 0 (.setPrev (.node c.node) (.node (s.addr c.cls)))).map fun L =>
      (.links (pushFrontCode (s.addr c.cls) c.node),L)
  | .links [] => none
  | .links (x :: xs) => (st.links.exec 0 x).map fun L => (.links xs,L)

/-- The next step of another thread: taking the lock, a step inside, giving it back. -/
def threadStep (st : State) (t : ℕ) : Option State :=
  match st.pc t with
  | .idle => none
  | .waiting c =>
    if st.locked c.cls then none
    else
      some { st with
        locked := update st.locked c.cls true
        pc := update st.pc t (.inside c .enter) }
  | .inside c (.links []) =>
    some { st with locked := update st.locked c.cls false, pc := update st.pc t .idle }
  | .inside c g =>
    (callStep s st c g).map fun r =>
      { st with links := r.2, pc := update st.pc t (.inside c r.1) }

inductive Event
  | setHot (i : Class) (x : ℕ)
  | destroy
  | init (id : CoreId)
  | core
  | call (t : ℕ) (c : Call)
  | thread (t : ℕ)

def step (st : State) : Event → Option State
  | .setHot i x =>
    match st.life with
    | .live => some { st with hotSpan := update st.hotSpan i x }
    | _ => none
  | .destroy =>
    match st.life with
    | .live => some { st with life := .close Class.first }
    | _ => none
  | .init id =>
    match st.life with
    | .dead => some { st with life := .init id }
    | _ => none
  | .core => coreStep s st
  | .call t c =>
    match st.pc t with
    | .idle => some { st with pc := update st.pc t (.waiting c) }
    | _ => none
  | .thread t => threadStep s st t

/-- The node is in the deque of the class. -/
def InDeque (st : State) (i : Class) (node : ℕ) : Prop :=
  ∃ l, IsRing st.links.next st.links.prev (s.addr i) l ∧ node ∈ l

/-- What is asked of the other threads. A call names a node and an owner with a core. A
pushed node is unlinked when it is linked in, a removed one is unlinked or in the deque
when it is looked at. -/
def Permitted (st : State) : Event → Prop
  | .call _ c => c.owner.value ≠ 0 ∧ c.node ≠ 0
  | .thread t =>
    match st.pc t with
    | .inside c .accepted => Unlinked 0 st.links c.node
    | .inside c .enter =>
      c.method = .remove → Unlinked 0 st.links c.node ∨ InDeque s st c.cls c.node
    | _ => True
  | _ => True

end Scalloc.Shutdown
