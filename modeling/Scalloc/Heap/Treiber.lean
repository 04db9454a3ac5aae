import Scalloc.Lib.Linked
import Scalloc.Lib.Transition
import Scalloc.Span.FreeList

/-! # The Treiber stack of the span pool and of the free cores

The links are the first words of the elements themselves. Any number of threads push and
pop; every load, link access and compare-exchange is a step. An element that is neither in
the stack nor being pushed belongs to the program, which may write anything into it at any
time, also while a stalled `Pop` is about to read it. The successful swaps are recorded,
the latest first.
-/
namespace Scalloc.Treiber
open Function Transition Linked

/-- A pointer that went through the 48 value bits of a `TaggedValue`: the last of these
bits is extended. -/
def extend (v : ℕ) : ℕ :=
  if v % 2 ^ 48 < 2 ^ 47 then v % 2 ^ 48 else v % 2 ^ 48 + (2 ^ 64 - 2 ^ 48)

/-- A successful swap: what it pushed or popped. -/
inductive Op
  | pushed (p : ℕ)
  | popped (p : ℕ)
deriving DecidableEq, Repr

/-- The words a thread has read. A `Pop` also notes the number of swaps before its load. -/
inductive Pc
  | idle
  | pushLoad (p : ℕ)
  | pushLink (p : ℕ) (old : TaggedValue)
  | pushSwap (p : ℕ) (old : TaggedValue)
  | popLoad
  | popLink (old : TaggedValue) (n : ℕ)
  | popSwap (old : TaggedValue) (next n : ℕ)
  | returned (p : ℕ)
deriving DecidableEq, Repr

/-- The element that the thread pushes. -/
def Pc.pushing : Pc → Option ℕ
  | pushLoad p => some p
  | pushLink p _ => some p
  | pushSwap p _ => some p
  | _ => none

structure State where
  top : TaggedValue
  mem : ℕ → ℕ
  pc : ℕ → Pc
  history : List Op

/-- `Stack::Stack`, in any memory. -/
def new (mem : ℕ → ℕ) : State := ⟨⟨0,0⟩,mem,fun _ => .idle,[]⟩

inductive Event
  | push (t p : ℕ)
  | pop (t : ℕ)
  | write (x v : ℕ)
  | thread (t : ℕ)
deriving DecidableEq, Repr

/-- The next step of a thread in `Push` or `Pop`. -/
def threadStep (st : State) (t : ℕ) : Option State :=
  match st.pc t with
  | .idle => none
  | .pushLoad p => some { st with pc := update st.pc t (.pushLink p st.top) }
  | .pushLink p old =>
    some { st with mem := update st.mem p old.value, pc := update st.pc t (.pushSwap p old) }
  | .pushSwap p old =>
    if st.top = old then
      some { st with
        top := ⟨extend p,old.tag + 1⟩
        pc := update st.pc t .idle
        history := .pushed p :: st.history }
    else some { st with pc := update st.pc t (.pushLoad p) }
  | .popLoad =>
    if st.top.value = 0 then some { st with pc := update st.pc t (.returned 0) }
    else some { st with pc := update st.pc t (.popLink st.top st.history.length) }
  | .popLink old n =>
    some { st with pc := update st.pc t (.popSwap old (st.mem old.value) n) }
  | .popSwap old next _ =>
    if st.top = old then
      some { st with
        top := ⟨extend next,old.tag + 1⟩
        pc := update st.pc t (.returned old.value)
        history := .popped old.value :: st.history }
    else some { st with pc := update st.pc t .popLoad }
  | .returned _ => some { st with pc := update st.pc t .idle }

def step (st : State) : Event → Option State
  | .push t p =>
    match st.pc t with
    | .idle => some { st with pc := update st.pc t (.pushLoad p) }
    | _ => none
  | .pop t =>
    match st.pc t with
    | .idle => some { st with pc := update st.pc t .popLoad }
    | _ => none
  | .write x v => some { st with mem := update st.mem x v }
  | .thread t => threadStep st t

/-- The element was pushed and has not been popped since. -/
def Outstanding (h : List Op) (x : ℕ) : Prop := ∃ a b, h = a ++ .pushed x :: b ∧ .popped x ∉ a

/-- Between two pops of an element it was pushed. -/
def PoppedOnce (h : List Op) : Prop :=
  ∀ a b c x, h = a ++ .popped x :: (b ++ .popped x :: c) → .pushed x ∈ b

/-- The element is with the program. -/
def Outside (st : State) (x : ℕ) : Prop :=
  ¬ Outstanding st.history x ∧ ∀ u, (st.pc u).pushing ≠ some x

/-- The program pushes and writes only what it holds, the address of an element survives
the packing of a `TaggedValue`, and no `Pop` succeeds with `2 ^ 16` or more swaps since its
load. -/
def Permitted (st : State) : Event → Prop
  | .push _ p => p ≠ 0 ∧ extend p = p ∧ Outside st p
  | .write x _ => Outside st x
  | .thread t =>
    match st.pc t with
    | .popSwap old _ n => st.top = old → st.history.length < n + 2 ^ 16
    | _ => True
  | _ => True

variable {h : List Op} {x y : ℕ}

theorem outstanding_pushed : Outstanding (.pushed y :: h) x ↔ x = y ∨ Outstanding h x := by
  constructor
  · rintro ⟨a,b,he,hn⟩
    cases a with
    | nil =>
      obtain ⟨h1,_⟩ := List.cons.inj he
      exact .inl (Op.pushed.inj h1).symm
    | cons o a =>
      obtain ⟨_,h2⟩ := List.cons.inj he
      exact .inr ⟨a,b,h2,fun hm => hn (List.mem_cons_of_mem _ hm)⟩
  · rintro (rfl | ⟨a,b,rfl,hn⟩)
    · exact ⟨[],h,rfl,List.not_mem_nil⟩
    · exact ⟨.pushed y :: a,b,rfl,by simpa using hn⟩

theorem outstanding_popped : Outstanding (.popped y :: h) x ↔ x ≠ y ∧ Outstanding h x := by
  constructor
  · rintro ⟨a,b,he,hn⟩
    cases a with
    | nil => cases (List.cons.inj he).1
    | cons o a =>
      obtain ⟨rfl,h2⟩ := List.cons.inj he
      simp only [List.mem_cons, not_or] at hn
      exact ⟨fun hxy => hn.1 (hxy ▸ rfl),a,b,h2,hn.2⟩
  · rintro ⟨hxy,a,b,rfl,hn⟩
    refine ⟨.popped y :: a,b,rfl,?_⟩
    simpa [hn] using hxy

theorem PoppedOnce.pushed (hp : PoppedOnce h) (y : ℕ) : PoppedOnce (.pushed y :: h) := by
  intro a b c x he
  cases a with
  | nil => cases (List.cons.inj he).1
  | cons o a => exact hp a b c x (List.cons.inj he).2

/-- An outstanding element may be popped. -/
theorem PoppedOnce.popped (hp : PoppedOnce h) (hy : Outstanding h y) :
    PoppedOnce (.popped y :: h) := by
  intro a b c x he
  cases a with
  | nil =>
    obtain ⟨h1,h2⟩ := List.cons.inj he
    obtain rfl := Op.popped.inj h1
    obtain ⟨d,e,rfl,hn⟩ := hy
    rcases List.append_eq_append_iff.mp h2 with ⟨k,rfl,hk⟩ | ⟨k,rfl,hk⟩
    · cases k with
      | nil => cases (List.cons.inj hk).1
      | cons o k =>
        obtain ⟨rfl,_⟩ := List.cons.inj hk
        simp
    · cases k with
      | nil => cases (List.cons.inj hk).1
      | cons o k =>
        obtain ⟨rfl,_⟩ := List.cons.inj hk
        simp at hn
  | cons o a => exact hp a b c x (List.cons.inj he).2

end Scalloc.Treiber
