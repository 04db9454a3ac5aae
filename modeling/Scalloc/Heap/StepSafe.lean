import Scalloc.Heap.Integrity
import Scalloc.Heap.StepIntegrity

/-! # The heap is intact between any two steps

What the invariants say about memory: whatever the threads are doing, the objects of the
program overlap neither each other nor a header nor a free object, and their spans are neither
deleted nor constructed.
-/
namespace Scalloc.Stepwise
open Epoch Transition

/-- What a run keeps in which no epoch wraps and no thread is disturbed. -/
structure SafeInv (m : Machine) (st : State) : Prop where
  inv : Inv m st
  system : st.pc 0 = .idle
  counts : CountInv st
  spots : SpotInv st
  built : BuiltInv st

/-- The step is undisturbed and wraps no epoch. -/
def Sane (st : State) (e : Event) : Prop := Undisturbed st e ∧ Unwrapped st e

instance (st : State) (e : Event) : Decidable (Sane st e) := inferInstanceAs (Decidable (_ ∧ _))

variable {m : Machine} {st st' : State} {l : Layout} {p q s : ℕ} {w : Spot}

theorem spots_init (m : Machine) (l : Layout) : SpotInv (init m l) where
  objectClass := fun s hk => absurd hk (not_known_init l s)
  placed := fun s hk => absurd hk (not_known_init l s)
  slot := fun p _ hk => absurd hk (not_known_init l (fromObject p))
  closed := by
    intro p w ho hl
    cases w with
    | live => exact absurd hl List.not_mem_nil
    | freeing c => cases hl
    | moving c => exact absurd hl List.not_mem_nil
    | listed => exact ho.elim
    | remote => exact ho.elim
  live := List.nodup_nil
  lists := fun _ _ => ⟨List.nodup_nil,List.nodup_nil⟩
  objects := fun _ => List.nodup_nil

theorem safe_init (m : Machine) (l : Layout) : SafeInv m (init m l) where
  inv := inv_init m l
  system := rfl
  counts := fun _ => trivial
  spots := spots_init m l
  built := fun _ => trivial

theorem SafeInv.step {e : Event} (h : SafeInv m st) (hok : Sane st e)
    (hs : Stepwise.step m st e = some st') : SafeInv m st' where
  inv := h.inv.step h.system hok.1 hs
  system := step_pc h.system hs
  counts := h.counts.step h.inv hok.2 hs
  spots := h.spots.step h.inv h.counts h.built hs
  built := h.built.step h.inv h.spots h.counts hok.2 hs

theorem safe_of_runs (hr : Runs (step m) Sane (init m l) st) : SafeInv m st :=
  hr.invariant (safe_init m l) fun _ _ _ h hok hs => h.step hok hs

namespace State
variable (st : State)

/-- The size of the objects of the span in which `p` lies. -/
def sizeAt (p : ℕ) : ℕ := classToSize (st.spans (fromObject p)).sizeClass

/-- An object of a span whose lists are filled. -/
structure IsObject (p : ℕ) : Prop where
  known : st.Known (fromObject p)
  settled : ¬ st.Building (fromObject p)
  slot : p ∈ st.slots (fromObject p)

/-- An object that the program does not have: a thread frees or moves it, or it is listed. -/
def Free (p : ℕ) : Prop :=
  st.Known (fromObject p) ∧ ¬ st.Building (fromObject p) ∧ ∃ w, w ≠ .live ∧ st.Lies p w

structure Integrity : Prop where
  disjoint : st.live.Pairwise fun p q => Scalloc.Apart p (st.sizeAt p) q (st.sizeAt q)
  header : ∀ p ∈ st.live, ∀ s, st.Known s → Scalloc.Apart p (st.sizeAt p) s kSpanHeaderSize
  free : ∀ p ∈ st.live, ∀ q, st.Free q → Scalloc.Apart p (st.sizeAt p) q (st.sizeAt q)
  inSpan : ∀ p ∈ st.live, st.IsObject p
  closed : ∀ p ∈ st.live, ¬ st.Closed (fromObject p)
  kept : ∀ s, st.Known s → ¬ st.Building s → ∀ p ∈ st.slots s, ∃! w, st.Lies p w

end State

theorem SafeInv.objectClass (h : SafeInv m st) (hp : st.IsObject p) :
    IsObjectClass (st.spans (fromObject p)).sizeClass :=
  h.spots.objectClass _ hp.known hp.settled

/-- An object lies behind the header of its span and ends in its virtual span. -/
theorem SafeInv.bounds (h : SafeInv m st) (hp : st.IsObject p) :
    fromObject p + kSpanHeaderSize ≤ p ∧ p + st.sizeAt p ≤ fromObject p + kVirtualSpanSize := by
  have hb := slot_bounds (h.objectClass hp) hp.slot
  exact ⟨hb.1,hb.2.2⟩

/-- Distinct objects do not overlap, whether their spans are the same or not. -/
theorem SafeInv.apart (h : SafeInv m st) (hp : st.IsObject p) (hq : st.IsObject q) (hne : p ≠ q) :
    Apart p (st.sizeAt p) q (st.sizeAt q) := by
  by_cases hs : fromObject p = fromObject q
  · have hslot := hq.slot
    rw [← hs] at hslot
    rw [show st.sizeAt q = st.sizeAt p by rw [State.sizeAt, State.sizeAt, hs]]
    exact slots_apart hp.slot hslot hne
  · have hbp := h.bounds hp
    have hbq := h.bounds hq
    have ha := Heap.virtualSpans_apart hp.known.2.2 hq.known.2.2 hs
    unfold Apart
    omega

theorem SafeInv.isObject (h : SafeInv m st) (hk : st.Known (fromObject p))
    (hb : ¬ st.Building (fromObject p)) (hl : st.Lies p w) : st.IsObject p :=
  ⟨hk,hb,h.spots.slot p w hk hb hl⟩

theorem SafeInv.isObject_live (h : SafeInv m st) (hp : p ∈ st.live) : st.IsObject p :=
  h.isObject (w := .live) (h.inv.live p hp).1
    (h.spots.not_building (w := .live) trivial hp) hp

theorem SafeInv.integrity (h : SafeInv m st) : st.Integrity where
  disjoint := h.spots.live.pairwise_of_forall_ne fun _ hp _ hq hne =>
    h.apart (h.isObject_live hp) (h.isObject_live hq) hne
  header := by
    intro p hp s hk
    have hobj := h.isObject_live hp
    have hb := h.bounds hobj
    have hh : kSpanHeaderSize ≤ kVirtualSpanSize := by decide
    by_cases hs : fromObject p = s
    · rw [hs] at hb
      exact .inr hb.1
    · have ha := Heap.virtualSpans_apart hobj.known.2.2 hk.2.2 hs
      unfold Apart
      omega
  free := by
    rintro p hp q ⟨hk,hb,w,hw,hl⟩
    refine h.apart (h.isObject_live hp) (h.isObject hk hb hl) ?_
    rintro rfl
    exact hw (h.spots.unique_out h.inv (w := .live) trivial hp hl)
  inSpan := fun _ hp => h.isObject_live hp
  closed := fun p hp => h.spots.closed p .live trivial hp
  kept := h.spots.placed

/-- In every run in which no epoch wraps and no thread is disturbed, the heap is intact after
every single step. -/
theorem integrity_of_runs (m : Machine) (l : Layout) :
    ∀ st, Runs (step m) Sane (init m l) st → st.Integrity :=
  fun _ hr => (safe_of_runs hr).integrity

/-- Thread 2 links the span and thread 3 deletes it. Thread 1, which looks for a span all the
time, takes it from the pool and gets its first object again. -/
def reusedEvents : List Event := spentEvents ++ frees 2 6 10 ++ frees 3 7 12 ++ nexts 1 11

theorem integrity_reusedEvents : ∃ st, Runs (step sampleMachine) Sane
    (init sampleMachine sampleLayout) st ∧ st.Integrity ∧
    st.live = [kObjectSpaceSize + 128] ∧ st.hot 1 25 = kObjectSpaceSize := by
  have hrun : (exec (step sampleMachine) Sane (init sampleMachine sampleLayout)
      reusedEvents).map (fun st => (st.live,st.hot 1 25)) =
      some ([kObjectSpaceSize + 128],kObjectSpaceSize) := by decide +kernel
  obtain ⟨st,hst,hval⟩ := Option.map_eq_some_iff.mp hrun
  simp only [Prod.mk.injEq] at hval
  have hr := runs_of_exec hst
  exact ⟨st,hr,integrity_of_runs sampleMachine sampleLayout st hr,hval⟩

end Scalloc.Stepwise
