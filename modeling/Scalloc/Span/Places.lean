import Scalloc.Span.Interleaved

/-! # Every slot is in exactly one place

The places of the slots of a shared span, read off the memory and the program counters,
and what the lengths that the code keeps say about them.
-/
namespace Scalloc
open ByteMemory Linked Transition

/-- Where a slot of a shared span can be. -/
inductive SlotPlace
  | live
  | freeing
  | bump
  | listed
  | remote
  | transit

/-- The first slot that the owner carries, 0 if it carries none. -/
def OwnerPc.objects : OwnerPc → ℕ
  | moveTest objects _ => objects
  | moveLoop objects _ _ => objects
  | _ => 0

namespace Shared
variable {s : ℕ} {st : Shared} {L R F T : List ℕ} {j : ℕ}

def Has (st : Shared) (s p : ℕ) : SlotPlace → Prop
  | .live => p ∈ st.live
  | .freeing => ∃ t, (st.other t).object = some p
  | .bump => p ∈ slots s st.span.sizeClass ∧ st.span.localFreeList.bumpPointer ≤ p
  | .listed => Meets 0 (loadPtr st.mem) p st.span.localFreeList.list
  | .remote => Meets 0 (loadPtr st.mem) p st.span.remoteFreeList.value
  | .transit => Meets 0 (loadPtr st.mem) p st.owner.objects

/-- The conservation of the slots of the span at `s`. -/
structure Conserved (s : ℕ) (st : Shared) : Prop where
  placed : ∀ p ∈ slots s st.span.sizeClass, ∃! w, st.Has s p w
  slot : ∀ p w, st.Has s p w → p ∈ slots s st.span.sizeClass
  once : st.live.Nodup ∧
    ∀ t t' p, (st.other t).object = some p → (st.other t').object = some p → t = t'
  remote : ∃ R, Chain 0 (loadPtr st.mem) st.span.remoteFreeList.value R ∧ R.Nodup ∧
    Stack.length st.span.remoteFreeList = R.length ∧
      (Stack.length st.span.remoteFreeList = 0 ↔ st.span.remoteFreeList.value = 0)
  detached : ∀ objects len, st.owner = .moveTest objects len →
    ∃ T, Chain 0 (loadPtr st.mem) objects T ∧ T.Nodup ∧ len = T.length
  moved : ∀ count len, st.owner = .moveLoop 0 count len → count = len
  locals : ∃ L B : List ℕ, Chain 0 (loadPtr st.mem) st.span.localFreeList.list L ∧ L.Nodup ∧ B.Nodup ∧
    (∀ p, p ∈ B ↔ st.Has s p .bump) ∧ st.span.nrLocalObjects = L.length + B.length

/-- The slots at a place. -/
def part (st : Shared) (s : ℕ) (L R F T : List ℕ) (j : ℕ) : SlotPlace → List ℕ
  | .live => st.live
  | .freeing => F
  | .bump => untouched s st.span.sizeClass j
  | .listed => L
  | .remote => R
  | .transit => T

theorem Held.chain_transit (h : Held s st L R F T j) :
    Chain 0 (loadPtr st.mem) st.owner.objects T := by
  have hc := h.transit
  cases hpc : st.owner with
  | moveTest objects len =>
    rw [hpc] at hc
    exact hc.1
  | moveLoop objects count len =>
    rw [hpc] at hc
    exact hc.1
  | _ =>
    rw [hpc] at hc
    have hT : T = [] := hc
    rw [hT]
    rfl

theorem Held.has_iff (h : Held s st L R F T j) (p : ℕ) (w : SlotPlace) :
    st.Has s p w ↔ p ∈ st.part s L R F T j w := by
  cases w with
  | live => exact Iff.rfl
  | freeing => exact (h.freeing p).symm
  | bump =>
    rw [Has, h.slots.bumpPointer]
    exact (mem_untouched_iff h.slots.objectClass).symm
  | listed => exact h.slots.locals.meets_iff
  | remote => exact h.slots.remotes.meets_iff
  | transit => exact h.chain_transit.meets_iff

/-- No slot is at two places. -/
theorem Held.part_unique (h : Held s st L R F T j) {p : ℕ} {w w' : SlotPlace}
    (hw : p ∈ st.part s L R F T j w) (hw' : p ∈ st.part s L R F T j w') : w = w' := by
  have hle := List.nodup_iff_count_le_one.mp h.slots.nodup p
  simp only [List.count_append] at hle
  have hpos := List.count_pos_iff.mpr hw
  have hpos' := List.count_pos_iff.mpr hw'
  cases w <;> cases w' <;> simp only [part] at hpos hpos' <;> first | rfl | omega

theorem Held.conserved (h : Held s st L R F T j) : st.Conserved s := by
  have hn := h.slots.nodup
  simp only [List.nodup_append] at hn
  obtain ⟨hL,⟨hR,⟨hU,⟨hT,⟨-,hlive,-⟩,-⟩,-⟩,-⟩,-⟩ := hn
  have hmem : ∀ p, p ∈ Scalloc.slots s st.span.sizeClass ↔ ∃ w, p ∈ st.part s L R F T j w := by
    intro p
    rw [← h.slots.perm.mem_iff]
    simp only [List.mem_append]
    constructor
    · rintro (hp | hp | hp | hp | hp | hp)
      · exact ⟨.listed,hp⟩
      · exact ⟨.remote,hp⟩
      · exact ⟨.bump,hp⟩
      · exact ⟨.transit,hp⟩
      · exact ⟨.freeing,hp⟩
      · exact ⟨.live,hp⟩
    · rintro ⟨w,hw⟩
      cases w <;> simp only [part] at hw <;> tauto
  refine ⟨?_,?_,⟨hlive,h.single⟩,⟨R,h.slots.remotes,hR,h.slots.tag,?_⟩,?_,?_,?_⟩
  · intro p hp
    obtain ⟨w,hw⟩ := (hmem p).mp hp
    exact ⟨w,(h.has_iff p w).mpr hw,fun w' hw' => h.part_unique ((h.has_iff p w').mp hw') hw⟩
  · intro p w hw
    exact (hmem p).mpr ⟨w,(h.has_iff p w).mp hw⟩
  · rw [← h.slots.remotes.nil_iff, Stack.length, h.slots.tag, List.length_eq_zero_iff]
  · intro objects len hpc
    have hc := h.transit
    rw [hpc] at hc
    exact ⟨T,hc.1,hT,hc.2⟩
  · intro count len hpc
    have hc := h.transit
    rw [hpc] at hc
    have hnil := hc.1.nil_iff.mpr rfl
    have hlen := hc.2
    rw [hnil] at hlen
    exact hlen
  · refine ⟨L,_,h.slots.locals,hL,hU,fun p => (h.has_iff p .bump).symm,?_⟩
    rw [untouched_length]
    exact h.slots.len

theorem held_of_runs {sc : ℕ} (hs : IsVirtualSpan s) (hsc : IsObjectClass sc) {m : Memory}
    {old : Span} {id : CoreId} (h : Runs step Always (init m old s sc id) st) :
    ∃ L R F T j, Held s st L R F T j := by
  refine h.invariant (P := fun st => ∃ L R F T j, Held s st L R F T j)
    ⟨_,_,_,_,_,held_init hsc m old id⟩ ?_
  rintro st e st' ⟨L,R,F,T,j,hst⟩ _ hstep
  exact hst.step hs hstep

end Shared

/-- Conservation of the slots of one span in every interleaving. -/
theorem conserved_of_runs {s sc : ℕ} (hs : IsVirtualSpan s) (hsc : IsObjectClass sc) (m : Memory)
    (old : Span) (id : CoreId) {st : Shared}
    (h : Runs Shared.step Always (Shared.init m old s sc id) st) : st.Conserved s := by
  obtain ⟨L,R,F,T,j,hst⟩ := Shared.held_of_runs hs hsc h
  exact hst.conserved

/-- Two threads free the two objects of a span; the exchange of the second fails once. Then
the owner fetches both. -/
def racingFrees : List Shared.Event :=
  let p := blockStart kVirtualSpanSize 27
  [.allocate, .allocate, .otherFree 1 (p 0), .otherFree 2 (p 1), .other 1, .other 2, .other 1,
    .other 2, .other 1, .other 2, .other 2, .other 2, .other 2, .other 1, .move, .owner, .owner,
    .owner, .owner, .owner, .allocate]

theorem conserved_racingFrees : ∃ st,
    exec Shared.step Always (Shared.init (fun _ => 0) Span.zero kVirtualSpanSize 27 ⟨1,1⟩)
      racingFrees = some st ∧
    st.live = [blockStart kVirtualSpanSize 27 1] ∧ st.returned = [1] ∧
    st.Conserved kVirtualSpanSize := by
  have hrun : (exec Shared.step Always (Shared.init (fun _ => 0) Span.zero kVirtualSpanSize 27 ⟨1,1⟩)
      racingFrees).map (fun st => (st.live,st.returned)) =
      some ([blockStart kVirtualSpanSize 27 1],[1]) := by
    decide +kernel
  obtain ⟨st,hst,hval⟩ := Option.map_eq_some_iff.mp hrun
  simp only [Prod.mk.injEq] at hval
  exact ⟨st,hst,hval.1,hval.2,conserved_of_runs ⟨by decide,by decide⟩ (by decide) _ _ _
    (runs_of_exec hst)⟩

end Scalloc
