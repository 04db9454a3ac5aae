import Scalloc.Heap.Invariant

/-! # Heap integrity

In every reachable state the live blocks are disjoint from each other, from every span
header and from all memory that the allocator may hand out next, and each lies inside
the span that its addresses lead to.
-/
namespace Scalloc
open ByteMemory Linked Transition

/-- The ranges of `m` bytes from `a` on and `n` bytes from `b` on do not meet. -/
def Apart (a m b n : ℕ) : Prop := a + m ≤ b ∨ b + n ≤ a

/-- The block at `p` sits in the local list or on the remote stack of the span at `s`. -/
def Heap.OnFreeList (h : Heap) (s p : ℕ) : Prop :=
  Meets 0 (loadPtr h.mem) p (h.spans s).localFreeList.list ∨
    Meets 0 (loadPtr h.mem) p (h.spans s).remoteFreeList.value

/-- The bytes behind the bump pointer up to the end of the last object. -/
def Span.untouchedSize (x : Span) (s : ℕ) : ℕ :=
  blockStart s x.sizeClass (classToObjects x.sizeClass) - x.localFreeList.bumpPointer

structure State.Integrity (st : State) : Prop where
  disjoint : st.live.Pairwise fun b c => Apart b.start b.size c.start c.size
  header : ∀ b ∈ st.live, ∀ s, st.heap.Known s → Apart b.start b.size s kSpanHeaderSize
  listed : ∀ b ∈ st.live, ∀ s p, st.heap.Known s → ¬ st.heap.pool.Holds s →
    st.heap.OnFreeList s p → Apart b.start b.size p (classToSize (st.heap.spans s).sizeClass)
  untouched : ∀ b ∈ st.live, ∀ s, st.heap.Known s → ¬ st.heap.pool.Holds s →
    Apart b.start b.size (st.heap.spans s).localFreeList.bumpPointer
      ((st.heap.spans s).untouchedSize s)
  pooled : ∀ b ∈ st.live, ∀ s, st.heap.pool.Holds s → Apart b.start b.size s kVirtualSpanSize
  inSpan : ∀ b ∈ st.live, ∀ a, b.start ≤ a → a < b.start + b.size →
    st.heap.Known (fromObject a) ∧ fromObject a % kVirtualSpanSize = 0 ∧
      fromObject a ≤ b.start ∧ b.start + b.size ≤ fromObject a + classToSpanSize b.sizeClass

namespace State
variable {cfg : Config} {st : State} {b : Block}

/-- A live block lies behind the header and inside the real span. -/
theorem Inv.bounds (hi : Inv cfg st) (hb : b ∈ st.live) :
    headerEnd (fromObject b.start) ≤ b.start ∧
      b.start + b.size ≤ fromObject b.start + classToSpanSize b.sizeClass ∧
      b.start + b.size ≤ fromObject b.start + kVirtualSpanSize := by
  obtain ⟨hm,hsc⟩ := hi.mem_slots hb
  exact slot_bounds hsc hm

/-- A live block is apart from every range inside another virtual span. -/
theorem Inv.apart_of_ne (hi : Inv cfg st) (hb : b ∈ st.live) {s p n : ℕ} (hs : st.heap.Known s)
    (hne : fromObject b.start ≠ s) (h1 : s ≤ p) (h2 : p + n ≤ s + kVirtualSpanSize) :
    Apart b.start b.size p n := by
  have hb1 := hi.bounds hb
  have hh : fromObject b.start ≤ headerEnd (fromObject b.start) := Nat.le_add_right _ _
  have ha := Heap.virtualSpans_apart (hi.live b hb).1.2.2 hs.2.2 hne
  unfold Apart
  omega

/-- A live block is apart from the other slots of its span. -/
theorem Inv.apart_slot (hi : Inv cfg st) (hb : b ∈ st.live) {p : ℕ}
    (hp : p ∈ Scalloc.slots (fromObject b.start) b.sizeClass) (hne : b.start ≠ p) :
    Apart b.start b.size p b.size :=
  slots_apart (hi.mem_slots hb).1 hp hne

/-- The three places of free slots hold no live block. -/
theorem Inv.free_slot (hi : Inv cfg st) {s : ℕ} (hk : st.heap.Known s)
    (hp : ¬ st.heap.pool.Holds s) :
    ∃ j ≤ classToObjects (st.heap.spans s).sizeClass, IsObjectClass (st.heap.spans s).sizeClass ∧
      (st.heap.spans s).localFreeList.bumpPointer = blockStart s (st.heap.spans s).sizeClass j ∧
      ∀ p, st.heap.OnFreeList s p ∨ p ∈ untouched s (st.heap.spans s).sizeClass j →
        p ∈ Scalloc.slots s (st.heap.spans s).sizeClass ∧ p ∉ st.liveIn s := by
  obtain ⟨L,R,j,hsl⟩ := hi.heap.slots s hk hp
  have hn := hsl.nodup
  simp only [List.nodup_append, List.mem_append] at hn
  refine ⟨j,hsl.bump_le,hsl.objectClass,hsl.bumpPointer,fun p hp => ?_⟩
  have hplace : p ∈ L ∨ p ∈ R ∨ p ∈ untouched s (st.heap.spans s).sizeClass j := by
    rcases hp with (hl | hr) | hu
    · exact .inl (hsl.locals.meets_iff.mp hl)
    · exact .inr (.inl (hsl.remotes.meets_iff.mp hr))
    · exact .inr (.inr hu)
  refine ⟨?_,fun hlive => ?_⟩
  · rcases hplace with hl | hr | hu
    · exact hsl.mem_local hl
    · exact hsl.mem_remote hr
    · exact hsl.mem_untouched hu
  · rcases hplace with hl | hr | hu
    · exact hn.2.2 p hl p (.inr (.inr hlive)) rfl
    · exact hn.2.1.2.2 p hr p (.inr hlive) rfl
    · exact hn.2.1.2.1.2.2 p hu p hlive rfl

/-- A live block is apart from a free slot. -/
theorem Inv.apart_free (hi : Inv cfg st) (hb : b ∈ st.live) {s p : ℕ} (hk : st.heap.Known s)
    (hsc : IsObjectClass (st.heap.spans s).sizeClass)
    (hp : p ∈ Scalloc.slots s (st.heap.spans s).sizeClass) (hlive : p ∉ st.liveIn s) :
    Apart b.start b.size p (classToSize (st.heap.spans s).sizeClass) := by
  have hbounds := slot_bounds hsc hp
  by_cases hs : fromObject b.start = s
  · have hclass := (hi.live b hb).2
    rw [hs] at hclass
    rw [← hclass] at hp ⊢
    refine hi.apart_slot hb (by rw [hs]; exact hp) ?_
    rintro rfl
    exact hlive (hs ▸ mem_liveIn hb)
  · exact hi.apart_of_ne hb hk hs ((Nat.le_add_right _ _).trans hbounds.1) hbounds.2.2

/-- No block is handed out twice. -/
theorem Inv.nodup (hi : Inv cfg st) : st.live.Nodup := by
  refine List.nodup_iff_count_le_one.mpr fun b => ?_
  by_cases hb : b ∈ st.live
  · obtain ⟨L,R,j,hsl⟩ := hi.slots hb
    have hn := hsl.nodup
    simp only [List.nodup_append] at hn
    have hfilter : st.live.count b =
        (st.live.filter fun x => fromObject x.start = fromObject b.start).count b := by
      rw [List.count_filter (by simp)]
    calc st.live.count b
        = (st.live.filter fun x => fromObject x.start = fromObject b.start).count b := hfilter
      _ ≤ (st.liveIn (fromObject b.start)).count b.start := List.count_le_count_map ..
      _ ≤ 1 := List.nodup_iff_count_le_one.mp hn.2.1.2.1.2.1 _
  · rw [List.count_eq_zero_of_not_mem hb]
    omega

theorem Inv.apart_live (hi : Inv cfg st) {b c : Block} (hb : b ∈ st.live) (hc : c ∈ st.live)
    (hne : b ≠ c) : Apart b.start b.size c.start c.size := by
  have hcb := hi.bounds hc
  by_cases hs : fromObject b.start = fromObject c.start
  · have hclass : c.sizeClass = b.sizeClass := by
      rw [(hi.live b hb).2, (hi.live c hc).2, hs]
    have hstart : b.start ≠ c.start := by
      intro he
      cases b
      cases c
      simp_all
    have hsize : c.size = b.size := by rw [Block.size, Block.size, hclass]
    rw [hsize]
    refine hi.apart_slot hb ?_ hstart
    rw [hs, ← hclass]
    exact (hi.mem_slots hc).1
  · exact hi.apart_of_ne hb (hi.live c hc).1 hs ((Nat.le_add_right _ _).trans hcb.1) hcb.2.2

theorem Inv.apart_untouched (hi : Inv cfg st) (hb : b ∈ st.live) {s : ℕ} (hk : st.heap.Known s)
    (hp : ¬ st.heap.pool.Holds s) :
    Apart b.start b.size (st.heap.spans s).localFreeList.bumpPointer
      ((st.heap.spans s).untouchedSize s) := by
  obtain ⟨j,hj,hsc,hbump,hfree⟩ := hi.free_slot hk hp
  have hle : blockStart s (st.heap.spans s).sizeClass j ≤
      blockStart s (st.heap.spans s).sizeClass (classToObjects (st.heap.spans s).sizeClass) := by
    unfold blockStart
    exact Nat.add_le_add_left (Nat.mul_le_mul_right _ hj) _
  have hend : blockStart s (st.heap.spans s).sizeClass (classToObjects (st.heap.spans s).sizeClass) ≤
      s + kVirtualSpanSize := by
    have h1 := objects_fit_span hsc
    have h2 := classToSpanSize_le hsc
    unfold blockStart headerEnd
    omega
  have hstart : s ≤ blockStart s (st.heap.spans s).sizeClass j := by
    unfold blockStart headerEnd
    omega
  unfold Span.untouchedSize
  rw [hbump]
  by_cases hs : fromObject b.start = s
  · have hclass := (hi.live b hb).2
    have hslot := (hi.mem_slots hb).1
    rw [hs] at hclass hslot
    obtain ⟨i,hin,hib⟩ := Scalloc.mem_slots.mp hslot
    have hij : i < j := by
      by_contra hge
      refine (hfree b.start (.inr ?_)).2 (hs ▸ mem_liveIn hb)
      rw [← hib, hclass, untouched]
      rw [hclass] at hin
      exact List.mem_map_of_mem (List.mem_range'_1.mpr ⟨by omega,by omega⟩)
    refine .inl ?_
    rw [Block.size, ← hib, ← hclass]
    exact blocks_disjoint hij
  · exact hi.apart_of_ne hb hk hs hstart (by omega)

/-- The invariant gives all parts of the integrity of the heap. -/
theorem Inv.integrity (hi : Inv cfg st) : st.Integrity where
  disjoint := hi.nodup.pairwise_of_forall_ne fun b hb c hc hne => hi.apart_live hb hc hne
  header := by
    intro b hb s hk
    have hbounds := hi.bounds hb
    have hh : kSpanHeaderSize ≤ kVirtualSpanSize := by decide
    by_cases hs : fromObject b.start = s
    · rw [hs] at hbounds
      exact .inr hbounds.1
    · exact hi.apart_of_ne hb hk hs le_rfl (by omega)
  listed := by
    intro b hb s p hk hp hl
    obtain ⟨j,_,hsc,_,hfree⟩ := hi.free_slot hk hp
    obtain ⟨h1,h2⟩ := hfree p (.inl hl)
    exact hi.apart_free hb hk hsc h1 h2
  untouched := fun b hb s hk hp => hi.apart_untouched hb hk hp
  pooled := by
    intro b hb s hp
    refine hi.apart_of_ne hb (hi.heap.board.known_of_pooled hp) ?_ le_rfl le_rfl
    rintro rfl
    have hm := mem_liveIn hb
    rw [hi.heap.pooled _ hp] at hm
    simp at hm
  inSpan := by
    intro b hb a h1 h2
    obtain ⟨hm,hsc⟩ := hi.mem_slots hb
    have hk := (hi.live b hb).1
    have hbounds := hi.bounds hb
    rw [fromObject_of_slot (hi.heap.isVirtualSpan hk) hsc hm h1 h2]
    exact ⟨hk,hk.2.2,(Nat.le_add_right _ _).trans hbounds.1,hbounds.2.1⟩

end State

/-- Heap integrity over whole runs of the default build. -/
theorem integrity_of_reachable {cfg : Config} (_hcfg : cfg.Default) {st : State}
    (h : Reachable cfg st) : st.Integrity :=
  h.inv.integrity

/-- Two threads, a block that moved between them, and a write to a live block. -/
def sampleEvents : List Event :=
  [.start 0, .start 1, .allocate 0 48 fun _ _ => 0, .allocate 0 48 fun _ _ => 0,
    .free 1 ⟨kObjectSpaceSize + 128,3⟩, .allocate 1 1000 fun _ _ => 0,
    .write ⟨kObjectSpaceSize + 176,3⟩ (kObjectSpaceSize + 180) 255, .exit 0,
    .allocate 1 48 fun _ _ => 0]

theorem integrity_sampleEvents :
    ∃ st, sampleRun sampleEvents = some st ∧ st.live.length = 3 ∧ st.Integrity := by
  have hrun : (sampleRun sampleEvents).map (fun st => st.live.length) = some 3 := by decide +kernel
  obtain ⟨st,hst,hlen⟩ := Option.map_eq_some_iff.mp hrun
  exact ⟨st,hst,hlen,integrity_of_reachable sampleConfig_default (reachable_sampleRun hst)⟩

end Scalloc
