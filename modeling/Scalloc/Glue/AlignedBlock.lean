import Scalloc.Glue.Memalign

/-! # Freeing aligned span objects

`posix_memalign` always moves the pointer off the block start, and the tag it
leaves is never recognised by the eight-byte comparison of the Linux ABI. A moved
pointer therefore enters a free list as an interior address; a block start is
handed on unchanged whatever bytes precede it.
-/
namespace Scalloc.Glue
open ByteMemory

/-- A request that `posix_memalign` serves from block `i` of the class that
`malloc(align + size)` selects, in the virtual span at `s`. -/
structure SpanRequest (s sc i align size : ℕ) : Prop where
  span : IsVirtualSpan s
  sizeClass : sc = sizeToClass (align + size)
  slot : i < classToObjects sc
  powerOfTwo : align.isPowerOfTwo
  eightLe : 8 ≤ align
  sizePos : 0 < size
  medium : align + size ≤ kMaxMediumSize

/-- The program wrote at most the `size` bytes at `p` of the block at `b`. -/
def KeepsRest (m m' : Memory) (b len p size : ℕ) : Prop :=
  ∀ a, b ≤ a → a < b + len → ¬ (p ≤ a ∧ a < p + size) → m' a = m a

variable {s sc i align size : ℕ}

theorem SpanRequest.objectClass (h : SpanRequest s sc i align size) : IsObjectClass sc := by
  rw [h.sizeClass]
  have h8 := h.eightLe
  exact sizeToClass_isObjectClass (by omega) h.medium

theorem SpanRequest.room (h : SpanRequest s sc i align size) : align + size ≤ classToSize sc := by
  rw [h.sizeClass]
  exact le_classToSize_sizeToClass h.medium

theorem SpanRequest.eight_dvd (h : SpanRequest s sc i align size) : 8 ∣ align :=
  dvd_of_isPowerOfTwo ⟨3,rfl⟩ h.powerOfTwo h.eightLe

/-- The moved pointer lies at least eight bytes inside the block, with its room. -/
theorem SpanRequest.moved (h : SpanRequest s sc i align size) :
    blockStart s sc i + align < kWord ∧
    blockStart s sc i + 8 ≤ newStart (blockStart s sc i) align ∧
    newStart (blockStart s sc i) align + size ≤ blockStart s sc i + classToSize sc := by
  have hin := block_in_virtualSpan (s := s) h.objectClass h.slot
  have hbound := h.span.bounded
  have hroom := h.room
  have h8 := h.eightLe
  have hpos := h.sizePos
  have hword : blockStart s sc i + align < kWord := by omega
  have hle := (newStart_bounds (by omega) hword).2
  have hb8 : 8 ∣ blockStart s sc i :=
    (show 8 ∣ 16 by decide).trans
      (Nat.dvd_of_mod_eq_zero (blockStart_mod (i := i) h.span h.objectClass))
  have hlow := newStart_add_le h.eight_dvd hb8 (by omega) hword
  exact ⟨hword,hlow,by omega⟩

/-- On no input does `Core::Free` recover the block of a pointer that
`posix_memalign` returned, while a block start is always kept. -/
theorem freedAddress_of_posixMemalign {malloc : Malloc} {m m' m'' : Memory} {p : ℕ}
    (h : SpanRequest s sc i align size)
    (hm : malloc ((align + size) % kWord) m = (blockStart s sc i,m'))
    (hp : (posixMemalign malloc align size m).ptr = some p)
    (hkeep : KeepsRest (posixMemalign malloc align size m).mem m''
      (blockStart s sc i) (classToSize sc) p size) :
    alignToBlockStart kIntFast32Linux m'' s sc p ≠ blockStart s sc i ∧
    freedAddress kIntFast32Linux (posixMemalign malloc align size m).seenMemalign m'' s sc p ≠
      blockStart s sc i ∧
    ∀ (before : Memory) (seen : Bool) (j : ℕ),
      alignToBlockStart kIntFast32Linux before s sc (blockStart s sc j) = blockStart s sc j ∧
      freedAddress kIntFast32Linux seen before s sc (blockStart s sc j) = blockStart s sc j := by
  obtain ⟨hword,hlow,hhigh⟩ := h.moved
  have hstart := blockStart_ne_zero s sc i
  have hsize : size ≠ 0 := h.sizePos.ne'
  have halign : 0 < align := by have := h.eightLe; omega
  rw [posixMemalign_of_malloc hsize hm hstart halign hword] at hp hkeep ⊢
  dsimp only at hp hkeep ⊢
  obtain rfl : newStart (blockStart s sc i) align = p := Option.some.inj hp
  have hlast := (newStart_bounds halign hword).2
  have hagree : AgreeOn (writeTag m' (newStart (blockStart s sc i) align)) m''
      (newStart (blockStart s sc i) align - 4) (newStart (blockStart s sc i) align) := by
    intro a h1 h2
    exact hkeep a (by omega) (by omega) (by omega)
  have htag := load_writeTag (by omega) (by omega) hagree
  have hfree : alignToBlockStart kIntFast32Linux m'' s sc (newStart (blockStart s sc i) align) =
      newStart (blockStart s sc i) align := alignToBlockStart_tagged_linux (by omega) htag
  have hne : newStart (blockStart s sc i) align ≠ blockStart s sc i := by omega
  refine ⟨?_,?_,fun before seen j => ⟨?_,?_⟩⟩
  · rw [hfree]
    exact hne
  · rw [freedAddress, if_pos rfl, hfree]
    exact hne
  · exact alignToBlockStart_blockStart _ _ _ _ _
  · exact freedAddress_blockStart _ _ _ _ _ _

/-- A 60-byte object aligned to 64 bytes, in the first block of a span of class 8. -/
def alignedSample : Aligned :=
  posixMemalign (fun _ m => (blockStart kVirtualSpanSize 8 0,m)) 64 60 (fun _ => 0)

theorem freedAddress_alignedSample :
    8 = sizeToClass (64 + 60) ∧
    alignedSample.ptr = some (blockStart kVirtualSpanSize 8 0 + 64) ∧
    ∃ p, alignedSample.ptr = some p ∧
      alignToBlockStart kIntFast32Linux alignedSample.mem kVirtualSpanSize 8 p ≠
        blockStart kVirtualSpanSize 8 0 ∧
      freedAddress kIntFast32Linux alignedSample.seenMemalign alignedSample.mem
        kVirtualSpanSize 8 p ≠ blockStart kVirtualSpanSize 8 0 := by
  have hreq : SpanRequest kVirtualSpanSize 8 0 64 60 :=
    ⟨⟨by decide,by decide⟩,by decide,by decide,⟨6,rfl⟩,by decide,by decide,by decide⟩
  have hall := @freedAddress_of_posixMemalign _ _ _ _ _ (fun _ m => (blockStart kVirtualSpanSize 8 0,m))
    (fun _ => 0) _ alignedSample.mem _ hreq rfl rfl (fun _ _ _ _ => rfl)
  exact ⟨by decide,rfl,_,rfl,hall.1,hall.2.1⟩

/-- The free of that object goes to the interior address. -/
theorem not_freedAddress_alignedSample :
    ¬ ∀ p, alignedSample.ptr = some p →
      alignToBlockStart kIntFast32Linux alignedSample.mem kVirtualSpanSize 8 p =
        blockStart kVirtualSpanSize 8 0 := by
  intro h
  exact absurd (h (blockStart kVirtualSpanSize 8 0 + 64) rfl) (by decide)

end Scalloc.Glue
