import Scalloc.Base.SizeClasses
import Scalloc.Lib.ByteMemory

/-! # Blocks of a virtual span

A virtual span is a 2 MiB-aligned region that starts with the span header; its
objects are packed behind the header. `fromObject` finds the span of an address,
`alignToBlockStart` the block of an address that `posix_memalign` moved.
-/
namespace Scalloc
open ByteMemory

/-- `Span::FromObject`: mask off the offset inside the virtual span. -/
def fromObject (p : ℕ) : ℕ := p &&& kVirtualSpanMask

/-- `Span::HeaderEnd`; the header occupies `kSpanHeaderSize` bytes. -/
def headerEnd (s : ℕ) : ℕ := s + kSpanHeaderSize

def blockStart (s sc i : ℕ) : ℕ := headerEnd s + i * classToSize sc

/-- `Span::kAlignTag`, the word `posix_memalign` leaves below a moved pointer. -/
def kAlignTag : ℕ := 0xAAAAAAAA

/-- `sizeof(int_fast32_t)` of the x86-64 Linux ABI. -/
def kIntFast32Linux : ℕ := 8
/-- `sizeof(int_fast32_t)` on OS X. -/
def kIntFast32Osx : ℕ := 4

/-- `Span::AlignToBlockStart` where `int_fast32_t` has `w` bytes: the comparison with
the non-negative constant is a comparison of the `w` bytes below the pointer. -/
def alignToBlockStart (w : ℕ) (m : Memory) (s sc p : ℕ) : ℕ :=
  if load m (p - w) w = kAlignTag % 256 ^ w then p - (p - headerEnd s) % classToSize sc else p

/-- The address that `Core::Free` hands to `Span::Free`. -/
def freedAddress (w : ℕ) (seenMemalign : Bool) (m : Memory) (s sc p : ℕ) : ℕ :=
  if seenMemalign then alignToBlockStart w m s sc p else p

structure IsVirtualSpan (s : ℕ) : Prop where
  aligned : s % kVirtualSpanSize = 0
  bounded : s + kVirtualSpanSize ≤ kWord

theorem fromObject_eq {p : ℕ} (hp : p < kWord) :
    fromObject p = p / kVirtualSpanSize * kVirtualSpanSize :=
  land_highMask (by decide) hp

/-- Every address inside a virtual span leads back to its start. -/
theorem fromObject_of_mem {s p : ℕ} (hs : IsVirtualSpan s) (h1 : s ≤ p)
    (h2 : p < s + kVirtualSpanSize) : fromObject p = s := by
  have hv : 0 < kVirtualSpanSize := by decide
  obtain ⟨k,rfl⟩ := Nat.dvd_of_mod_eq_zero hs.aligned
  have hk : p / kVirtualSpanSize = k := by
    rw [Nat.div_eq_iff hv]
    constructor
    · rw [mul_comm]
      exact h1
    · rw [mul_comm]
      omega
  rw [fromObject_eq (h2.trans_le hs.bounded), hk, mul_comm]

theorem blockStart_ne_zero (s sc i : ℕ) : blockStart s sc i ≠ 0 := by
  have hh : 0 < kSpanHeaderSize := by decide
  unfold blockStart headerEnd
  omega

theorem blockStart_mod {s sc i : ℕ} (hs : IsVirtualSpan s) (hsc : IsObjectClass sc) :
    blockStart s sc i % 16 = 0 := by
  have hz : s % 16 = 0 := by
    have hd : 16 ∣ kVirtualSpanSize := by decide
    exact Nat.mod_eq_zero_of_dvd (hd.trans (Nat.dvd_of_mod_eq_zero hs.aligned))
  have hi : i * classToSize sc % 16 = 0 := by
    rw [Nat.mul_mod, classToSize_mod hsc, mul_zero, Nat.zero_mod]
  have hh : kSpanHeaderSize = 128 := rfl
  unfold blockStart headerEnd
  omega

/-- A block lies behind the header and inside the real span. -/
theorem block_in_span {s sc i : ℕ} (hsc : IsObjectClass sc) (hi : i < classToObjects sc) :
    headerEnd s ≤ blockStart s sc i ∧
      blockStart s sc i + classToSize sc ≤ s + classToSpanSize sc := by
  have hfit := objects_fit_span hsc
  have hmul : (i + 1) * classToSize sc ≤ classToObjects sc * classToSize sc :=
    Nat.mul_le_mul_right _ hi
  rw [Nat.add_mul, one_mul] at hmul
  unfold blockStart headerEnd
  omega

theorem block_in_virtualSpan {s sc i : ℕ} (hsc : IsObjectClass sc) (hi : i < classToObjects sc) :
    blockStart s sc i + classToSize sc ≤ s + kVirtualSpanSize := by
  have h1 := (block_in_span (s := s) hsc hi).2
  have h2 := classToSpanSize_le hsc
  omega

/-- Distinct blocks of one span do not overlap. -/
theorem blocks_disjoint {s sc i j : ℕ} (h : i < j) :
    blockStart s sc i + classToSize sc ≤ blockStart s sc j := by
  have hmul : (i + 1) * classToSize sc ≤ j * classToSize sc := Nat.mul_le_mul_right _ h
  rw [Nat.add_mul, one_mul] at hmul
  unfold blockStart
  omega

/-- A block start is a fixed point, whatever bytes precede it. -/
theorem alignToBlockStart_blockStart (w : ℕ) (m : Memory) (s sc i : ℕ) :
    alignToBlockStart w m s sc (blockStart s sc i) = blockStart s sc i := by
  have hd : (blockStart s sc i - headerEnd s) % classToSize sc = 0 := by
    rw [blockStart, Nat.add_sub_cancel_left, Nat.mul_mod_left]
  unfold alignToBlockStart
  rw [hd, Nat.sub_zero, ite_self]

theorem freedAddress_blockStart (w : ℕ) (seen : Bool) (m : Memory) (s sc i : ℕ) :
    freedAddress w seen m s sc (blockStart s sc i) = blockStart s sc i := by
  unfold freedAddress
  rw [alignToBlockStart_blockStart, ite_self]

end Scalloc
