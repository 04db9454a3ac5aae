import Scalloc.Glue.Memalign

/-! # Large objects

A large object is one mapping with a two-word header in front of its payload. The
header is found again by rounding the user pointer down to a page.
-/
namespace Scalloc.LargeObject
open ByteMemory

def kMagic : ℕ := 0xAAAAAAAAAAAAAAAA

/-- `sizeof(LargeObject)`: the actual size and the magic word. -/
def kHeaderSize : ℕ := 16

def actualSize (size : ℕ) : ℕ := padSize ((size + kHeaderSize) % kWord) kPageSize

def objectStart (obj : ℕ) : ℕ := obj + kHeaderSize

/-- `LargeObject::Allocate` where `mmap` returned the zeroed region at `base`. -/
def allocate (base : ℕ) : Glue.Malloc := fun size m =>
  let m := clear m base (actualSize size)
  (objectStart base,store (store m base 8 (actualSize size)) (base + 8) 8 kMagic)

/-- `LargeObject::FromMutatorPtr`; `none` is the fatal "invalid large object". -/
def fromMutatorPtr (m : Memory) (p : ℕ) : Option ℕ :=
  let obj := p &&& kPageNrMask
  if load m (obj + 8) 8 = kMagic then some obj else none

/-- The arguments of the `munmap` in `LargeObject::Free`. -/
def free (m : Memory) (p : ℕ) : Option (ℕ × ℕ) :=
  (fromMutatorPtr m p).map fun obj => (obj,load m obj 8)

def payloadSize (m : Memory) (p : ℕ) : Option ℕ :=
  (fromMutatorPtr m p).map fun obj => (load m obj 8 + kWord - kHeaderSize) % kWord

/-- The header of the mapping `[base, base + len)` is in place. -/
structure HasHeader (m : Memory) (base len : ℕ) : Prop where
  size : load m base 8 = len
  magic : load m (base + 8) 8 = kMagic

/-- The pointer leads to the header of exactly that mapping. -/
def FindsMapping (m : Memory) (p base len : ℕ) : Prop :=
  fromMutatorPtr m p = some base ∧ free m p = some (base,len) ∧
    payloadSize m p = some (len - kHeaderSize)

theorem page_eq {p : ℕ} (hp : p < kWord) : p &&& kPageNrMask = p / kPageSize * kPageSize :=
  land_highMask (k := 12) (by decide) hp

/-- A pointer into the first page of a mapping finds its header. -/
theorem HasHeader.findsMapping {m : Memory} {base len p : ℕ} (h : HasHeader m base len)
    (hpage : base % kPageSize = 0) (h1 : base ≤ p) (h2 : p < base + kPageSize) (hp : p < kWord)
    (hlen : kHeaderSize ≤ len) (hword : len < kWord) : FindsMapping m p base len := by
  have hobj : p &&& kPageNrMask = base := by
    have hk : kPageSize = 4096 := rfl
    rw [hk] at hpage h2
    rw [page_eq hp, hk]
    omega
  have hfind : fromMutatorPtr m p = some base := by
    simp only [fromMutatorPtr, hobj, h.magic, if_true]
  have hsub : (len + kWord - kHeaderSize) % kWord = len - kHeaderSize := by
    rw [show len + kWord - kHeaderSize = len - kHeaderSize + kWord by omega, Nat.add_mod_right,
      Nat.mod_eq_of_lt (by omega)]
  refine ⟨hfind,?_,?_⟩
  · rw [free, hfind, Option.map_some, h.size]
  · rw [payloadSize, hfind, Option.map_some, h.size, hsub]

/-- A pointer on a page boundary never finds a header in front of it. -/
theorem not_findsMapping_of_page {m : Memory} {base len p : ℕ} (hp : p < kWord)
    (hpage : p % kPageSize = 0) (hne : p ≠ base) : ¬ FindsMapping m p base len := by
  rintro ⟨hfind,_,_⟩
  have hobj : p &&& kPageNrMask = p := by
    have hk : kPageSize = 4096 := rfl
    rw [hk] at hpage
    rw [page_eq hp, hk]
    omega
  simp only [fromMutatorPtr, hobj] at hfind
  split at hfind
  · exact hne (Option.some.inj hfind)
  · cases hfind

theorem hasHeader_allocate {base size : ℕ} (m : Memory) (hw : actualSize size < kWord) :
    HasHeader (allocate base size m).2 base (actualSize size) := by
  constructor
  · rw [allocate, load_store_disjoint (by omega), load_store_of_lt hw]
  · rw [allocate, load_store_of_lt (by decide)]

theorem HasHeader.congr {m m' : Memory} {base len : ℕ} (h : HasHeader m base len)
    (hag : AgreeOn m m' base (base + kHeaderSize)) : HasHeader m' base len := by
  have hk : kHeaderSize = 16 := rfl
  refine ⟨?_,?_⟩
  · rw [load_congr (hag.mono le_rfl (by omega)), h.size]
  · rw [load_congr (hag.mono (by omega) (by omega)), h.magic]

/-- Rounding up to a page, when nothing wraps. -/
theorem actualSize_bounds {size : ℕ} (h : size + kHeaderSize + kPageSize ≤ kWord) :
    size + kHeaderSize ≤ actualSize size ∧ actualSize size < size + kHeaderSize + kPageSize ∧
      actualSize size % kPageSize = 0 := by
  have hk : kPageSize = 4096 := rfl
  have hh : kHeaderSize = 16 := rfl
  have hw : kWord = 2 ^ 64 := rfl
  unfold actualSize padSize
  rw [Nat.mod_eq_of_lt (a := size + kHeaderSize) (by omega), Nat.mod_eq_of_lt (by omega), hk, hh]
  omega

/-- The bytes of the magic word and of the tag are all the same. -/
theorem magicByte {k : ℕ} (h : k < 8) : UInt8.ofNat (kMagic / 256 ^ k) = 0xAA := by
  interval_cases k <;> decide

theorem tagByte {k : ℕ} (h : k < 4) : UInt8.ofNat (kAlignTag / 256 ^ k) = 0xAA := by
  interval_cases k <;> decide

theorem allocate_magicByte {base size x : ℕ} (m : Memory) (h1 : base + 8 ≤ x)
    (h2 : x < base + 8 + 8) : (allocate base size m).2 x = 0xAA := by
  simp only [allocate]
  rw [store, if_pos ⟨h1,h2⟩, magicByte (by omega)]

/-- A tag written anywhere above the size word leaves the header as it is: where it
reaches into the magic word it writes the bytes that are there. -/
theorem writeTag_header {base size p : ℕ} (m : Memory) (h1 : base + kHeaderSize < p)
    (h2 : p < kWord) :
    AgreeOn (allocate base size m).2 (Glue.writeTag (allocate base size m).2 p)
      base (base + kHeaderSize) := by
  have hh : kHeaderSize = 16 := rfl
  have haddr : (p + kWord - 4) % kWord = p - 4 := by
    rw [show p + kWord - 4 = p - 4 + kWord by omega, Nat.add_mod_right, Nat.mod_eq_of_lt (by omega)]
  intro x hx1 hx2
  rw [Glue.writeTag, haddr]
  by_cases hx : p - 4 ≤ x ∧ x < p - 4 + 4
  · rw [store, if_pos hx, tagByte (by omega), allocate_magicByte m (by omega) (by omega)]
  · rw [store, if_neg hx]

end Scalloc.LargeObject
