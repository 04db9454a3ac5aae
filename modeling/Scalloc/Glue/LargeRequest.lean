import Scalloc.Glue.LargeObject

/-! # The room that large requests get

`malloc` and `calloc` with the span part of `Core::Allocate` and `mmap` as parameters.
The division check of `calloc` finds every product that does not fit a word. Adding the
header can still wrap: the last 15 sizes get a single page.
-/
namespace Scalloc.Glue
open ByteMemory LargeObject

/-- `mmap` as it is called for a length; `none` is `MAP_FAILED`. -/
abbrev Mmap := ℕ → Option ℕ

/-- `malloc`, that is `Core::Allocate` with the spans as a parameter. `none` is the fatal
"mmap failed". -/
def malloc (spans : Malloc) (mmap : Mmap) (size : ℕ) (m : Memory) : Option (ℕ × Memory) :=
  if sizeToClass size = 0 then
    if size = 0 then some (0,m)
    else (mmap (actualSize size)).map fun base => LargeObject.allocate base size m
  else some (spans size m)

/-- `calloc`. -/
def calloc (spans : Malloc) (mmap : Mmap) (nmemb size : ℕ) (m : Memory) : Option (ℕ × Memory) :=
  let mallocSize := nmemb * size % kWord
  if size ≠ 0 ∧ mallocSize / size ≠ nmemb then some (0,m)
  else (malloc spans mmap mallocSize m).map fun (p,m) =>
    if p ≠ 0 then (p,clear m p mallocSize) else (p,m)

/-- `mmap` fails or returns whole pages of the length asked for; it fails for length 0. -/
structure Mmap.Lawful (mmap : Mmap) : Prop where
  zero : mmap 0 = none
  page : ∀ len base, mmap len = some base → base % kPageSize = 0 ∧ 0 < base ∧ base + len ≤ kWord

variable {spans : Malloc} {mmap : Mmap} {nmemb size : ℕ} {m : Memory}

/-- The division check finds exactly the products that do not fit a word. -/
theorem product_check (hs : 0 < size) :
    nmemb * size % kWord / size = nmemb ↔ nmemb * size < kWord := by
  constructor
  · intro h
    by_contra hge
    have hlt : nmemb * size % kWord < size * nmemb := by
      have hmod := Nat.mod_lt (nmemb * size) kWord_pos
      rw [Nat.mul_comm size nmemb]
      omega
    have hdiv := Nat.div_lt_of_lt_mul hlt
    omega
  · intro h
    rw [Nat.mod_eq_of_lt h, Nat.mul_div_cancel _ hs]

/-- The length that is mapped: enough when nothing wraps, nothing when the rounding
wraps, and one page when the header does not fit. -/
theorem actualSize_cases (hw : size < kWord) :
    (size + kHeaderSize + kPageSize ≤ kWord ∨ actualSize size = 0) ∧ size + 15 < kWord ∨
      actualSize size = kPageSize ∧ kWord ≤ size + 15 := by
  have hk : kPageSize = 4096 := rfl
  have hh : kHeaderSize = 16 := rfl
  have hword : kWord = 2 ^ 64 := rfl
  unfold actualSize padSize
  rw [hh, hk]
  rw [hword] at hw ⊢
  omega

theorem hasHeader_large (size base : ℕ) (m : Memory) :
    HasHeader (LargeObject.allocate base size m).2 base (actualSize size) := by
  refine hasHeader_allocate m ?_
  have hk : kPageSize = 4096 := rfl
  have hh : kHeaderSize = 16 := rfl
  have hword : kWord = 2 ^ 64 := rfl
  unfold actualSize padSize
  rw [hh, hk, hword]
  omega

/-- A mapping has at least one page, since `mmap` fails for length 0. -/
theorem mapped_page {base : ℕ} (hl : mmap.Lawful) (hmap : mmap (actualSize size) = some base) :
    kPageSize ≤ actualSize size := by
  have hk : kPageSize = 4096 := rfl
  have hne : actualSize size ≠ 0 := by
    intro h0
    rw [h0, hl.zero] at hmap
    cases hmap
  unfold actualSize padSize at hne ⊢
  rw [hk] at hne ⊢
  omega

/-- A system that maps everything up to 1 GiB at one place. -/
def sampleMmap : Mmap := fun len => if 0 < len ∧ len ≤ kGiga then some kGiga else none

theorem sampleMmap_lawful : sampleMmap.Lawful where
  zero := rfl
  page := by
    intro len base h
    simp only [sampleMmap] at h
    split at h
    · next hlen =>
      obtain rfl := Option.some.inj h
      have hk : kGiga + kGiga ≤ kWord := by decide
      exact ⟨by decide,by decide,by omega⟩
    · cases h

end Scalloc.Glue
