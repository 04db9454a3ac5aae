import Scalloc.Span.BlockStart

/-! # Aligned allocation and the realignment tag

The aligned entry points over an arbitrary `malloc`. The tag is written as four
bytes below the moved pointer and read back as one `int_fast32_t`, so what is
found depends on the width of that type.
-/
namespace Scalloc.Glue
open ByteMemory

/-- `malloc` as the wrappers call it: the request and the memory before, the
pointer (0 for `NULL`) and the memory after. -/
abbrev Malloc := ℕ → Memory → ℕ × Memory

inductive Errno
  | ENOMEM
  | EINVAL
deriving DecidableEq, Repr

/-- What an aligned call leaves behind: its error, if any, the pointer stored
through `ptr`, the memory and the global `seen_memalign`. A failed call stores no
pointer. -/
structure Aligned where
  error : Option Errno
  ptr : Option ℕ
  mem : Memory
  seenMemalign : Bool

/-- The pointer moved up to the next multiple of `align`, always by at least one byte. -/
def newStart (start align : ℕ) : ℕ := (start + align - start % align) % kWord

def writeTag (m : Memory) (p : ℕ) : Memory := store m ((p + kWord - 4) % kWord) 4 kAlignTag

/-- `posix_memalign`. -/
def posixMemalign (malloc : Malloc) (align size : ℕ) (m : Memory) : Aligned :=
  if size = 0 then ⟨none,some 0,m,true⟩
  else
    let sizeNeeded := (align + size) % kWord
    let (start,m) := malloc sizeNeeded m
    if start = 0 then ⟨some .ENOMEM,none,m,true⟩
    else
      let p := newStart start align
      ⟨none,some p,if p ≠ start then writeTag m p else m,true⟩

/-- `memalign`: the pointer, or `NULL` for an error. -/
def memalign (malloc : Malloc) (align size : ℕ) (m : Memory) : ℕ × Memory :=
  let r := posixMemalign malloc align size m
  if r.error.isSome then (0,r.mem) else (r.ptr.getD 0,r.mem)

/-- `aligned_alloc`: a size that is no multiple of the alignment is refused. -/
def alignedAlloc (malloc : Malloc) (align size : ℕ) (m : Memory) : Option Errno × ℕ × Memory :=
  if size % align ≠ 0 then (some .EINVAL,0,m) else (none,memalign malloc align size m)

def valloc (malloc : Malloc) (size : ℕ) (m : Memory) : ℕ × Memory :=
  memalign malloc kPageSize size m

def pvalloc (malloc : Malloc) (size : ℕ) (m : Memory) : ℕ × Memory :=
  memalign malloc kPageSize (padSize size kPageSize) m

variable {start align size : ℕ}

theorem newStart_eq (hb : start + align < kWord) :
    newStart start align = start + align - start % align := by
  have hle := Nat.mod_le start align
  rw [newStart, Nat.mod_eq_of_lt (by omega)]

/-- The moved pointer is above the start by a positive multiple of every common
divisor of start and alignment, and by at most the alignment. -/
theorem newStart_bounds (ha : 0 < align) (hb : start + align < kWord) :
    start < newStart start align ∧ newStart start align ≤ start + align := by
  have hlt := Nat.mod_lt start ha
  rw [newStart_eq hb]
  omega

theorem newStart_dvd (ha : 0 < align) (hb : start + align < kWord) :
    align ∣ newStart start align := by
  have hle := Nat.mod_le start align
  rw [newStart_eq hb, show start + align - start % align = start - start % align + align by omega]
  exact Nat.dvd_add (Nat.dvd_sub_mod start) (dvd_refl align)

theorem newStart_add_le {d : ℕ} (hd : d ∣ align) (hs : d ∣ start) (ha : 0 < align)
    (hb : start + align < kWord) : start + d ≤ newStart start align := by
  have hlt := (newStart_bounds ha hb).1
  have hdiv : d ∣ newStart start align - start :=
    Nat.dvd_sub (hd.trans (newStart_dvd ha hb)) hs
  have hle := Nat.le_of_dvd (by omega) hdiv
  omega

/-- A successful call on a non-empty request in which `malloc` returned `start`. -/
theorem posixMemalign_of_malloc {malloc : Malloc} {m m' : Memory} (hsize : size ≠ 0)
    (hm : malloc ((align + size) % kWord) m = (start,m')) (hstart : start ≠ 0)
    (ha : 0 < align) (hb : start + align < kWord) :
    posixMemalign malloc align size m =
      ⟨none,some (newStart start align),writeTag m' (newStart start align),true⟩ := by
  have hne : newStart start align ≠ start := (newStart_bounds ha hb).1.ne'
  simp only [posixMemalign, if_neg hsize, hm, if_neg hstart, if_pos hne]

theorem memalign_of_success {malloc : Malloc} {m m' : Memory} {p : ℕ} {seen : Bool}
    (h : posixMemalign malloc align size m = ⟨none,some p,m',seen⟩) :
    memalign malloc align size m = (p,m') := by
  simp only [memalign, h]
  rfl

/-- The four bytes of the tag, seen by any memory that keeps them. -/
theorem load_writeTag {m m' : Memory} {p : ℕ} (h4 : 4 ≤ p) (hp : p < kWord)
    (h : AgreeOn (writeTag m p) m' (p - 4) p) : load m' (p - 4) 4 = kAlignTag := by
  have haddr : (p + kWord - 4) % kWord = p - 4 := by
    rw [show p + kWord - 4 = p - 4 + kWord by omega, Nat.add_mod_right, Nat.mod_eq_of_lt (by omega)]
  have hread : load m' (p - 4) 4 = load (writeTag m p) (p - 4) 4 :=
    load_congr (h.mono le_rfl (by omega))
  rw [hread, writeTag, haddr, load_store_of_lt (by decide)]

/-- Where `int_fast32_t` has eight bytes the tag is the high half of the word that
is compared, so the comparison fails. -/
theorem alignToBlockStart_tagged_linux {m : Memory} {s sc p : ℕ} (h8 : 8 ≤ p)
    (htag : load m (p - 4) 4 = kAlignTag) :
    alignToBlockStart kIntFast32Linux m s sc p = p := by
  have hsplit : load m (p - 8) 8 = load m (p - 8) 4 + 256 ^ 4 * kAlignTag := by
    rw [show (8 : ℕ) = 4 + 4 by rfl, load_add, show p - (4 + 4) + 4 = p - 4 by omega, htag]
  have hne : load m (p - kIntFast32Linux) kIntFast32Linux ≠ kAlignTag % 256 ^ kIntFast32Linux := by
    have hk : kIntFast32Linux = 8 := rfl
    have hc : kAlignTag % 256 ^ 8 < 256 ^ 4 * kAlignTag := by decide
    rw [hk, hsplit]
    omega
  rw [alignToBlockStart, if_neg hne]

/-- Where it has four bytes the tag is found and the block start recovered. -/
theorem alignToBlockStart_tagged_osx {m : Memory} {s sc i p : ℕ}
    (htag : load m (p - 4) 4 = kAlignTag) (h1 : blockStart s sc i ≤ p)
    (h2 : p < blockStart s sc i + classToSize sc) :
    alignToBlockStart kIntFast32Osx m s sc p = blockStart s sc i := by
  have hfound : load m (p - kIntFast32Osx) kIntFast32Osx = kAlignTag % 256 ^ kIntFast32Osx := htag
  have hd : p - headerEnd s = (p - blockStart s sc i) + i * classToSize sc := by
    unfold blockStart at h1 ⊢
    omega
  rw [alignToBlockStart, if_pos hfound, hd, Nat.add_mul_mod_self_right,
    Nat.mod_eq_of_lt (by omega)]
  omega

end Scalloc.Glue
