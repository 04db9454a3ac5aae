import Scalloc.Glue.LargeObject

/-! # Freeing aligned large objects

All five aligned entry points reduce to `posix_memalign`. When the request is
served by one mapping, the moved pointer stays on the page of the header exactly
for alignments below the page size.
-/
namespace Scalloc.Glue
open ByteMemory LargeObject

/-- A call of one of the aligned entry points. -/
inductive AlignedCall
  | posixMemalign (align size : ℕ)
  | memalign (align size : ℕ)
  | alignedAlloc (align size : ℕ)
  | valloc (size : ℕ)
  | pvalloc (size : ℕ)
deriving DecidableEq, Repr

namespace AlignedCall

/-- The alignment that reaches `posix_memalign`. -/
def align : AlignedCall → ℕ
  | posixMemalign align _ | memalign align _ | alignedAlloc align _ => align
  | valloc _ | pvalloc _ => kPageSize

/-- The size that reaches `posix_memalign`. -/
def size : AlignedCall → ℕ
  | posixMemalign _ size | memalign _ size | alignedAlloc _ size | valloc size => size
  | pvalloc size => padSize size kPageSize

/-- The pointer the caller gets, 0 for none, and the memory. -/
def run (malloc : Malloc) : AlignedCall → Memory → ℕ × Memory
  | posixMemalign align size, m =>
    let r := Glue.posixMemalign malloc align size m
    (r.ptr.getD 0,r.mem)
  | memalign align size, m => Glue.memalign malloc align size m
  | alignedAlloc align size, m => (Glue.alignedAlloc malloc align size m).2
  | valloc size, m => Glue.valloc malloc size m
  | pvalloc size, m => Glue.pvalloc malloc size m

/-- A call that is not refused for its size. -/
def Admitted : AlignedCall → Prop
  | alignedAlloc align size => size % align = 0
  | _ => True

instance (c : AlignedCall) : Decidable c.Admitted := by
  unfold Admitted
  split <;> infer_instance

/-- An admitted call whose `malloc` succeeds delivers the moved pointer and its tag. -/
theorem run_of_malloc {malloc : Malloc} {m m' : Memory} {start : ℕ} (c : AlignedCall)
    (hc : c.Admitted) (hsize : c.size ≠ 0)
    (hm : malloc ((c.align + c.size) % kWord) m = (start,m')) (hstart : start ≠ 0)
    (ha : 0 < c.align) (hb : start + c.align < kWord) :
    c.run malloc m = (newStart start c.align,writeTag m' (newStart start c.align)) := by
  have hr := posixMemalign_of_malloc hsize hm hstart ha hb
  cases c with
  | posixMemalign a n =>
    simp only [AlignedCall.align, AlignedCall.size] at hr ⊢
    simp only [run, hr, Option.getD_some]
  | memalign a n => exact memalign_of_success hr
  | alignedAlloc a n =>
    have hmod : ¬ n % a ≠ 0 := not_not.mpr hc
    simp only [run, Glue.alignedAlloc, if_neg hmod]
    exact memalign_of_success hr
  | valloc n => exact memalign_of_success hr
  | pvalloc n => exact memalign_of_success hr

end AlignedCall

/-- A call that one mapping at the page-aligned `base` serves, without wrap-around
in `align + size` or in the rounding to pages. -/
structure LargeRequest (base : ℕ) (c : AlignedCall) : Prop where
  admitted : c.Admitted
  powerOfTwo : c.align.isPowerOfTwo
  sizePos : 0 < c.size
  large : kMaxMediumSize < c.align + c.size
  noWrap : c.align + c.size + kHeaderSize + kPageSize ≤ kWord
  pageAligned : base % kPageSize = 0
  mapped : base + actualSize (c.align + c.size) ≤ kWord

variable {base : ℕ} {c : AlignedCall}

theorem LargeRequest.align_pos (h : LargeRequest base c) : 0 < c.align :=
  Nat.pos_of_isPowerOfTwo h.powerOfTwo

theorem LargeRequest.start_lt (h : LargeRequest base c) :
    objectStart base + c.align + c.size ≤ base + actualSize (c.align + c.size) := by
  have hb := (actualSize_bounds h.noWrap).1
  unfold objectStart
  omega

/-- What the call delivers. -/
theorem LargeRequest.run_eq (h : LargeRequest base c) (m : Memory) :
    c.run (allocate base) m =
      (newStart (objectStart base) c.align,
        writeTag (allocate base (c.align + c.size) m).2 (newStart (objectStart base) c.align)) := by
  have hlt := h.start_lt
  have hmap := h.mapped
  have hpos := h.sizePos
  have hnw := h.noWrap
  have hk : 0 < kHeaderSize := by decide
  have hmod : (c.align + c.size) % kWord = c.align + c.size := Nat.mod_eq_of_lt (by omega)
  refine c.run_of_malloc h.admitted hpos.ne' ?_ ?_ h.align_pos (by omega)
  · rw [hmod]
    rfl
  · unfold objectStart
    omega

/-- A power of two below the page size is at most half a page. -/
theorem isPowerOfTwo_half {a : ℕ} (h : a.isPowerOfTwo) (hlt : a < kPageSize) : a ≤ 2048 := by
  by_contra hgt
  have hdvd : 2048 ∣ a := dvd_of_isPowerOfTwo ⟨11,rfl⟩ h (by omega)
  have hp : kPageSize = 4096 := rfl
  omega

/-- Whatever the program writes to its payload, the pointer of an aligned large
object leads to the header of its mapping if and only if the alignment is below
the page size. -/
theorem findsMapping_aligned_iff {m m' : Memory} {p : ℕ} (h : LargeRequest base c)
    (hp : (c.run (allocate base) m).1 = p)
    (hkeep : ∀ a, ¬ (p ≤ a ∧ a < p + c.size) → m' a = (c.run (allocate base) m).2 a) :
    FindsMapping m' p base (actualSize (c.align + c.size)) ↔ c.align < kPageSize := by
  have hk : kPageSize = 4096 := rfl
  have hh : kHeaderSize = 16 := rfl
  have hstart := h.start_lt
  have hmap := h.mapped
  have hpos := h.sizePos
  have hnw := h.noWrap
  have hactual := actualSize_bounds h.noWrap
  have hword : objectStart base + c.align < kWord := by omega
  obtain ⟨hlow,hhigh⟩ := newStart_bounds h.align_pos hword
  rw [h.run_eq m] at hp hkeep
  dsimp only at hp hkeep
  rw [hp] at hlow hhigh
  have hos : objectStart base = base + 16 := rfl
  constructor
  · intro hfind
    by_contra hge
    have hpage : p % kPageSize = 0 := by
      rw [← hp]
      have hdvd : kPageSize ∣ c.align := dvd_of_isPowerOfTwo ⟨12,rfl⟩ h.powerOfTwo (by omega)
      exact Nat.mod_eq_zero_of_dvd (hdvd.trans (newStart_dvd h.align_pos hword))
    exact not_findsMapping_of_page (by omega) hpage (by omega) hfind
  · intro hlt
    have hhalf := isPowerOfTwo_half h.powerOfTwo hlt
    have hheader : HasHeader m' base (actualSize (c.align + c.size)) := by
      refine ((hasHeader_allocate m (by omega)).congr
        (writeTag_header m (p := p) (by omega) (by omega))).congr ?_
      intro x hx1 hx2
      rw [hkeep x (by omega), hp]
    exact hheader.findsMapping h.pageAligned (by omega) (by omega) (by omega) (by omega) (by omega)

/-- One mebibyte aligned to 64 bytes, in a mapping at address 2^30. -/
theorem findsMapping_aligned64 :
    LargeRequest (2 ^ 30) (.memalign 64 (2 ^ 20)) ∧
    FindsMapping ((AlignedCall.memalign 64 (2 ^ 20)).run (allocate (2 ^ 30)) fun _ => 0).2
      ((AlignedCall.memalign 64 (2 ^ 20)).run (allocate (2 ^ 30)) fun _ => 0).1
      (2 ^ 30) (actualSize (64 + 2 ^ 20)) := by
  have hreq : LargeRequest (2 ^ 30) (.memalign 64 (2 ^ 20)) :=
    ⟨trivial,⟨6,rfl⟩,by decide,by decide,by decide,by decide,by decide⟩
  exact ⟨hreq,(findsMapping_aligned_iff hreq rfl (fun _ _ => rfl)).mpr (by decide)⟩

/-- The same object through `valloc`: the page boundary behind the header is taken
for the header. -/
theorem not_findsMapping_valloc :
    ¬ FindsMapping ((AlignedCall.valloc (2 ^ 20)).run (allocate (2 ^ 30)) fun _ => 0).2
      ((AlignedCall.valloc (2 ^ 20)).run (allocate (2 ^ 30)) fun _ => 0).1
      (2 ^ 30) (actualSize (kPageSize + 2 ^ 20)) := by
  apply not_findsMapping_of_page <;> decide

end Scalloc.Glue
