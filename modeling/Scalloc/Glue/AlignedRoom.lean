import Scalloc.Glue.Memalign

/-! # The room behind an aligned pointer

The sum of alignment and size is computed without an overflow check. A sum above 2^64
asks `malloc` for less than the size; a sum of exactly 2^64 asks for nothing and fails.
-/
namespace Scalloc.Glue
open ByteMemory

/-- `malloc` returns `NULL` and allocates nothing, or a block of at least the requested
bytes, `block` of them; a request for nothing gets `NULL`. -/
structure Malloc.Lawful (malloc : Malloc) (block : ℕ → Memory → ℕ) : Prop where
  zero : ∀ m, malloc 0 m = (0,m)
  null : ∀ n m, (malloc n m).1 = 0 → (malloc n m).2 = m
  room : ∀ n m, (malloc n m).1 ≠ 0 → n ≤ block n m ∧ (malloc n m).1 + block n m ≤ kWord

/-- `[q, q + room)` is aligned and lies inside the block that `malloc` returned for `n`. -/
def InBlock (malloc : Malloc) (block : ℕ → Memory → ℕ) (m : Memory) (n align room q : ℕ) : Prop :=
  q % align = 0 ∧ (malloc n m).1 ≤ q ∧ q + room ≤ (malloc n m).1 + block n m

/-- What `posix_memalign` promises. -/
structure PosixPost (malloc : Malloc) (block : ℕ → Memory → ℕ) (m : Memory) (align size : ℕ)
    (r : Aligned) : Prop where
  success : r.error = none →
    ∃ q, r.ptr = some q ∧ InBlock malloc block m ((align + size) % kWord) align size q
  failure : r.error ≠ none → r.error = some .ENOMEM ∧ r.ptr = none ∧ r.mem = m

/-- What the calls that return a pointer promise, where `need` is passed on as the size and
`room` is what the caller may use. -/
structure PointerPost (malloc : Malloc) (block : ℕ → Memory → ℕ) (m : Memory)
    (align need room : ℕ) (r : ℕ × Memory) : Prop where
  success : r.1 ≠ 0 → InBlock malloc block m ((align + need) % kWord) align room r.1
  failure : r.1 = 0 → r.2 = m

/-- The size rounded up to whole pages. -/
def roundPage (size : ℕ) : ℕ := (size + kPageSize - 1) / kPageSize * kPageSize

variable {malloc : Malloc} {block : ℕ → Memory → ℕ} {m : Memory} {align size : ℕ}

/-- A sum that fits gives a block that holds the aligned object, and a sum of exactly 2^64
gives no block. -/
theorem posixMemalign_cases (hl : malloc.Lawful block) (ha : 0 < align) (hs : 0 < size)
    (hsum : align + size ≤ kWord) :
    (∃ q m', posixMemalign malloc align size m = ⟨none,some q,m',true⟩ ∧ q ≠ 0 ∧
      InBlock malloc block m ((align + size) % kWord) align size q) ∨
    posixMemalign malloc align size m = ⟨some .ENOMEM,none,m,true⟩ := by
  by_cases h0 : (malloc ((align + size) % kWord) m).1 = 0
  · refine .inr ?_
    simp only [posixMemalign, if_neg hs.ne', h0, if_true, hl.null _ _ h0]
  · have hlt : align + size < kWord := by
      refine lt_of_le_of_ne hsum fun he => h0 ?_
      rw [he, Nat.mod_self, hl.zero]
    obtain ⟨hroom,hfit⟩ := hl.room _ _ h0
    rw [Nat.mod_eq_of_lt hlt] at h0 hroom hfit ⊢
    have hb : (malloc (align + size) m).1 + align < kWord := by omega
    obtain ⟨h1,h2⟩ := newStart_bounds ha hb
    refine .inl ⟨_,_,posixMemalign_of_malloc hs.ne' (by rw [Nat.mod_eq_of_lt hlt]) h0 ha hb,
      by omega,Nat.mod_eq_zero_of_dvd (newStart_dvd ha hb),h1.le,by omega⟩

theorem posixPost_of_sum (hl : malloc.Lawful block) (ha : 0 < align) (hs : 0 < size)
    (hsum : align + size ≤ kWord) :
    PosixPost malloc block m align size (posixMemalign malloc align size m) := by
  rcases posixMemalign_cases (m := m) hl ha hs hsum with ⟨q,m',heq,_,hq⟩ | heq
  · rw [heq]
    exact ⟨fun _ => ⟨q,rfl,hq⟩,fun hne => absurd rfl hne⟩
  · rw [heq]
    exact ⟨fun he => (by cases he),fun _ => ⟨rfl,rfl,rfl⟩⟩

theorem pointerPost_of_sum (hl : malloc.Lawful block) (ha : 0 < align) (hs : 0 < size)
    (hsum : align + size ≤ kWord) :
    PointerPost malloc block m align size size (memalign malloc align size m) := by
  rcases posixMemalign_cases (m := m) hl ha hs hsum with ⟨q,m',heq,hq0,hq⟩ | heq
  · rw [memalign_of_success heq]
    exact ⟨fun _ => hq,fun h0 => absurd h0 hq0⟩
  · simp only [memalign, heq]
    exact ⟨fun h0 => absurd rfl h0,fun _ => rfl⟩

/-- A `malloc` that returns blocks of exactly the requested size. -/
def exactMalloc : Malloc := fun n m => if n = 0 ∨ 2 ^ 63 < n then (0,m) else (kPageSize,m)

theorem exactMalloc_lawful : Malloc.Lawful exactMalloc (fun n _ => n) where
  zero := fun m => by simp [exactMalloc]
  null := fun n m h => by
    simp only [exactMalloc] at h ⊢
    split <;> rfl
  room := fun n m h => by
    have hk : kPageSize + 2 ^ 63 ≤ kWord := by decide
    simp only [exactMalloc] at h ⊢
    split at h
    · exact absurd rfl h
    · next hn =>
      rw [if_neg hn]
      exact ⟨le_rfl,by omega⟩

/-- A sum above 2^64 gets a block that is too small. -/
theorem posixMemalign_wrapped (m : Memory) (ha : 0 < align) (ha' : align ≤ 2 ^ 63)
    (hsw : size < kWord) (hsum : kWord < align + size) :
    ∃ q m', posixMemalign exactMalloc align size m = ⟨none,some q,m',true⟩ ∧ q ≠ 0 ∧
      ¬ InBlock exactMalloc (fun n _ => n) m ((align + size) % kWord) align size q := by
  have hw : kWord = 2 ^ 64 := rfl
  have hk : kPageSize = 4096 := rfl
  have hr : (align + size) % kWord = align + size - kWord := by
    rw [Nat.mod_eq_sub_mod (by omega), Nat.mod_eq_of_lt (by omega)]
  have hmalloc : exactMalloc ((align + size) % kWord) m = (kPageSize,m) := by
    rw [exactMalloc, if_neg (by omega)]
  have hb : kPageSize + align < kWord := by omega
  obtain ⟨h1,h2⟩ := newStart_bounds ha hb
  refine ⟨_,_,posixMemalign_of_malloc (by omega) hmalloc (by decide) ha hb,by omega,?_⟩
  rintro ⟨_,hge,hle⟩
  rw [hmalloc] at hge hle
  dsimp only at hge hle
  omega

theorem posixPost_iff (ha : 0 < align) (ha' : align ≤ 2 ^ 63) (hs : 0 < size) (hsw : size < kWord) :
    (∀ malloc block, malloc.Lawful block → ∀ m,
      PosixPost malloc block m align size (posixMemalign malloc align size m)) ↔
    align + size ≤ kWord := by
  constructor
  · intro h
    by_contra hsum
    obtain ⟨q,m',heq,_,hno⟩ := posixMemalign_wrapped (fun _ => 0) ha ha' hsw (not_le.mp hsum)
    have hpost := h exactMalloc (fun n _ => n) exactMalloc_lawful fun _ => 0
    rw [heq] at hpost
    obtain ⟨q',hq',hin⟩ := hpost.success rfl
    obtain rfl := Option.some.inj hq'
    exact hno hin
  · intro hsum malloc block hl m
    exact posixPost_of_sum hl ha hs hsum

theorem memalignPost_iff (ha : 0 < align) (ha' : align ≤ 2 ^ 63) (hs : 0 < size)
    (hsw : size < kWord) :
    (∀ malloc block, malloc.Lawful block → ∀ m,
      PointerPost malloc block m align size size (memalign malloc align size m)) ↔
    align + size ≤ kWord := by
  constructor
  · intro h
    by_contra hsum
    obtain ⟨q,m',heq,hq0,hno⟩ := posixMemalign_wrapped (fun _ => 0) ha ha' hsw (not_le.mp hsum)
    have hpost := h exactMalloc (fun n _ => n) exactMalloc_lawful fun _ => 0
    rw [memalign_of_success heq] at hpost
    exact hno (hpost.success hq0)
  · intro hsum malloc block hl m
    exact pointerPost_of_sum hl ha hs hsum

/-- A multiple of the alignment leaves room for the alignment below 2^64. -/
theorem alignedAlloc_post (hl : malloc.Lawful block) {k : ℕ} (ha : align = 2 ^ k)
    (ha' : align ≤ 2 ^ 63) (hs : 0 < size) (hsw : size < kWord) :
    PointerPost malloc block m align size size (alignedAlloc malloc align size m).2 := by
  unfold alignedAlloc
  split
  · exact ⟨fun h0 => absurd rfl h0,fun _ => rfl⟩
  · next hdvd =>
    have hpos : 0 < align := by rw [ha]; exact Nat.two_pow_pos k
    refine pointerPost_of_sum hl hpos hs ?_
    have hk : k ≤ 63 := by
      rw [ha] at ha'
      exact (Nat.pow_le_pow_iff_right (by decide)).mp ha'
    have h1 : align ∣ kWord := by
      rw [ha]
      exact pow_dvd_pow 2 (by omega)
    have h2 : align ∣ kWord - size := Nat.dvd_sub h1 (Nat.dvd_of_mod_eq_zero (not_not.mp hdvd))
    have hle := Nat.le_of_dvd (by omega) h2
    omega

/-- `pvalloc` rounds to whole pages, and to nothing where the rounding wraps. -/
theorem pvalloc_post (hl : malloc.Lawful block) (hs : 0 < size) (hsw : size < kWord) :
    PointerPost malloc block m kPageSize (padSize size kPageSize) (roundPage size)
      (pvalloc malloc size m) := by
  have hk : kPageSize = 4096 := rfl
  have hw : kWord = 2 ^ 64 := rfl
  by_cases hwrap : size + kPageSize - 1 < kWord
  · have hpad : padSize size kPageSize = roundPage size := by
      rw [padSize, roundPage, Nat.mod_eq_of_lt hwrap]
    rw [pvalloc, hpad]
    refine pointerPost_of_sum hl (by decide) ?_ ?_
    · unfold roundPage
      rw [hk]
      omega
    · unfold roundPage
      rw [hk] at hwrap ⊢
      omega
  · have hpad : padSize size kPageSize = 0 := by
      unfold padSize
      rw [hw] at hsw
      rw [hk, hw] at hwrap ⊢
      omega
    rw [pvalloc, hpad]
    exact ⟨fun h0 => absurd rfl h0,fun _ => rfl⟩

/-- The aligned calls return aligned room exactly if alignment and size do not sum to more
than 2^64, which `aligned_alloc` and `pvalloc` make sure of. -/
theorem alignedRoom_iff {k : ℕ} (ha : align = 2 ^ k) (haw : align < kWord) (hs : 0 < size)
    (hsw : size < kWord) :
    ((∀ malloc block, malloc.Lawful block → ∀ m,
      PosixPost malloc block m align size (posixMemalign malloc align size m)) ↔
        align + size ≤ kWord) ∧
    ((∀ malloc block, malloc.Lawful block → ∀ m,
      PointerPost malloc block m align size size (memalign malloc align size m)) ↔
        align + size ≤ kWord) ∧
    (∀ malloc block, malloc.Lawful block → ∀ m,
      PointerPost malloc block m align size size (alignedAlloc malloc align size m).2) ∧
    ((∀ malloc block, malloc.Lawful block → ∀ m,
      PointerPost malloc block m kPageSize size size (valloc malloc size m)) ↔
        kPageSize + size ≤ kWord) ∧
    ∀ malloc block, malloc.Lawful block → ∀ m,
      PointerPost malloc block m kPageSize (padSize size kPageSize) (roundPage size)
        (pvalloc malloc size m) := by
  have hpos : 0 < align := by
    rw [ha]
    exact Nat.two_pow_pos k
  have ha' : align ≤ 2 ^ 63 := by
    rw [ha] at haw ⊢
    have hk : k < 64 := (Nat.pow_lt_pow_iff_right (by decide)).mp haw
    exact Nat.pow_le_pow_right (by decide) (by omega)
  exact ⟨posixPost_iff hpos ha' hs hsw,memalignPost_iff hpos ha' hs hsw,
    fun _ _ hl _ => alignedAlloc_post hl ha ha' hs hsw,
    memalignPost_iff (by decide) (by decide) hs hsw,
    fun _ _ hl _ => pvalloc_post hl hs hsw⟩

/-- 100 bytes aligned to 64. -/
theorem alignedRoom_sample : ∃ q m',
    posixMemalign exactMalloc 64 100 (fun _ => 0) = ⟨none,some q,m',true⟩ ∧ q = kPageSize + 64 ∧
    PosixPost exactMalloc (fun n _ => n) (fun _ => 0) 64 100
      (posixMemalign exactMalloc 64 100 fun _ => 0) := by
  have h := (@alignedRoom_iff 64 100 6 rfl (by decide) (by decide) (by decide)).1.mpr (by decide)
  exact ⟨_,_,rfl,by decide,h exactMalloc (fun n _ => n) exactMalloc_lawful fun _ => 0⟩

/-- 2^64 - 15 bytes aligned to 16: a block of one byte. -/
theorem not_posixPost_wrapped : ¬ ∀ align size : ℕ, (∃ k, align = 2 ^ k) → align < kWord →
    0 < size → size < kWord → ∀ malloc block, malloc.Lawful block → ∀ m,
      PosixPost malloc block m align size (posixMemalign malloc align size m) := by
  intro hall
  have h := hall 16 (kWord - 15) ⟨4,rfl⟩ (by decide) (by decide) (by decide)
  rw [posixPost_iff (by decide) (by decide) (by decide) (by decide)] at h
  exact absurd h (by decide)

end Scalloc.Glue
