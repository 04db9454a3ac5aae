import Scalloc.Heap.Integrity
import Scalloc.Glue.LargeRequest

/-! # What the realignment tag overwrites

The tag lies in the four bytes below the moved pointer. The pointer moves by the
alignment at least when that is at most 16, so an alignment of 1 or 2 leaves part of the
tag in front of the block. A mapping that is too small for its request, because the header
did not fit a word, ends before the pointer.
-/
namespace Scalloc.Glue
open ByteMemory LargeObject

/-- The bytes of `[a, b)` are those of the tag already. -/
def TagBytes (m : Memory) (a b : ℕ) : Prop := ∀ x, a ≤ x → x < b → m x = 0xAA

/-- The block that the inner `malloc` of thread `t` returns for `n` bytes: its start, the
bytes that belong to it and the memory after the call. The bytes of the span headers are
those of the image `m`, which the heap describes everywhere else. -/
inductive InnerMalloc (cfg : Config) (mmap : Mmap) (st : State) (t n : ℕ) :
    ℕ → ℕ → Memory → Prop
  | span {rand : ℕ → ℕ → ℕ} {st' : State} {b : Block} {m : Memory}
      (hs : step cfg st (.allocate t n rand) = some st') (hb : st'.live = b :: st.live)
      (hm : ∀ x, (∀ s, st'.heap.Known s → x < s ∨ headerEnd s ≤ x) → m x = st'.heap.mem x) :
      InnerMalloc cfg mmap st t n b.start b.size m
  | large {base : ℕ} {m : Memory} (hn : kMaxMediumSize < n)
      (hmap : mmap (actualSize n) = some base) :
      InnerMalloc cfg mmap st t n (objectStart base) (actualSize n - kHeaderSize)
        (LargeObject.allocate base n m).2

/-- What the proofs need of the block: 16-aligned, inside the address space, and either
large enough for the request or a single page. -/
structure BlockFits (n start room : ℕ) : Prop where
  aligned : 16 ∣ start
  pos : start ≠ 0
  roomPos : 0 < room
  bounded : start + room ≤ kWord
  enough : n + 15 < kWord → n ≤ room
  page : kWord ≤ n + 15 → room = kPageSize - kHeaderSize ∧ start % kPageSize = kHeaderSize

variable {cfg : Config} {mmap : Mmap} {st : State} {t n start room align size : ℕ}
variable {m m₀ : Memory}

theorem InnerMalloc.fits (hr : Reachable cfg st) (hl : mmap.Lawful)
    (hn : n < kWord) (h : InnerMalloc cfg mmap st t n start room m) : BlockFits n start room := by
  have hk : kPageSize = 4096 := rfl
  have hh : kHeaderSize = 16 := rfl
  cases h with
  | @span rand st' b m hs hb hm =>
    obtain ⟨hsc,_,p,s,hlive,_,hi⟩ :=
      State.step_allocate hr.inv hs
    obtain rfl : b = ⟨p,sizeToClass n⟩ := (List.cons.inj (hb.symm.trans hlive)).1
    have hmem : (⟨p,sizeToClass n⟩ : Block) ∈ st'.live := by
      rw [hlive]
      exact List.mem_cons_self
    have hmed : n ≤ kMaxMediumSize := by
      simp only [step] at hs
      split at hs
      · next hpre => exact hpre.2.2
      · cases hs
    obtain ⟨hslot,_⟩ := hi.mem_slots hmem
    have hv := hi.heap.isVirtualSpan (hi.live _ hmem).1
    have hbounds := hi.bounds hmem
    have hvb := hv.bounded
    have hsmall : kMaxMediumSize + 15 < kWord := by decide
    obtain ⟨i,_,hi'⟩ := mem_slots.mp hslot
    have hz : 16 ≤ Block.size ⟨p,sizeToClass n⟩ := classToSize_pos hsc
    refine ⟨?_,?_,by omega,by omega,fun _ => le_classToSize_sizeToClass hmed,
      fun hge => by omega⟩
    · rw [← hi']
      exact Nat.dvd_of_mod_eq_zero (blockStart_mod hv hsc)
    · rw [← hi']
      exact blockStart_ne_zero _ _ _
  | @large base m hmed hmap =>
    obtain ⟨hpage,hpos,hfit⟩ := hl.page _ _ hmap
    have hcases := actualSize_cases hn
    have hlen := mapped_page hl hmap
    rw [hk] at hpage hlen
    rw [objectStart, hh]
    refine ⟨by omega,by omega,by omega,by omega,fun hlt => ?_,fun hge => ?_⟩
    · rcases hcases with ⟨hfit | hzero,_⟩ | ⟨_,hge⟩
      · have hle := (actualSize_bounds hfit).1
        omega
      · omega
      · omega
    · rcases hcases with ⟨_,hlt⟩ | ⟨heq,_⟩
      · omega
      · exact ⟨by rw [heq, hh],by rw [hk, hh]; omega⟩

/-- The tag changes the bytes outside a range unless they are its own. -/
theorem sameOutside_writeTag_iff {p lo hi : ℕ} (h4 : 4 ≤ p) (hp : p ≤ kWord) :
    SameOutside m (writeTag m (p % kWord)) lo hi ↔
      ∀ x, p ≤ x + 4 → x < p → (x < lo ∨ hi ≤ x) → m x = 0xAA := by
  have hw : kWord = 2 ^ 64 := rfl
  have haddr : (p % kWord + kWord - 4) % kWord = p - 4 := by
    rw [hw] at hp ⊢
    omega
  have hbyte : ∀ x, p ≤ x + 4 → x < p → writeTag m (p % kWord) x = 0xAA := by
    intro x h1 h2
    rw [writeTag, haddr, store, if_pos (by omega), tagByte (by omega)]
  constructor
  · intro h x h1 h2 hout
    rw [← h x hout, hbyte x h1 h2]
  · intro h x hout
    by_cases hx : p ≤ x + 4 ∧ x < p
    · rw [hbyte x hx.1 hx.2, h x hx.1 hx.2 hout]
    · rw [writeTag, haddr, store, if_neg (by omega)]

/-- The next multiple of the alignment above `start`, before it is cut to a word. -/
def nextMultiple (start align : ℕ) : ℕ := start + align - start % align

theorem nextMultiple_dvd (start : ℕ) (ha : 0 < align) : align ∣ nextMultiple start align := by
  have hle := Nat.mod_le start align
  rw [nextMultiple, show start + align - start % align = start - start % align + align by omega]
  exact Nat.dvd_add (Nat.dvd_sub_mod start) (dvd_refl align)

theorem nextMultiple_bounds (start : ℕ) (ha : 0 < align) :
    start < nextMultiple start align ∧ nextMultiple start align ≤ start + align := by
  have hlt := Nat.mod_lt start ha
  unfold nextMultiple
  omega

/-- No multiple lies between. -/
theorem nextMultiple_le {k : ℕ} (ha : 0 < align) (hd : align ∣ k) (hk : start < k) :
    nextMultiple start align ≤ k := by
  by_contra hlt
  have hpos : 0 < nextMultiple start align - k := by omega
  have hle := Nat.le_of_dvd hpos (Nat.dvd_sub (nextMultiple_dvd start ha) hd)
  have hb := (nextMultiple_bounds start ha).2
  omega

/-- The call on a block that `malloc` returned: the tag below the next multiple. -/
theorem posixMemalign_mem {malloc : Malloc} (ha : 0 < align) (hdvd : align ∣ kWord)
    (hs : 0 < size) (hsum : align + size < kWord) (hm : malloc (align + size) m₀ = (start,m))
    (hpos : start ≠ 0) (hlt : start < kWord) :
    nextMultiple start align ≤ kWord ∧
      (posixMemalign malloc align size m₀).mem = writeTag m (nextMultiple start align % kWord) := by
  have hle := nextMultiple_le ha hdvd hlt
  have hgt := (nextMultiple_bounds start ha).1
  have hne : newStart start align ≠ start := by
    unfold newStart
    unfold nextMultiple at hle hgt
    rcases hle.lt_or_eq with hlt | heq
    · rw [Nat.mod_eq_of_lt hlt]
      omega
    · rw [heq, Nat.mod_self]
      exact hpos.symm
  refine ⟨hle,?_⟩
  simp only [posixMemalign, if_neg hs.ne', Nat.mod_eq_of_lt hsum, hm, if_neg hpos, if_pos hne]
  rfl

/-- Alignments below 4 move the pointer by themselves, larger ones by at least 4. -/
theorem four_le_moved (ha : align.isPowerOfTwo) (h16 : 16 ∣ start) :
    (4 ≤ align ∧ start + 4 ≤ nextMultiple start align) ∨
      (align < 4 ∧ nextMultiple start align = start + align) := by
  obtain ⟨k,rfl⟩ := ha
  have hpos : 0 < 2 ^ k := Nat.two_pow_pos k
  by_cases hk : k < 2
  · have hd : 2 ^ k ∣ 16 := pow_dvd_pow 2 (show k ≤ 4 by omega)
    refine .inr ⟨?_,?_⟩
    · interval_cases k <;> decide
    · rw [nextMultiple, Nat.mod_eq_zero_of_dvd (hd.trans h16), Nat.sub_zero]
  · have hd : 2 ^ 2 ∣ 2 ^ k := pow_dvd_pow 2 (by omega)
    have hle := Nat.le_of_dvd hpos hd
    have hgt := (nextMultiple_bounds start hpos).1
    have h4 : 2 ^ 2 ∣ nextMultiple start (2 ^ k) - start :=
      Nat.dvd_sub (hd.trans (nextMultiple_dvd start hpos)) ((show 4 ∣ 16 by decide).trans h16)
    have hmoved := Nat.le_of_dvd (by omega) h4
    exact .inl ⟨by omega,by omega⟩

/-- When the tag write stays inside its block: the alignment keeps the tag behind the start
of the block, and the block reaches the moved pointer, unless the bytes hit are those of the
tag already. -/
def TagStays (m : Memory) (start align size : ℕ) : Prop :=
  (4 ≤ align ∨ TagBytes m (start + align - 4) start) ∧
    (align + size + 15 < kWord ∨ align ≤ kPageSize ∨ align ∣ start - kHeaderSize + kPageSize ∨
      TagBytes m (nextMultiple start align - 4) (nextMultiple start align))

/-- A block that reaches the moved pointer is left only in front. -/
theorem sameOutside_of_reaches (ha : align.isPowerOfTwo) (h16 : 16 ∣ start) (hpos : start ≠ 0)
    (hle : nextMultiple start align ≤ kWord) (hreach : nextMultiple start align ≤ start + room) :
    SameOutside m (writeTag m (nextMultiple start align % kWord)) start (start + room) ↔
      4 ≤ align ∨ TagBytes m (start + align - 4) start := by
  have hge := Nat.le_of_dvd (Nat.pos_of_ne_zero hpos) h16
  rcases four_le_moved ha h16 with ⟨h4,hmoved⟩ | ⟨hlt,hmoved⟩
  · rw [sameOutside_writeTag_iff (by omega) hle]
    exact iff_of_true (fun x h1 h2 hout => by omega) (.inl h4)
  · rw [sameOutside_writeTag_iff (by omega) hle, hmoved]
    rw [hmoved] at hreach
    constructor
    · intro h
      exact .inr fun x h1 h2 => h x (by omega) (by omega) (.inl h2)
    · rintro (h4 | h) x h1 h2 hout
      · omega
      · exact h x (by omega) (by omega)

/-- An alignment above a page has its multiples on page boundaries. -/
theorem page_dvd_nextMultiple (start : ℕ) (ha : align.isPowerOfTwo) (hlt : kPageSize < align) :
    kPageSize ∣ nextMultiple start align := by
  have hdvd : kPageSize ∣ align := dvd_of_isPowerOfTwo ⟨12,rfl⟩ ha hlt.le
  exact hdvd.trans (nextMultiple_dvd start (Nat.pos_of_isPowerOfTwo ha))

/-- A mapping of a single page is reached exactly by the multiples up to its end. -/
theorem page_reaches_iff (ha : align.isPowerOfTwo) (hstart : start % kPageSize = kHeaderSize) :
    nextMultiple start align ≤ start - kHeaderSize + kPageSize ↔
      align ≤ kPageSize ∨ align ∣ start - kHeaderSize + kPageSize := by
  have hk : kPageSize = 4096 := rfl
  have hh : kHeaderSize = 16 := rfl
  have hpos := Nat.pos_of_isPowerOfTwo ha
  rw [hk, hh] at hstart ⊢
  constructor
  · intro hle
    by_cases hsmall : align ≤ 4096
    · exact .inl hsmall
    · have hgt := (nextMultiple_bounds start hpos).1
      have hdvd := page_dvd_nextMultiple start ha (by omega)
      have hd := Nat.dvd_sub hdvd (show kPageSize ∣ start - 16 by rw [hk]; omega)
      rw [hk] at hd
      have hlast := Nat.le_of_dvd (by omega) hd
      have heq : nextMultiple start align = start - 16 + 4096 := by omega
      exact .inr (heq ▸ nextMultiple_dvd start hpos)
  · rintro (hsmall | hdvd)
    · have hd : align ∣ 4096 := dvd_of_isPowerOfTwo ha ⟨12,rfl⟩ hsmall
      exact nextMultiple_le hpos (hd.trans (by omega)) (by omega)
    · exact nextMultiple_le hpos hdvd (by omega)

/-- The exact condition for a block as `malloc` returns it. -/
theorem BlockFits.sameOutside_iff (hf : BlockFits (align + size) start room)
    (ha : align.isPowerOfTwo) (hle : nextMultiple start align ≤ kWord) :
    SameOutside m (writeTag m (nextMultiple start align % kWord)) start (start + room) ↔
      TagStays m start align size := by
  have hk : kPageSize = 4096 := rfl
  have hh : kHeaderSize = 16 := rfl
  have hpos := Nat.pos_of_isPowerOfTwo ha
  obtain ⟨hgt,hup⟩ := nextMultiple_bounds start hpos
  have hge := Nat.le_of_dvd (Nat.pos_of_ne_zero hf.pos) hf.aligned
  by_cases hsum : align + size + 15 < kWord
  · have hroom := hf.enough hsum
    rw [sameOutside_of_reaches ha hf.aligned hf.pos hle (by omega), TagStays]
    exact (and_iff_left (.inl hsum)).symm
  obtain ⟨hroom,hstart⟩ := hf.page (by omega)
  have hiff := page_reaches_iff ha hstart
  rw [hk, hh] at hroom hstart
  by_cases hreach : nextMultiple start align ≤ start - kHeaderSize + kPageSize
  · rw [sameOutside_of_reaches ha hf.aligned hf.pos hle (by omega), TagStays]
    refine (and_iff_left (.inr ?_)).symm
    rcases hiff.mp hreach with hsmall | hdvd
    · exact .inl hsmall
    · exact .inr (.inl hdvd)
  · obtain ⟨hbig,hnd⟩ := not_or.mp (mt hiff.mpr hreach)
    have hdvd := page_dvd_nextMultiple start ha (by omega)
    rw [hk] at hbig hdvd
    rw [hk, hh] at hreach
    rw [sameOutside_writeTag_iff (by omega) hle, TagStays]
    constructor
    · intro h
      exact ⟨.inl (by omega),.inr (.inr (.inr fun x h1 h2 =>
        h x (by omega) h2 (.inr (by omega))))⟩
    · rintro ⟨_,hfit | hsmall | hd | htag⟩ x h1 h2 _
      · exact absurd hfit hsum
      · omega
      · exact absurd hd hnd
      · exact htag x (by omega) h2

/-- Exactly when the tag write of the aligned calls leaves every byte outside the block of
the inner `malloc` as it is. `aligned_alloc` refuses other sizes before it allocates. -/
theorem tagWrite_iff (_hcfg : cfg.Default) (hr : Reachable cfg st) (hl : mmap.Lawful)
    (ha : align.isPowerOfTwo) (hs : 0 < size) (hsum : align + size < kWord) {malloc : Malloc}
    (hin : InnerMalloc cfg mmap st t (align + size) start room m)
    (hm : malloc (align + size) m₀ = (start,m)) :
    (SameOutside m (posixMemalign malloc align size m₀).mem start (start + room) ↔
      TagStays m start align size) ∧
    (SameOutside m (memalign malloc align size m₀).2 start (start + room) ↔
      TagStays m start align size) ∧
    (size % align = 0 →
      (SameOutside m (alignedAlloc malloc align size m₀).2.2 start (start + room) ↔
        TagStays m start align size)) ∧
    (size % align ≠ 0 → (alignedAlloc malloc align size m₀).2.2 = m₀) := by
  have hf := hin.fits hr hl hsum
  have hpos := Nat.pos_of_isPowerOfTwo ha
  have hdvd : align ∣ kWord := dvd_of_isPowerOfTwo ha ⟨64,rfl⟩ (by omega)
  have hmem : (memalign malloc align size m₀).2 = (posixMemalign malloc align size m₀).mem := by
    simp only [memalign]
    split <;> rfl
  have hlt : start < kWord := by
    have h1 := hf.roomPos
    have h2 := hf.bounded
    omega
  obtain ⟨hle,heq⟩ := posixMemalign_mem hpos hdvd hs hsum hm hf.pos hlt
  have hiff := hf.sameOutside_iff (m := m) ha hle
  rw [hmem, heq]
  refine ⟨hiff,hiff,fun hz => ?_,fun hz => ?_⟩
  · rw [alignedAlloc, if_neg (not_not.mpr hz)]
    dsimp only
    rw [hmem, heq]
    exact hiff
  · rw [alignedAlloc, if_pos hz]

/-- The heap after a thread started and allocated one object of 48 bytes. -/
def oneBlock : List Event := [.start 0, .allocate 0 48 fun _ _ => 0]

/-- The block that the same thread gets for the next 48 bytes, right behind the first. -/
theorem oneBlock_next : ∃ st st', sampleRun oneBlock = some st ∧
    step sampleConfig st (.allocate 0 48 fun _ _ => 0) = some st' ∧
    st.live = [⟨kObjectSpaceSize + 128,3⟩] ∧
    st'.live = ⟨kObjectSpaceSize + 176,3⟩ :: st.live ∧ st'.heap.mem (kObjectSpaceSize + 175) = 0 := by
  have hrun : ((sampleRun oneBlock).bind fun st =>
      (step sampleConfig st (.allocate 0 48 fun _ _ => 0)).map fun st' =>
        (st.live,st'.live,st'.heap.mem (kObjectSpaceSize + 175))) =
      some ([⟨kObjectSpaceSize + 128,3⟩],
        [⟨kObjectSpaceSize + 176,3⟩,⟨kObjectSpaceSize + 128,3⟩],0) := by decide +kernel
  obtain ⟨st,hst,hnext⟩ := Option.bind_eq_some_iff.mp hrun
  obtain ⟨st',hst',heq⟩ := Option.map_eq_some_iff.mp hnext
  simp only [Prod.mk.injEq] at heq
  exact ⟨st,st',hst,hst',heq.1,heq.1.symm ▸ heq.2.1,heq.2.2⟩

/-- A `malloc` that returns that block and leaves the memory `m`. -/
def nextMalloc (m : Memory) : Malloc := fun _ _ => (kObjectSpaceSize + 176,m)

/-- A request for 32 bytes aligned to 16 is served from that block and keeps its tag there. -/
theorem tagWrite_sixteen : ∃ st st' : State, sampleRun oneBlock = some st ∧
    st'.live = ⟨kObjectSpaceSize + 176,3⟩ :: st.live ∧
    SameOutside st'.heap.mem
      (posixMemalign (nextMalloc st'.heap.mem) 16 32 st.heap.mem).mem
      (kObjectSpaceSize + 176) (kObjectSpaceSize + 176 + 48) := by
  obtain ⟨st,st',hst,hst',_,hlive,_⟩ := oneBlock_next
  have hin : InnerMalloc sampleConfig sampleMmap st 0 (16 + 32) (kObjectSpaceSize + 176) 48
      st'.heap.mem := .span hst' hlive fun _ _ => rfl
  have hm : nextMalloc st'.heap.mem (16 + 32) st.heap.mem =
      (kObjectSpaceSize + 176,st'.heap.mem) := rfl
  have h16 : Nat.isPowerOfTwo 16 := ⟨4,rfl⟩
  have hall := tagWrite_iff sampleConfig_default (reachable_sampleRun hst) sampleMmap_lawful
    h16 (by decide) (by decide) hin hm
  exact ⟨st,st',hst,hlive,hall.1.mpr ⟨.inl (by decide),.inl (by decide)⟩⟩

/-- A request for 47 bytes aligned to 1 writes three bytes of its tag over the end of the
live block in front of its own. -/
theorem not_tagWrite_one :
    ¬ ∀ (st : State) (t start room align size : ℕ) (m m₀ : Memory), Reachable sampleConfig st →
      align.isPowerOfTwo → 0 < size → align + size < kWord →
      InnerMalloc sampleConfig sampleMmap st t (align + size) start room m →
      SameOutside m (posixMemalign (fun _ _ => (start,m)) align size m₀).mem start (start + room) := by
  intro h
  obtain ⟨st,st',hst,hst',_,hlive,hbyte⟩ := oneBlock_next
  have hout := h st 0 _ _ 1 47 st'.heap.mem st.heap.mem (reachable_sampleRun hst) ⟨0,rfl⟩
    (by decide) (by decide) (.span hst' hlive fun _ _ => rfl)
  have hm : nextMalloc st'.heap.mem (1 + 47) st.heap.mem =
      (kObjectSpaceSize + 176,st'.heap.mem) := rfl
  have hsize : 0 < 47 := by decide
  have hlt : kObjectSpaceSize + 176 < kWord := by decide
  have heq := (posixMemalign_mem one_pos (one_dvd _) hsize (by decide) hm (by decide) hlt).2
  change SameOutside _ (posixMemalign (nextMalloc _) 1 47 _).mem _ _ at hout
  rw [heq, sameOutside_writeTag_iff (by decide) (by decide)] at hout
  have hx := hout (kObjectSpaceSize + 175) (by decide) (by decide) (.inl (by decide))
  rw [hbyte] at hx
  exact absurd hx (by decide)

end Scalloc.Glue
