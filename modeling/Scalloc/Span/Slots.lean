import Scalloc.Span.FreeList
import Scalloc.Lib.Linked

/-! # The slots of a span

Every slot of a constructed span is in exactly one place: the local list, the remote
stack, the untouched part behind the bump pointer, or the hands of the program. The
operations of the span move slots between these places.
-/
namespace Scalloc
open ByteMemory Linked

/-- The addresses of the objects of a span. -/
def slots (s sc : ℕ) : List ℕ := (List.range (classToObjects sc)).map (blockStart s sc)

/-- The objects from index `j` on. -/
def untouched (s sc j : ℕ) : List ℕ :=
  (List.range' j (classToObjects sc - j)).map (blockStart s sc)

variable {s sc : ℕ}

theorem mem_slots {p : ℕ} : p ∈ slots s sc ↔ ∃ i < classToObjects sc, blockStart s sc i = p := by
  simp [slots]

theorem untouched_zero : untouched s sc 0 = slots s sc := by
  rw [untouched, slots, List.range_eq_range', Nat.sub_zero]

theorem untouched_length (j : ℕ) : (untouched s sc j).length = classToObjects sc - j := by
  simp [untouched]

theorem untouched_cons {j : ℕ} (h : j < classToObjects sc) :
    untouched s sc j = blockStart s sc j :: untouched s sc (j + 1) := by
  have hk : classToObjects sc - j = classToObjects sc - (j + 1) + 1 := by omega
  rw [untouched, untouched, hk, List.range'_succ, List.map_cons]

theorem blockStart_lt {i j : ℕ} (hsc : IsObjectClass sc) (h : i < j) :
    blockStart s sc i < blockStart s sc j := by
  have hd : blockStart s sc i + classToSize sc ≤ blockStart s sc j := blocks_disjoint h
  have hp := classToSize_pos hsc
  omega

theorem blockStart_inj {i j : ℕ} (hsc : IsObjectClass sc)
    (h : blockStart s sc i = blockStart s sc j) : i = j := by
  rcases Nat.lt_trichotomy i j with hlt | heq | hgt
  · exact absurd h (blockStart_lt hsc hlt).ne
  · exact heq
  · exact absurd h (blockStart_lt hsc hgt).ne'

theorem slots_nodup (hsc : IsObjectClass sc) : (slots s sc).Nodup :=
  List.nodup_range.map fun _ _ h => blockStart_inj hsc h

theorem slots_length : (slots s sc).length = classToObjects sc := by simp [slots]

theorem slot_ne_zero {p : ℕ} (h : p ∈ slots s sc) : p ≠ 0 := by
  obtain ⟨i,_,rfl⟩ := mem_slots.mp h
  exact blockStart_ne_zero s sc i

/-- Distinct slots do not overlap. -/
theorem slots_apart {p q : ℕ} (hp : p ∈ slots s sc) (hq : q ∈ slots s sc) (hne : p ≠ q) :
    p + classToSize sc ≤ q ∨ q + classToSize sc ≤ p := by
  obtain ⟨i,_,rfl⟩ := mem_slots.mp hp
  obtain ⟨j,_,rfl⟩ := mem_slots.mp hq
  rcases Nat.lt_trichotomy i j with hlt | heq | hgt
  · exact .inl (blocks_disjoint hlt)
  · exact absurd (heq ▸ rfl) hne
  · exact .inr (blocks_disjoint hgt)

theorem slot_bounds {p : ℕ} (hsc : IsObjectClass sc) (hp : p ∈ slots s sc) :
    headerEnd s ≤ p ∧ p + classToSize sc ≤ s + classToSpanSize sc ∧
      p + classToSize sc ≤ s + kVirtualSpanSize := by
  obtain ⟨i,hi,rfl⟩ := mem_slots.mp hp
  have h := block_in_span (s := s) hsc hi
  exact ⟨h.1,h.2,block_in_virtualSpan hsc hi⟩

theorem slot_lt_word {p : ℕ} (hs : IsVirtualSpan s) (hsc : IsObjectClass sc)
    (hp : p ∈ slots s sc) : p < kWord := by
  have hb := slot_bounds hsc hp
  have hw := hs.bounded
  have hz := classToSize_pos hsc
  omega

/-- Every byte of a slot leads back to the span. -/
theorem fromObject_of_slot {p a : ℕ} (hs : IsVirtualSpan s) (hsc : IsObjectClass sc)
    (hp : p ∈ slots s sc) (h1 : p ≤ a) (h2 : a < p + classToSize sc) : fromObject a = s := by
  have hb := slot_bounds hsc hp
  exact fromObject_of_mem hs (((Nat.le_add_right _ _).trans hb.1).trans h1) (by omega)

theorem loadPtr_storePtr_self {m : Memory} {p v : ℕ} (hv : v < kWord) :
    loadPtr (storePtr m p v) p = v :=
  load_store_of_lt hv

/-- A link written to one slot does not change the link of another. -/
theorem loadPtr_storePtr_of_ne {m : Memory} {p q v : ℕ} (hsc : IsObjectClass sc)
    (hp : p ∈ slots s sc) (hq : q ∈ slots s sc) (hne : q ≠ p) :
    loadPtr (storePtr m p v) q = loadPtr m q := by
  have hz := classToSize_pos hsc
  have ha := slots_apart hq hp hne
  exact load_store_disjoint (by omega)

/-- A link only depends on the bytes of its slot. -/
theorem loadPtr_congr {m m' : Memory} {q : ℕ} (hsc : IsObjectClass sc)
    (h : AgreeOn m m' q (q + classToSize sc)) : loadPtr m' q = loadPtr m q := by
  have hz := classToSize_pos hsc
  exact load_congr (h.mono le_rfl (by omega))

/-- A byte written inside one slot does not change the link of another. -/
theorem loadPtr_update_of_ne {m : Memory} {p q a : ℕ} (v : UInt8) (hsc : IsObjectClass sc)
    (hp : p ∈ slots s sc) (hq : q ∈ slots s sc) (hne : q ≠ p) (h1 : p ≤ a)
    (h2 : a < p + classToSize sc) : loadPtr (Function.update m a v) q = loadPtr m q := by
  have ha := slots_apart hq hp hne
  refine loadPtr_congr hsc fun y hy1 hy2 => ?_
  have hy : y ≠ a := by omega
  simp [hy]

theorem mem_untouched_iff {p j : ℕ} (hsc : IsObjectClass sc) :
    p ∈ untouched s sc j ↔ p ∈ slots s sc ∧ blockStart s sc j ≤ p := by
  simp only [untouched, List.mem_map, List.mem_range'_1, mem_slots]
  constructor
  · rintro ⟨i,hi,rfl⟩
    refine ⟨⟨i,by omega,rfl⟩,?_⟩
    rcases Nat.lt_or_eq_of_le hi.1 with hlt | rfl
    · exact (blockStart_lt hsc hlt).le
    · exact le_rfl
  · rintro ⟨⟨i,hi,rfl⟩,hle⟩
    refine ⟨i,⟨?_,by omega⟩,rfl⟩
    by_contra hlt
    exact absurd hle (not_le.mpr (blockStart_lt hsc (by omega)))

theorem storePtr_sameOutside {m : Memory} {p v : ℕ} (hsc : IsObjectClass sc)
    (hp : p ∈ slots s sc) :
    SameOutside m (storePtr m p v) (headerEnd s) (s + kVirtualSpanSize) := by
  have hb := slot_bounds hsc hp
  have hz := classToSize_pos hsc
  exact (store_sameOutside m p 8 v).mono hb.1 (by omega)

/-- Where the slots of the span at `s` with header `x` are: `L` on the local list, `R`
on the remote stack, those from index `j` on untouched, `live` with the program. -/
structure Slots (m : Memory) (s : ℕ) (x : Span) (live L R : List ℕ) (j : ℕ) : Prop where
  objectClass : IsObjectClass x.sizeClass
  locals : Chain 0 (loadPtr m) x.localFreeList.list L
  remotes : Chain 0 (loadPtr m) x.remoteFreeList.value R
  bumpPointer : x.localFreeList.bumpPointer = blockStart s x.sizeClass j
  bump_le : j ≤ classToObjects x.sizeClass
  len : x.localFreeList.len = L.length + (classToObjects x.sizeClass - j : ℕ)
  increment : x.localFreeList.increment = classToSize x.sizeClass
  tag : x.remoteFreeList.tag.toNat = R.length
  perm : (L ++ (R ++ (untouched s x.sizeClass j ++ live))).Perm (slots s x.sizeClass)

namespace Slots
variable {m m' : Memory} {x : Span} {live L R : List ℕ} {j : ℕ}

theorem nodup (h : Slots m s x live L R j) :
    (L ++ (R ++ (untouched s x.sizeClass j ++ live))).Nodup :=
  h.perm.nodup_iff.mpr (slots_nodup h.objectClass)

theorem mem_local (h : Slots m s x live L R j) {p : ℕ} (hp : p ∈ L) : p ∈ slots s x.sizeClass :=
  h.perm.subset (by simp [hp])

theorem mem_remote (h : Slots m s x live L R j) {p : ℕ} (hp : p ∈ R) : p ∈ slots s x.sizeClass :=
  h.perm.subset (by simp [hp])

theorem mem_untouched (h : Slots m s x live L R j) {p : ℕ}
    (hp : p ∈ untouched s x.sizeClass j) : p ∈ slots s x.sizeClass :=
  h.perm.subset (by simp [hp])

theorem mem_live (h : Slots m s x live L R j) {p : ℕ} (hp : p ∈ live) : p ∈ slots s x.sizeClass :=
  h.perm.subset (by simp [hp])

theorem length_eq (h : Slots m s x live L R j) :
    L.length + R.length + (classToObjects x.sizeClass - j) + live.length =
      classToObjects x.sizeClass := by
  have hl := h.perm.length_eq
  simp only [List.length_append, untouched_length, slots_length] at hl
  omega

theorem nrRemoteObjects_eq (h : Slots m s x live L R j) : x.nrRemoteObjects = R.length := by
  unfold Span.nrRemoteObjects Stack.length
  split
  · next he =>
    have ht := h.tag
    rw [he] at ht
    rw [← ht]
    rfl
  · rw [h.tag]

/-- The number of free objects is what the program does not hold. -/
theorem nrFreeObjects_eq (h : Slots m s x live L R j) :
    x.nrFreeObjects = (classToObjects x.sizeClass : ℤ) - live.length := by
  have hl := h.length_eq
  rw [Span.nrFreeObjects, Span.nrLocalObjects, h.nrRemoteObjects_eq, h.len]
  omega

/-- The labels of the header do not matter. -/
theorem relabel (h : Slots m s x live L R j) {y : Span} (hsc : y.sizeClass = x.sizeClass)
    (hl : y.localFreeList = x.localFreeList) (hr : y.remoteFreeList = x.remoteFreeList) :
    Slots m s y live L R j := by
  obtain ⟨h1,h2,h3,h4,h5,h6,h7,h8,h9⟩ := h
  constructor <;> simpa only [hsc, hl, hr]

/-- The links matter only inside the slots that are on a list. -/
theorem congr (h : Slots m s x live L R j)
    (hm : ∀ q, q ∈ L ∨ q ∈ R → loadPtr m' q = loadPtr m q) : Slots m' s x live L R j :=
  { h with
    locals := h.locals.congr fun q hq => hm q (.inl hq)
    remotes := h.remotes.congr fun q hq => hm q (.inr hq) }

/-- Writes outside the span do not matter. -/
theorem frame (h : Slots m s x live L R j)
    (hm : AgreeOn m m' (headerEnd s) (s + kVirtualSpanSize)) : Slots m' s x live L R j := by
  refine h.congr fun q hq => ?_
  have hb := slot_bounds h.objectClass (hq.elim h.mem_local h.mem_remote)
  exact loadPtr_congr h.objectClass (hm.mono hb.1 hb.2.2)

/-- A slot that is on no list is apart from those that are. -/
theorem not_listed (h : Slots m s x live L R j) {p : ℕ} (hp : p ∈ live) : p ∉ L ∧ p ∉ R := by
  have hn := h.nodup
  simp only [List.nodup_append, List.mem_append] at hn
  exact ⟨fun hL => hn.2.2 p hL p (.inr (.inr hp)) rfl,fun hR => hn.2.1.2.2 p hR p (.inr hp) rfl⟩

/-- The program may write to its own blocks. -/
theorem write (h : Slots m s x live L R j) {p a : ℕ} (v : UInt8) (hp : p ∈ live) (h1 : p ≤ a)
    (h2 : a < p + classToSize x.sizeClass) : Slots (Function.update m a v) s x live L R j := by
  obtain ⟨hL,hR⟩ := h.not_listed hp
  refine h.congr fun q hq => ?_
  refine loadPtr_update_of_ne v h.objectClass (h.mem_live hp) (hq.elim h.mem_local h.mem_remote) ?_
    h1 h2
  rintro rfl
  exact hq.elim hL hR

end Slots
end Scalloc
