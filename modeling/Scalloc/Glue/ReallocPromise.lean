import Scalloc.Glue.Realloc

/-! # When reallocation keeps its promise

A free always hands a span pointer on as it is, so a moved span object is released
only from its block start. A large object is released from the page it lies on.
The in-place test compares with the whole block, not with the room behind the
pointer.
-/
namespace Scalloc.Glue
open ByteMemory LargeObject

variable {g : Image} {p size link : ℕ} {malloc : Malloc} {b : Holding}

/-- The last tag byte keeps the eight-byte word apart from the constant. -/
theorem alignToBlockStart_of_byte {m : Memory} {s sc : ℕ} (h8 : 8 ≤ p) (hb : m (p - 1) = 0xAA) :
    alignToBlockStart kIntFast32Linux m s sc p = p := by
  have hsplit : load m (p - 8) 8 = load m (p - 8) 7 + 256 ^ 7 * 0xAA := by
    have hbyte : load m (p - 1) 1 = 0xAA := by
      simp only [load, hb]
      rfl
    rw [show (8 : ℕ) = 7 + 1 by rfl, load_add, show p - (7 + 1) + 7 = p - 1 by omega, hbyte]
  have hne : load m (p - kIntFast32Linux) kIntFast32Linux ≠ kAlignTag % 256 ^ kIntFast32Linux := by
    have hk : kIntFast32Linux = 8 := rfl
    have hc : kAlignTag % 256 ^ 8 < 256 ^ 7 * 0xAA := by decide
    rw [hk, hsplit]
    omega
  rw [alignToBlockStart, if_neg hne]

namespace SpanPointer
variable {s i : ℕ}

theorem fromObject_eq (h : SpanPointer g p s i) : fromObject p = s := by
  have hin := block_in_span (s := s) h.objectClass h.slot
  have hv := block_in_virtualSpan (s := s) h.objectClass h.slot
  have h1 := h.start_le
  have h2 := h.lt_fin
  unfold headerEnd at hin
  exact fromObject_of_mem h.span (by omega) (by omega)

theorem eight_le (h : SpanPointer g p s i) : 8 ≤ p := by
  have hin := (block_in_span (s := s) h.objectClass h.slot).1
  have h1 := h.start_le
  have hh : kSpanHeaderSize = 128 := rfl
  unfold headerEnd at hin
  omega

theorem oldSize_eq (h : SpanPointer g p s i) :
    oldSize g p = some (classToSize (g.sizeClass s)) := by
  rw [oldSize, if_pos h.routed, h.fromObject_eq]

/-- The pointer itself enters the free list. -/
theorem free_eq (h : SpanPointer g p s i) {m : Memory}
    (hm : AgreeOn g.mem m (blockStart s (g.sizeClass s) i)
      (blockStart s (g.sizeClass s) i + classToSize (g.sizeClass s))) :
    free { g with mem := m } link p = some (store m p 8 link,[.block p]) := by
  have haddr : freedAddress kIntFast32Linux g.seenMemalign m s (g.sizeClass s) p = p := by
    by_cases hp : p = blockStart s (g.sizeClass s) i
    · rw [hp]
      exact freedAddress_blockStart _ _ _ _ _ _
    · have h1 := h.start_le
      have h2 := h.lt_fin
      have hbyte : m (p - 1) = 0xAA := by
        rw [hm (p - 1) (by omega) (by omega)]
        exact h.tagged hp
      rw [freedAddress, alignToBlockStart_of_byte h.eight_le hbyte, ite_self]
  have hrouted : g.objectSpace.contains p = true := h.routed
  simp only [free, hrouted, if_true, h.fromObject_eq, haddr]

end SpanPointer

namespace LargePointer
variable {base len : ℕ}

theorem word (h : LargePointer g p base len) : p < kWord := h.lt_fin.trans_le h.mapped

/-- The page of the pointer is a page of the mapping. -/
theorem page_bounds (h : LargePointer g p base len) :
    base ≤ p &&& kPageNrMask ∧ (p &&& kPageNrMask) + kPageSize ≤ base + len := by
  have hk : kPageSize = 4096 := rfl
  have hh : kHeaderSize = 16 := rfl
  have h1 := h.start_le
  have h2 := h.lt_fin
  have h3 := h.pageAligned
  have h4 := h.wholePages
  unfold objectStart at h1
  rw [hk] at h3 h4
  rw [page_eq h.word, hk]
  omega

theorem fromMutatorPtr_congr (h : LargePointer g p base len) {m : Memory}
    (hm : AgreeOn g.mem m base (base + len)) : fromMutatorPtr m p = fromMutatorPtr g.mem p := by
  have hk : kPageSize = 4096 := rfl
  obtain ⟨h1,h2⟩ := h.page_bounds
  have hload : load m ((p &&& kPageNrMask) + 8) 8 = load g.mem ((p &&& kPageNrMask) + 8) 8 :=
    load_congr (hm.mono (by omega) (by omega))
  simp only [fromMutatorPtr, hload]

theorem fromMutatorPtr_page {obj : ℕ} (h : fromMutatorPtr g.mem p = some obj) :
    obj = p &&& kPageNrMask := by
  simp only [fromMutatorPtr] at h
  split at h
  · exact (Option.some.inj h).symm
  · cases h

theorem ne_zero (h : LargePointer g p base len) : p ≠ 0 := by
  have h1 := h.start_le
  have hh : kHeaderSize = 16 := rfl
  unfold objectStart at h1
  omega

theorem free_eq (h : LargePointer g p base len) {m : Memory} {obj : ℕ}
    (hm : AgreeOn g.mem m base (base + len)) (hobj : fromMutatorPtr g.mem p = some obj) :
    free { g with mem := m } link p = some (m,[.unmap obj (load g.mem obj 8)]) := by
  have hk : kPageSize = 4096 := rfl
  obtain ⟨h1,h2⟩ := h.page_bounds
  have hpage := fromMutatorPtr_page hobj
  have hfind := (h.fromMutatorPtr_congr hm).trans hobj
  have hload : load m obj 8 = load g.mem obj 8 :=
    load_congr (hm.mono (by omega) (by omega))
  have hrouted : ¬ g.objectSpace.contains p = true := by simp [h.routed]
  simp only [free, if_neg hrouted, if_neg h.ne_zero, LargeObject.free, hfind, Option.map_some, hload]

theorem oldSize_eq (h : LargePointer g p base len) :
    oldSize g p = payloadSize g.mem p := by
  rw [oldSize, if_neg (by simp [h.routed])]

end LargePointer

theorem LivePointer.bounds (h : LivePointer g p b) : b.lo ≤ p ∧ p < b.fin ∧ p ≠ 0 := by
  cases h with
  | span h =>
    have h8 := h.eight_le
    exact ⟨h.start_le,h.lt_fin,by omega⟩
  | large h =>
    have h1 := h.start_le
    unfold objectStart at h1
    exact ⟨by dsimp only [largeHolding]; omega,h.lt_fin,h.ne_zero⟩

end Scalloc.Glue
