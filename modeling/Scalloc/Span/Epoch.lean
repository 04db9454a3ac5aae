import Mathlib

/-! # The epoch word of a span

Three state bits and a 28-bit counter in one 32-bit word. The masked
compare-exchange operations are modelled on the raw word; `encode` and `Mark` give
their meaning on words in which at most one state bit is set.
-/
namespace Scalloc

abbrev Epoch := BitVec 32

namespace Epoch

def kEpochHot : Epoch := 1#32 <<< 31
def kEpochFull : Epoch := 1#32 <<< 30
def kEpochReuse : Epoch := 1#32 <<< 29
def kEpochOnlyValuesMask : Epoch := (1#32 <<< 28) - 1#32
def kEpochHotMask : Epoch := kEpochOnlyValuesMask ||| kEpochHot
def kEpochFullMask : Epoch := kEpochOnlyValuesMask ||| kEpochFull
def kEpochReuseMask : Epoch := kEpochOnlyValuesMask ||| kEpochReuse

def isReusable (e : Epoch) : Bool := e &&& kEpochReuse != 0#32
def isHot (e : Epoch) : Bool := e &&& kEpochHot != 0#32
def isFull (e : Epoch) : Bool := e &&& kEpochFull != 0#32
def isFloatingOrReusable (e : Epoch) : Bool := !isFull e && !isHot e

/-- `compare_exchange_strong`: the new word, or `none` and nothing written. -/
def compareExchange (current expected desired : Epoch) : Option Epoch :=
  if current = expected then some desired else none

def newMarkHot (current old : Epoch) : Option Epoch :=
  let old := old &&& kEpochReuseMask
  compareExchange current old (((old + 1#32) ||| kEpochHot) &&& kEpochHotMask)

def newMarkFull (current old : Epoch) : Option Epoch :=
  let old := old &&& kEpochReuseMask
  compareExchange current old (((old + 1#32) ||| kEpochFull) &&& kEpochFullMask)

def newMarkReuse (current old : Epoch) : Option Epoch :=
  let old := old &&& kEpochOnlyValuesMask
  compareExchange current old (((old + 1#32) ||| kEpochReuse) &&& kEpochReuseMask)

def newMarkFloating (current : Epoch) : Epoch := current &&& kEpochOnlyValuesMask

def tryMarkFloating (current old : Epoch) : Option Epoch :=
  compareExchange current old (old &&& kEpochOnlyValuesMask)

/-- The states that the bits tell apart. -/
inductive Mark
  | floating
  | reusable
  | full
  | hot
deriving DecidableEq, Repr

def Mark.bit : Mark → Epoch
  | floating => 0#32
  | reusable => kEpochReuse
  | full => kEpochFull
  | hot => kEpochHot

/-- The word with counter `c` and mark `m`. -/
def encode (c : BitVec 28) (m : Mark) : Epoch := c.setWidth 32 ||| m.bit

def counter (e : Epoch) : BitVec 28 := e.setWidth 28

def mark (e : Epoch) : Mark :=
  if isHot e then .hot else if isFull e then .full else if isReusable e then .reusable
  else .floating

/-- At most one state bit is set and bit 28 is clear. -/
def Valid (e : Epoch) : Prop := ∃ c m, e = encode c m

/-- What a mark keeps of the reuse bit when the other bits are masked away. -/
def Mark.keepReuse : Mark → Mark
  | reusable => reusable
  | _ => floating

theorem and_onlyValues (e : Epoch) : e &&& kEpochOnlyValuesMask = (e.setWidth 28).setWidth 32 := by
  have hmask : kEpochOnlyValuesMask = (BitVec.allOnes 28).setWidth 32 := by decide
  rw [hmask]
  ext i hi
  simp only [BitVec.getElem_and, BitVec.getElem_setWidth, BitVec.getLsbD_setWidth,
    BitVec.getLsbD_allOnes]
  by_cases h : i < 28 <;> simp [h, BitVec.getLsbD_eq_getElem, hi]

theorem or_and_or (y b : Epoch) :
    (y ||| b) &&& (kEpochOnlyValuesMask ||| b) = (y &&& kEpochOnlyValuesMask) ||| b := by
  ext i hi
  simp only [BitVec.getElem_and, BitVec.getElem_or]
  cases b[i] <;> simp

/-- The new word: a bit set and the counter one higher, modulo its 28 bits. -/
theorem advance_eq (e b : Epoch) :
    ((e + 1#32) ||| b) &&& (kEpochOnlyValuesMask ||| b) = (counter e + 1#28).setWidth 32 ||| b := by
  rw [or_and_or, and_onlyValues, BitVec.setWidth_add (w := 32) _ _ (by decide)]
  rfl

theorem low_roundtrip (c : BitVec 28) : (c.setWidth 32).setWidth 28 = c := by
  rw [BitVec.setWidth_setWidth_of_le c (show 28 ≤ 32 by decide), BitVec.setWidth_eq]

theorem low_and_bit (c : BitVec 28) (m : Mark) : c.setWidth 32 &&& m.bit = 0#32 := by
  have hlow : c.setWidth 32 = c.setWidth 32 &&& kEpochOnlyValuesMask := by
    rw [and_onlyValues, low_roundtrip]
  have hbit : kEpochOnlyValuesMask &&& m.bit = 0#32 := by cases m <;> decide
  rw [hlow, BitVec.and_assoc, hbit, BitVec.and_zero]

@[simp] theorem counter_encode (c : BitVec 28) (m : Mark) : counter (encode c m) = c := by
  have hbit : m.bit.setWidth 28 = 0#28 := by cases m <;> decide
  rw [counter, encode, BitVec.setWidth_or, hbit, BitVec.or_zero, low_roundtrip]

theorem encode_and (c : BitVec 28) (m : Mark) (b : Epoch) :
    encode c m &&& b = (c.setWidth 32 &&& b) ||| (m.bit &&& b) := by
  ext i hi
  simp only [encode, BitVec.getElem_and, BitVec.getElem_or]
  cases b[i] <;> simp

theorem encode_and_bit (c : BitVec 28) (m n : Mark) : encode c m &&& n.bit = m.bit &&& n.bit := by
  rw [encode_and, low_and_bit, BitVec.zero_or]

@[simp] theorem isHot_encode (c : BitVec 28) (m : Mark) : isHot (encode c m) = (m == .hot) := by
  rw [isHot, show kEpochHot = Mark.hot.bit from rfl, encode_and_bit]
  cases m <;> decide

@[simp] theorem isFull_encode (c : BitVec 28) (m : Mark) : isFull (encode c m) = (m == .full) := by
  rw [isFull, show kEpochFull = Mark.full.bit from rfl, encode_and_bit]
  cases m <;> decide

@[simp] theorem isReusable_encode (c : BitVec 28) (m : Mark) :
    isReusable (encode c m) = (m == .reusable) := by
  rw [isReusable, show kEpochReuse = Mark.reusable.bit from rfl, encode_and_bit]
  cases m <;> decide

@[simp] theorem mark_encode (c : BitVec 28) (m : Mark) : mark (encode c m) = m := by
  cases m <;> simp [mark]

theorem encode_inj {c c' : BitVec 28} {m m' : Mark} :
    encode c m = encode c' m' ↔ c = c' ∧ m = m' := by
  constructor
  · intro h
    exact ⟨by simpa using congrArg counter h,by simpa using congrArg mark h⟩
  · rintro ⟨rfl,rfl⟩
    rfl

theorem encode_and_onlyValues (c : BitVec 28) (m : Mark) :
    encode c m &&& kEpochOnlyValuesMask = encode c .floating := by
  rw [and_onlyValues, show (encode c m).setWidth 28 = c from counter_encode c m]
  exact (BitVec.or_zero).symm

theorem encode_and_reuseMask (c : BitVec 28) (m : Mark) :
    encode c m &&& kEpochReuseMask = encode c m.keepReuse := by
  have hlow : c.setWidth 32 &&& kEpochReuseMask = c.setWidth 32 := by
    have h := encode_and_onlyValues c .floating
    rw [encode_and] at h
    ext i hi
    have hi' := congrArg (fun v : Epoch => v[i]) h
    simp only [BitVec.getElem_or, BitVec.getElem_and, encode, Mark.bit] at hi'
    simp only [kEpochReuseMask, BitVec.getElem_or, BitVec.getElem_and]
    cases hc : (c.setWidth 32)[i] <;> simp_all
  have hbit : m.bit &&& kEpochReuseMask = m.keepReuse.bit := by cases m <;> decide
  rw [encode_and, hlow, hbit, encode]

theorem compareExchange_eq_some {current expected desired e : Epoch} :
    compareExchange current expected desired = some e ↔ current = expected ∧ e = desired := by
  simp [compareExchange, eq_comm]

theorem compareExchange_encode {c c' : BitVec 28} {m m' : Mark} {desired e : Epoch} :
    compareExchange (encode c m) (encode c' m') desired = some e ↔
      (c = c' ∧ m = m') ∧ e = desired := by
  rw [compareExchange_eq_some, encode_inj]

theorem valid_zero : Valid 0 := ⟨0,.floating,by decide⟩

theorem Valid.isHot_iff {e : Epoch} (h : Valid e) : isHot e ↔ mark e = .hot := by
  obtain ⟨k,m,rfl⟩ := h
  simp

theorem Valid.isFull_iff {e : Epoch} (h : Valid e) : isFull e ↔ mark e = .full := by
  obtain ⟨k,m,rfl⟩ := h
  simp

theorem Valid.isReusable_iff {e : Epoch} (h : Valid e) : isReusable e ↔ mark e = .reusable := by
  obtain ⟨k,m,rfl⟩ := h
  simp

section Transitions
variable {c c' : BitVec 28} {m m' : Mark} {e : Epoch}

/-- `NewMarkHot` succeeds from floating or reusable only. -/
theorem newMarkHot_encode :
    newMarkHot (encode c m) (encode c' m') = some e ↔
      (c = c' ∧ m = m'.keepReuse) ∧ e = encode (c' + 1) .hot := by
  rw [newMarkHot, encode_and_reuseMask, compareExchange_encode, kEpochHotMask, advance_eq,
    counter_encode]
  rfl

theorem newMarkFull_encode :
    newMarkFull (encode c m) (encode c' m') = some e ↔
      (c = c' ∧ m = m'.keepReuse) ∧ e = encode (c' + 1) .full := by
  rw [newMarkFull, encode_and_reuseMask, compareExchange_encode, kEpochFullMask, advance_eq,
    counter_encode]
  rfl

/-- `NewMarkReuse` succeeds from floating only. -/
theorem newMarkReuse_encode :
    newMarkReuse (encode c m) (encode c' m') = some e ↔
      (c = c' ∧ m = .floating) ∧ e = encode (c' + 1) .reusable := by
  rw [newMarkReuse, encode_and_onlyValues, compareExchange_encode, kEpochReuseMask, advance_eq,
    counter_encode]
  rfl

@[simp] theorem newMarkFloating_encode : newMarkFloating (encode c m) = encode c .floating :=
  encode_and_onlyValues c m

theorem tryMarkFloating_encode :
    tryMarkFloating (encode c m) (encode c' m') = some e ↔
      (c = c' ∧ m = m') ∧ e = encode c' .floating := by
  rw [tryMarkFloating, encode_and_onlyValues, compareExchange_encode]

end Transitions

end Epoch
end Scalloc
