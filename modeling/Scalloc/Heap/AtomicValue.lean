import Scalloc.Heap.Treiber

/-! # Tagged values as 64-bit words

A pointer and its tag share one word: the low 48 bits of the pointer below the 16 bits of the
tag. Reading the pointer back copies bit 47 into the upper bits by a multiplication. Words and
pairs correspond one to one, so a comparison of words compares pointer and tag.
-/
namespace Scalloc.AtomicValue

/-- The raw word of a `TaggedValue`. -/
@[ext]
structure TaggedValue where
  raw : BitVec 64
deriving DecidableEq, Repr

namespace TaggedValue

def kValueBits : ℕ := 48
def kValueMask : BitVec 64 := (1#64 <<< kValueBits) - 1#64
def kExtendMask : BitVec 64 := BitVec.allOnes 64 - kValueMask

/-- The constructor from a pointer and a tag. -/
def new (value : BitVec 64) (tag : BitVec 16) : TaggedValue :=
  ⟨(value &&& kValueMask) ||| (tag.setWidth 64 <<< 48)⟩

def value (v : TaggedValue) : BitVec 64 :=
  (v.raw &&& kValueMask) ||| (((v.raw >>> (kValueBits - 1)) &&& 0x1#64) * kExtendMask)

def tag (v : TaggedValue) : BitVec 16 := (v.raw >>> kValueBits).setWidth 16

/-- `operator==`. -/
def eq (v other : TaggedValue) : Bool := v.raw == other.raw

end TaggedValue

/-- The word of an `AtomicTaggedValue`. -/
structure AtomicTaggedValue where
  rawAtomic : BitVec 64
deriving DecidableEq, Repr

namespace AtomicTaggedValue

def load (a : AtomicTaggedValue) : TaggedValue := ⟨a.rawAtomic⟩

/-- `swap`: its result and the word afterwards. -/
def swap (a : AtomicTaggedValue) (expected desired : TaggedValue) : Bool × AtomicTaggedValue :=
  if a.rawAtomic = expected.raw then (true,⟨desired.raw⟩) else (false,a)

end AtomicTaggedValue

open AtomicValue.TaggedValue

/-- The bits 47 to 63 are all equal. -/
def Canonical (v : BitVec 64) : Prop := ∀ i, 47 ≤ i → i < 64 → v.getLsbD i = v.getLsbD 47

theorem getLsbD_kValueMask (i : ℕ) : kValueMask.getLsbD i = decide (i < 48) := by
  rw [show kValueMask = BitVec.ofNat 64 (2 ^ 48 - 1) from rfl, BitVec.getLsbD_ofNat,
    Nat.testBit_two_pow_sub_one]
  by_cases h : i < 48
  · simp [h, show i < 64 by omega]
  · simp [h]

theorem getLsbD_kExtendMask (i : ℕ) :
    kExtendMask.getLsbD i = (decide (48 ≤ i) && decide (i < 64)) := by
  rw [show kExtendMask = BitVec.allOnes 64 <<< 48 by decide, BitVec.getLsbD_shiftLeft,
    BitVec.getLsbD_allOnes]
  by_cases h : 48 ≤ i
  · by_cases hi : i < 64
    · simp [h, hi, show i - 48 < 64 by omega]
    · simp [h, hi]
  · simp [h, show i < 48 by omega]

theorem signBit_eq (x : BitVec 64) :
    (x >>> (kValueBits - 1)) &&& 0x1#64 = if x.getLsbD 47 = true then 1#64 else 0#64 := by
  rw [show 0x1#64 = BitVec.twoPow 64 0 from rfl, BitVec.and_twoPow, BitVec.getLsbD_ushiftRight]
  rfl

/-- The multiplication copies one bit into the upper 16 bits. -/
theorem getLsbD_extension (x : BitVec 64) (i : ℕ) :
    (((x >>> (kValueBits - 1)) &&& 0x1#64) * kExtendMask).getLsbD i =
      (x.getLsbD 47 && (decide (48 ≤ i) && decide (i < 64))) := by
  rw [signBit_eq]
  cases x.getLsbD 47
  · simp
  · rw [if_pos rfl, BitVec.one_mul, getLsbD_kExtendMask, Bool.true_and]

/-- Reading the pointer takes the low 48 bits and repeats the last of them. -/
theorem getLsbD_value (v : TaggedValue) {i : ℕ} (hi : i < 64) :
    v.value.getLsbD i = v.raw.getLsbD (min i 47) := by
  rw [value, BitVec.getLsbD_or, BitVec.getLsbD_and, getLsbD_kValueMask, getLsbD_extension]
  by_cases h : i < 48
  · simp [h, show ¬ 48 ≤ i by omega, Nat.min_eq_left (show i ≤ 47 by omega)]
  · simp [h, hi, show 48 ≤ i by omega, Nat.min_eq_right (show 47 ≤ i by omega)]

theorem getLsbD_tag (v : TaggedValue) {i : ℕ} (hi : i < 16) :
    v.tag.getLsbD i = v.raw.getLsbD (48 + i) := by
  rw [tag, BitVec.getLsbD_setWidth, BitVec.getLsbD_ushiftRight]
  simp [hi, kValueBits]

/-- The word of a pair: pointer bits below 48, tag bits above. -/
theorem getLsbD_new (value : BitVec 64) (tag : BitVec 16) {i : ℕ} (hi : i < 64) :
    (new value tag).raw.getLsbD i = if i < 48 then value.getLsbD i else tag.getLsbD (i - 48) := by
  rw [new, BitVec.getLsbD_or, BitVec.getLsbD_and, getLsbD_kValueMask, BitVec.getLsbD_shiftLeft,
    BitVec.getLsbD_setWidth]
  by_cases h : i < 48
  · simp [h]
  · simp [h, hi, show i - 48 < 64 by omega]

/-- A canonical pointer is read back as it was. -/
theorem value_new {v : BitVec 64} (hv : Canonical v) (t : BitVec 16) : (new v t).value = v := by
  apply BitVec.eq_of_getLsbD_eq
  intro i hi
  rw [getLsbD_value _ hi, getLsbD_new _ _ (by omega), if_pos (by omega)]
  by_cases h : i ≤ 47
  · rw [Nat.min_eq_left h]
  · rw [Nat.min_eq_right (by omega), hv i (by omega) hi]

theorem tag_new (v : BitVec 64) (t : BitVec 16) : (new v t).tag = t := by
  apply BitVec.eq_of_getLsbD_eq
  intro i hi
  rw [getLsbD_tag _ hi, getLsbD_new _ _ (by omega), if_neg (by omega), Nat.add_sub_cancel_left]

theorem canonical_value (v : TaggedValue) : Canonical v.value := by
  intro i h47 hi
  rw [getLsbD_value _ hi, getLsbD_value _ (by omega), Nat.min_eq_right h47]
  rfl

/-- Every word is the word of the pair read from it. -/
theorem new_value_tag (v : TaggedValue) : new v.value v.tag = v := by
  ext1
  apply BitVec.eq_of_getLsbD_eq
  intro i hi
  rw [getLsbD_new _ _ hi]
  split
  · next h => rw [getLsbD_value _ hi, Nat.min_eq_left (by omega)]
  · next h => rw [getLsbD_tag _ (by omega), show 48 + (i - 48) = i by omega]

/-- Pointer and tag determine the word. -/
theorem raw_inj {v w : TaggedValue} : v.raw = w.raw ↔ v.value = w.value ∧ v.tag = w.tag := by
  constructor
  · intro h
    rw [TaggedValue.ext h]
    exact ⟨rfl,rfl⟩
  · rintro ⟨hvalue,htag⟩
    rw [← new_value_tag v, ← new_value_tag w, hvalue, htag]

/-- The pair that the models of the stacks and of the spans work with. -/
def pair (v : TaggedValue) : Scalloc.TaggedValue := ⟨v.value.toNat,v.tag⟩

theorem pair_inj {v w : TaggedValue} : pair v = pair w ↔ v = w := by
  constructor
  · intro h
    have hvalue : v.value = w.value := BitVec.eq_of_toNat_eq (congrArg Scalloc.TaggedValue.value h)
    have htag : v.tag = w.tag := congrArg Scalloc.TaggedValue.tag h
    exact TaggedValue.ext (raw_inj.mpr ⟨hvalue,htag⟩)
  · rintro rfl
    rfl

theorem toNat_and_kValueMask (x : BitVec 64) : (x &&& kValueMask).toNat = x.toNat % 2 ^ 48 := by
  rw [BitVec.toNat_and, show kValueMask.toNat = 2 ^ 48 - 1 from rfl, Nat.and_two_pow_sub_one_eq_mod]

theorem getLsbD_47 (x : BitVec 64) : x.getLsbD 47 = true ↔ 2 ^ 47 ≤ x.toNat % 2 ^ 48 := by
  rw [BitVec.getLsbD, Nat.testBit_eq_decide_div_mod_eq, decide_eq_true_iff]
  omega

/-- The pointer read from a word, as a number. -/
theorem toNat_value (v : TaggedValue) : v.value.toNat = Treiber.extend v.raw.toNat := by
  have hlow := toNat_and_kValueMask v.raw
  have h47 := getLsbD_47 v.raw
  unfold value Treiber.extend
  rw [signBit_eq]
  by_cases hbit : v.raw.getLsbD 47 = true
  · have hext : kExtendMask.toNat = 2 ^ 48 * (2 ^ 16 - 1) := rfl
    have hlt : v.raw.toNat % 2 ^ 48 < 2 ^ 48 := Nat.mod_lt _ (by decide)
    rw [if_pos hbit, BitVec.one_mul, BitVec.toNat_or, hlow, hext, Nat.lor_comm,
      ← Nat.two_pow_add_eq_or_of_lt hlt, if_neg (by have := h47.mp hbit; omega)]
    omega
  · have hlt : v.raw.toNat % 2 ^ 48 < 2 ^ 47 := by
      by_contra hge
      exact hbit (h47.mpr (by omega))
    rw [if_neg hbit, BitVec.zero_mul, BitVec.or_zero, hlow, if_pos hlt]

/-- The constructor stores the pointer up to its upper bits, as the stacks model it. -/
theorem pair_new (v : BitVec 64) (t : BitVec 16) : pair (new v t) = ⟨Treiber.extend v.toNat,t⟩ := by
  have hlow : (new v t).raw &&& kValueMask = v &&& kValueMask := by
    apply BitVec.eq_of_getLsbD_eq
    intro i hi
    rw [BitVec.getLsbD_and, BitVec.getLsbD_and, getLsbD_new _ _ hi, getLsbD_kValueMask]
    split
    · rfl
    · next h => simp [h]
  have hmod : (new v t).raw.toNat % 2 ^ 48 = v.toNat % 2 ^ 48 := by
    rw [← toNat_and_kValueMask, hlow, toNat_and_kValueMask]
  unfold pair
  rw [tag_new, toNat_value, Treiber.extend, hmod]
  rfl

/-- A swap of words is the swap of pairs of the models. -/
theorem pair_swap (a : AtomicTaggedValue) (expected desired : TaggedValue) :
    pair (a.swap expected desired).2.load =
      if pair a.load = pair expected then pair desired else pair a.load := by
  have hraw : a.rawAtomic = expected.raw ↔ pair a.load = pair expected := by
    rw [pair_inj]
    exact ⟨fun h => TaggedValue.ext h,fun h => congrArg raw h⟩
  unfold AtomicTaggedValue.swap
  split
  · next h =>
    rw [if_pos (hraw.mp h)]
    rfl
  · next h => rw [if_neg (hraw.not.mp h)]

/-- Canonical pointers and all tags round-trip through the word, and every word through its
pair; so words are equal, and a swap succeeds, exactly if pointers and tags are, and counting up
the tag keeps the pointer. -/
theorem tagged_roundtrip :
    (∀ v t, Canonical v → (new v t).value = v ∧ (new v t).tag = t) ∧
    (∀ w : TaggedValue, new w.value w.tag = w ∧ Canonical w.value) ∧
    (∀ v w : TaggedValue, v.eq w = true ↔ v.value = w.value ∧ v.tag = w.tag) ∧
    (∀ (a : AtomicTaggedValue) (expected desired : TaggedValue),
      ((a.swap expected desired).1 = true ↔
        a.load.value = expected.value ∧ a.load.tag = expected.tag) ∧
      (a.swap expected desired).2.load =
        if (a.swap expected desired).1 = true then desired else a.load) ∧
    ∀ w : TaggedValue, (new w.value (w.tag + 1)).value = w.value ∧
      (new w.value (w.tag + 1)).tag.toNat = (w.tag.toNat + 1) % 2 ^ 16 := by
  refine ⟨fun v t hv => ⟨value_new hv t,tag_new v t⟩,
    fun w => ⟨new_value_tag w,canonical_value w⟩,?_,?_,?_⟩
  · intro v w
    rw [TaggedValue.eq, beq_iff_eq, raw_inj]
  · intro a expected desired
    have hraw := raw_inj (v := a.load) (w := expected)
    rw [← hraw, AtomicTaggedValue.swap]
    split
    · next h => exact ⟨iff_of_true rfl h,rfl⟩
    · next h => exact ⟨iff_of_false Bool.false_ne_true h,rfl⟩
  · intro w
    rw [value_new (canonical_value w), tag_new, BitVec.toNat_add]
    exact ⟨rfl,rfl⟩

end Scalloc.AtomicValue
