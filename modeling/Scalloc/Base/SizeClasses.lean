import Scalloc.Base.Globals

/-! # Size classes

The table of size classes, the table-driven logarithm and the map from a request
to its class. The four class arrays are columns of one table, as the macro
expansion makes them.
-/
namespace Scalloc

def kSpanHeaderSize : ℕ := 128

/-- Object size, real span size and number of objects of one class. -/
structure SizeClassRow where
  size : ℕ
  spanSize : ℕ
  objects : ℕ
deriving DecidableEq, Repr

/-- A class of at most 256 bytes: as many objects as fit one 32 KiB span. -/
def fineRow (size : ℕ) : SizeClassRow := ⟨size,32768,(32768 - kSpanHeaderSize) / size⟩

/-- A larger class: a fixed number of objects, the span rounded up to a page. -/
def coarseRow (size objects : ℕ) : SizeClassRow :=
  ⟨size,((objects * size + kSpanHeaderSize) / kPageSize + 1) * kPageSize,objects⟩

/-- `FOR_ALL_SIZE_CLASSES`, class 0 first. -/
def sizeClassRows : List SizeClassRow :=
  [⟨0,0,0⟩,
    fineRow 16, fineRow 32, fineRow 48, fineRow 64, fineRow 80, fineRow 96, fineRow 112,
    fineRow 128, fineRow 144, fineRow 160, fineRow 176, fineRow 192, fineRow 208, fineRow 224,
    fineRow 240, fineRow 256,
    coarseRow 512 64, coarseRow 1024 64, coarseRow 2048 64, coarseRow 4096 32,
    coarseRow 8192 32, coarseRow 16384 16, coarseRow 32768 16, coarseRow 65536 16,
    coarseRow 131072 8, coarseRow 262144 4, coarseRow 524288 2, coarseRow 1048576 1]

def sizeClassRow (sc : ℕ) : SizeClassRow := sizeClassRows.getD sc ⟨0,0,0⟩

def classToObjects (sc : ℕ) : ℕ := (sizeClassRow sc).objects
def classToSize (sc : ℕ) : ℕ := (sizeClassRow sc).size
def classToSpanSize (sc : ℕ) : ℕ := (sizeClassRow sc).spanSize

/-- The threshold for a build that sets the reuse percentage to `percent`. -/
def classToReuseThreshold (percent sc : ℕ) : ℕ := classToObjects sc * percent / 100

/-- A class that serves span objects; class 0 stands for empty and large requests. -/
def IsObjectClass (sc : ℕ) : Prop := 1 ≤ sc ∧ sc < kNumClasses

instance (sc : ℕ) : Decidable (IsObjectClass sc) := inferInstanceAs (Decidable (_ ∧ _))

/-- Every fact about a single class is a check of the finite table. -/
theorem forall_objectClass {P : ℕ → Prop} (h : ∀ sc ∈ List.range' 1 28, P sc) {sc : ℕ}
    (hsc : IsObjectClass sc) : P sc := by
  obtain ⟨h1,h2⟩ := hsc
  have hn : kNumClasses = 29 := rfl
  exact h sc (List.mem_range'_1.mpr ⟨h1,by omega⟩)

theorem classToSize_pos {sc : ℕ} (h : IsObjectClass sc) : 16 ≤ classToSize sc :=
  forall_objectClass (P := fun sc => 16 ≤ classToSize sc) (by decide) h

theorem classToSize_mod {sc : ℕ} (h : IsObjectClass sc) : classToSize sc % 16 = 0 :=
  forall_objectClass (P := fun sc => classToSize sc % 16 = 0) (by decide) h

theorem classToObjects_pos {sc : ℕ} (h : IsObjectClass sc) : 1 ≤ classToObjects sc :=
  forall_objectClass (P := fun sc => 1 ≤ classToObjects sc) (by decide) h

/-- Every count of objects fits the 16-bit tag of the remote free list. -/
theorem classToObjects_le {sc : ℕ} (h : IsObjectClass sc) : classToObjects sc ≤ 2040 :=
  forall_objectClass (P := fun sc => classToObjects sc ≤ 2040) (by decide) h

/-- Header and objects fit the real span. -/
theorem objects_fit_span {sc : ℕ} (h : IsObjectClass sc) :
    kSpanHeaderSize + classToObjects sc * classToSize sc ≤ classToSpanSize sc :=
  forall_objectClass
    (P := fun sc => kSpanHeaderSize + classToObjects sc * classToSize sc ≤ classToSpanSize sc)
    (by decide) h

/-- The real span fits the virtual span. -/
theorem classToSpanSize_le {sc : ℕ} (h : IsObjectClass sc) :
    classToSpanSize sc ≤ kVirtualSpanSize :=
  forall_objectClass (P := fun sc => classToSpanSize sc ≤ kVirtualSpanSize) (by decide) h

/-- Below 100 percent the threshold leaves at least one object out. -/
theorem classToReuseThreshold_lt {percent sc : ℕ} (hp : percent < 100) (h : IsObjectClass sc) :
    classToReuseThreshold percent sc < classToObjects sc := by
  have hn := classToObjects_pos h
  unfold classToReuseThreshold
  apply Nat.div_lt_of_lt_mul
  nlinarith

/-- `LT(n)`: sixteen copies of a table entry. -/
def logTableRow (n : ℤ) : List ℤ := List.replicate 16 n

/-- `log_table`; entry 0 is the logarithm the caller must not ask for. -/
def logTable : List ℤ :=
  [-1, 0, 1, 1, 2, 2, 2, 2, 3, 3, 3, 3, 3, 3, 3, 3] ++
  logTableRow 4 ++ logTableRow 5 ++ logTableRow 5 ++
  logTableRow 6 ++ logTableRow 6 ++ logTableRow 6 ++ logTableRow 6 ++
  logTableRow 7 ++ logTableRow 7 ++ logTableRow 7 ++ logTableRow 7 ++
  logTableRow 7 ++ logTableRow 7 ++ logTableRow 7 ++ logTableRow 7

def logTableAt (i : ℕ) : ℤ := logTable.getD i 0

/-- `Log2`; the two temporaries are 32 bits wide. -/
def log2 (v : ℕ) : ℤ :=
  let tt := v / 2 ^ 16 % 2 ^ 32
  if tt ≠ 0 then
    let t := tt / 2 ^ 8
    if t ≠ 0 then 24 + logTableAt t else 16 + logTableAt tt
  else
    let t := v / 2 ^ 8 % 2 ^ 32
    if t ≠ 0 then 8 + logTableAt t else logTableAt v

/-- `SizeToClass`; 0 indicates size 0 or a large object. -/
def sizeToClass (size : ℕ) : ℕ :=
  if size ≤ kMaxSmallSize then (size + kMinAlignment - 1) / kMinAlignment
  else if size ≤ kMaxMediumSize then
    (log2 (size - 1) - kMaxSmallShift + kFineClasses).toNat
  else 0

theorem logTableAt_eq {i : ℕ} (h1 : 1 ≤ i) (h2 : i < 256) : logTableAt i = Nat.log2 i := by
  have hall : ∀ i ∈ List.range' 1 255, logTableAt i = Nat.log2 i := by decide +kernel
  exact hall i (List.mem_range'_1.mpr ⟨h1,by omega⟩)

/-- Shifting out `k` bits lowers the logarithm by `k`. -/
theorem log2_div_pow {v k : ℕ} (h : 2 ^ k ≤ v) : Nat.log2 v = k + Nat.log2 (v / 2 ^ k) := by
  have hq : v / 2 ^ k ≠ 0 := Nat.pos_iff_ne_zero.mp (Nat.div_pos h (by positivity))
  have hv : v ≠ 0 := fun h0 => by simp [h0] at hq
  rw [Nat.log2_eq_iff hv]
  obtain ⟨hlo,hhi⟩ := (Nat.log2_eq_iff hq).mp rfl
  constructor
  · rw [pow_add, mul_comm]
    exact (Nat.le_div_iff_mul_le (by positivity)).mp hlo
  · rw [show k + Nat.log2 (v / 2 ^ k) + 1 = (Nat.log2 (v / 2 ^ k) + 1) + k by omega, pow_add]
    exact (Nat.div_lt_iff_lt_mul (by positivity)).mp hhi

/-- The table-driven logarithm is the binary logarithm of every 32-bit number. -/
theorem log2_eq {v : ℕ} (h1 : 1 ≤ v) (h2 : v < 2 ^ 32) : log2 v = Nat.log2 v := by
  have htt : v / 2 ^ 16 % 2 ^ 32 = v / 2 ^ 16 := Nat.mod_eq_of_lt (by omega)
  have ht : v / 2 ^ 8 % 2 ^ 32 = v / 2 ^ 8 := Nat.mod_eq_of_lt (by omega)
  simp only [log2, htt, ht]
  split
  · next h16 =>
    have hv16 : 2 ^ 16 ≤ v := by omega
    split
    · next h24 =>
      rw [logTableAt_eq (by omega) (by omega), log2_div_pow hv16,
        log2_div_pow (v := v / 2 ^ 16) (k := 8) (by omega)]
      push_cast
      ring
    · rw [logTableAt_eq (by omega) (by omega), log2_div_pow hv16]
      push_cast
      ring
  · split
    · rw [logTableAt_eq (by omega) (by omega), log2_div_pow (v := v) (k := 8) (by omega)]
      push_cast
      ring
    · rw [logTableAt_eq h1 (by omega)]

theorem sizeToClass_small {size : ℕ} (h : size ≤ kMaxSmallSize) :
    sizeToClass size = (size + 15) / 16 := by
  rw [sizeToClass, if_pos h]
  rfl

/-- Above the small sizes the class is read off the logarithm, from 8 to 19. -/
theorem sizeToClass_medium {size : ℕ} (h1 : kMaxSmallSize < size) (h2 : size ≤ kMaxMediumSize) :
    sizeToClass size = Nat.log2 (size - 1) + 9 ∧
      8 ≤ Nat.log2 (size - 1) ∧ Nat.log2 (size - 1) < 20 := by
  have hs : kMaxSmallSize = 256 := rfl
  have hm : kMaxMediumSize = 2 ^ 20 := rfl
  have hk : kMaxSmallShift = 8 := rfl
  have hf : kFineClasses = 17 := rfl
  have hv : size - 1 ≠ 0 := by omega
  have h8 : 8 ≤ Nat.log2 (size - 1) := (Nat.le_log2 hv).mpr (by omega)
  have h20 : Nat.log2 (size - 1) < 20 := (Nat.log2_lt hv).mpr (by omega)
  refine ⟨?_,h8,h20⟩
  rw [sizeToClass, if_neg (by omega), if_pos h2, log2_eq (by omega) (by omega), hk, hf]
  omega

/-- A request of at most a medium size is served by an object class. -/
theorem sizeToClass_isObjectClass {size : ℕ} (h1 : 0 < size) (h2 : size ≤ kMaxMediumSize) :
    IsObjectClass (sizeToClass size) := by
  have hs : kMaxSmallSize = 256 := rfl
  have hn : kNumClasses = 29 := rfl
  unfold IsObjectClass
  by_cases hsmall : size ≤ kMaxSmallSize
  · rw [sizeToClass_small hsmall]
    omega
  · obtain ⟨he,h8,h20⟩ := sizeToClass_medium (by omega) h2
    omega

theorem classToSize_fine {c : ℕ} (h : c ≤ 16) : classToSize c = 16 * c := by
  have hall : ∀ c ∈ List.range 17, classToSize c = 16 * c := by decide
  exact hall c (List.mem_range.mpr (by omega))

theorem classToSize_coarse {k : ℕ} (h1 : 8 ≤ k) (h2 : k < 20) : classToSize (k + 9) = 2 ^ (k + 1) := by
  have hall : ∀ k ∈ List.range' 8 12, classToSize (k + 9) = 2 ^ (k + 1) := by decide
  exact hall k (List.mem_range'_1.mpr ⟨h1,by omega⟩)

/-- The class of a request has objects at least as large as the request. -/
theorem le_classToSize_sizeToClass {size : ℕ} (h2 : size ≤ kMaxMediumSize) :
    size ≤ classToSize (sizeToClass size) := by
  have hs : kMaxSmallSize = 256 := rfl
  by_cases hsmall : size ≤ kMaxSmallSize
  · rw [sizeToClass_small hsmall, classToSize_fine (by omega)]
    omega
  · obtain ⟨he,h8,h20⟩ := sizeToClass_medium (by omega) h2
    have hhi : size - 1 < 2 ^ (Nat.log2 (size - 1) + 1) := Nat.lt_log2_self
    rw [he, classToSize_coarse h8 h20]
    omega

/-- `Log2` with its table accesses checked: `none` is an access past the table. -/
def log2Checked (v : ℕ) : Option ℤ :=
  let tt := v / 2 ^ 16 % 2 ^ 32
  if tt ≠ 0 then
    let t := tt / 2 ^ 8
    if t ≠ 0 then logTable[t]?.map (24 + ·) else logTable[tt]?.map (16 + ·)
  else
    let t := v / 2 ^ 8 % 2 ^ 32
    if t ≠ 0 then logTable[t]?.map (8 + ·) else logTable[v]?

theorem getElem?_logTable {i : ℕ} (h : i < 256) : logTable[i]? = some (logTableAt i) := by
  have hlen : logTable.length = 256 := by decide +kernel
  rw [logTableAt, List.getD_eq_getElem?_getD, List.getElem?_eq_getElem (by omega), Option.getD_some]

/-- On 32-bit numbers the table is read inside its bounds. -/
theorem log2Checked_eq {v : ℕ} (h : v < 2 ^ 32) : log2Checked v = some (log2 v) := by
  have htt : v / 2 ^ 16 % 2 ^ 32 = v / 2 ^ 16 := Nat.mod_eq_of_lt (by omega)
  have ht : v / 2 ^ 8 % 2 ^ 32 = v / 2 ^ 8 := Nat.mod_eq_of_lt (by omega)
  simp only [log2Checked, log2, htt, ht]
  split
  · split
    · rw [getElem?_logTable (by omega), Option.map_some]
    · rw [getElem?_logTable (by omega), Option.map_some]
  · split
    · rw [getElem?_logTable (by omega), Option.map_some]
    · rw [getElem?_logTable (by omega)]

/-- `SizeToBlockSize`; `none` is the unreachable end of the function. -/
def sizeToBlockSize (size : ℕ) : Option ℕ :=
  if size ≤ kMaxSmallSize then some ((size + kMinAlignment - 1) &&& (kWord - kMinAlignment))
  else if size ≤ kMaxMediumSize then some (2 ^ (log2 (size - 1) + 1).toNat % kWord)
  else none

theorem classToSize_mono {a b : ℕ} (hb : b < kNumClasses) (h : a ≤ b) :
    classToSize a ≤ classToSize b := by
  have hall : ∀ b ∈ List.range 29, ∀ a ∈ List.range (b + 1), classToSize a ≤ classToSize b := by
    decide
  exact hall b (List.mem_range.mpr hb) a (List.mem_range.mpr (by omega))

/-- The next smaller class is too small for the request. -/
theorem classToSize_pred_lt {size : ℕ} (h1 : 0 < size) (h2 : size ≤ kMaxMediumSize) :
    classToSize (sizeToClass size - 1) < size := by
  have hs : kMaxSmallSize = 256 := rfl
  by_cases hsmall : size ≤ kMaxSmallSize
  · rw [sizeToClass_small hsmall, classToSize_fine (by omega)]
    omega
  · obtain ⟨he,h8,h20⟩ := sizeToClass_medium (by omega) h2
    have hlo : 2 ^ Nat.log2 (size - 1) ≤ size - 1 := Nat.log2_self_le (by omega)
    rw [he]
    by_cases heq : Nat.log2 (size - 1) = 8
    · rw [heq, classToSize_fine (by omega)]
      omega
    · obtain ⟨k,hk⟩ : ∃ k, Nat.log2 (size - 1) = k + 1 := ⟨Nat.log2 (size - 1) - 1,by omega⟩
      rw [hk] at hlo ⊢
      rw [show k + 1 + 9 - 1 = k + 9 by omega, classToSize_coarse (by omega) (by omega)]
      omega

/-- The two computations of a block's size agree. -/
theorem sizeToBlockSize_eq {size : ℕ} (h2 : size ≤ kMaxMediumSize) :
    sizeToBlockSize size = some (classToSize (sizeToClass size)) := by
  have hs : kMaxSmallSize = 256 := rfl
  have ha : kMinAlignment = 2 ^ 4 := rfl
  have hw : kWord = 2 ^ 64 := rfl
  unfold sizeToBlockSize
  by_cases hsmall : size ≤ kMaxSmallSize
  · rw [if_pos hsmall, sizeToClass_small hsmall, classToSize_fine (by omega), ha,
      land_highMask (by decide) (by omega), mul_comm]
    rfl
  · obtain ⟨he,h8,h20⟩ := sizeToClass_medium (by omega) h2
    have hm : kMaxMediumSize = 2 ^ 20 := rfl
    have hlog : (log2 (size - 1) + 1).toNat = Nat.log2 (size - 1) + 1 := by
      rw [log2_eq (by omega) (by omega)]
      omega
    have hpow : 2 ^ (Nat.log2 (size - 1) + 1) < kWord :=
      Nat.pow_lt_pow_right (by decide) (by omega)
    rw [if_neg hsmall, if_pos h2, he, classToSize_coarse h8 h20, hlog, Nat.mod_eq_of_lt hpow]

/-- A request is served by the least class that is large enough, whose size is the block size;
empty and large requests have class 0. The logarithm behind it reads its table inside the bounds
and is exact for every 32-bit number. -/
theorem sizeClasses_exact (size : ℕ) :
    (0 < size → size ≤ kMaxMediumSize →
      IsLeast {c | IsObjectClass c ∧ size ≤ classToSize c} (sizeToClass size) ∧
      sizeToBlockSize size = some (classToSize (sizeToClass size))) ∧
    (size = 0 ∨ kMaxMediumSize < size → sizeToClass size = 0) ∧
    ∀ v, 1 ≤ v → v < 2 ^ 32 → log2Checked v = some (Nat.log2 v : ℤ) ∧ log2 v = Nat.log2 v := by
  refine ⟨?_,?_,?_⟩
  · intro h1 h2
    refine ⟨⟨⟨sizeToClass_isObjectClass h1 h2,le_classToSize_sizeToClass h2⟩,?_⟩,
      sizeToBlockSize_eq h2⟩
    rintro c ⟨hc,hle⟩
    by_contra hlt
    have hn := (sizeToClass_isObjectClass h1 h2).2
    have hmono := classToSize_mono (a := c) (b := sizeToClass size - 1) (by omega) (by omega)
    have hpred := classToSize_pred_lt h1 h2
    omega
  · have hs : kMaxSmallSize ≤ kMaxMediumSize := by decide
    rintro (rfl | hlarge)
    · rfl
    · rw [sizeToClass, if_neg (by omega), if_neg (by omega)]
  · intro v h1 h2
    rw [log2Checked_eq h2, log2_eq h1 h2]
    exact ⟨rfl,rfl⟩

end Scalloc
