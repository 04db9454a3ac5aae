import Mathlib

/-! # Constants of the allocator

The constants of the two global headers under their own names. Addresses and
sizes are natural numbers; where the 64-bit width matters, wrap-around is written
out with `kWord`.
-/
namespace Scalloc

/-- The number of 64-bit words, the modulus of `size_t` and `uintptr_t`. -/
def kWord : ℕ := 2 ^ 64

theorem kWord_pos : 0 < kWord := by decide

def kPageSize : ℕ := 4096
def kPageNrMask : ℕ := kWord - kPageSize

def kKilo : ℕ := 2 ^ 10
def kMega : ℕ := kKilo * kKilo
def kGiga : ℕ := kMega * kKilo
def kTera : ℕ := kGiga * kKilo

def kLABSpaceSize : ℕ := 100 * kPageSize
def kObjectSpaceSize : ℕ := 35 * kTera

def kMaxSmallShift : ℕ := 8
def kMaxMediumShift : ℕ := 20
def kVirtualSpanShift : ℕ := 21

def kMinAlignment : ℕ := 16
def kMaxSmallSize : ℕ := 2 ^ kMaxSmallShift
def kMaxMediumSize : ℕ := 2 ^ kMaxMediumShift
def kVirtualSpanSize : ℕ := 2 ^ kVirtualSpanShift
def kVirtualSpanMask : ℕ := kWord - kVirtualSpanSize
def kFineClasses : ℕ := kMaxSmallSize / kMinAlignment + 1
def kCoarseClasses : ℕ := kMaxMediumShift - kMaxSmallShift
def kNumClasses : ℕ := kFineClasses + kCoarseClasses

/-- `SCALLOC_REUSE_THRESHOLD` when the build does not set it, in percent. -/
def kReuseThreshold : ℕ := 80

/-- Rounding up to a multiple, with the additions of `size_t`. -/
def padSize (size multiple : ℕ) : ℕ :=
  (size + multiple - 1) % kWord / multiple * multiple

/-- Of two powers of two the smaller one divides the other. -/
theorem dvd_of_isPowerOfTwo {a b : ℕ} (ha : a.isPowerOfTwo) (hb : b.isPowerOfTwo) (hle : a ≤ b) :
    a ∣ b := by
  obtain ⟨k,rfl⟩ := ha
  obtain ⟨l,rfl⟩ := hb
  exact pow_dvd_pow 2 ((Nat.pow_le_pow_iff_right (by decide)).mp hle)

/-- Masking off the low bits of a 64-bit word rounds down to a power of two. -/
theorem land_highMask {k p : ℕ} (hk : k ≤ 64) (hp : p < kWord) :
    p &&& (kWord - 2 ^ k) = p / 2 ^ k * 2 ^ k := by
  have hsplit : kWord - 2 ^ k = (2 ^ (64 - k) - 1) * 2 ^ k := by
    rw [Nat.sub_mul, ← pow_add, Nat.sub_add_cancel hk, one_mul]
    rfl
  apply Nat.eq_of_testBit_eq
  intro i
  rw [hsplit, Nat.testBit_and, Nat.testBit_mul_two_pow, Nat.testBit_mul_two_pow,
    Nat.testBit_two_pow_sub_one, Nat.testBit_div_two_pow]
  by_cases hi : k ≤ i
  · rw [Nat.sub_add_cancel hi]
    by_cases h64 : i < 64
    · have hlt : i - k < 64 - k := by omega
      simp [hi, hlt]
    · have hz : p.testBit i = false :=
        Nat.testBit_lt_two_pow (hp.trans_le (Nat.pow_le_pow_right (by omega) (by omega)))
      simp [hz]
  · simp [hi]

end Scalloc
