import Mathlib

/-! # Byte-addressed little-endian memory

A memory is a total function from addresses to bytes. Words of every width are
read and written through the same two functions, so that two accesses of
different widths to overlapping bytes have a definite meaning.
-/
namespace ByteMemory

abbrev Memory := ℕ → UInt8

/-- The unsigned number spelled by `w` bytes from `a`, least significant first. -/
def load (m : Memory) : ℕ → ℕ → ℕ
  | _, 0 => 0
  | a, w + 1 => (m a).toNat + 256 * load m (a + 1) w

/-- The `w` low bytes of `v` written from `a` on. -/
def store (m : Memory) (a w v : ℕ) : Memory := fun x =>
  if a ≤ x ∧ x < a + w then UInt8.ofNat (v / 256 ^ (x - a)) else m x

/-- `len` bytes copied from `src` to `dst`; overlapping ranges are copied as by
a temporary buffer. -/
def move (m : Memory) (dst src len : ℕ) : Memory := fun x =>
  if dst ≤ x ∧ x < dst + len then m (src + (x - dst)) else m x

/-- `len` bytes from `a` on set to zero. -/
def clear (m : Memory) (a len : ℕ) : Memory := fun x =>
  if a ≤ x ∧ x < a + len then 0 else m x

/-- The bytes written one after the other from `a` on. -/
def fill (m : Memory) (a : ℕ) : List UInt8 → Memory
  | [] => m
  | v :: vs => fill (Function.update m a v) (a + 1) vs

/-- Two memories with the same bytes on `[a, b)`. -/
def AgreeOn (m m' : Memory) (a b : ℕ) : Prop := ∀ x, a ≤ x → x < b → m' x = m x

theorem AgreeOn.refl (m : Memory) (a b : ℕ) : AgreeOn m m a b := fun _ _ _ => rfl

theorem AgreeOn.mono {m m' : Memory} {a b c d : ℕ} (h : AgreeOn m m' a b) (ha : a ≤ c)
    (hb : d ≤ b) : AgreeOn m m' c d := fun x hx hd => h x (ha.trans hx) (hd.trans_le hb)

theorem AgreeOn.trans {m m' m'' : Memory} {a b : ℕ} (h : AgreeOn m m' a b)
    (h' : AgreeOn m' m'' a b) : AgreeOn m m'' a b := fun x ha hb => (h' x ha hb).trans (h x ha hb)

/-- Two memories that differ at most on `[a, b)`. -/
def SameOutside (m m' : Memory) (a b : ℕ) : Prop := ∀ x, x < a ∨ b ≤ x → m' x = m x

theorem SameOutside.refl (m : Memory) (a b : ℕ) : SameOutside m m a b := fun _ _ => rfl

theorem SameOutside.trans {m m' m'' : Memory} {a b : ℕ} (h : SameOutside m m' a b)
    (h' : SameOutside m' m'' a b) : SameOutside m m'' a b := fun x hx => (h' x hx).trans (h x hx)

theorem SameOutside.mono {m m' : Memory} {a b c d : ℕ} (h : SameOutside m m' a b) (ha : c ≤ a)
    (hb : b ≤ d) : SameOutside m m' c d := fun x hx => h x (by omega)

theorem SameOutside.agreeOn {m m' : Memory} {a b c d : ℕ} (h : SameOutside m m' a b)
    (hd : d ≤ a ∨ b ≤ c) : AgreeOn m m' c d := fun x hc hx => h x (by omega)

theorem load_congr {m m' : Memory} {a w : ℕ} (h : AgreeOn m m' a (a + w)) :
    load m' a w = load m a w := by
  induction w generalizing a with
  | zero => rfl
  | succ w ih =>
    have hrest : load m' (a + 1) w = load m (a + 1) w :=
      ih (h.mono (Nat.le_succ a) (by omega))
    simp only [load, hrest, h a le_rfl (by omega)]

/-- A wide word is its low part plus its shifted high part. -/
theorem load_add (m : Memory) (a v w : ℕ) :
    load m a (v + w) = load m a v + 256 ^ v * load m (a + v) w := by
  induction v generalizing a with
  | zero => simp [load]
  | succ v ih =>
    rw [show v + 1 + w = v + w + 1 by omega]
    simp only [load, ih (a + 1), pow_succ]
    rw [show a + 1 + v = a + (v + 1) by omega]
    ring

theorem store_agreeOn {m : Memory} {a w v c d : ℕ} (h : d ≤ a ∨ a + w ≤ c) :
    AgreeOn m (store m a w v) c d := by
  intro x hc hd
  have hx : ¬ (a ≤ x ∧ x < a + w) := by omega
  simp only [store, if_neg hx]

theorem store_sameOutside (m : Memory) (a w v : ℕ) : SameOutside m (store m a w v) a (a + w) := by
  intro x hx
  have hx : ¬ (a ≤ x ∧ x < a + w) := by omega
  simp [store, hx]

theorem fill_apply (m : Memory) (a : ℕ) (vs : List UInt8) (x : ℕ) :
    fill m a vs x = if a ≤ x then (vs[x - a]?).getD (m x) else m x := by
  induction vs generalizing m a with
  | nil => simp [fill]
  | cons v vs ih =>
    rw [fill, ih]
    rcases Nat.lt_trichotomy a x with hlt | rfl | hgt
    · have hx : x - a = x - (a + 1) + 1 := by omega
      rw [if_pos (by omega), if_pos (by omega), hx, List.getElem?_cons_succ,
        Function.update_of_ne (by omega)]
    · simp
    · rw [if_neg (by omega), if_neg (by omega), Function.update_of_ne (by omega)]

/-- Clearing and copying are sequences of byte writes. -/
theorem clear_eq_fill (m : Memory) (a len : ℕ) :
    clear m a len = fill m a (List.replicate len 0) := by
  funext x
  rw [fill_apply, clear]
  by_cases h1 : a ≤ x
  · by_cases h2 : x < a + len
    · rw [if_pos ⟨h1,h2⟩, if_pos h1, List.getElem?_replicate_of_lt (by omega), Option.getD_some]
    · rw [if_neg (fun h => h2 h.2), if_pos h1, List.getElem?_eq_none (by simp; omega),
        Option.getD_none]
  · rw [if_neg (fun h => h1 h.1), if_neg h1]

theorem move_eq_fill (m : Memory) (dst src len : ℕ) :
    move m dst src len = fill m dst ((List.range len).map fun i => m (src + i)) := by
  funext x
  rw [fill_apply, move]
  by_cases h1 : dst ≤ x
  · by_cases h2 : x < dst + len
    · rw [if_pos ⟨h1,h2⟩, if_pos h1, List.getElem?_map, List.getElem?_range (by omega)]
      rfl
    · rw [if_neg (fun h => h2 h.2), if_pos h1, List.getElem?_eq_none (by simp; omega),
        Option.getD_none]
  · rw [if_neg (fun h => h1 h.1), if_neg h1]

/-- Shifting a store past its first byte. -/
private theorem load_store_tail (m : Memory) (a w v : ℕ) :
    load (store m a (w + 1) v) (a + 1) w = load (store m (a + 1) w (v / 256)) (a + 1) w := by
  apply load_congr
  intro x hc hd
  have h1 : a ≤ x ∧ x < a + (w + 1) := by omega
  have h2 : a + 1 ≤ x ∧ x < a + 1 + w := by omega
  have hp : v / 256 ^ (x - a) = v / 256 / 256 ^ (x - (a + 1)) := by
    rw [Nat.div_div_eq_div_mul, ← pow_succ']
    congr 2
    omega
  simp only [store, if_pos h1, if_pos h2, hp]

/-- What was stored is read back, up to the width. -/
theorem load_store (m : Memory) (a w v : ℕ) : load (store m a w v) a w = v % 256 ^ w := by
  induction w generalizing a v with
  | zero => simp [load, Nat.mod_one]
  | succ w ih =>
    have hfirst : (store m a (w + 1) v a).toNat = v % 256 := by
      have hx : a ≤ a ∧ a < a + (w + 1) := by omega
      simp only [store, if_pos hx, Nat.sub_self, pow_zero, Nat.div_one]
      exact UInt8.toNat_ofNat'
    simp only [load, hfirst, load_store_tail, ih]
    rw [pow_succ', Nat.mod_mul]

theorem load_store_of_lt {m : Memory} {a w v : ℕ} (h : v < 256 ^ w) :
    load (store m a w v) a w = v := by
  rw [load_store, Nat.mod_eq_of_lt h]

theorem load_store_disjoint {m : Memory} {a w v c u : ℕ} (h : c + u ≤ a ∨ a + w ≤ c) :
    load (store m a w v) c u = load m c u :=
  load_congr (store_agreeOn h)

end ByteMemory
