import Scalloc.Glue.Realloc

/-! # Which frees belong to the arena

`Arena::Contains` compares the exclusive or of an address and the start of the arena
with its length. For a length of 35 TiB this is a range check only if the start is a
multiple of 64 TiB, the next power of two.
-/
namespace Scalloc
open ByteMemory

/-- The next power of two above the length of the object space. -/
def kObjectSpaceAlignment : ℕ := 2 ^ 46

namespace Arena
variable {a : Arena}

/-- `Contains` is the range check. -/
def ContainsExact (a : Arena) : Prop :=
  ∀ p < kWord, a.contains p = true ↔ a.start ≤ p ∧ p < a.start + a.len

/-- Words that agree from bit `k` on differ only below. -/
theorem xor_of_div_eq {x y k : ℕ} (h : x / 2 ^ k = y / 2 ^ k) :
    x ^^^ y = (x % 2 ^ k) ^^^ (y % 2 ^ k) := by
  have hdiv : (x ^^^ y) / 2 ^ k = 0 := by
    rw [Nat.xor_div_two_pow, h, Nat.xor_self]
  have hmod := Nat.div_add_mod (x ^^^ y) (2 ^ k)
  rw [hdiv, Nat.mul_zero, Nat.zero_add, Nat.xor_mod_two_pow] at hmod
  exact hmod.symm

/-- From a start on a multiple of the power of two the check is a range check. -/
theorem containsExact_of_aligned (hlen : a.len ≤ kObjectSpaceAlignment)
    (h : a.start % kObjectSpaceAlignment = 0) : a.ContainsExact := by
  intro p _
  have hk : kObjectSpaceAlignment = 2 ^ 46 := rfl
  rw [hk] at hlen h
  have hstart := Nat.div_add_mod a.start (2 ^ 46)
  have hp := Nat.div_add_mod p (2 ^ 46)
  have hlow := Nat.mod_lt p (Nat.two_pow_pos 46)
  simp only [contains, decide_eq_true_eq]
  by_cases hdiv : p / 2 ^ 46 = a.start / 2 ^ 46
  · rw [xor_of_div_eq hdiv, h, Nat.xor_zero]
    rw [hdiv] at hp
    omega
  · have hbig : 2 ^ 46 ≤ p ^^^ a.start := by
      by_contra hlt
      have hzero := Nat.div_eq_of_lt (not_le.mp hlt)
      rw [Nat.xor_div_two_pow, Nat.xor_eq_zero_iff] at hzero
      exact hdiv hzero
    refine iff_of_false (by omega) fun hr => hdiv ?_
    have hle : a.start / 2 ^ 46 ≤ p / 2 ^ 46 := Nat.div_le_div_right hr.1
    have hge : p < 2 ^ 46 * (a.start / 2 ^ 46) + 2 ^ 46 := by omega
    have hup : p / 2 ^ 46 < a.start / 2 ^ 46 + 1 := by
      refine Nat.div_lt_of_lt_mul ?_
      rw [Nat.mul_add, Nat.mul_one]
      exact hge
    omega

/-- Some address below the start passes the check unless the start is aligned. -/
theorem aligned_of_containsExact (hlen : 2 ^ 45 < a.len) (hstart : a.start < kWord)
    (h : a.ContainsExact) : a.start % kObjectSpaceAlignment = 0 := by
  have hk : kObjectSpaceAlignment = 2 ^ 46 := rfl
  have hbelow : ∀ p, p < kWord → p ^^^ a.start ≤ 2 ^ 45 → a.start ≤ p := by
    intro p hp hx
    refine ((h p hp).mp ?_).1
    simp only [contains, decide_eq_true_eq]
    omega
  have hlow := Nat.mod_lt a.start (Nat.two_pow_pos 45)
  have hsplit := Nat.div_add_mod a.start (2 ^ 45)
  have hdiv : (2 ^ 45 * (a.start / 2 ^ 45)) / 2 ^ 45 = a.start / 2 ^ 45 :=
    Nat.mul_div_cancel_left _ (Nat.two_pow_pos 45)
  have h45 : a.start % 2 ^ 45 = 0 := by
    have hx : (2 ^ 45 * (a.start / 2 ^ 45)) ^^^ a.start = a.start % 2 ^ 45 := by
      rw [xor_of_div_eq hdiv, Nat.mul_mod_right, Nat.zero_xor]
    have hle := hbelow (2 ^ 45 * (a.start / 2 ^ 45)) (by omega) (by omega)
    omega
  rw [hk]
  by_contra hne
  have hodd : a.start / 2 ^ 45 % 2 = 1 := by omega
  have hdiv' : (a.start - 2 ^ 45) / 2 ^ 46 = a.start / 2 ^ 46 := by omega
  have hx : (a.start - 2 ^ 45) ^^^ a.start = 2 ^ 45 := by
    rw [xor_of_div_eq hdiv', show (a.start - 2 ^ 45) % 2 ^ 46 = 0 by omega,
      show a.start % 2 ^ 46 = 2 ^ 45 by omega, Nat.zero_xor]
  have hle := hbelow (a.start - 2 ^ 45) (by omega) (by omega)
  omega

/-- `mmap` fails or returns a region of `len` bytes inside the address space. -/
def Maps (len : ℕ) (r : Option ℕ) : Prop := ∀ p, r = some p → 0 < p ∧ p + len ≤ kWord

/-- Both paths of `Init` leave an arena that starts on a multiple of the alignment. -/
theorem init_spec {size alignment : ℕ} {guided plain : Option ℕ} (ha : 0 < alignment)
    (hs : 0 < size) (hg : Maps size guided) (hp : Maps (size + alignment) plain)
    (h : init size alignment guided plain = some a) :
    a.start % alignment = 0 ∧ 0 < a.start ∧ a.start + size ≤ kWord ∧ a.len = size ∧
      a.fin = (a.start + size) % kWord ∧ a.current = a.start := by
  simp only [init] at h
  split at h
  · next hne =>
    obtain rfl := (Option.some.inj h).symm
    have hguided : guided = some alignment := by
      unfold systemMmapGuided at hne
      split at hne
      · exact absurd rfl hne
      · next p =>
        by_cases hpa : alignment = p
        · rw [hpa]
        · simp [hpa] at hne
    have hstart : systemMmapGuided alignment guided = alignment := by
      simp [systemMmapGuided, hguided]
    simp only [hstart]
    exact ⟨Nat.mod_self _,ha,(hg _ hguided).2,trivial,trivial,trivial⟩
  · split at h
    · cases h
    · next hne =>
      obtain rfl := (Option.some.inj h).symm
      obtain ⟨p,rfl⟩ : ∃ p, plain = some p := by
        cases plain with
        | none => exact absurd rfl hne
        | some p => exact ⟨p,rfl⟩
      obtain ⟨hp0,hpw⟩ := hp p rfl
      have hlt := Nat.mod_lt p ha
      have hle := Nat.mod_le p alignment
      have hround : (p + (alignment - p % alignment)) % kWord = p - p % alignment + alignment := by
        rw [Nat.mod_eq_of_lt (by omega)]
        omega
      simp only [systemMmap, Option.getD_some, hround]
      refine ⟨?_,by omega,by omega,trivial,trivial,trivial⟩
      have hd : alignment ∣ p - p % alignment := Nat.dvd_sub_mod p
      rw [Nat.add_mod_right]
      exact Nat.mod_eq_zero_of_dvd hd

end Arena

namespace Glue

/-- `free` and `realloc` send every pointer to the part of the allocator it comes from, for
an image `g` whose object space is that of `a` after any number of span allocations. -/
structure Dispatches (a : Arena) : Prop where
  exact : a.ContainsExact
  span : ∀ (g : Image) (link s : ℕ) (rest : Arena), g.objectSpace.start = a.start →
    g.objectSpace.len = a.len → g.objectSpace.fin = a.fin → a.start ≤ g.objectSpace.current →
    g.objectSpace.allocateVirtualSpan = some (s,rest) →
    ∀ p, s ≤ p → p < s + kVirtualSpanSize →
      free { g with objectSpace := rest } link p =
        (let addr := freedAddress kIntFast32Linux g.seenMemalign g.mem (fromObject p)
          (g.sizeClass (fromObject p)) p
        some (store g.mem addr 8 link,[.block addr])) ∧
      oldSize { g with objectSpace := rest } p = some (classToSize (g.sizeClass (fromObject p)))
  null : ∀ (g : Image) (link : ℕ), g.objectSpace.start = a.start → g.objectSpace.len = a.len →
    free g link 0 = some (g.mem,[])
  large : ∀ (g : Image) (link p : ℕ), g.objectSpace.start = a.start →
    g.objectSpace.len = a.len → 0 < p → p < kWord → p < a.start ∨ a.start + a.len ≤ p →
      free g link p = (LargeObject.free g.mem p).map (fun r => (g.mem,[.unmap r.1 r.2])) ∧
      oldSize g p = LargeObject.payloadSize g.mem p

variable {a : Arena}

theorem dispatches_of_containsExact (h : a.ContainsExact) (hpos : 0 < a.start)
    (hword : a.start + a.len ≤ kWord) (hfin : a.fin = (a.start + a.len) % kWord) :
    Dispatches a := by
  have hcontains : ∀ b : Arena, b.start = a.start → b.len = a.len → ∀ p < kWord,
      (b.contains p = true ↔ a.start ≤ p ∧ p < a.start + a.len) := by
    intro b hs hl p hp
    rw [← h p hp, Arena.contains, Arena.contains, hs, hl]
  refine ⟨h,?_,?_,?_⟩
  · intro g link s rest hs hl hf hc halloc p h1 h2
    obtain ⟨rfl,hlt,rfl⟩ := Arena.allocate_eq_some halloc
    have hle : a.fin ≤ a.start + a.len := by
      rw [hfin]
      exact Nat.mod_le _ _
    rw [hf] at hlt
    have hin := (hcontains { g.objectSpace with
      current := g.objectSpace.current + kVirtualSpanSize } hs hl p (by omega)).mpr ⟨by omega,by omega⟩
    exact ⟨by simp only [free, hin, if_true],by simp only [oldSize, hin, if_true]⟩
  · intro g link hs hl
    have hout : ¬ g.objectSpace.contains 0 = true := by
      rw [hcontains _ hs hl 0 kWord_pos]
      omega
    simp only [free, hout, if_true, Bool.false_eq_true, if_false]
  · intro g link p hs hl hp0 hpw hr
    have hout : ¬ g.objectSpace.contains p = true := by
      rw [hcontains _ hs hl p hpw]
      omega
    exact ⟨by simp only [free, hout, hp0.ne', Bool.false_eq_true, if_false],
      by simp only [oldSize, hout, Bool.false_eq_true, if_false]⟩

/-- The object space dispatches correctly exactly if it starts on a multiple of 64 TiB. -/
theorem dispatches_iff {guided plain : Option ℕ} (hg : Arena.Maps kObjectSpaceSize guided)
    (hp : Arena.Maps (kObjectSpaceSize + kObjectSpaceSize) plain)
    (h : Arena.init kObjectSpaceSize kObjectSpaceSize guided plain = some a) :
    Dispatches a ↔ a.start % kObjectSpaceAlignment = 0 := by
  obtain ⟨_,hpos,hword,hlen,hfin,_⟩ := Arena.init_spec (by decide) (by decide) hg hp h
  have hsize : 0 < kObjectSpaceSize := by decide
  constructor
  · intro hd
    refine Arena.aligned_of_containsExact ?_ (by omega) hd.exact
    rw [hlen]
    decide
  · intro ha
    refine dispatches_of_containsExact (Arena.containsExact_of_aligned ?_ ha) hpos ?_ ?_
    · rw [hlen]
      decide
    · rw [hlen]
      exact hword
    · rw [hlen]
      exact hfin

/-- An arena that starts at 2240 TiB, the first common multiple. -/
theorem dispatches_commonMultiple : ∃ a,
    Arena.init kObjectSpaceSize kObjectSpaceSize none (some (2239 * kTera)) = some a ∧
    a.start = 2240 * kTera ∧ Dispatches a := by
  refine ⟨_,rfl,by decide,(@dispatches_iff _ none (some (2239 * kTera)) ?_ ?_ rfl).mpr (by decide)⟩
  · intro p hp
    cases hp
  · intro p hp
    obtain rfl := Option.some.inj hp
    exact ⟨by decide,by decide⟩

/-- The arena at its hint: 33 TiB passes the check, and 64 TiB does not. -/
theorem not_dispatches_hint : ¬ ∀ guided plain a, Arena.Maps kObjectSpaceSize guided →
    Arena.Maps (kObjectSpaceSize + kObjectSpaceSize) plain →
    Arena.init kObjectSpaceSize kObjectSpaceSize guided plain = some a → Dispatches a := by
  intro hall
  have hd := hall (some kObjectSpaceSize) none _ (by
    intro p hp
    obtain rfl := Option.some.inj hp
    exact ⟨by decide,by decide⟩) (by
    intro p hp
    cases hp) rfl
  have h64 := (hd.exact (64 * kTera) (by decide)).mpr (by decide)
  exact absurd h64 (by decide)

end Glue
end Scalloc
