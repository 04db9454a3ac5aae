import Scalloc.Base.Globals

/-! # Arenas

An arena hands out addresses from a bump pointer and never takes them back.
-/
namespace Scalloc

structure Arena where
  start : ℕ
  fin : ℕ
  len : ℕ
  current : ℕ
deriving DecidableEq, Repr

namespace Arena

/-- `Arena::Contains`, an exclusive or and a comparison. -/
def contains (a : Arena) (p : ℕ) : Bool := decide (p ^^^ a.start < a.len)

/-- `Arena::Allocate`; `none` is the fatal "arena OOM". -/
def allocate (a : Arena) (size : ℕ) : Option (ℕ × Arena) :=
  if a.fin ≤ a.current + size then none
  else some (a.current,{ a with current := a.current + size })

def allocateVirtualSpan (a : Arena) : Option (ℕ × Arena) := a.allocate kVirtualSpanSize

/-- `SystemMmapGuided`, where `mmap` at the hint returned `r`; `none` is `MAP_FAILED`. -/
def systemMmapGuided (hint : ℕ) (r : Option ℕ) : ℕ :=
  match r with
  | none => 0
  | some p => if hint ≠ p then 0 else p

/-- `SystemMmap`. -/
def systemMmap (r : Option ℕ) : ℕ := r.getD 0

/-- `Arena::Init`, where `mmap` returned `guided` at the hint and `plain` without one;
`none` is the fatal "initial mmap of arena failed". -/
def init (size alignment : ℕ) (guided plain : Option ℕ) : Option Arena :=
  let start := systemMmapGuided alignment guided
  if start ≠ 0 then some ⟨start,(start + size) % kWord,size,start⟩
  else
    let start := systemMmap plain
    if start = 0 then none
    else
      let start := (start + (alignment - start % alignment)) % kWord
      some ⟨start,(start + size) % kWord,size,start⟩

theorem allocate_eq_some {a a' : Arena} {size p : ℕ} (h : a.allocate size = some (p,a')) :
    p = a.current ∧ a.current + size < a.fin ∧ a' = { a with current := a.current + size } := by
  unfold allocate at h
  split at h
  · cases h
  · next hlt =>
    obtain ⟨rfl,rfl⟩ := Prod.mk.inj (Option.some.inj h)
    exact ⟨rfl,by omega,rfl⟩

end Arena
end Scalloc
