import Scalloc.Heap.System
import Scalloc.Heap.Cores
import Scalloc.Span.Conservation

/-! # The board of a heap

The board reads marks, links and counts off the headers. The invariant of a heap joins
the order of its board with the places of the slots of every span that is not in the
pool. The hot slots are a parameter: inside `GetSpan` the slot that is about to be
filled counts as empty.
-/
namespace Scalloc
open ByteMemory Epoch

def Span.card (x : Span) : Card := ⟨mark x.epoch,x.owner,x.sizeClass,x.spanLink,x.nrFreeObjects⟩

theorem Deque.noNull_iff {d : Deque} : d.noNull = true ↔ 0 ∉ d.nodes := by
  simp [Deque.noNull]

namespace Heap

theorem scallocAssert_true (cfg : Config) (a : Assertion) {b : Bool} (hb : b = true) :
    scallocAssert cfg a b = .ok () := by
  rw [hb, scallocAssert, Bool.not_true, Bool.and_false, if_neg Bool.false_ne_true]

/-- The spans handed out by the arena. -/
def Known (h : Heap) (s : ℕ) : Prop :=
  h.objectSpace.start ≤ s ∧ s < h.objectSpace.current ∧ s % kVirtualSpanSize = 0

def hot (h : Heap) : ℕ → ℕ → ℕ := fun c sc => (h.cores c).hotSpan sc

def board (h : Heap) (hot : ℕ → ℕ → ℕ) : Board where
  known := h.Known
  card := fun s => (h.spans s).card
  ids := fun c => (h.cores c).id
  deque := h.deque
  hot := hot
  pool := h.pool.spans

section Board
variable (h : Heap) (hot : ℕ → ℕ → ℕ)

theorem board_setSpan (s : ℕ) (x : Span) :
    (h.setSpan s x).board hot = (h.board hot).setCard s x.card := by
  have hcard : (fun s' => ((h.setSpan s x).spans s').card) =
      Function.update (fun s' => (h.spans s').card) s x.card := by
    funext s'
    by_cases hs : s' = s <;> simp [setSpan, hs]
  simp only [board, hcard]
  rfl

theorem board_setEpoch (s : ℕ) (k : BitVec 28) (m : Mark) :
    (h.setEpoch s (encode k m)).board hot =
      (h.board hot).setCard s { (h.board hot).card s with mark := m } := by
  have hcard : Span.card { h.spans s with epoch := encode k m } =
      { (h.spans s).card with mark := m } := by
    rw [Span.card, mark_encode]
    rfl
  rw [setEpoch, board_setSpan, hcard]
  rfl

theorem board_setLink (s : ℕ) (l : Option (ℕ × ℕ)) :
    (h.setLink s l).board hot = (h.board hot).setCard s { (h.board hot).card s with link := l } := by
  rw [setLink, board_setSpan]
  rfl

theorem ids_setCore (c : ℕ) (x : Core) :
    (fun c' => ((h.setCore c x).cores c').id) = Function.update (fun c' => (h.cores c').id) c x.id := by
  funext c'
  by_cases hc : c' = c <;> simp [setCore, hc]

theorem deque_setDeque (c sc : ℕ) (d : Deque) :
    (h.setDeque c sc d).deque = update₂ h.deque c sc d := by
  funext c' sc'
  by_cases hc : c' = c
  · subst hc
    by_cases hsc : sc' = sc <;> simp [setDeque, setCore, deque, update₂, hsc]
  · simp [setDeque, setCore, deque, update₂, hc]

theorem board_setDeque (c sc : ℕ) (d : Deque) :
    (h.setDeque c sc d).board hot = { h.board hot with deque := update₂ h.deque c sc d } := by
  simp only [board, deque_setDeque]
  rw [setDeque, ids_setCore, Function.update_eq_self]
  rfl

theorem board_setHot (c sc s : ℕ) : (h.setHot c sc s).board hot = h.board hot := by
  have hdeque : (h.setHot c sc s).deque = h.deque := by
    funext c' sc'
    by_cases hc : c' = c <;> simp [setHot, setCore, deque, hc]
  simp only [board, hdeque]
  rw [setHot, ids_setCore, Function.update_eq_self]
  rfl

theorem hot_setHot (c sc s : ℕ) : (h.setHot c sc s).hot = update₂ h.hot c sc s := by
  funext c' sc'
  simp only [Heap.hot, setHot, setCore, update₂]
  by_cases hc : c' = c
  · subst hc
    by_cases hsc : sc' = sc <;> simp [hsc]
  · simp [hc]

end Board

/-- Nothing happened to the threads, to the ids of their cores and to the number of
backends of the span pool. -/
structure SameThreads (h h' : Heap) : Prop where
  ids : ∀ c, (h'.cores c).id = (h.cores c).id
  tls : h'.tls = h.tls
  freeAbs : h'.freeAbs = h.freeAbs
  coreSpace : h'.coreSpace = h.coreSpace
  backends : h'.pool.limit = h.pool.limit ∧ h'.pool.currentThreads = h.pool.currentThreads

theorem SameThreads.refl (h : Heap) : SameThreads h h :=
  ⟨fun _ => rfl,rfl,rfl,rfl,⟨rfl,rfl⟩⟩

theorem SameThreads.trans {h h' h'' : Heap} (h1 : SameThreads h h') (h2 : SameThreads h' h'') :
    SameThreads h h'' :=
  ⟨fun c => (h2.ids c).trans (h1.ids c),h2.tls.trans h1.tls,h2.freeAbs.trans h1.freeAbs,
    h2.coreSpace.trans h1.coreSpace,⟨h2.backends.1.trans h1.backends.1,
    h2.backends.2.trans h1.backends.2⟩⟩

theorem sameThreads_setDeque (h : Heap) (c sc : ℕ) (d : Deque) :
    SameThreads h (h.setDeque c sc d) := by
  refine ⟨fun c' => ?_,rfl,rfl,rfl,⟨rfl,rfl⟩⟩
  by_cases hc : c' = c <;> simp [setDeque, setCore, hc]

theorem sameThreads_setHot (h : Heap) (c sc s : ℕ) : SameThreads h (h.setHot c sc s) := by
  refine ⟨fun c' => ?_,rfl,rfl,rfl,⟨rfl,rfl⟩⟩
  by_cases hc : c' = c <;> simp [setHot, setCore, hc]

/-- The object space: aligned, past the null pointer and inside the address space. -/
structure ArenaInv (a : Arena) : Prop where
  start_pos : 0 < a.start
  start_aligned : a.start % kVirtualSpanSize = 0
  current_aligned : a.current % kVirtualSpanSize = 0
  start_le : a.start ≤ a.current
  current_le : a.current ≤ a.fin
  fin_le : a.fin ≤ kWord

/-- The invariant of a heap. `live s` are the blocks of `s` in the hands of the program. -/
structure Inv (percent : ℕ) (h : Heap) (hot : ℕ → ℕ → ℕ) (live : ℕ → List ℕ) : Prop where
  board : (h.board hot).Inv percent
  arena : ArenaInv h.objectSpace
  epoch : ∀ s, Valid (h.spans s).epoch
  fresh : ∀ s, ¬ h.Known s → h.spans s = Span.zero ∧ live s = []
  pooled : ∀ s, h.pool.Holds s → live s = []
  slots : ∀ s, h.Known s → ¬ h.pool.Holds s → ∃ L R j, Slots h.mem s (h.spans s) (live s) L R j

variable {percent : ℕ} {h h' : Heap} {hot hot' : ℕ → ℕ → ℕ} {live live' : ℕ → List ℕ} {s : ℕ}

/-- The links of a deque are never null. -/
theorem noNull_of_inv (hi : (h.board hot).Inv percent) (c sc : ℕ) :
    (h.deque c sc).noNull = true :=
  Deque.noNull_iff.mpr ((hi.absent 0 hi.null).deque c sc)

theorem arenaInv_init (l : Layout) : ArenaInv
    ⟨l.objectStart,l.objectStart + kObjectSpaceSize,kObjectSpaceSize,l.objectStart⟩ := by
  have hd : kVirtualSpanSize ∣ kObjectSpaceSize := by decide
  have hal := Nat.mod_eq_zero_of_dvd (hd.trans (Nat.dvd_of_mod_eq_zero l.objectStart_aligned))
  exact ⟨l.objectStart_pos,hal,hal,le_rfl,Nat.le_add_right _ _,l.object_bounded⟩

theorem ArenaInv.isVirtualSpan {a : Arena} (ha : ArenaInv a)
    (hs : a.start ≤ s ∧ s < a.current ∧ s % kVirtualSpanSize = 0) : IsVirtualSpan s where
  aligned := hs.2.2
  bounded := by
    obtain ⟨h1,h2,h3⟩ := hs
    have hc := ha.current_aligned
    have hf := ha.current_le
    have hw := ha.fin_le
    have hv : kVirtualSpanSize = 2097152 := rfl
    rw [hv] at h3 hc ⊢
    omega

/-- One more virtual span from the arena. -/
theorem ArenaInv.extend {a a' : Arena} (ha : ArenaInv a)
    (halloc : a.allocateVirtualSpan = some (s,a')) :
    ArenaInv a' ∧ s = a.current ∧ ∀ x,
      (a'.start ≤ x ∧ x < a'.current ∧ x % kVirtualSpanSize = 0) ↔
        x = s ∨ a.start ≤ x ∧ x < a.current ∧ x % kVirtualSpanSize = 0 := by
  obtain ⟨rfl,hfit,rfl⟩ := Arena.allocate_eq_some halloc
  obtain ⟨h1,h2,h3,h4,h5,h6⟩ := ha
  have hv : kVirtualSpanSize = 2097152 := rfl
  refine ⟨⟨h1,h2,?_,by dsimp only; omega,by dsimp only; omega,h6⟩,rfl,fun x => ?_⟩
  · dsimp only
    rw [hv] at h3 ⊢
    omega
  · dsimp only
    rw [hv] at h2 h3 ⊢
    omega

/-- Two virtual spans do not overlap. -/
theorem virtualSpans_apart {x y : ℕ} (hx : x % kVirtualSpanSize = 0)
    (hy : y % kVirtualSpanSize = 0) (hne : x ≠ y) :
    x + kVirtualSpanSize ≤ y ∨ y + kVirtualSpanSize ≤ x := by
  have hv : kVirtualSpanSize = 2097152 := rfl
  rw [hv] at hx hy ⊢
  omega

/-- A step that touches the span `s` only. -/
theorem Inv.touch (hi : Inv percent h hot live) (hb : (h'.board hot').Inv percent)
    (harena : ArenaInv h'.objectSpace) (hknown : ∀ x, h'.Known x ↔ x = s ∨ h.Known x)
    (hspans : ∀ x, x ≠ s → h'.spans x = h.spans x ∧ live' x = live x)
    (hmem : SameOutside h.mem h'.mem (headerEnd s) (s + kVirtualSpanSize))
    (hpool : ∀ x, x ≠ s → (h'.pool.Holds x ↔ h.pool.Holds x))
    (hepoch : Valid (h'.spans s).epoch) (hpooled : h'.pool.Holds s → live' s = [])
    (hslots : ¬ h'.pool.Holds s → ∃ L R j, Slots h'.mem s (h'.spans s) (live' s) L R j) :
    Inv percent h' hot' live' where
  board := hb
  arena := harena
  epoch := by
    intro x
    by_cases hx : x = s
    · exact hx ▸ hepoch
    · rw [(hspans x hx).1]
      exact hi.epoch x
  fresh := by
    intro x hx
    rw [hknown, not_or] at hx
    rw [(hspans x hx.1).1, (hspans x hx.1).2]
    exact hi.fresh x hx.2
  pooled := by
    intro x hp
    by_cases hx : x = s
    · exact hx ▸ hpooled (hx ▸ hp)
    · rw [(hspans x hx).2]
      exact hi.pooled x ((hpool x hx).mp hp)
  slots := by
    intro x hk hp
    by_cases hx : x = s
    · subst hx
      exact hslots hp
    · have hkx := ((hknown x).mp hk).resolve_left hx
      have hks := (hknown s).mpr (.inl rfl)
      obtain ⟨L,R,j,hsl⟩ := hi.slots x hkx (fun hp' => hp ((hpool x hx).mpr hp'))
      rw [(hspans x hx).1, (hspans x hx).2]
      refine ⟨L,R,j,hsl.frame (hmem.agreeOn ?_)⟩
      have ha := virtualSpans_apart hk.2.2 hks.2.2 hx
      have hh : ∀ y, y ≤ headerEnd y := fun y => Nat.le_add_right _ _
      have hxh := hh x
      have hsh := hh s
      omega

theorem Inv.isVirtualSpan (hi : Inv percent h hot live) (hs : h.Known s) : IsVirtualSpan s :=
  hi.arena.isVirtualSpan hs

theorem Inv.free_eq (hi : Inv percent h hot live) (hs : h.Known s) (hp : ¬ h.pool.Holds s) :
    (h.spans s).nrFreeObjects = (classToObjects (h.spans s).sizeClass : ℤ) - (live s).length := by
  obtain ⟨L,R,j,hsl⟩ := hi.slots s hs hp
  exact hsl.nrFreeObjects_eq

end Heap
end Scalloc
