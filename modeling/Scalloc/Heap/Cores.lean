import Scalloc.Heap.Moves

/-! # Cores enter and leave the board

A thread that exits gives up its hot spans and its deques at once; a thread that
starts takes a core that no live thread has.
-/
namespace Scalloc
open Epoch

/-- Where a span is after the exit of core `c`. -/
def Place.close (c : ℕ) : Place → Place
  | .hot c' sc => if c' = c then .loose else .hot c' sc
  | .linked c' sc => if c' = c then .loose else .linked c' sc
  | w => w

/-- The card of that span after the exit of core `c`. -/
def Place.closeCard (c : ℕ) (x : Card) : Place → Card
  | .hot c' _ => if c' = c then { x with mark := .floating } else x
  | .linked c' _ => if c' = c then { x with link := none } else x
  | _ => x

theorem Place.closeCard_keeps (c : ℕ) (x : Card) (w : Place) :
    (w.closeCard c x).free = x.free ∧ (w.closeCard c x).sizeClass = x.sizeClass := by
  cases w with
  | hot c' sc => by_cases h : c' = c <;> simp [Place.closeCard, h]
  | linked c' sc => by_cases h : c' = c <;> simp [Place.closeCard, h]
  | pooled a b => exact ⟨rfl,rfl⟩
  | loose => exact ⟨rfl,rfl⟩

namespace Board
variable {percent : ℕ} {B B' : Board} {c : ℕ} {id : CoreId}

/-- `B'` is `B` after the exit of the thread with core `c`. -/
structure Closes (c : ℕ) (B B' : Board) : Prop where
  known : B'.known = B.known
  ids : B'.ids = Function.update B.ids c kTerminated
  pool : B'.pool = B.pool
  hot : ∀ c' sc, B'.hot c' sc = if c' = c then 0 else B.hot c' sc
  nodes : ∀ c' sc, (B'.deque c' sc).nodes = if c' = c then [] else (B.deque c' sc).nodes
  owner : ∀ c' sc, c' ≠ c → (B'.deque c' sc).owner = (B.deque c' sc).owner
  hotCard : ∀ sc, B.hot c sc ≠ 0 →
    B'.card (B.hot c sc) = { B.card (B.hot c sc) with mark := .floating }
  linkedCard : ∀ s sc, s ∈ (B.deque c sc).nodes → B'.card s = { B.card s with link := none }
  otherCard : ∀ s, B.known s → (∀ sc, B.hot c sc ≠ s ∧ s ∉ (B.deque c sc).nodes) →
    B'.card s = B.card s

/-- `B'` is `B` after the start of a thread with core `c`. -/
structure Opens (c : ℕ) (id : CoreId) (B B' : Board) : Prop where
  known : B'.known = B.known
  card : B'.card = B.card
  ids : B'.ids = Function.update B.ids c id
  pool : B'.pool = B.pool
  hot : ∀ c' sc, B'.hot c' sc = if c' = c then 0 else B.hot c' sc
  nodes : ∀ c' sc, (B'.deque c' sc).nodes = if c' = c then [] else (B.deque c' sc).nodes
  owner : ∀ c' sc, c' ≠ c → (B'.deque c' sc).owner = (B.deque c' sc).owner
  opened : ∀ sc, sc < kNumClasses → (B'.deque c sc).owner = id

theorem Inv.live_of_hot {c sc : ℕ} (h : Inv percent B) (hne : B.hot c sc ≠ 0) : B.Live c := by
  obtain ⟨w,hw⟩ := h.placed _ (h.known_of_hot hne)
  obtain rfl := (hw.hot c sc).mp rfl
  exact hw.allowed.1

theorem Inv.live_of_mem {c sc s : ℕ} (h : Inv percent B) (hm : s ∈ (B.deque c sc).nodes) :
    B.Live c := by
  obtain ⟨w,hw⟩ := h.placed s (h.known_of_mem hm)
  obtain rfl := (hw.deque c sc).mp hm
  exact hw.allowed.1

theorem Closes.card {s : ℕ} {w : Place} (hc : Closes c B B') (hs : s ≠ 0) (hk : B.known s)
    (hw : B.At percent s w) : B'.card s = w.closeCard c (B.card s) := by
  have hother : (∀ sc, w ≠ .hot c sc ∧ w ≠ .linked c sc) → B'.card s = B.card s := by
    intro hne
    refine hc.otherCard s hk (fun sc => ⟨fun he => (hne sc).1 ((hw.hot c sc).mp he),fun he => ?_⟩)
    exact (hne sc).2 ((hw.deque c sc).mp he)
  cases w with
  | hot c' sc =>
    by_cases he : c' = c
    · subst he
      have hslot := (hw.hot c' sc).mpr rfl
      have hcard := hc.hotCard sc (hslot ▸ hs)
      rw [hslot] at hcard
      simpa [Place.closeCard] using hcard
    · simpa [Place.closeCard, he] using hother (by simp [he])
  | linked c' sc =>
    by_cases he : c' = c
    · subst he
      simpa [Place.closeCard] using hc.linkedCard s sc ((hw.deque c' sc).mpr rfl)
    · simpa [Place.closeCard, he] using hother (by simp [he])
  | pooled a b => exact hother (by simp)
  | loose => exact hother (by simp)

theorem At.close {s : ℕ} {w : Place} (hc : Closes c B B') (hs : s ≠ 0) (hk : B.known s)
    (hw : B.At percent s w) : B'.At percent s (w.close c) := by
  have hcard := hc.card hs hk hw
  obtain ⟨h1,h2,h3,h4,h5,h6⟩ := hw
  constructor
  · intro c' sc
    rw [hc.hot]
    cases w <;> simp only [Place.close] <;> grind
  · intro c' sc
    rw [hc.nodes]
    cases w <;> simp only [Place.close] <;> grind
  · intro a b
    rw [hc.pool, h3]
    cases w <;> simp only [Place.close] <;> grind
  · rw [hcard]
    cases w <;> simp only [Place.close, Place.closeCard, Place.link] at * <;> grind [Place.link]
  · rw [hcard]
    cases w with
    | hot c' sc =>
      by_cases he : c' = c
      · simp [Place.close, Place.closeCard, Place.Allows, he]
      · simp only [Place.close, Place.closeCard, he, if_false]
        simpa [Place.Allows, Live, hc.ids, he] using h5
    | linked c' sc =>
      by_cases he : c' = c
      · obtain ⟨_,rfl,_,hm,hf⟩ := h5
        simp only [Place.close, Place.closeCard, he, if_true]
        exact .inr ⟨hm,hf⟩
      · simp only [Place.close, Place.closeCard, he, if_false]
        simpa [Place.Allows, Live, hc.ids, he] using h5
    | pooled a b => exact h5
    | loose => exact h5
  · rw [hcard]
    cases w <;> simp only [Place.closeCard] <;> first | exact h6 | split <;> exact h6

theorem Inv.close (h : Inv percent B) (hc : Closes c B B') : Inv percent B' where
  null := by
    rw [hc.known]
    exact h.null
  placed := by
    intro s hs
    rw [hc.known] at hs
    obtain ⟨w,hw⟩ := h.placed s hs
    exact ⟨w.close c,hw.close hc (h.ne_zero hs) hs⟩
  absent := by
    intro s hs
    rw [hc.known] at hs
    obtain ⟨h1,h2,h3⟩ := h.absent s hs
    constructor
    · intro c' sc
      rw [hc.hot]
      grind
    · intro c' sc
      rw [hc.nodes]
      grind
    · rw [hc.pool]
      exact h3
  nodup := by
    intro c' sc
    have := h.nodup c' sc
    rw [hc.nodes]
    grind
  poolNodup := by
    rw [hc.pool]
    exact h.poolNodup
  coreId := by
    intro c' hl
    rw [Live, hc.ids] at hl
    have hne : c' ≠ c := by
      rintro rfl
      simp at hl
    rw [Function.update_of_ne hne] at hl
    rw [hc.ids, Function.update_of_ne hne]
    exact h.coreId c' hl
  dequeOwner := by
    intro c' sc hl hsc
    rw [Live, hc.ids] at hl
    have hne : c' ≠ c := by
      rintro rfl
      simp at hl
    rw [Function.update_of_ne hne] at hl
    rw [hc.owner c' sc hne, hc.ids, Function.update_of_ne hne]
    exact h.dequeOwner c' sc hl hsc

theorem At.open {s : ℕ} {w : Place} (ho : Opens c id B B') (hdead : ¬ B.Live c)
    (hw : B.At percent s w) (hs : s ≠ 0) : B'.At percent s w := by
  obtain ⟨h1,h2,h3,h4,h5,h6⟩ := hw
  have hlive : ∀ c' sc, w = .hot c' sc ∨ w = .linked c' sc → c' ≠ c := by
    rintro c' sc (rfl | rfl) rfl
    · exact hdead h5.1
    · exact hdead h5.1
  constructor
  · intro c' sc
    rw [ho.hot]
    grind
  · intro c' sc
    rw [ho.nodes]
    grind
  · rw [ho.pool]
    exact h3
  · rw [ho.card]
    exact h4
  · rw [ho.card]
    cases w with
    | hot c' sc =>
      have hne := hlive c' sc (.inl rfl)
      simpa [Place.Allows, Live, ho.ids, hne] using h5
    | linked c' sc =>
      have hne := hlive c' sc (.inr rfl)
      simpa [Place.Allows, Live, ho.ids, hne] using h5
    | pooled a b => exact h5
    | loose => exact h5
  · rw [ho.card]
    exact h6

theorem Inv.open (h : Inv percent B) (ho : Opens c id B B') (hdead : ¬ B.Live c)
    (hid : id.value = c) : Inv percent B' where
  null := by
    rw [ho.known]
    exact h.null
  placed := by
    intro s hs
    rw [ho.known] at hs
    obtain ⟨w,hw⟩ := h.placed s hs
    exact ⟨w,hw.open ho hdead (h.ne_zero hs)⟩
  absent := by
    intro s hs
    rw [ho.known] at hs
    obtain ⟨h1,h2,h3⟩ := h.absent s hs
    constructor
    · intro c' sc
      rw [ho.hot]
      grind
    · intro c' sc
      rw [ho.nodes]
      grind
    · rw [ho.pool]
      exact h3
  nodup := by
    intro c' sc
    have := h.nodup c' sc
    rw [ho.nodes]
    grind
  poolNodup := by
    rw [ho.pool]
    exact h.poolNodup
  coreId := by
    intro c' hl
    rw [Live, ho.ids] at hl
    rw [ho.ids]
    by_cases hc : c' = c
    · rw [hc, Function.update_self]
      exact hid
    · rw [Function.update_of_ne hc] at hl ⊢
      exact h.coreId c' hl
  dequeOwner := by
    intro c' sc hl hsc
    rw [Live, ho.ids] at hl
    rw [ho.ids]
    by_cases hc : c' = c
    · rw [hc, Function.update_self]
      exact ho.opened sc hsc
    · rw [Function.update_of_ne hc] at hl ⊢
      rw [ho.owner c' sc hc]
      exact h.dequeOwner c' sc hl hsc

end Board
end Scalloc
