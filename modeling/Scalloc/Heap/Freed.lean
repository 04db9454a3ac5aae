import Scalloc.Heap.Moves

/-! # A free on the board

Where the span of a freed object is before the call decides what the call does to it.
-/
namespace Scalloc
open Epoch

namespace Board
variable {percent : ℕ} {B : Board} {s a b : ℕ} {id : CoreId} {w : Place} {old : Mark}

/-- The owner of a placed span is not gone. -/
theorem Inv.not_gone (h : Inv percent B) {c : ℕ} {owner : CoreId} (hc : B.Live c)
    (ho : owner = B.ids c) : ¬ B.Gone owner := by
  have hv := h.coreId c hc
  rintro (hg | hg)
  · rw [ho, hv] at hg
    exact hc hg
  · rw [ho, hv] at hg
    exact hg rfl

theorem live_of_not_gone {owner : CoreId} (h : ¬ B.Gone owner) :
    B.Live owner.value ∧ owner = B.ids owner.value := by
  simp only [Gone, not_or, not_not] at h
  exact h

/-- A span keeps its place when it is revived. -/
theorem Inv.revive (h : Inv percent B) (hk : B.known s) (hat : B.At percent s w)
    (hw : ∀ a b, w ≠ .pooled a b) :
    Inv percent (B.revive s id) ∧ (B.revive s id).At percent s w := by
  unfold Board.revive
  split
  · next hgone =>
    cases w with
    | hot c sc => exact absurd hgone (h.not_gone hat.allowed.1 hat.allowed.2.2.1)
    | linked c sc => exact absurd hgone (h.not_gone hat.allowed.1 hat.allowed.2.2.1)
    | pooled a b => exact absurd rfl (hw a b)
    | loose => exact h.takeOver hk hat
  · exact ⟨h,hat⟩

theorem Inv.discard (h : Inv percent B) (hk : B.known s) (hat : B.At percent s w)
    (hw : w = .loose ∨ ∃ c sc, w = .linked c sc) :
    Inv percent (B.discard s a b) ∧ (B.discard s a b).At percent s (.pooled a b) := by
  unfold Board.discard
  rw [hat.link]
  rcases hw with rfl | ⟨c,sc,rfl⟩
  · exact h.toPool hk hat
  · obtain ⟨h1,h2⟩ := h.unlink hk hat
    exact h1.toPool (by exact hk) h2

/-- What `settle` makes of a span at place `w` that had mark `old` before the call. -/
inductive Settled (percent : ℕ) (B : Board) (old : Mark) (s a b : ℕ) (w : Place) :
    Board → Place → Prop
  | hot (hold : old = .hot ∨ old = .full) : Settled percent B old s a b w B w
  | pooled (hold : (B.card s).mark = old) (hw : w = .loose ∨ ∃ c sc, w = .linked c sc)
    (hf : (B.card s).free = classToObjects (B.card s).sizeClass) :
    Settled percent B old s a b w (B.discard s a b) (.pooled a b)
  | linked (hold : old = .floating)
    (hf : (B.card s).free ≠ classToObjects (B.card s).sizeClass)
    (ht : (classToReuseThreshold percent (B.card s).sizeClass : ℤ) < (B.card s).free) :
    Settled percent B old s a b w (B.relink (B.card s).owner.value (B.card s).sizeClass s)
      (.linked (B.card s).owner.value (B.card s).sizeClass)
  | kept (hold : old = .floating ∨ old = .reusable)
    (hf : (B.card s).free = classToObjects (B.card s).sizeClass → (B.card s).mark ≠ old)
    (ht : (classToReuseThreshold percent (B.card s).sizeClass : ℤ) < (B.card s).free →
      (B.card s).free = classToObjects (B.card s).sizeClass ∨ old = .reusable) :
    Settled percent B old s a b w B w

/-- `settle` keeps the board in order and leaves the span at one of these places. -/
theorem Inv.settle (h : Inv percent B) (hk : B.known s) (hat : B.At percent s w)
    (hw : ∀ a b, w ≠ .pooled a b)
    (hold : old = .hot ∨ old = .full ↔ ∃ c sc, w = .hot c sc)
    (hlinked : ∀ c sc, w = .linked c sc → old = .reusable)
    (howner : ¬ B.Gone (B.card s).owner) :
    Inv percent (B.settle percent old s a b) ∧ ∃ w',
      Settled percent B old s a b w (B.settle percent old s a b) w' ∧
        (B.settle percent old s a b).At percent s w' := by
  by_cases hhot : old = .hot ∨ old = .full
  · have heq : B.settle percent old s a b = B := by simp only [Board.settle, hhot, if_true]
    rw [heq]
    exact ⟨h,w,.hot hhot,hat⟩
  · have hplace : w = .loose ∨ ∃ c sc, w = .linked c sc := by
      cases w with
      | hot c sc => exact absurd (hold.mpr ⟨c,sc,rfl⟩) hhot
      | linked c sc => exact .inr ⟨c,sc,rfl⟩
      | pooled a b => exact absurd rfl (hw a b)
      | loose => exact .inl rfl
    have hold' : old = .floating ∨ old = .reusable := by
      cases old <;> simp at hhot ⊢
    by_cases hf : (B.card s).free = classToObjects (B.card s).sizeClass
    · by_cases hm : (B.card s).mark = old
      · have heq : B.settle percent old s a b = B.discard s a b := by
          simp only [Board.settle, hhot, hf, hm, if_true, if_false]
        rw [heq]
        obtain ⟨h1,h2⟩ := h.discard (a := a) (b := b) hk hat hplace
        exact ⟨h1,_,.pooled hm hplace hf,h2⟩
      · have heq : B.settle percent old s a b = B := by
          simp only [Board.settle, hhot, hf, hm, if_true, if_false]
        rw [heq]
        exact ⟨h,w,.kept hold' (fun _ => hm) (fun _ => .inl hf),hat⟩
    · by_cases ht : (classToReuseThreshold percent (B.card s).sizeClass : ℤ) < (B.card s).free ∧
          old ≠ .reusable
      · have heq : B.settle percent old s a b =
            B.relink (B.card s).owner.value (B.card s).sizeClass s := by
          simp only [Board.settle]
          rw [if_neg hhot, if_neg hf, if_pos ht]
        rw [heq]
        obtain ⟨hl,ho⟩ := live_of_not_gone howner
        rcases hplace with rfl | ⟨c,sc,rfl⟩
        · obtain ⟨h1,h2⟩ := h.relink hk hat hl rfl ho ht.1
          exact ⟨h1,_,.linked (hold'.resolve_right ht.2) hf ht.1,h2⟩
        · exact absurd (hlinked c sc rfl) ht.2
      · have heq : B.settle percent old s a b = B := by
          simp only [Board.settle]
          rw [if_neg hhot, if_neg hf, if_neg ht]
        rw [heq]
        refine ⟨h,w,.kept hold' (fun he => absurd he hf) (fun hlt => ?_),hat⟩
        by_contra hne
        exact ht ⟨hlt,fun hr => hne (.inr hr)⟩

/-- The marks of the spans outside the pool tell whether they are hot. -/
theorem At.mark_hot_or_full (hat : B.At percent s w) (hw : ∀ a b, w ≠ .pooled a b) :
    (B.card s).mark = .hot ∨ (B.card s).mark = .full ↔ ∃ c sc, w = .hot c sc := by
  have ha := hat.allowed
  cases w with
  | hot c sc => simpa using ha.2.2.2
  | linked c sc => simp [ha.2.2.2.1]
  | pooled a b => exact absurd rfl (hw a b)
  | loose =>
    rcases ha with ha | ⟨ha,_⟩ <;> simp [ha]

/-- Only floating and reusable spans have owners that are gone. -/
theorem At.mark_or_not_gone (hat : B.At percent s w) (h : Inv percent B)
    (hw : ∀ a b, w ≠ .pooled a b) :
    (B.card s).mark = .floating ∨ (B.card s).mark = .reusable ∨ ¬ B.Gone (B.card s).owner := by
  have ha := hat.allowed
  cases w with
  | hot c sc => exact .inr (.inr (h.not_gone ha.1 ha.2.2.1))
  | linked c sc => exact .inr (.inl ha.2.2.2.1)
  | pooled a b => exact absurd rfl (hw a b)
  | loose =>
    rcases ha with ha | ⟨ha,_⟩
    · exact .inl ha
    · exact .inr (.inl ha)

theorem not_gone_revive (hid : ¬ B.Gone id) :
    ¬ (B.revive s id).Gone ((B.revive s id).card s).owner := by
  unfold Board.revive
  split
  · simpa [takeOver, setCard, Gone] using hid
  · next hg => exact hg

/-- The span with one more free object, before it is settled. -/
theorem Inv.taken (h : Inv percent B) (id : CoreId) (hk : B.known s) (hat : B.At percent s w)
    (hw : ∀ a b, w ≠ .pooled a b) :
    Inv percent ((B.setFree s ((B.card s).free + 1)).revive s id) ∧
      ((B.setFree s ((B.card s).free + 1)).revive s id).At percent s w := by
  have hreuse : (B.card s).mark = .reusable →
      (classToReuseThreshold percent (B.card s).sizeClass : ℤ) < (B.card s).free + 1 := by
    intro hm
    have ha := hat.allowed
    cases w with
    | hot c sc => simp [Place.Allows, hm] at ha
    | linked c sc =>
      obtain ⟨_,rfl,_,_,hf⟩ := ha
      omega
    | pooled a b => exact absurd rfl (hw a b)
    | loose =>
      rcases ha with ha | ⟨_,hf⟩
      · simp [hm] at ha
      · omega
  obtain ⟨h1,hat1⟩ := h.setFree hk hat hreuse
  exact h1.revive (by exact hk) hat1 hw

/-- The card of the span before it is settled. -/
theorem taken_card (B : Board) (s : ℕ) (id : CoreId) :
    ((B.setFree s ((B.card s).free + 1)).revive s id).card s =
      if B.Gone (B.card s).owner then
        { B.card s with free := (B.card s).free + 1, owner := id, mark := .floating }
      else { B.card s with free := (B.card s).free + 1 } := by
  have howner : ((B.setFree s ((B.card s).free + 1)).card s).owner = (B.card s).owner := by
    simp [Board.setFree, setCard]
  have hgone : (B.setFree s ((B.card s).free + 1)).Gone (B.card s).owner ↔
      B.Gone (B.card s).owner := Iff.rfl
  simp only [Board.revive, howner, hgone]
  split
  · simp [takeOver, Board.setFree, setCard]
  · simp [Board.setFree, setCard]

/-- A free keeps the board in order; its outcome is that of `settle` on the span with one
more free object, taken over if its owner is gone. -/
theorem Inv.freed (h : Inv percent B) (hk : B.known s) (hat : B.At percent s w)
    (hw : ∀ a b, w ≠ .pooled a b) (hid : ¬ B.Gone id) :
    Inv percent (B.freed percent s id a b) ∧ ∃ w',
      Settled percent ((B.setFree s ((B.card s).free + 1)).revive s id) (B.card s).mark s a b w
        (B.freed percent s id a b) w' ∧ (B.freed percent s id a b).At percent s w' := by
  obtain ⟨h2,hat2⟩ := h.taken id hk hat hw
  have hk2 : ((B.setFree s ((B.card s).free + 1)).revive s id).known s := by
    unfold Board.revive
    split <;> exact hk
  refine h2.settle hk2 hat2 hw (hat.mark_hot_or_full hw) ?_ (not_gone_revive hid)
  rintro c sc rfl
  exact hat.allowed.2.2.2.1

/-- Without the cleanup a span stays where it is or enters the deque of its owner. -/
theorem Inv.settleKept (h : Inv percent B) (hk : B.known s) (hat : B.At percent s w)
    (hw : ∀ a b, w ≠ .pooled a b)
    (hold : old = .hot ∨ old = .full ↔ ∃ c sc, w = .hot c sc)
    (hlinked : ∀ c sc, w = .linked c sc → old = .reusable)
    (howner : ¬ B.Gone (B.card s).owner) : Inv percent (B.settleKept percent old s) := by
  unfold Board.settleKept
  dsimp only
  split
  · exact h
  · next hhot =>
    split
    · next ht =>
      obtain ⟨hl,ho⟩ := live_of_not_gone howner
      cases w with
      | hot c sc => exact absurd (hold.mpr ⟨c,sc,rfl⟩) hhot
      | linked c sc => exact absurd (hlinked c sc rfl) ht.2
      | pooled a b => exact absurd rfl (hw a b)
      | loose => exact (h.relink hk hat hl rfl ho ht.1).1
    · exact h

/-- A free keeps the board in order in either build. -/
theorem Inv.freedIn (clean : Bool) (h : Inv percent B) (hk : B.known s) (hat : B.At percent s w)
    (hw : ∀ a b, w ≠ .pooled a b) (hid : ¬ B.Gone id) :
    Inv percent (B.freedIn clean percent s id a b) := by
  cases clean with
  | true => exact (h.freed hk hat hw hid).1
  | false =>
    obtain ⟨h2,hat2⟩ := h.taken id hk hat hw
    have hk2 : ((B.setFree s ((B.card s).free + 1)).revive s id).known s := by
      unfold Board.revive
      split <;> exact hk
    refine h2.settleKept hk2 hat2 hw (hat.mark_hot_or_full hw) ?_ (not_gone_revive hid)
    rintro c sc rfl
    exact hat.allowed.2.2.2.1

/-- Only a span without live objects enters the pool. -/
theorem settle_pool (h : (B.card s).free ≠ classToObjects (B.card s).sizeClass) :
    (B.settle percent old s a b).pool = B.pool := by
  unfold Board.settle
  dsimp only
  rw [if_neg h]
  split
  · rfl
  · split <;> rfl

theorem settleIn_pool (clean : Bool) (h : (B.card s).free ≠ classToObjects (B.card s).sizeClass) :
    (B.settleIn clean percent old s a b).pool = B.pool := by
  cases clean with
  | true => exact settle_pool h
  | false =>
    change (B.settleKept percent old s).pool = B.pool
    unfold Board.settleKept
    dsimp only
    split
    · rfl
    · split <;> rfl

@[simp] theorem revive_pool : (B.revive s id).pool = B.pool := by
  unfold Board.revive
  split <;> rfl

@[simp] theorem revive_free : ((B.revive s id).card s).free = (B.card s).free := by
  unfold Board.revive
  split
  · simp [takeOver, setCard]
  · rfl

@[simp] theorem revive_sizeClass : ((B.revive s id).card s).sizeClass = (B.card s).sizeClass := by
  unfold Board.revive
  split
  · simp [takeOver, setCard]
  · rfl

/-- `B'` differs from `B` in the card of `s`, in the deques and in the pool. -/
structure Touches (B B' : Board) (s : ℕ) : Prop where
  known : B'.known = B.known
  ids : B'.ids = B.ids
  hot : B'.hot = B.hot
  card : ∀ x, x ≠ s → B'.card x = B.card x
  sizeClass : (B'.card s).sizeClass = (B.card s).sizeClass

theorem Touches.refl (B : Board) (s : ℕ) : Touches B B s := ⟨rfl,rfl,rfl,fun _ _ => rfl,rfl⟩

theorem Touches.trans {B B' B'' : Board} (h : Touches B B' s) (h' : Touches B' B'' s) :
    Touches B B'' s :=
  ⟨h'.known.trans h.known,h'.ids.trans h.ids,h'.hot.trans h.hot,
    fun x hx => (h'.card x hx).trans (h.card x hx),h'.sizeClass.trans h.sizeClass⟩

theorem touches_of_card {B' : Board} {y : Card} (hk : B'.known = B.known) (hi : B'.ids = B.ids)
    (hh : B'.hot = B.hot) (hc : B'.card = Function.update B.card s y)
    (hy : y.sizeClass = (B.card s).sizeClass) : Touches B B' s := by
  refine ⟨hk,hi,hh,fun x hx => ?_,?_⟩
  · rw [hc, Function.update_of_ne hx]
  · rw [hc, Function.update_self, hy]

theorem touches_revive (B : Board) (s : ℕ) (id : CoreId) : Touches B (B.revive s id) s := by
  unfold Board.revive
  split
  · exact touches_of_card rfl rfl rfl rfl rfl
  · exact .refl B s

theorem touches_discard (B : Board) (s a b : ℕ) : Touches B (B.discard s a b) s := by
  unfold Board.discard
  split
  · next c sc _ =>
    have h1 : Touches B (B.unlink c sc s) s := touches_of_card rfl rfl rfl rfl rfl
    exact h1.trans (touches_of_card rfl rfl rfl rfl rfl)
  · exact touches_of_card rfl rfl rfl rfl rfl

theorem touches_settle (B : Board) (old : Mark) (s a b : ℕ) :
    Touches B (B.settle percent old s a b) s := by
  unfold Board.settle
  dsimp only
  split
  · exact .refl B s
  · split
    · split
      · exact touches_discard B s a b
      · exact .refl B s
    · split
      · exact touches_of_card rfl rfl rfl rfl rfl
      · exact .refl B s

theorem touches_settleIn (clean : Bool) (B : Board) (old : Mark) (s a b : ℕ) :
    Touches B (B.settleIn clean percent old s a b) s := by
  cases clean with
  | true => exact touches_settle B old s a b
  | false =>
    change Touches B (B.settleKept percent old s) s
    unfold Board.settleKept
    dsimp only
    split
    · exact .refl B s
    · split
      · exact touches_of_card rfl rfl rfl rfl rfl
      · exact .refl B s

/-- A free touches the span of the freed object only. -/
theorem touches_freedIn (clean : Bool) (percent : ℕ) (B : Board) (s : ℕ) (id : CoreId) (a b : ℕ) :
    Touches B (B.freedIn clean percent s id a b) s := by
  have h1 : Touches B (B.setFree s ((B.card s).free + 1)) s := touches_of_card rfl rfl rfl rfl rfl
  exact (h1.trans (touches_revive _ s id)).trans (touches_settleIn clean _ _ s a b)

theorem touches_freed (percent : ℕ) (B : Board) (s : ℕ) (id : CoreId) (a b : ℕ) :
    Touches B (B.freed percent s id a b) s :=
  touches_freedIn true percent B s id a b

end Board
end Scalloc
