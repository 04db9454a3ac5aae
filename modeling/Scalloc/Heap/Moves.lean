import Scalloc.Heap.Board

/-! # The moves keep the board in order

A move touches one span. For all others the frame lemma applies; for the span itself
its new place is named and checked.
-/
namespace Scalloc
open Epoch

@[simp, grind =] theorem update₂_apply {α : Type*} (f : ℕ → ℕ → α) (a b : ℕ) (v : α) (a' b' : ℕ) :
    update₂ f a b v a' b' = if a' = a ∧ b' = b then v else f a' b' := rfl

namespace Board
variable {percent : ℕ} {B B' : Board} {s : ℕ} {w : Place}

/-- `B'` agrees with `B` on the span `s`. -/
structure SameAt (B B' : Board) (s : ℕ) : Prop where
  card : B'.card s = B.card s
  ids : B'.ids = B.ids
  hot : ∀ c sc, B'.hot c sc = s ↔ B.hot c sc = s
  deque : ∀ c sc, s ∈ (B'.deque c sc).nodes ↔ s ∈ (B.deque c sc).nodes
  pool : ∀ a b, s ∈ B'.pool a b ↔ s ∈ B.pool a b

/-- What a place allows depends on the board only through the ids of the cores. -/
theorem allows_congr (hids : B'.ids = B.ids) (x : Card) :
    w.Allows percent B' x ↔ w.Allows percent B x := by
  cases w <;> simp only [Place.Allows, Live, hids]

theorem At.frame (h : B.At percent s w) (hs : SameAt B B' s) : B'.At percent s w where
  hot := fun c sc => (hs.hot c sc).trans (h.hot c sc)
  deque := fun c sc => (hs.deque c sc).trans (h.deque c sc)
  pool := fun a b => (hs.pool a b).trans (h.pool a b)
  link := by
    rw [hs.card]
    exact h.link
  allowed := by
    rw [hs.card, allows_congr hs.ids]
    exact h.allowed
  objectClass := by
    rw [hs.card]
    exact h.objectClass

theorem Absent.frame (h : B.Absent s) (hs : SameAt B B' s) : B'.Absent s where
  hot := fun c sc hhot => h.hot c sc ((hs.hot c sc).mp hhot)
  deque := fun c sc hmem => h.deque c sc ((hs.deque c sc).mp hmem)
  pool := fun a b hmem => h.pool a b ((hs.pool a b).mp hmem)

theorem Inv.ne_zero (h : Inv percent B) (hk : B.known s) : s ≠ 0 := fun h0 => h.null (h0 ▸ hk)

/-- The lists of a board hold no duplicates and no null pointer. -/
structure Tidy (B : Board) : Prop where
  nodup : ∀ c sc, (B.deque c sc).nodes.Nodup
  poolNodup : ∀ a b, (B.pool a b).Nodup
  deque_zero : ∀ c sc, 0 ∉ (B.deque c sc).nodes
  pool_zero : ∀ a b, 0 ∉ B.pool a b

theorem Inv.tidy (h : Inv percent B) : Tidy B :=
  ⟨h.nodup,h.poolNodup,(h.absent 0 h.null).deque,(h.absent 0 h.null).pool⟩

/-- A move that leaves all spans but `s` where they are. -/
theorem Inv.ofMove (h : Inv percent B) (hs : s ≠ 0) (hknown : ∀ x, B'.known x ↔ x = s ∨ B.known x)
    (hsame : ∀ x, x ≠ 0 → x ≠ s → SameAt B B' x) (hat : B'.At percent s w) (htidy : Tidy B')
    (hids : B'.ids = B.ids)
    (howner : ∀ c sc, (B'.deque c sc).owner = (B.deque c sc).owner) : Inv percent B' where
  null := fun h0 => ((hknown 0).mp h0).elim hs.symm h.null
  placed := by
    intro x hx
    by_cases hxs : x = s
    · exact ⟨w,hxs ▸ hat⟩
    · have hkx := ((hknown x).mp hx).resolve_left hxs
      obtain ⟨w',hw⟩ := h.placed x hkx
      exact ⟨w',hw.frame (hsame x (h.ne_zero hkx) hxs)⟩
  absent := by
    intro x hx
    rw [hknown, not_or] at hx
    by_cases hx0 : x = 0
    · subst hx0
      exact ⟨fun _ _ _ => rfl,htidy.deque_zero,htidy.pool_zero⟩
    · exact (h.absent x hx.2).frame (hsame x hx0 hx.1)
  nodup := htidy.nodup
  poolNodup := htidy.poolNodup
  coreId := by
    simp only [Live, hids]
    exact h.coreId
  dequeOwner := by
    simp only [Live, hids, howner]
    exact h.dequeOwner

theorem Inv.known_of_hot {c sc : ℕ} (h : Inv percent B) (hne : B.hot c sc ≠ 0) :
    B.known (B.hot c sc) := by
  by_contra hk
  exact hne ((h.absent _ hk).hot c sc rfl)

theorem Inv.known_of_mem {c sc : ℕ} (h : Inv percent B) (hm : s ∈ (B.deque c sc).nodes) :
    B.known s := by
  by_contra hk
  exact (h.absent _ hk).deque c sc hm

theorem Inv.known_of_pooled (h : Inv percent B) (hp : B.Pooled s) : B.known s := by
  obtain ⟨a,b,hm⟩ := hp
  by_contra hk
  exact (h.absent _ hk).pool a b hm

theorem Tidy.frame (h : Tidy B) (hd : B'.deque = B.deque) (hp : B'.pool = B.pool) : Tidy B' := by
  obtain ⟨h1,h2,h3,h4⟩ := h
  constructor <;> simpa only [hd, hp]

theorem Inv.setFree {f : ℤ} (h : Inv percent B) (hk : B.known s) (hat : B.At percent s w)
    (hf : (B.card s).mark = .reusable →
      (classToReuseThreshold percent (B.card s).sizeClass : ℤ) < f) :
    Inv percent (B.setFree s f) ∧ (B.setFree s f).At percent s w := by
  obtain ⟨h1,h2,h3,h4,h5,h6⟩ := hat
  have hat : (B.setFree s f).At percent s w := by
    constructor <;> simp only [Board.setFree, setCard, Function.update_self]
    case allowed =>
      cases w <;> simp_all [Place.Allows, Live]
      grind
    all_goals assumption
  refine ⟨h.ofMove (h.ne_zero hk) ?_ ?_ hat (h.tidy.frame rfl rfl) rfl (fun _ _ => rfl),hat⟩
  · simp_all [Board.setFree, setCard]
  · intro x _ hx
    constructor <;> simp [Board.setFree, setCard, hx]

theorem Inv.retire {c sc : ℕ} (h : Inv percent B) (hne : B.hot c sc ≠ 0) :
    Inv percent (B.retire c sc) := by
  obtain ⟨w,h1,h2,h3,h4,h5,h6⟩ := h.placed _ (h.known_of_hot hne)
  obtain rfl := (h1 c sc).mp rfl
  refine h.ofMove (s := B.hot c sc) (w := .loose) hne ?_ ?_ ?_ (h.tidy.frame rfl rfl) rfl
    (fun _ _ => rfl)
  · have hk := h.known_of_hot hne
    simp_all [Board.retire, setCard]
  · intro x hx0 hx
    constructor <;> simp [Board.retire, setCard, hx]
    grind
  · constructor <;> simp only [Board.retire, setCard, Function.update_self]
    case allowed => exact .inl rfl
    case link => exact h4
    case objectClass => exact h6
    all_goals grind

/-- The span at the back of a deque becomes the hot span of its core. -/
theorem Inv.reuse {c sc : ℕ} {l : List ℕ} (h : Inv percent B)
    (hl : (B.deque c sc).nodes = l ++ [s]) (hhot : B.hot c sc = 0) :
    Inv percent (B.reuse c sc s) ∧ (B.card s).sizeClass = sc := by
  have hmem : s ∈ (B.deque c sc).nodes := by simp [hl]
  have hk := h.known_of_mem hmem
  obtain ⟨w,h1,h2,h3,h4,h5,h6⟩ := h.placed s hk
  obtain rfl := (h2 c sc).mp hmem
  obtain ⟨g1,g2,g3,g4,g5⟩ := h5
  have hnodup := h.nodup c sc
  rw [hl] at hnodup
  have hdrop : (B.deque c sc).nodes.dropLast = l := by simp [hl]
  have hs : s ∉ l := fun hm => (List.nodup_append.mp hnodup).2.2 s hm s (by simp) rfl
  refine ⟨h.ofMove (s := s) (w := .hot c sc) (h.ne_zero hk) ?_ ?_ ?_ ?_ rfl ?_,g2⟩
  · simp_all [Board.reuse, setCard]
  · intro x hx0 hx
    constructor <;> simp [Board.reuse, setCard, hx, hdrop] <;> grind
  · constructor <;> simp only [Board.reuse, setCard, Function.update_self, hdrop]
    case allowed => exact ⟨g1,g2,g3,.inl rfl⟩
    case link => rfl
    case objectClass => exact h6
    all_goals grind
  · obtain ⟨t1,t2,t3,t4⟩ := h.tidy
    constructor <;> simp only [Board.reuse, setCard, hdrop]
    all_goals grind
  · intro c' sc'
    simp only [Board.reuse, setCard]
    grind

/-- A span that is new or comes out of the pool becomes hot. -/
theorem Inv.adopt {c sc : ℕ} {m : Mark} {pool : ℕ → ℕ → List ℕ} (h : Inv percent B) (hs : s ≠ 0)
    (hsource : B.known s → B.Pooled s) (hc : B.Live c) (hsc : IsObjectClass sc)
    (hm : m = .hot ∨ m = .full) (hhot : B.hot c sc = 0)
    (hpool : ∀ x a b, x ∈ pool a b ↔ x ≠ s ∧ x ∈ B.pool a b) (hnodup : ∀ a b, (pool a b).Nodup) :
    Inv percent (B.adopt c sc s m pool) := by
  have hfree : ∀ c sc, B.hot c sc ≠ s ∧ s ∉ (B.deque c sc).nodes := by
    intro c sc
    by_cases hk : B.known s
    · obtain ⟨w,h1,h2,h3,_⟩ := h.placed s hk
      obtain ⟨a,b,hp⟩ := hsource hk
      obtain rfl := (h3 a b).mp hp
      rw [ne_eq, h1, h2]
      simp
    · exact ⟨fun he => hs ((h.absent s hk).hot c sc he),(h.absent s hk).deque c sc⟩
  refine h.ofMove (s := s) (w := .hot c sc) hs (fun _ => Iff.rfl) ?_ ?_ ?_ rfl (fun _ _ => rfl)
  · intro x hx0 hx
    constructor <;> simp [Board.adopt, hx, hpool]
    grind
  · constructor <;> simp only [Board.adopt, Function.update_self]
    case allowed => exact ⟨hc,rfl,rfl,hm⟩
    case link => rfl
    case objectClass => exact hsc
    all_goals grind
  · obtain ⟨t1,t2,t3,t4⟩ := h.tidy
    constructor <;> simp only [Board.adopt]
    all_goals grind

theorem Inv.takeOver {id : CoreId} (h : Inv percent B) (hk : B.known s)
    (hat : B.At percent s .loose) :
    Inv percent (B.takeOver s id) ∧ (B.takeOver s id).At percent s .loose := by
  obtain ⟨h1,h2,h3,h4,h5,h6⟩ := hat
  have hat : (B.takeOver s id).At percent s .loose := by
    constructor <;> simp only [Board.takeOver, setCard, Function.update_self]
    case allowed => exact .inl rfl
    all_goals assumption
  refine ⟨h.ofMove (h.ne_zero hk) ?_ ?_ hat (h.tidy.frame rfl rfl) rfl (fun _ _ => rfl),hat⟩
  · simp_all [Board.takeOver, setCard]
  · intro x _ hx
    constructor <;> simp [Board.takeOver, setCard, hx]

theorem Inv.unlink {c sc : ℕ} (h : Inv percent B) (hk : B.known s)
    (hat : B.At percent s (.linked c sc)) :
    Inv percent (B.unlink c sc s) ∧ (B.unlink c sc s).At percent s .loose := by
  obtain ⟨h1,h2,h3,h4,h5,h6⟩ := hat
  obtain ⟨g1,g2,g3,g4,g5⟩ := h5
  have herase : ∀ x, x ∈ (B.deque c sc).nodes.erase s ↔ x ≠ s ∧ x ∈ (B.deque c sc).nodes :=
    fun x => (h.nodup c sc).mem_erase_iff
  have hat : (B.unlink c sc s).At percent s .loose := by
    constructor <;> simp only [Board.unlink, setCard, Function.update_self]
    case allowed => exact .inr ⟨g4,g2 ▸ g5⟩
    case link => rfl
    case objectClass => exact h6
    all_goals grind
  refine ⟨h.ofMove (h.ne_zero hk) ?_ ?_ hat ?_ rfl ?_,hat⟩
  · simp_all [Board.unlink, setCard]
  · intro x _ hx
    constructor <;> simp [Board.unlink, setCard, hx]
    grind
  · obtain ⟨t1,t2,t3,t4⟩ := h.tidy
    constructor <;> simp only [Board.unlink, setCard]
    · intro c' sc'
      have := (t1 c sc).erase s
      grind
    all_goals grind
  · intro c' sc'
    simp only [Board.unlink, setCard]
    grind

theorem Inv.toPool {a b : ℕ} (h : Inv percent B) (hk : B.known s) (hat : B.At percent s .loose) :
    Inv percent (B.toPool s a b) ∧ (B.toPool s a b).At percent s (.pooled a b) := by
  obtain ⟨h1,h2,h3,h4,h5,h6⟩ := hat
  have hat : (B.toPool s a b).At percent s (.pooled a b) := by
    constructor <;> simp only [Board.toPool, setCard, Function.update_self]
    case allowed => exact rfl
    case link => exact h4
    case objectClass => exact h6
    all_goals grind
  refine ⟨h.ofMove (h.ne_zero hk) ?_ ?_ hat ?_ rfl (fun _ _ => rfl),hat⟩
  · simp_all [Board.toPool, setCard]
  · intro x _ hx
    constructor <;> simp [Board.toPool, setCard, hx]
    grind
  · obtain ⟨t1,t2,t3,t4⟩ := h.tidy
    have hs := h.ne_zero hk
    constructor <;> simp only [Board.toPool, setCard]
    all_goals grind

theorem Inv.relink {c sc : ℕ} (h : Inv percent B) (hk : B.known s) (hat : B.At percent s .loose)
    (hc : B.Live c) (hsc : (B.card s).sizeClass = sc) (howner : (B.card s).owner = B.ids c)
    (hf : (classToReuseThreshold percent sc : ℤ) < (B.card s).free) :
    Inv percent (B.relink c sc s) ∧ (B.relink c sc s).At percent s (.linked c sc) := by
  obtain ⟨h1,h2,h3,h4,h5,h6⟩ := hat
  have hat : (B.relink c sc s).At percent s (.linked c sc) := by
    constructor <;> simp only [Board.relink, setCard, Function.update_self]
    case allowed => exact ⟨hc,hsc,howner,rfl,hf⟩
    case link => rfl
    case objectClass => exact h6
    all_goals grind
  refine ⟨h.ofMove (h.ne_zero hk) ?_ ?_ hat ?_ rfl ?_,hat⟩
  · simp_all [Board.relink, setCard]
  · intro x _ hx
    constructor <;> simp [Board.relink, setCard, hx]
    grind
  · obtain ⟨t1,t2,t3,t4⟩ := h.tidy
    have hs := h.ne_zero hk
    constructor <;> simp only [Board.relink, setCard]
    all_goals grind
  · intro c' sc'
    simp only [Board.relink, setCard]
    grind

end Board
end Scalloc
