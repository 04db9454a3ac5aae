import Scalloc.Heap.Moves

/-! # An allocation on the board

The hot span serves a request if it can. Otherwise it is given up, and the core takes
the span at the back of its deque, else one from the pool, else one from the arena.
-/
namespace Scalloc
open Epoch

namespace Board
variable {percent : ℕ} {B B' : Board} {c sc s : ℕ}

/-- `GetSpan` for a slot that counts as empty. A recycled span keeps the mark it had in
the pool. -/
inductive Fetches (B : Board) (c sc : ℕ) : ℕ → Board → Prop
  | reuse {s : ℕ} {l : List ℕ} (hl : (B.deque c sc).nodes = l ++ [s]) :
    Fetches B c sc s (B.reuse c sc s)
  | fresh {s : ℕ} (hl : (B.deque c sc).nodes = []) (hs : s ≠ 0) (hk : ¬ B.known s) :
    Fetches B c sc s (B.adopt c sc s .hot B.pool)
  | recycled {s a b : ℕ} {rest : List ℕ} (hl : (B.deque c sc).nodes = [])
    (hp : B.pool a b = s :: rest) :
    Fetches B c sc s (B.adopt c sc s .full (update₂ B.pool a b rest))

/-- `Allocate` of one object of class `sc` by core `c`. -/
inductive Serves (percent : ℕ) (B : Board) (c sc : ℕ) : Board → Prop
  | direct (hne : B.hot c sc ≠ 0) :
    Serves percent B c sc (B.setFree (B.hot c sc) ((B.card (B.hot c sc)).free - 1))
  | first {s : ℕ} {B' : Board} (h0 : B.hot c sc = 0) (hf : B.Fetches c sc s B') :
    Serves percent B c sc (B'.setFree s ((B'.card s).free - 1))
  | next {s : ℕ} {B' : Board} (hne : B.hot c sc ≠ 0)
    (ht : (B.card (B.hot c sc)).free ≤ classToReuseThreshold percent sc)
    (hf : (B.retire c sc).Fetches c sc s B') :
    Serves percent B c sc (B'.setFree s ((B'.card s).free - 1))

/-- A span comes out of the pool. -/
theorem Inv.mem_pop {a b : ℕ} {rest : List ℕ} (h : Inv percent B) (hp : B.pool a b = s :: rest)
    (x a' b' : ℕ) : x ∈ update₂ B.pool a b rest a' b' ↔ x ≠ s ∧ x ∈ B.pool a' b' := by
  have hmem : s ∈ B.pool a b := by simp [hp]
  obtain ⟨w,hw⟩ := h.placed s (h.known_of_pooled ⟨a,b,hmem⟩)
  obtain rfl := (hw.pool a b).mp hmem
  have hn := h.poolNodup a b
  rw [hp, List.nodup_cons] at hn
  by_cases he : a' = a ∧ b' = b
  · obtain ⟨rfl,rfl⟩ := he
    rw [update₂_apply, if_pos ⟨rfl,rfl⟩, hp, List.mem_cons]
    constructor
    · intro hx
      exact ⟨fun hxs => hn.1 (hxs ▸ hx),.inr hx⟩
    · rintro ⟨hxs,hx⟩
      exact hx.resolve_left hxs
  · rw [update₂_apply, if_neg he]
    refine ⟨fun hx => ⟨?_,hx⟩,fun hx => hx.2⟩
    rintro rfl
    have heq := (hw.pool a' b').mp hx
    simp only [Place.pooled.injEq] at heq
    exact he ⟨heq.1.symm,heq.2.symm⟩

/-- A fetched span is hot. -/
theorem Inv.fetches (h : Inv percent B) (hc : B.Live c) (hsc : IsObjectClass sc)
    (h0 : B.hot c sc = 0) (hf : B.Fetches c sc s B') :
    Inv percent B' ∧ B'.known s ∧ B'.At percent s (.hot c sc) := by
  have hslot : Inv percent B' ∧ B'.known s ∧ B'.hot c sc = s := by
    cases hf with
    | reuse hl =>
      have hmem : s ∈ (B.deque c sc).nodes := by simp [hl]
      have hk : B.known s := h.known_of_mem hmem
      exact ⟨(h.reuse hl h0).1,hk,by simp [Board.reuse]⟩
    | fresh hl hs hk =>
      refine ⟨h.adopt hs (fun hk' => absurd hk' hk) hc hsc (.inl rfl) h0 ?_ h.poolNodup,.inl rfl,
        by simp [Board.adopt]⟩
      intro x a b
      refine ⟨fun hx => ⟨?_,hx⟩,fun hx => hx.2⟩
      rintro rfl
      exact (h.absent x hk).pool a b hx
    | @recycled a b rest hl hp =>
      have hpool : B.Pooled s := ⟨a,b,by simp [hp]⟩
      refine ⟨h.adopt (h.ne_zero (h.known_of_pooled hpool)) (fun _ => hpool) hc hsc (.inr rfl) h0
        (h.mem_pop hp) ?_,.inl rfl,by simp [Board.adopt]⟩
      intro a' b'
      have hn := h.poolNodup a b
      have hn' := h.poolNodup a' b'
      rw [hp, List.nodup_cons] at hn
      rw [update₂_apply]
      split
      · exact hn.2
      · exact hn'
  obtain ⟨hi,hk,hhot⟩ := hslot
  obtain ⟨w,hw⟩ := hi.placed s hk
  obtain rfl := (hw.hot c sc).mp hhot
  exact ⟨hi,hk,hw⟩

/-- Giving out objects of a hot span keeps the board in order. -/
theorem Inv.give (h : Inv percent B) (hk : B.known s) (hat : B.At percent s (.hot c sc)) (f : ℤ) :
    Inv percent (B.setFree s f) ∧ (B.setFree s f).At percent s (.hot c sc) := by
  refine h.setFree hk hat fun hm => ?_
  have ha := hat.allowed.2.2.2
  rw [hm] at ha
  simp at ha

end Board
end Scalloc
