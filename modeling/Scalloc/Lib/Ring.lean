import Mathlib

/-! # Circular doubly linked lists

`IsRing next prev s l` says that following `next` from `s` visits exactly `l` and comes
back to `s`, and that `prev` goes the same way back. No node has a distinguished role
in the links: every member may be read as the sentinel of the others.
-/
namespace LinkedRing
open Function
variable {α : Type*} {next prev next' prev' : α → α} {s x a b : α} {l l₁ l₂ : List α}

/-- `b` is the successor of `a`, and `a` the predecessor of `b`. -/
def Link (next prev : α → α) (a b : α) : Prop := next a = b ∧ prev b = a

/-- Neighbours along the path from `a` over `l` to `b` are linked. -/
def Seg (next prev : α → α) (a : α) (l : List α) (b : α) : Prop :=
  (a :: (l ++ [b])).IsChain (Link next prev)

/-- The nodes after the sentinel, in order, of a circular list. -/
structure IsRing (next prev : α → α) (s : α) (l : List α) : Prop where
  nodup : (s :: l).Nodup
  seg : Seg next prev s l s

@[simp] theorem seg_nil : Seg next prev a [] b ↔ Link next prev a b := List.isChain_pair

@[simp] theorem seg_cons :
    Seg next prev a (x :: l) b ↔ Link next prev a x ∧ Seg next prev x l b :=
  List.isChain_cons_cons

theorem seg_append :
    Seg next prev a (l₁ ++ x :: l₂) b ↔ Seg next prev a l₁ x ∧ Seg next prev x l₂ b := by
  induction l₁ generalizing a with
  | nil => simp
  | cons y l₁ ih => rw [List.cons_append, seg_cons, seg_cons, ih, and_assoc]

theorem seg_reverse : Seg prev next b l.reverse a ↔ Seg next prev a l b := by
  have hrev : b :: (l.reverse ++ [a]) = (a :: (l ++ [b])).reverse := by simp
  rw [Seg, hrev, List.isChain_reverse]
  exact ⟨fun h => h.imp fun _ _ hl => ⟨hl.2,hl.1⟩,fun h => h.imp fun _ _ hl => ⟨hl.2,hl.1⟩⟩

/-- A path reads `next` on all its nodes but the last and `prev` on all but the first. -/
theorem Seg.congr (h : Seg next prev a l b) (hn : ∀ y ∈ a :: l, next' y = next y)
    (hp : ∀ y ∈ b :: l, prev' y = prev y) : Seg next' prev' a l b := by
  induction l generalizing a with
  | nil =>
    obtain ⟨h1,h2⟩ := seg_nil.mp h
    exact seg_nil.mpr ⟨(hn a (by simp)).trans h1,(hp b (by simp)).trans h2⟩
  | cons x l ih =>
    obtain ⟨⟨h1,h2⟩,hr⟩ := seg_cons.mp h
    refine seg_cons.mpr ⟨⟨(hn a (by simp)).trans h1,(hp x (by simp)).trans h2⟩,?_⟩
    refine ih hr (fun y hy => hn y (List.mem_cons_of_mem _ hy)) ?_
    intro y hy
    rcases List.mem_cons.mp hy with rfl | hy
    · exact hp y (by simp)
    · exact hp y (by simp [hy])

namespace IsRing

theorem notMem (h : IsRing next prev s l) : s ∉ l := (List.nodup_cons.mp h.nodup).1

/-- Read backwards, a ring is a ring with the two links exchanged. -/
theorem reverse (h : IsRing next prev s l) : IsRing prev next s l.reverse where
  nodup := by
    have hn := List.nodup_cons.mp h.nodup
    exact List.nodup_cons.mpr ⟨by simpa using hn.1,List.nodup_reverse.mpr hn.2⟩
  seg := seg_reverse.mpr h.seg

/-- Any member of the ring may be its sentinel. -/
theorem rotate (h : IsRing next prev s (l₁ ++ x :: l₂)) : IsRing next prev x (l₂ ++ s :: l₁) where
  nodup := by
    have hp : (x :: (l₂ ++ s :: l₁)).Perm (s :: (l₁ ++ x :: l₂)) := by
      have h1 : ((x :: l₂) ++ (s :: l₁)).Perm ((s :: l₁) ++ (x :: l₂)) := List.perm_append_comm
      simpa using h1
    exact hp.nodup_iff.mpr h.nodup
  seg := by
    obtain ⟨h1,h2⟩ := seg_append.mp h.seg
    exact seg_append.mpr ⟨h2,h1⟩

theorem nil_iff : IsRing next prev s [] ↔ next s = s ∧ prev s = s :=
  ⟨fun h => seg_nil.mp h.seg,fun h => ⟨by simp,seg_nil.mpr h⟩⟩

/-- The links are read on the members only. -/
theorem congr (h : IsRing next prev s l) (hn : ∀ y ∈ s :: l, next' y = next y)
    (hp : ∀ y ∈ s :: l, prev' y = prev y) : IsRing next' prev' s l :=
  ⟨h.nodup,h.seg.congr hn hp⟩

theorem next_eq (h : IsRing next prev s (x :: l)) : next s = x := (seg_cons.mp h.seg).1.1

theorem prev_eq (h : IsRing next prev s (x :: l)) : prev x = s := (seg_cons.mp h.seg).1.2

/-- The links stay in the ring and are inverse to each other, seen from the sentinel. -/
theorem sentinel_links (h : IsRing next prev s l) :
    next s ∈ s :: l ∧ prev s ∈ s :: l ∧ prev (next s) = s ∧ next (prev s) = s := by
  have hhalf : ∀ {n p : α → α} {l : List α}, IsRing n p s l → n s ∈ s :: l ∧ p (n s) = s := by
    intro n p l hr
    cases l with
    | nil =>
      obtain ⟨h1,h2⟩ := nil_iff.mp hr
      rw [h1]
      exact ⟨by simp,h2⟩
    | cons x l =>
      rw [hr.next_eq]
      exact ⟨by simp,hr.prev_eq⟩
  obtain ⟨h1,h2⟩ := hhalf h
  obtain ⟨h3,h4⟩ := hhalf h.reverse
  exact ⟨h1,by simpa using h3,h2,h4⟩

/-- Every member sees the ring as its sentinel does. -/
theorem links (h : IsRing next prev s l) (hx : x ∈ s :: l) :
    next x ∈ s :: l ∧ prev x ∈ s :: l ∧ prev (next x) = x ∧ next (prev x) = x := by
  rcases List.mem_cons.mp hx with rfl | hx
  · exact h.sentinel_links
  · obtain ⟨l₁,l₂,rfl⟩ := List.append_of_mem hx
    obtain ⟨h1,h2,h3,h4⟩ := h.rotate.sentinel_links
    have hm : ∀ y, y ∈ x :: (l₂ ++ s :: l₁) → y ∈ s :: (l₁ ++ x :: l₂) := by
      intro y hy
      simp only [List.mem_cons, List.mem_append] at hy ⊢
      tauto
    exact ⟨hm _ h1,hm _ h2,h3,h4⟩

theorem seg_unique (h : Seg next prev a l₁ s) (h' : Seg next prev a l₂ s) (hs : s ∉ l₁)
    (hs' : s ∉ l₂) : l₁ = l₂ := by
  induction l₁ generalizing a l₂ with
  | nil =>
    cases l₂ with
    | nil => rfl
    | cons y l₂ =>
      have he : s = y := (seg_nil.mp h).1.symm.trans (seg_cons.mp h').1.1
      exact absurd (he ▸ List.mem_cons_self ..) hs'
  | cons x l₁ ih =>
    obtain ⟨hx,hr⟩ := seg_cons.mp h
    cases l₂ with
    | nil =>
      have he : s = x := (seg_nil.mp h').1.symm.trans hx.1
      exact absurd (he ▸ List.mem_cons_self ..) hs
    | cons y l₂ =>
      obtain ⟨hy,hr'⟩ := seg_cons.mp h'
      obtain rfl : x = y := hx.1.symm.trans hy.1
      rw [ih hr hr' (fun hm => hs (List.mem_cons_of_mem _ hm))
        (fun hm => hs' (List.mem_cons_of_mem _ hm))]

/-- The links and the sentinel determine the nodes and their order. -/
theorem unique (h : IsRing next prev s l₁) (h' : IsRing next prev s l₂) : l₁ = l₂ :=
  seg_unique h.seg h'.seg h.notMem h'.notMem

/-- A member other than the sentinel is not its own neighbour. -/
theorem next_ne (h : IsRing next prev s l) (hx : x ∈ l) : next x ≠ x := by
  obtain ⟨l₁,l₂,rfl⟩ := List.append_of_mem hx
  have hr := h.rotate
  intro he
  cases l₂ with
  | nil => exact hr.notMem (he ▸ hr.next_eq ▸ List.mem_cons_self ..)
  | cons y l₂ => exact hr.notMem (he ▸ hr.next_eq ▸ List.mem_cons_self ..)

/-- Linking `x` in behind the sentinel. -/
theorem insert [DecidableEq α] (h : IsRing next prev s l) (hx : x ∉ s :: l) :
    IsRing (update (update next x (next s)) s x) (update (update prev x s) (next s) x) s (x :: l) := by
  obtain ⟨hxs,hxl⟩ : x ≠ s ∧ x ∉ l := by simpa using hx
  have hsl := h.notMem
  refine ⟨?_,seg_cons.mpr ⟨?_,?_⟩⟩
  · have hn := List.nodup_cons.mp h.nodup
    simp [hn.1, hn.2, hxl, hxs.symm]
  · have hne : x ≠ next s := fun he => hx (he ▸ h.sentinel_links.1)
    simp [Link, hne]
  · cases l with
    | nil =>
      have hs := nil_iff.mp h
      simp [Link, hs.1, hxs]
    | cons y l =>
      have hys := h.next_eq
      have hyl := (List.nodup_cons.mp (List.nodup_cons.mp h.nodup).2).1
      have hsy : s ≠ y := fun he => hsl (he ▸ List.mem_cons_self ..)
      refine seg_cons.mpr ⟨?_,(seg_cons.mp h.seg).2.congr ?_ ?_⟩
      · simp [Link, hys, hxs]
      · intro z hz
        have hzs : z ≠ s := fun he => hsl (he ▸ hz)
        have hzx : z ≠ x := fun he => hxl (he ▸ hz)
        simp [hzs, hzx]
      · intro z hz
        have hzy : z ≠ y := by
          rcases List.mem_cons.mp hz with rfl | hz
          · exact hsy
          · exact fun he => hyl (he ▸ hz)
        have hzx : z ≠ x := by
          rcases List.mem_cons.mp hz with rfl | hz
          · exact hxs.symm
          · exact fun he => hxl (he ▸ List.mem_cons_of_mem _ hz)
        simp [hys, hzy, hzx]

/-- Taking the successor of the sentinel out. -/
theorem erase_next [DecidableEq α] (h : IsRing next prev s (x :: l)) :
    IsRing (update next s (next x)) (update prev (next x) s) s l := by
  obtain ⟨hx,hr⟩ := seg_cons.mp h.seg
  obtain ⟨⟨hsx,hsl⟩,hxl,hl⟩ : (s ≠ x ∧ s ∉ l) ∧ x ∉ l ∧ l.Nodup := by simpa using h.nodup
  refine ⟨List.nodup_cons.mpr ⟨hsl,hl⟩,?_⟩
  cases l with
  | nil =>
    have hs := seg_nil.mp hr
    simp [Link, hs.1]
  | cons y l =>
    obtain ⟨hy,hr⟩ := seg_cons.mp hr
    have hyl := (List.nodup_cons.mp hl).1
    have hsy : s ≠ y := fun he => hsl (he ▸ List.mem_cons_self ..)
    refine seg_cons.mpr ⟨by simp [Link, hy.1],hr.congr ?_ ?_⟩
    · intro z hz
      have hzs : z ≠ s := fun he => hsl (he ▸ hz)
      simp [hzs]
    · intro z hz
      have hzy : z ≠ y := by
        rcases List.mem_cons.mp hz with rfl | hz
        · exact hsy
        · exact fun he => hyl (he ▸ hz)
      simp [hy.1, hzy]

/-- Taking any member out by joining its neighbours. -/
theorem erase [DecidableEq α] (h : IsRing next prev s l) (hx : x ∈ l) :
    IsRing (update next (prev x) (next x)) (update prev (next x) (prev x)) s (l.erase x) := by
  obtain ⟨l₁,l₂,hx₁,rfl,he⟩ := List.exists_erase_eq hx
  rw [he]
  rcases List.eq_nil_or_concat l₁ with rfl | ⟨l₁,a,rfl⟩
  · rw [h.prev_eq]
    exact h.erase_next
  · have h' : IsRing next prev a (x :: (l₂ ++ s :: l₁)) := by
      have hr : IsRing next prev s (l₁ ++ a :: (x :: l₂)) := by simpa using h
      exact hr.rotate
    rw [h'.prev_eq]
    simpa using h'.erase_next.rotate

end IsRing
end LinkedRing
