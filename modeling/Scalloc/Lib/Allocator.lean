import Scalloc.Lib.Transition

/-! # What an allocator is for

The program holds blocks with disjoint footprints and owns the bytes in them: a held byte
changes only when the program writes it. Where the blocks lie and what else the memory
contains is left open.
-/
namespace Allocator
open Transition
variable {ι α β : Type*}

/-- The blocks in the hands of the program, and their bytes. -/
@[ext]
structure Store (ι α β : Type*) where
  held : Set ι
  byte : α → Option β

namespace Store

def empty : Store ι α β := ⟨∅,fun _ => none⟩

open Classical in
/-- The held blocks with what a memory says of them. -/
noncomputable def ofMemory (foot : ι → Set α) (held : Set ι) (mem : α → β) : Store ι α β :=
  ⟨held,fun a => if ∃ i ∈ held, a ∈ foot i then some (mem a) else none⟩

end Store

/-- What the program sees of a step. -/
inductive Action (ι α β : Type*)
  | take (i : ι)
  | give (i : ι)
  | put (a : α) (v : β)
  | skip

variable (foot : ι → Set α)

/-- A new block is apart from the held ones and has some contents; a block given back is
gone with its contents; a held byte is written. -/
inductive Step : Store ι α β → Action ι α β → Store ι α β → Prop
  | take {σ τ : Store ι α β} {i : ι} (hne : (foot i).Nonempty)
    (hapart : ∀ j ∈ σ.held, Disjoint (foot j) (foot i)) (hheld : τ.held = insert i σ.held)
    (hin : ∀ a ∈ foot i, (τ.byte a).isSome) (hout : ∀ a ∉ foot i, τ.byte a = σ.byte a) :
    Step σ (.take i) τ
  | give {σ τ : Store ι α β} {i : ι} (hi : i ∈ σ.held) (hheld : τ.held = σ.held \ {i})
    (hin : ∀ a ∈ foot i, τ.byte a = none) (hout : ∀ a ∉ foot i, τ.byte a = σ.byte a) :
    Step σ (.give i) τ
  | put {σ τ : Store ι α β} {i : ι} {a : α} {v : β} (hi : i ∈ σ.held) (ha : a ∈ foot i)
    (hheld : τ.held = σ.held) (hin : τ.byte a = some v) (hout : ∀ x ≠ a, τ.byte x = σ.byte x) :
    Step σ (.put a v) τ
  | skip {σ : Store ι α β} : Step σ .skip σ

variable {foot} {σ τ : Store ι α β} {l : Action ι α β} {ls : List (Action ι α β)} {i : ι} {a : α}
  {v : β}

/-- Held blocks do not overlap, and exactly their bytes have contents. -/
structure WellFormed (foot : ι → Set α) (σ : Store ι α β) : Prop where
  apart : σ.held.Pairwise fun i j => Disjoint (foot i) (foot j)
  nonempty : ∀ i ∈ σ.held, (foot i).Nonempty
  byte : ∀ a, (σ.byte a).isSome ↔ ∃ i ∈ σ.held, a ∈ foot i

theorem WellFormed.empty : WellFormed foot (Store.empty : Store ι α β) where
  apart := Set.pairwise_empty _
  nonempty := fun _ h => absurd h (Set.notMem_empty _)
  byte := by simp [Store.empty]

/-- A byte lies in at most one held block. -/
theorem WellFormed.eq_of_mem (h : WellFormed foot σ) {j : ι} (hi : i ∈ σ.held) (hj : j ∈ σ.held)
    (hai : a ∈ foot i) (haj : a ∈ foot j) : i = j := by
  by_contra hne
  exact Set.disjoint_left.mp (h.apart hi hj hne) hai haj

theorem WellFormed.step (h : WellFormed foot σ) (hs : Step foot σ l τ) : WellFormed foot τ := by
  cases hs with
  | @take _ i hne hapart hheld hin hout =>
    refine ⟨?_,?_,?_⟩
    · rw [hheld]
      refine h.apart.insert fun j hj _ => ⟨(hapart j hj).symm,hapart j hj⟩
    · rw [hheld]
      rintro j (rfl | hj)
      · exact hne
      · exact h.nonempty j hj
    · intro a
      rw [hheld]
      by_cases ha : a ∈ foot i
      · exact iff_of_true (hin a ha) ⟨i,Set.mem_insert _ _,ha⟩
      · rw [hout a ha, h.byte]
        constructor
        · rintro ⟨j,hj,haj⟩
          exact ⟨j,Set.mem_insert_of_mem _ hj,haj⟩
        · rintro ⟨j,rfl | hj,haj⟩
          · exact absurd haj ha
          · exact ⟨j,hj,haj⟩
  | @give _ i hi hheld hin hout =>
    refine ⟨?_,?_,?_⟩
    · rw [hheld]
      exact h.apart.mono Set.sdiff_subset
    · rw [hheld]
      exact fun j hj => h.nonempty j hj.1
    · intro a
      rw [hheld]
      by_cases ha : a ∈ foot i
      · rw [hin a ha]
        refine iff_of_false (by simp) ?_
        rintro ⟨j,⟨hj,hji⟩,haj⟩
        exact hji (h.eq_of_mem hj hi haj ha)
      · rw [hout a ha, h.byte]
        constructor
        · rintro ⟨j,hj,haj⟩
          exact ⟨j,⟨hj,fun he => ha (he ▸ haj)⟩,haj⟩
        · rintro ⟨j,hj,haj⟩
          exact ⟨j,hj.1,haj⟩
  | @put _ i x v hi hx hheld hin hout =>
    refine ⟨hheld ▸ h.apart,hheld ▸ h.nonempty,fun a => ?_⟩
    rw [hheld]
    by_cases ha : a = x
    · subst ha
      rw [hin]
      exact iff_of_true rfl ⟨i,hi,hx⟩
    · rw [hout a ha, h.byte]
  | skip => exact h

/-- What the actions of a run leave in a byte of a block that is held all along, if it
had `old` before. -/
def written [DecidableEq α] (a : α) (old : Option β) : List (Action ι α β) → Option β
  | [] => old
  | .put x v :: ls => written a (if x = a then some v else old) ls
  | .take _ :: ls => written a old ls
  | .give _ :: ls => written a old ls
  | .skip :: ls => written a old ls

/-- A byte of a held block that is not given back changes only by writing. -/
theorem Step.byte_eq [DecidableEq α] (h : WellFormed foot σ) (hs : Step foot σ l τ)
    (hi : i ∈ σ.held) (ha : a ∈ foot i) (hl : l ≠ .give i) :
    i ∈ τ.held ∧ τ.byte a = written a (σ.byte a) [l] := by
  cases hs with
  | @take _ j hne hapart hheld hin hout =>
    rw [hheld]
    exact ⟨Set.mem_insert_of_mem _ hi,hout a fun haj => Set.disjoint_left.mp (hapart i hi) ha haj⟩
  | @give _ j hj hheld hin hout =>
    have hne : i ≠ j := fun he => hl (he ▸ rfl)
    rw [hheld]
    exact ⟨⟨hi,hne⟩,hout a fun haj => hne (h.eq_of_mem hi hj ha haj)⟩
  | @put _ j x v hj hx hheld hin hout =>
    rw [hheld]
    refine ⟨hi,?_⟩
    by_cases hxa : x = a
    · subst hxa
      simp [written, hin]
    · simp [written, hxa, hout a (Ne.symm hxa)]
  | skip => exact ⟨hi,rfl⟩

theorem written_cons [DecidableEq α] (a : α) (old : Option β) (l : Action ι α β)
    (ls : List (Action ι α β)) : written a old (l :: ls) = written a (written a old [l]) ls := by
  cases l <;> rfl

/-- The contents of a block that is held throughout a run are what was written last. -/
theorem byte_eq_of_trace [DecidableEq α] (h : WellFormed foot σ) (ht : Trace (Step foot) σ ls τ)
    (hi : i ∈ σ.held) (ha : a ∈ foot i) (hl : .give i ∉ ls) :
    i ∈ τ.held ∧ τ.byte a = written a (σ.byte a) ls := by
  induction ht with
  | nil => exact ⟨hi,rfl⟩
  | @cons σ ρ τ l ls hs _ ih =>
    rw [List.mem_cons, not_or] at hl
    obtain ⟨hiρ,hb⟩ := hs.byte_eq h hi ha (Ne.symm hl.1)
    obtain ⟨hiτ,hb'⟩ := ih (h.step hs) hiρ hl.2
    refine ⟨hiτ,?_⟩
    rw [hb', hb, ← written_cons]

section OfMemory
variable {held held' : Set ι} {mem mem' : α → β}

theorem ofMemory_byte (hi : i ∈ held) (ha : a ∈ foot i) :
    (Store.ofMemory foot held mem).byte a = some (mem a) :=
  if_pos ⟨i,hi,ha⟩

theorem ofMemory_byte_congr (hh : (∃ i ∈ held', a ∈ foot i) ↔ ∃ i ∈ held, a ∈ foot i)
    (hm : (∃ i ∈ held, a ∈ foot i) → mem' a = mem a) :
    (Store.ofMemory foot held' mem').byte a = (Store.ofMemory foot held mem).byte a := by
  by_cases h : ∃ i ∈ held, a ∈ foot i
  · rw [Store.ofMemory, Store.ofMemory]
    simp only [if_pos h, if_pos (hh.mpr h), hm h]
  · rw [Store.ofMemory, Store.ofMemory]
    simp only [if_neg h, if_neg fun h' => h (hh.mp h')]

/-- The memory agrees on every held byte. -/
def Keeps (foot : ι → Set α) (held : Set ι) (mem mem' : α → β) : Prop :=
  ∀ i ∈ held, ∀ a ∈ foot i, mem' a = mem a

theorem ofMemory_congr (hk : Keeps foot held mem mem') :
    Store.ofMemory foot held mem' = Store.ofMemory foot held mem := by
  refine Store.ext rfl (funext fun a => ofMemory_byte_congr Iff.rfl ?_)
  rintro ⟨i,hi,ha⟩
  exact hk i hi a ha

/-- A memory that is kept on the held blocks takes a block that is apart from them. -/
theorem step_take (hne : (foot i).Nonempty) (hapart : ∀ j ∈ held, Disjoint (foot j) (foot i))
    (hk : Keeps foot held mem mem') :
    Step foot (Store.ofMemory foot held mem) (.take i)
      (Store.ofMemory foot (insert i held) mem') := by
  refine .take hne hapart rfl ?_ ?_
  · intro a ha
    rw [ofMemory_byte (Set.mem_insert _ _) ha]
    rfl
  · intro a ha
    refine ofMemory_byte_congr ⟨?_,?_⟩ ?_
    · rintro ⟨j,rfl | hj,haj⟩
      · exact absurd haj ha
      · exact ⟨j,hj,haj⟩
    · rintro ⟨j,hj,haj⟩
      exact ⟨j,Set.mem_insert_of_mem _ hj,haj⟩
    · rintro ⟨j,hj,haj⟩
      exact hk j hj a haj

/-- A memory that is kept on the other held blocks gives one back. -/
theorem step_give (hi : i ∈ held) (hapart : ∀ j ∈ held, j ≠ i → Disjoint (foot j) (foot i))
    (hk : Keeps foot (held \ {i}) mem mem') :
    Step foot (Store.ofMemory foot held mem) (.give i)
      (Store.ofMemory foot (held \ {i}) mem') := by
  refine .give hi rfl ?_ ?_
  · intro a ha
    refine if_neg ?_
    rintro ⟨j,⟨hj,hji⟩,haj⟩
    exact Set.disjoint_left.mp (hapart j hj hji) haj ha
  · intro a ha
    have hother : ∀ j, a ∈ foot j → j ≠ i := fun j haj he => ha (he ▸ haj)
    refine ofMemory_byte_congr ⟨?_,?_⟩ ?_
    · rintro ⟨j,hj,haj⟩
      exact ⟨j,hj.1,haj⟩
    · rintro ⟨j,hj,haj⟩
      exact ⟨j,⟨hj,hother j haj⟩,haj⟩
    · rintro ⟨j,hj,haj⟩
      exact hk j ⟨hj,hother j haj⟩ a haj

theorem step_put [DecidableEq α] (hi : i ∈ held) (ha : a ∈ foot i) (v : β) :
    Step foot (Store.ofMemory foot held mem) (.put a v)
      (Store.ofMemory foot held (Function.update mem a v)) := by
  refine .put hi ha rfl ?_ ?_
  · rw [ofMemory_byte hi ha, Function.update_self]
  · intro x hx
    exact ofMemory_byte_congr Iff.rfl fun _ => Function.update_of_ne hx _ _

end OfMemory
end Allocator
