import Mathlib

/-! # Straight-line programs on doubly linked nodes

A program is a list of assignments to the two links of nodes. Each assignment reads the
links as they are when it runs, so a program may be interrupted between two of them. The
footprint of a program is a set of nodes that its names lie in and that the links do not
leave: what happens outside of it does not matter to the program, and the program
changes nothing outside.
-/
namespace LinkCode
open Function
variable {α : Type*}

structure Links (α : Type*) where
  next : α → α
  prev : α → α

/-- A named node, or one of its two neighbours. -/
inductive Ptr (α : Type*)
  | node (x : α)
  | next (x : α)
  | prev (x : α)

inductive Stmt (α : Type*)
  | setNext (p v : Ptr α)
  | setPrev (p v : Ptr α)
  | clearNext (x : α)
  | clearPrev (x : α)

def Ptr.name : Ptr α → α
  | .node x => x
  | .next x => x
  | .prev x => x

def Ptr.eval (L : Links α) : Ptr α → α
  | .node x => x
  | .next x => L.next x
  | .prev x => L.prev x

/-- The names of a statement lie in the set. -/
def Stmt.Within (M : Set α) : Stmt α → Prop
  | .setNext p v => p.name ∈ M ∧ v.name ∈ M
  | .setPrev p v => p.name ∈ M ∧ v.name ∈ M
  | .clearNext x => x ∈ M
  | .clearPrev x => x ∈ M

namespace Links
variable [DecidableEq α]

def setNext (L : Links α) (x v : α) : Links α := { L with next := update L.next x v }

def setPrev (L : Links α) (x v : α) : Links α := { L with prev := update L.prev x v }

/-- A statement. It is an error to follow the null pointer or to assign it. -/
def exec (null : α) (L : Links α) : Stmt α → Option (Links α)
  | .setNext p v =>
    if p.eval L = null ∨ v.eval L = null then none else some (L.setNext (p.eval L) (v.eval L))
  | .setPrev p v =>
    if p.eval L = null ∨ v.eval L = null then none else some (L.setPrev (p.eval L) (v.eval L))
  | .clearNext x => some (L.setNext x null)
  | .clearPrev x => some (L.setPrev x null)

/-- All statements of a program. -/
def run (null : α) (L : Links α) : List (Stmt α) → Option (Links α)
  | [] => some L
  | c :: cs => (L.exec null c).bind fun L => L.run null cs

end Links

def Unlinked (null : α) (L : Links α) (x : α) : Prop := L.next x = null ∧ L.prev x = null

/-- The links of the set lead into the set or to null. -/
def Closed (null : α) (M : Set α) (L : Links α) : Prop :=
  ∀ x ∈ M, (L.next x = null ∨ L.next x ∈ M) ∧ (L.prev x = null ∨ L.prev x ∈ M)

def AgreeOn (M : Set α) (L L' : Links α) : Prop :=
  ∀ x ∈ M, L'.next x = L.next x ∧ L'.prev x = L.prev x

section Frame
variable {null : α} {M : Set α} {L L' : Links α}

theorem Ptr.eval_mem {p : Ptr α} (hc : Closed null M L) (hp : p.name ∈ M)
    (hn : p.eval L ≠ null) : p.eval L ∈ M := by
  cases p with
  | node x => exact hp
  | next x => exact (hc x hp).1.resolve_left hn
  | prev x => exact (hc x hp).2.resolve_left hn

theorem AgreeOn.eval {p : Ptr α} (ha : AgreeOn M L L') (hp : p.name ∈ M) : p.eval L' = p.eval L := by
  cases p with
  | node x => rfl
  | next x => exact (ha x hp).1
  | prev x => exact (ha x hp).2

theorem Closed.congr (hc : Closed null M L) (ha : AgreeOn M L L') : Closed null M L' := by
  intro x hx
  obtain ⟨h1,h2⟩ := ha x hx
  rw [h1, h2]
  exact hc x hx

variable [DecidableEq α] {L₁ L₁' : Links α}

theorem AgreeOn.setNext (ha : AgreeOn M L L') (p v : α) :
    AgreeOn M (L.setNext p v) (L'.setNext p v) := by
  intro x hx
  refine ⟨?_,(ha x hx).2⟩
  by_cases h : x = p
  · simp [Links.setNext, h]
  · simpa [Links.setNext, h] using (ha x hx).1

theorem AgreeOn.setPrev (ha : AgreeOn M L L') (p v : α) :
    AgreeOn M (L.setPrev p v) (L'.setPrev p v) := by
  intro x hx
  refine ⟨(ha x hx).1,?_⟩
  by_cases h : x = p
  · simp [Links.setPrev, h]
  · simpa [Links.setPrev, h] using (ha x hx).2

theorem Closed.setNext (hc : Closed null M L) (p : α) {v : α} (hv : v = null ∨ v ∈ M) :
    Closed null M (L.setNext p v) := by
  intro x hx
  refine ⟨?_,(hc x hx).2⟩
  by_cases h : x = p
  · simpa [Links.setNext, h] using hv
  · simpa [Links.setNext, h] using (hc x hx).1

theorem Closed.setPrev (hc : Closed null M L) (p : α) {v : α} (hv : v = null ∨ v ∈ M) :
    Closed null M (L.setPrev p v) := by
  intro x hx
  refine ⟨(hc x hx).1,?_⟩
  by_cases h : x = p
  · simpa [Links.setPrev, h] using hv
  · simpa [Links.setPrev, h] using (hc x hx).2

/-- A statement keeps to its footprint. -/
theorem Closed.exec {c : Stmt α} (hc : Closed null M L) (hw : c.Within M)
    (he : L.exec null c = some L₁) : Closed null M L₁ ∧ AgreeOn Mᶜ L L₁ := by
  cases c with
  | setNext p v =>
    simp only [Links.exec, Option.ite_none_left_eq_some, not_or, Option.some.injEq] at he
    obtain ⟨⟨hp,hv⟩,rfl⟩ := he
    refine ⟨hc.setNext _ (.inr (Ptr.eval_mem hc hw.2 hv)),?_⟩
    intro x hx
    have hne : x ≠ p.eval L := fun h => hx (h ▸ Ptr.eval_mem hc hw.1 hp)
    simp [Links.setNext, hne]
  | setPrev p v =>
    simp only [Links.exec, Option.ite_none_left_eq_some, not_or, Option.some.injEq] at he
    obtain ⟨⟨hp,hv⟩,rfl⟩ := he
    refine ⟨hc.setPrev _ (.inr (Ptr.eval_mem hc hw.2 hv)),?_⟩
    intro x hx
    have hne : x ≠ p.eval L := fun h => hx (h ▸ Ptr.eval_mem hc hw.1 hp)
    simp [Links.setPrev, hne]
  | clearNext y =>
    obtain rfl := Option.some.inj he
    refine ⟨hc.setNext _ (.inl rfl),?_⟩
    intro x hx
    have hne : x ≠ y := fun h => hx (h ▸ hw)
    simp [Links.setNext, hne]
  | clearPrev y =>
    obtain rfl := Option.some.inj he
    refine ⟨hc.setPrev _ (.inl rfl),?_⟩
    intro x hx
    have hne : x ≠ y := fun h => hx (h ▸ hw)
    simp [Links.setPrev, hne]

/-- A statement does the same from links that agree on its footprint. -/
theorem AgreeOn.exec {c : Stmt α} (ha : AgreeOn M L L') (hw : c.Within M)
    (he : L.exec null c = some L₁) : ∃ L₁', L'.exec null c = some L₁' ∧ AgreeOn M L₁ L₁' := by
  cases c with
  | setNext p v =>
    simp only [Links.exec, Option.ite_none_left_eq_some, not_or, Option.some.injEq] at he
    obtain ⟨⟨hp,hv⟩,rfl⟩ := he
    refine ⟨_,?_,ha.setNext _ _⟩
    rw [Links.exec, ha.eval hw.1, ha.eval hw.2, if_neg (not_or.mpr ⟨hp,hv⟩)]
  | setPrev p v =>
    simp only [Links.exec, Option.ite_none_left_eq_some, not_or, Option.some.injEq] at he
    obtain ⟨⟨hp,hv⟩,rfl⟩ := he
    refine ⟨_,?_,ha.setPrev _ _⟩
    rw [Links.exec, ha.eval hw.1, ha.eval hw.2, if_neg (not_or.mpr ⟨hp,hv⟩)]
  | clearNext y =>
    obtain rfl := Option.some.inj he
    exact ⟨_,rfl,ha.setNext _ _⟩
  | clearPrev y =>
    obtain rfl := Option.some.inj he
    exact ⟨_,rfl,ha.setPrev _ _⟩

/-- So does a whole program. -/
theorem AgreeOn.run {cs : List (Stmt α)} (ha : AgreeOn M L L') (hw : ∀ c ∈ cs, c.Within M)
    (he : L.run null cs = some L₁) : ∃ L₁', L'.run null cs = some L₁' ∧ AgreeOn M L₁ L₁' := by
  induction cs generalizing L L' with
  | nil =>
    obtain rfl := Option.some.inj he
    exact ⟨L',rfl,ha⟩
  | cons c cs ih =>
    obtain ⟨L₂,h1,h2⟩ := Option.bind_eq_some_iff.mp he
    obtain ⟨L₂',h1',ha'⟩ := ha.exec (hw c (by simp)) h1
    obtain ⟨L₁',h2',ha''⟩ := ih ha' (fun d hd => hw d (by simp [hd])) h2
    exact ⟨L₁',by rw [Links.run, h1', Option.bind_some, h2'],ha''⟩

end Frame
end LinkCode
