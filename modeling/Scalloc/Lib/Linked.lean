import Mathlib

/-! # Null-terminated chains through a link function

`Linked null next p xs` says that following `next` from `p` visits exactly `xs`
and then `null`. The link function is a parameter: it may be a field of the nodes
or a word of memory, and it may change between two uses of a chain.
-/
namespace Linked
variable {α : Type*} {null : α} {next next' : α → α} {p : α} {xs ys : List α}

/-- `xs` are the nodes met from `p` on, before `null`. -/
def Chain (null : α) (next : α → α) : α → List α → Prop
  | p, [] => p = null
  | p, x :: xs => p = x ∧ x ≠ null ∧ Chain null next (next x) xs

/-- `x` is met on the way from `p` to the first `null`. -/
inductive Meets (null : α) (next : α → α) (x : α) : α → Prop
  | here : x ≠ null → Meets null next x x
  | there {p : α} : p ≠ null → Meets null next x (next p) → Meets null next x p

@[simp] theorem chain_nil : Chain null next p [] ↔ p = null := Iff.rfl

@[simp] theorem chain_cons {x : α} :
    Chain null next p (x :: xs) ↔ p = x ∧ x ≠ null ∧ Chain null next (next x) xs := Iff.rfl

/-- A chain only reads the links of its own nodes. -/
theorem Chain.congr (h : Chain null next p xs) (hn : ∀ x ∈ xs, next' x = next x) :
    Chain null next' p xs := by
  induction xs generalizing p with
  | nil => exact h
  | cons x xs ih =>
    obtain ⟨hp,hx,hr⟩ := h
    refine ⟨hp,hx,?_⟩
    rw [hn x (List.mem_cons_self ..)]
    exact ih hr (fun y hy => hn y (List.mem_cons_of_mem _ hy))

/-- The head and the links determine the chain. -/
theorem Chain.unique (h : Chain null next p xs) (h' : Chain null next p ys) : xs = ys := by
  induction xs generalizing p ys with
  | nil =>
    cases ys with
    | nil => rfl
    | cons y ys => exact absurd (h'.1.symm.trans h) h'.2.1
  | cons x xs ih =>
    obtain ⟨rfl,hx,hr⟩ := h
    cases ys with
    | nil => exact absurd h' hx
    | cons y ys =>
      obtain ⟨rfl,_,hr'⟩ := h'
      rw [ih hr hr']

/-- A bound on the nodes and on `null` is a bound on the head. -/
theorem Chain.head_lt [LT α] {b : α} (h : Chain null next p xs) (hn : null < b)
    (hb : ∀ x ∈ xs, x < b) : p < b := by
  cases xs with
  | nil => exact (show p = null from h) ▸ hn
  | cons x xs => exact h.1 ▸ hb x (List.mem_cons_self ..)

theorem Chain.nil_iff (h : Chain null next p xs) : xs = [] ↔ p = null := by
  cases xs with
  | nil => simpa using h
  | cons x xs =>
    obtain ⟨hp,hx,_⟩ := h
    simpa [hp] using hx

/-- The nodes met from the head are the members of the chain. -/
theorem Chain.meets_iff (h : Chain null next p xs) {x : α} : Meets null next x p ↔ x ∈ xs := by
  constructor
  · intro hm
    induction hm generalizing xs with
    | here hx =>
      cases xs with
      | nil => exact absurd h hx
      | cons y ys => exact List.mem_cons.mpr (.inl h.1)
    | there hp _ ih =>
      cases xs with
      | nil => exact absurd h hp
      | cons y ys =>
        obtain ⟨rfl,_,hr⟩ := h
        exact List.mem_cons_of_mem _ (ih hr)
  · intro hx
    induction xs generalizing p with
    | nil => simp at hx
    | cons y ys ih =>
      obtain ⟨rfl,hy,hr⟩ := h
      rcases List.mem_cons.mp hx with rfl | hx
      · exact .here hy
      · exact .there hy (ih hr hx)

end Linked
