import Mathlib

/-! # Runs of a partial step function

A system is a partial step function on states and events. `Runs step ok` are the
finite runs all of whose steps meet the condition `ok` on the state before the
step and the event; with the trivial condition they are all runs.
-/
namespace Transition
variable {σ ε : Type*}

/-- Finite runs in which every step meets the condition. -/
inductive Runs (step : σ → ε → Option σ) (ok : σ → ε → Prop) (s : σ) : σ → Prop
  | refl : Runs step ok s s
  | tail {t u : σ} {e : ε} : Runs step ok s t → ok t e → step t e = some u → Runs step ok s u

/-- The condition that every step meets. -/
def Always : σ → ε → Prop := fun _ _ => True

variable {step : σ → ε → Option σ} {ok ok' : σ → ε → Prop} {s t u : σ}

/-- A property of the first state that every permitted step keeps holds at the end. -/
theorem Runs.invariant {P : σ → Prop} (h : Runs step ok s t) (hs : P s)
    (hstep : ∀ s e t, P s → ok s e → step s e = some t → P t) : P t := by
  induction h with
  | refl => exact hs
  | tail _ hok he ih => exact hstep _ _ _ ih hok he

/-- What a run changes only in steps to states with `Q` has its last value since a state with `Q`. -/
theorem Runs.exists_last {α : Type*} {f : σ → α} {Q : σ → Prop} (h : Runs step ok s t) (hs : Q s)
    (hstep : ∀ u e v, Runs step ok s u → ok u e → step u e = some v → f v = f u ∨ Q v) :
    ∃ m, Runs step ok s m ∧ Runs step ok m t ∧ f m = f t ∧ Q m := by
  induction h with
  | refl => exact ⟨s,.refl,.refl,rfl,hs⟩
  | tail hr hok he ih =>
    rcases hstep _ _ _ hr hok he with hf | hq
    · obtain ⟨m,h1,h2,h3,h4⟩ := ih
      exact ⟨m,h1,h2.tail hok he,h3.trans hf.symm,h4⟩
    · exact ⟨_,hr.tail hok he,.refl,rfl,hq⟩

/-- A weaker condition permits more runs. -/
theorem Runs.mono (h : Runs step ok s t) (hok : ∀ s e, ok s e → ok' s e) :
    Runs step ok' s t := by
  induction h with
  | refl => exact .refl
  | tail _ h he ih => exact ih.tail (hok _ _ h) he

/-- The state after a list of events, if every step is enabled and permitted. -/
def exec (step : σ → ε → Option σ) (ok : σ → ε → Prop) [∀ s e, Decidable (ok s e)] :
    σ → List ε → Option σ
  | s, [] => some s
  | s, e :: es => if ok s e then (step s e).bind fun t => exec step ok t es else none

theorem Runs.head {e : ε} (hok : ok s e) (he : step s e = some t) (h : Runs step ok t u) :
    Runs step ok s u := by
  induction h with
  | refl => exact .tail .refl hok he
  | tail _ hok' he' ih => exact ih.tail hok' he'

/-- Every executed list of events is a run. -/
theorem runs_of_exec [∀ s e, Decidable (ok s e)] {es : List ε}
    (h : exec step ok s es = some t) : Runs step ok s t := by
  induction es generalizing s with
  | nil =>
    cases h
    exact .refl
  | cons e es ih =>
    simp only [exec] at h
    split at h
    · next hok =>
      obtain ⟨v,hv,hr⟩ := Option.bind_eq_some_iff.mp h
      exact .head hok hv (ih hr)
    · cases h

instance : ∀ (s : σ) (e : ε), Decidable (Always s e) := fun _ _ => .isTrue trivial

/-- An executed list of events that starts with `e`. -/
theorem exec_cons {e : ε} {es : List ε} (h : exec step Always s (e :: es) = some u) :
    ∃ t, step s e = some t ∧ exec step Always t es = some u := by
  simp only [exec] at h
  rw [if_pos (show Always s e from trivial)] at h
  exact Option.bind_eq_some_iff.mp h

/-- A finite run with its events. -/
inductive Run (step : σ → ε → Option σ) (ok : σ → ε → Prop) : σ → List ε → σ → Prop
  | nil {s : σ} : Run step ok s [] s
  | cons {s t u : σ} {e : ε} {es : List ε} :
    ok s e → step s e = some t → Run step ok t es u → Run step ok s (e :: es) u

theorem run_of_exec [∀ s e, Decidable (ok s e)] {es : List ε}
    (h : exec step ok s es = some t) : Run step ok s es t := by
  induction es generalizing s with
  | nil =>
    cases h
    exact .nil
  | cons e es ih =>
    simp only [exec] at h
    split at h
    · next hok =>
      obtain ⟨u,hu,hr⟩ := Option.bind_eq_some_iff.mp h
      exact .cons hok hu (ih hr)
    · cases h

section Amortized

/-- The sum of what the steps of a list of events cost. -/
def tally (step : σ → ε → Option σ) (cost : σ → ε → σ → ℕ) : σ → List ε → ℕ
  | _, [] => 0
  | s, e :: es =>
    match step s e with
    | some t => cost s e t + tally step cost t es
    | none => 0

theorem tally_cons {cost : σ → ε → σ → ℕ} {e : ε} {es : List ε} (h : step s e = some t) :
    tally step cost s (e :: es) = cost s e t + tally step cost t es := by
  rw [tally, h]

theorem tally_add (step : σ → ε → Option σ) (f g : σ → ε → σ → ℕ) (s : σ) (es : List ε) :
    tally step (fun s e t => f s e t + g s e t) s es = tally step f s es + tally step g s es := by
  induction es generalizing s with
  | nil => rfl
  | cons e es ih =>
    simp only [tally]
    split
    · rw [ih]
      omega
    · rfl

theorem tally_mul (step : σ → ε → Option σ) (n : ℕ) (f : σ → ε → σ → ℕ) (s : σ) (es : List ε) :
    tally step (fun s e t => n * f s e t) s es = n * tally step f s es := by
  induction es generalizing s with
  | nil => rfl
  | cons e es ih =>
    simp only [tally]
    split
    · rw [ih, Nat.mul_add]
    · rfl

/-- The potential method: if no step costs more than it pays and adds to the potential, no run
costs more than it pays and adds to the potential. -/
theorem Run.tally_le {cost paid : σ → ε → σ → ℕ} {V : σ → ℤ}
    (hstep : ∀ s e t, ok s e → step s e = some t → cost s e t + V s ≤ paid s e t + V t)
    {es : List ε} (h : Run step ok s es t) :
    (tally step cost s es : ℤ) + V s ≤ tally step paid s es + V t := by
  induction h with
  | nil => exact le_rfl
  | cons hok he _ ih =>
    have h1 := hstep _ _ _ hok he
    rw [tally_cons he, tally_cons he]
    push_cast
    linarith

end Amortized

section Simulation
variable {α τ : Type*} {next : τ → α → τ → Prop} {a b c : τ} {as bs : List α}

/-- A labelled run of a transition relation. -/
inductive Trace (next : τ → α → τ → Prop) : τ → List α → τ → Prop
  | nil {a : τ} : Trace next a [] a
  | cons {a b c : τ} {l : α} {ls : List α} :
    next a l b → Trace next b ls c → Trace next a (l :: ls) c

theorem Trace.append (h : Trace next a as b) (h' : Trace next b bs c) :
    Trace next a (as ++ bs) c := by
  induction h with
  | nil => exact h'
  | cons hl _ ih => exact .cons hl (ih h')

/-- Every step of an executed list of events is matched by a labelled step between the
images of its states. -/
theorem trace_of_exec [∀ s e, Decidable (ok s e)] {P : σ → Prop} {f : σ → τ} {m : ε → α → Prop}
    (hstep : ∀ s e t, P s → ok s e → step s e = some t →
      P t ∧ ∃ l, m e l ∧ next (f s) l (f t))
    {es : List ε} (h : exec step ok s es = some t) (hs : P s) :
    P t ∧ ∃ ls, List.Forall₂ m es ls ∧ Trace next (f s) ls (f t) := by
  induction es generalizing s with
  | nil =>
    cases h
    exact ⟨hs,[],.nil,.nil⟩
  | cons e es ih =>
    simp only [exec] at h
    split at h
    · next hok =>
      obtain ⟨u,hu,hr⟩ := Option.bind_eq_some_iff.mp h
      obtain ⟨hpu,l,hl,hn⟩ := hstep s e u hs hok hu
      obtain ⟨hpt,ls,hls,htr⟩ := ih hr hpu
      exact ⟨hpt,l :: ls,.cons hl hls,.cons hn htr⟩
    · cases h

end Simulation
end Transition
