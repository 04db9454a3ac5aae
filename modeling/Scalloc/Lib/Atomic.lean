import Scalloc.Lib.Transition

/-! # Atomic objects

Clients call the operations of an object at the same time. The atomic object of a sequential
specification serves each call at one moment between its invocation and its response. A history
of invocations and responses is linearizable when the atomic object has it, and a system whose
steps the atomic object can follow has linearizable histories only.
-/
namespace Atomic
open Transition
variable {σ ι ω ρ : Type*}

/-- What can be seen of the object. -/
inductive Visible (ι ω ρ : Type*)
  | call (i : ι) (op : ω)
  | ret (i : ι) (r : ρ)

/-- Where the call of a client stands. -/
inductive Phase (ω ρ : Type*)
  | ready
  | called (op : ω)
  | served (r : ρ)

structure Object (σ ι ω ρ : Type*) where
  store : σ
  phase : ι → Phase ω ρ

variable [DecidableEq ι]

namespace Object

/-- A client goes on to a phase. -/
def goto (o : Object σ ι ω ρ) (i : ι) (x : Phase ω ρ) : Object σ ι ω ρ :=
  { o with phase := Function.update o.phase i x }

variable {o : Object σ ι ω ρ} {i j : ι} {x : Phase ω ρ}

@[simp] theorem goto_store : (o.goto i x).store = o.store := rfl
@[simp] theorem goto_self : (o.goto i x).phase i = x := Function.update_self ..

theorem goto_of_ne (h : j ≠ i) : (o.goto i x).phase j = o.phase j := Function.update_of_ne h ..

end Object

variable (spec : σ → ω → ρ → σ → Prop)

/-- The runs of the atomic object with what can be seen of them. -/
inductive History : Object σ ι ω ρ → List (Visible ι ω ρ) → Object σ ι ω ρ → Prop
  | nil {o : Object σ ι ω ρ} : History o [] o
  | call {o o' : Object σ ι ω ρ} {i : ι} {op : ω} {vs : List (Visible ι ω ρ)}
    (hready : o.phase i = .ready) :
    History (o.goto i (.called op)) vs o' → History o (.call i op :: vs) o'
  | serve {o o' : Object σ ι ω ρ} {i : ι} {op : ω} {r : ρ} {τ : σ} {vs : List (Visible ι ω ρ)}
    (hcalled : o.phase i = .called op) (hspec : spec o.store op r τ) :
    History ({ o with store := τ }.goto i (.served r)) vs o' → History o vs o'
  | ret {o o' : Object σ ι ω ρ} {i : ι} {r : ρ} {vs : List (Visible ι ω ρ)}
    (hserved : o.phase i = .served r) :
    History (o.goto i .ready) vs o' → History o (.ret i r :: vs) o'

variable {spec} {o o' o'' : Object σ ι ω ρ} {vs ws : List (Visible ι ω ρ)}

theorem History.append (h : History spec o vs o') (h' : History spec o' ws o'') :
    History spec o (vs ++ ws) o'' := by
  induction h with
  | nil => exact h'
  | call hready _ ih => exact .call hready (ih h')
  | serve hcalled hspec _ ih => exact .serve hcalled hspec (ih h')
  | ret hserved _ ih => exact .ret hserved (ih h')

section Simulation
variable {S E : Type*} {step : S → E → Option S} {ok : S → E → Prop}

/-- What can be seen of a list of events, where `shows` says it of one step. -/
def visible (step : S → E → Option S) (shows : S → E → S → List (Visible ι ω ρ)) :
    S → List E → List (Visible ι ω ρ)
  | _, [] => []
  | s, e :: es =>
    match step s e with
    | some t => shows s e t ++ visible step shows t es
    | none => []

/-- The atomic object follows every run if it follows every step. -/
theorem history_of_run {R : S → Object σ ι ω ρ → Prop} {shows : S → E → S → List (Visible ι ω ρ)}
    (hstep : ∀ s e t o, R s o → ok s e → step s e = some t →
      ∃ o', History spec o (shows s e t) o' ∧ R t o')
    {es : List E} {s t : S} (h : Run step ok s es t) (hR : R s o) :
    ∃ o', History spec o (visible step shows s es) o' ∧ R t o' := by
  induction h generalizing o with
  | nil => exact ⟨o,.nil,hR⟩
  | cons hok he _ ih =>
    obtain ⟨o',hist,hR'⟩ := hstep _ _ _ o hR hok he
    obtain ⟨o'',hist',hR''⟩ := ih hR'
    refine ⟨o'',?_,hR''⟩
    rw [visible, he]
    exact hist.append hist'

end Simulation
end Atomic
