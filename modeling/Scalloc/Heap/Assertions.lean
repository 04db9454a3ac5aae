import Scalloc.Heap.Integrity

/-! # No assertion fails

A debug build checks what its authors believed about owners, links, epochs and counts. In
runs of indivisible calls every check passes: each is a consequence of the invariant of the
heap, with the number of backends as the only addition.
-/
namespace Scalloc
open Transition

/-- The call is enabled and ends in the failure of assertion `a`. -/
def State.Violates (cfg : Config) (st : State) (a : Assertion) : Event → Prop
  | .start t => st.heap.tls t = 0 ∧ st.heap.getMeALAB cfg t = .error (.assertion a)
  | .exit t => st.heap.tls t ≠ 0 ∧ st.heap.threadDestructor cfg t = .error (.assertion a)
  | .allocate t size rand => st.heap.tls t ≠ 0 ∧ 0 < size ∧ size ≤ kMaxMediumSize ∧
      st.heap.allocate cfg (st.heap.tls t) size rand = .error (.assertion a)
  | .free t b => st.heap.tls t ≠ 0 ∧ b ∈ st.live ∧
      st.heap.free cfg (st.heap.tls t) b.start = .error (.assertion a)
  | .write _ _ _ => False

namespace State
variable {cfg : Config} {st : State} {a : Assertion} {t : ℕ}

/-- `GetMeALAB` checks nothing; it fails only without memory for a core. -/
theorem start_not_violates (h : Heap) : h.getMeALAB cfg t ≠ .error (.assertion a) := by
  intro he
  have hfind : ∀ e, h.findFreeAB = .error e → e = .coreSpaceOOM := by
    intro e hf
    unfold Heap.findFreeAB at hf
    split at hf
    · cases hf
    · split at hf
      · exact (Except.error.inj hf).symm
      · cases hf
  cases hf : h.findFreeAB with
  | error e =>
    rw [Heap.getMeALAB, hf, hfind e hf] at he
    cases Except.error.inj he
  | ok r =>
    rw [Heap.getMeALAB, hf] at he
    cases he

theorem Inv.not_violates (hi : Inv cfg st) (e : Event) : ¬ st.Violates cfg a e := by
  cases e with
  | start t =>
    rintro ⟨_,he⟩
    exact start_not_violates st.heap he
  | exit t =>
    rintro ⟨_,he⟩
    rw [Heap.threadDestructor_ok cfg hi.heap.board t] at he
    cases he
  | allocate t size rand =>
    rintro ⟨ht,h1,h2,he⟩
    rcases Heap.allocate_ok hi.heap (hi.core ht).1 ht (hi.threads.limit_ne_zero ht) h1 h2 rand with hoom | ⟨r,hok,_⟩
    · cases Except.error.inj (he.symm.trans hoom)
    · cases he.symm.trans hok
  | free t b =>
    rintro ⟨ht,hb,he⟩
    obtain ⟨h',hok,_⟩ := hi.free_ok ht hb
    cases he.symm.trans hok
  | write b x v => exact id

end State

/-- In no reachable state can a call of a default build fail an assertion. -/
theorem not_violates_of_reachable {cfg : Config} (_hcfg : cfg.Default) {st : State}
    (h : Reachable cfg st) (a : Assertion) (e : Event) : ¬ st.Violates cfg a e :=
  h.inv.not_violates e

/-- The machine of the examples in a debug build. -/
def debugConfig : Config := { sampleConfig with debug := true }

/-- The state after two threads shared a block and one of them exited. -/
theorem not_violates_sampleEvents : ∃ st,
    exec (step debugConfig) Always (State.init sampleLayout false) sampleEvents = some st ∧
      debugConfig.debug = true ∧ st.live.length = 3 ∧ ∀ a e, ¬ st.Violates debugConfig a e := by
  have hrun : (exec (step debugConfig) Always (State.init sampleLayout false) sampleEvents).map
      (fun st => st.live.length) = some 3 := by decide +kernel
  obtain ⟨st,hst,hlen⟩ := Option.map_eq_some_iff.mp hrun
  exact ⟨st,hst,rfl,hlen,fun a e => not_violates_of_reachable ⟨rfl,rfl⟩
    ⟨sampleLayout,false,runs_of_exec hst⟩ a e⟩

end Scalloc
