import Scalloc.Heap.StepInvariant

/-! # A span is never in a deque and in the pool at once

This holds in every undisturbed run. In arbitrary runs it breaks: between `NewMarkReuse` and
`PushFront` another thread can delete the span.
-/
namespace Scalloc.Stepwise
open Epoch Transition

variable {m : Machine} {st st' : State} {c c' : ℕ}

theorem Pc.held_of_rests {pc : Pc} (h : pc.rests) : pc.held = none ∧ pc.fetching = none := by
  cases pc <;> first | exact ⟨rfl,rfl⟩ | cases h

/-- A step of a thread changes no other thread. -/
theorem popLocal_pc (hc : c' ≠ c) (sc : ℕ) (pc : Pc) : (popLocal st c sc pc).pc c' = st.pc c' := by
  unfold popLocal
  split
  · exact State.goto_pc_of_ne hc
  · exact State.goto_pc_of_ne hc

theorem freeStep_pc (hc : c' ≠ c) (h : freeStep m st c = some st') : st'.pc c' = st.pc c' := by
  unfold freeStep at h
  repeat' split at h
  all_goals first | cases h; exact State.goto_pc_of_ne hc | cases h

theorem allocateStep_pc (hc : c' ≠ c) (h : allocateStep m st c = some st') :
    st'.pc c' = st.pc c' := by
  unfold allocateStep at h
  repeat' split at h
  all_goals first | cases h; exact State.goto_pc_of_ne hc | cases h; exact popLocal_pc hc _ _ | cases h

theorem fetchStep_pc {rand : ℕ → ℕ} (hc : c' ≠ c) (h : fetchStep m st c rand = some st') :
    st'.pc c' = st.pc c' := by
  unfold fetchStep at h
  dsimp only at h
  repeat' split at h
  all_goals first | cases h; exact State.goto_pc_of_ne hc | cases h

theorem step_next {rand : ℕ → ℕ} (h : step m st (.next c rand) = some st') :
    freeStep m st c = some st' ∨ allocateStep m st c = some st' ∨ fetchStep m st c rand = some st' := by
  rw [step, Option.or_eq_some_iff, Option.or_eq_some_iff] at h
  rcases h with (h | ⟨_,h⟩) | ⟨_,h⟩
  · exact .inl h
  · exact .inr (.inl h)
  · exact .inr (.inr h)

theorem step_pc {e : Event} (h0 : st.pc 0 = .idle) (h : step m st e = some st') :
    st'.pc 0 = .idle := by
  cases e with
  | allocate c size =>
    rw [step] at h
    split at h
    · next hok =>
      cases h
      rw [State.goto_pc_of_ne hok.1.symm, h0]
    · cases h
  | free c p =>
    rw [step] at h
    split at h
    · next hok =>
      cases h
      rw [State.goto_pc_of_ne hok.1.symm]
      exact h0
    · cases h
  | next c rand =>
    have hc : 0 ≠ c := by
      rintro rfl
      simp [step, freeStep, allocateStep, fetchStep, h0] at h
    rw [← h0]
    rcases step_next h with h | h | h
    · exact freeStep_pc hc h
    · exact allocateStep_pc hc h
    · exact fetchStep_pc hc h

theorem Inv.beginAllocate (hi : Inv m st) {sc : ℕ} (hrests : (st.pc c).rests)
    (hsc : IsObjectClass sc) :
    Inv m (st.goto c (if st.hot c sc = 0 then .removeBack ⟨sc,true⟩ else .allocate sc)) := by
  obtain ⟨hheld,hfetch⟩ := Pc.held_of_rests hrests
  split
  · next h0 =>
    refine hi.goto (l := st.live) hheld.symm ?_ (fun _ _ hne => absurd hheld hne) hi.live hsc
    intro sc'
    rw [State.slot_goto_self, State.slot, hfetch]
    by_cases hsc' : sc = sc'
    · subst hsc'
      simp [Pc.fetching, h0]
    · simp [Pc.fetching, hsc']
  · next hne => exact hi.load hheld rfl hfetch.symm ⟨hsc,hne⟩

theorem Inv.beginFree (hi : Inv m st) {p : ℕ} (hrests : (st.pc c).rests) (hp : p ∈ st.live) :
    Inv m ({ st with live := st.live.erase p }.goto c (.loadEpoch p)) := by
  obtain ⟨hheld,hfetch⟩ := Pc.held_of_rests hrests
  refine hi.goto hheld.symm ?_ (fun _ _ hne => absurd hheld hne)
    (fun q hq => hi.live q (List.mem_of_mem_erase hq)) (hi.live p hp)
  intro sc
  rw [State.slot_goto_self, State.slot, hfetch]
  rfl

/-- A step of an undisturbed run keeps the invariant. -/
theorem Inv.step {e : Event} (hi : Inv m st) (h0 : st.pc 0 = .idle) (hok : Undisturbed st e)
    (h : Stepwise.step m st e = some st') : Inv m st' := by
  cases e with
  | allocate c size =>
    rw [Stepwise.step] at h
    split at h
    · next hcall =>
      cases h
      exact hi.beginAllocate hcall.2.1 (sizeToClass_isObjectClass hcall.2.2.1 hcall.2.2.2)
    · cases h
  | free c p =>
    rw [Stepwise.step] at h
    split at h
    · next hcall =>
      cases h
      exact hi.beginFree hcall.2.1 hcall.2.2
    · cases h
  | next c rand =>
    have hc : c ≠ 0 := by
      rintro rfl
      simp [Stepwise.step, Stepwise.freeStep, Stepwise.allocateStep, Stepwise.fetchStep, h0] at h
    rcases step_next h with h | h | h
    · refine hi.freeStep h fun f hpc => ?_
      simpa only [Undisturbed, hpc] using hok
    · exact hi.allocateStep h
    · refine hi.fetchStep hc h fun g s e hpc => ?_
      simpa only [Undisturbed, hpc] using hok

theorem not_known_init (l : Layout) (s : ℕ) : ¬ (init m l).Known s := by
  rintro ⟨h1,h2,_⟩
  exact absurd (h1.trans_lt h2) (lt_irrefl _)

theorem inv_init (m : Machine) (l : Layout) : Inv m (init m l) where
  arena := Heap.arenaInv_init l
  placed := fun s hk => absurd hk (not_known_init l s)
  absent := by
    intro s _
    refine ⟨?_,?_,?_,?_,rfl⟩
    · intro c sc h
      exact h.symm
    · intro c sc
      exact List.not_mem_nil
    · intro a b
      exact List.not_mem_nil
    · intro c h
      cases h
  valid := fun _ => valid_zero
  nodup := fun _ _ => List.nodup_nil
  poolNodup := fun _ _ => List.nodup_nil
  knows := fun _ => trivial
  owners := fun s hu => absurd hu.1 (not_known_init l s)
  lists := fun _ _ hp => absurd hp (by simp [init, Header.zero])
  live := fun _ hp => absurd hp List.not_mem_nil

theorem inv_of_runs {l : Layout} (hr : Runs (step m) Undisturbed (init m l) st) : Inv m st := by
  have hboth : Inv m st ∧ st.pc 0 = .idle := by
    refine hr.invariant (P := fun st => Inv m st ∧ st.pc 0 = .idle) ⟨inv_init m l,rfl⟩ ?_
    rintro st e st' ⟨hi,h0⟩ hok h
    exact ⟨hi.step h0 hok h,step_pc h0 h⟩
  exact hboth.1

/-- No span is in a deque of a core and in a stack of the span pool. -/
def State.Apart (st : State) : Prop :=
  ∀ s c sc a b, s ∈ st.deque c sc → s ∉ st.pool.spans a b

theorem Inv.apart (hi : Inv m st) : st.Apart := by
  intro s c sc a b hd hp
  by_cases hk : st.Known s
  · obtain ⟨w,hat⟩ := hi.placed s hk
    obtain rfl := (hat.pool a b).mp hp
    cases (hat.deque c sc).mp hd
  · exact (hi.absent s hk).2.1 c sc hd

/-- In every undisturbed run no span is in a deque and in the pool at once. -/
theorem apart_of_runs (m : Machine) (l : Layout) :
    ∀ st, Runs (step m) Undisturbed (init m l) st → st.Apart :=
  fun _ hr => (inv_of_runs hr).apart

/-- The machine of the examples. -/
def sampleMachine : Machine := ⟨80,1,fun c => BitVec.ofNat 16 c⟩

/-- Thread `c` takes `n` steps. -/
def nexts (c n : ℕ) : List Event := List.replicate n (.next c fun _ => 0)

/-- Thread `c` frees the object `i` of the first span of 8 objects and takes `n` steps. -/
def frees (c i n : ℕ) : List Event :=
  .free c (kObjectSpaceSize + 128 + i * 131072) :: nexts c n

/-- Thread 1 uses up a span of 8 objects and gives it up. Thread 2 frees 6 of them. -/
def spentEvents : List Event :=
  .allocate 1 131072 :: nexts 1 25 ++
    (List.replicate 7 (.allocate 1 131072 :: nexts 1 1)).flatten ++
    .allocate 1 131072 :: nexts 1 5 ++ ((List.range 6).map fun i => frees 2 i 8).flatten

/-- Thread 2 frees the seventh object and links the span, and thread 3 frees the last one. -/
theorem apart_spentEvents : ∃ st, Runs (step sampleMachine) Undisturbed
    (init sampleMachine sampleLayout) st ∧ st.Apart ∧ kObjectSpaceSize ∈ st.pool.spans 8 0 := by
  have hrun : (exec (step sampleMachine) Undisturbed (init sampleMachine sampleLayout)
      (spentEvents ++ frees 2 6 10 ++ frees 3 7 12)).map (fun st => st.pool.spans 8 0) =
      some [kObjectSpaceSize] := by decide +kernel
  obtain ⟨st,hst,hval⟩ := Option.map_eq_some_iff.mp hrun
  refine ⟨st,runs_of_exec hst,apart_of_runs sampleMachine sampleLayout st (runs_of_exec hst),?_⟩
  rw [hval]
  exact List.mem_singleton_self _

/-- Thread 2 is between `NewMarkReuse` and `PushFront` with the seventh object. Thread 3 frees
the last one and deletes the span. Then thread 2 goes on. -/
def lateEvents : List Event := spentEvents ++ frees 2 6 9 ++ frees 3 7 12 ++ nexts 2 1

theorem lateEvents_run : ∃ st, Runs (step sampleMachine) Always (init sampleMachine sampleLayout) st ∧
    kObjectSpaceSize ∈ st.deque 1 25 ∧ kObjectSpaceSize ∈ st.pool.spans 8 0 := by
  have hrun : (exec (step sampleMachine) Always (init sampleMachine sampleLayout)
      lateEvents).map (fun st => (st.deque 1 25,st.pool.spans 8 0)) =
      some ([kObjectSpaceSize],[kObjectSpaceSize]) := by decide +kernel
  obtain ⟨st,hst,hval⟩ := Option.map_eq_some_iff.mp hrun
  simp only [Prod.mk.injEq] at hval
  refine ⟨st,runs_of_exec hst,?_,?_⟩
  · rw [hval.1]
    exact List.mem_singleton_self _
  · rw [hval.2]
    exact List.mem_singleton_self _

theorem not_apart_lateEvents : ¬ ∀ (m : Machine) (l : Layout) (st : State),
    Runs (step m) Always (init m l) st → st.Apart := by
  intro hall
  obtain ⟨st,hr,hd,hp⟩ := lateEvents_run
  exact hall _ _ st hr _ _ _ _ _ hd hp

end Scalloc.Stepwise
