import Scalloc.Heap.Pool
import Scalloc.Lib.Transition

/-! # The number of backends under any interleaving

Threads announce themselves and leave while others search the span pool. Every access to the
two counters is a step of its own, so the limit may change between any two reads of a search.
What a `Pop` finds is left open. Every remainder that is computed with the limit is recorded.
-/
namespace Scalloc.Backends
open Function Transition

/-- Where a thread is. `_i` and `_j` are the counters of the two loops of `Allocate`. -/
inductive Pc
  | out
  | announceLoad (newLimit : ℤ)
  | announceSwap (newLimit oldLimit : ℤ)
  | idle
  | allocateOwn (id : BitVec 16)
  | allocateStart (i : ℕ)
  | allocateTest (i : ℕ) (start : ℤ) (j : ℕ)
  | allocatePop (i : ℕ) (start : ℤ) (j : ℕ)
  | freePush (id : BitVec 16)
deriving DecidableEq, Repr

/-- One evaluation of `x % limit()`. -/
structure Remainder where
  limit : ℤ
  result : ℤ
deriving DecidableEq, Repr

/-- The counters, the threads and, for the statements, the announcements begun and ended. -/
structure State where
  currentThreads : ℤ
  limit : ℤ
  pc : ℕ → Pc
  remainders : List Remainder
  begun : ℕ
  ended : ℕ

/-- `SpanPool::Init`. -/
def init : State := ⟨0,0,fun _ => .out,[],0,0⟩

/-- A thread calls an operation of the pool, or goes on with the one it is in. `rand` is what
`hwrand` returns and `flag` whether a `Pop` finds a span or a compare-exchange fails spuriously. -/
inductive Event
  | announceNewThread (t : ℕ)
  | announceLeavingThread (t : ℕ)
  | allocate (t : ℕ) (id : BitVec 16)
  | free (t : ℕ) (id : BitVec 16)
  | thread (t : ℕ) (rand : BitVec 64) (flag : Bool)
deriving DecidableEq, Repr

/-- The value of an `int32_t` in an unsigned 64-bit expression. -/
def toUnsigned (x : ℤ) : ℤ := x % 2 ^ 64

def State.goto (st : State) (t : ℕ) (pc : Pc) : State := { st with pc := update st.pc t pc }

/-- `AnnounceNewThread` returns. -/
def State.announced (st : State) (t : ℕ) : State :=
  { st.goto t .idle with ended := st.ended + 1 }

/-- Thread `t` computes `result` as a remainder by the present limit and goes to `pc`. -/
def State.divide (st : State) (t : ℕ) (result : ℤ) (pc : Pc) : State :=
  { st.goto t pc with remainders := ⟨st.limit,result⟩ :: st.remainders }

/-- `AnnounceNewThread` up to the test of the new number of threads. -/
def announceNewThread (cfg : Config) (st : State) (t : ℕ) : State :=
  let newLimit := (st.currentThreads + 1).bmod (2 ^ 32)
  let st := { st with currentThreads := newLimit, begun := st.begun + 1 }
  if newLimit > cfg.cpus ∨ newLimit > cfg.hardLimit then st.announced t
  else st.goto t (.announceLoad newLimit)

/-- The next access of a thread to the shared words. -/
def threadStep (st : State) (t : ℕ) (rand : BitVec 64) (flag : Bool) : Option State :=
  match st.pc t with
  | .out => none
  | .idle => none
  | .announceLoad newLimit =>
    if newLimit ≤ st.limit then some (st.announced t)
    else some (st.goto t (.announceSwap newLimit st.limit))
  | .announceSwap newLimit oldLimit =>
    if st.limit = oldLimit ∧ flag = false then
      some { st.announced t with limit := oldLimit + 1 }
    else some (st.goto t (.announceLoad newLimit))
  | .allocateOwn id =>
    some (st.divide t (Int.tmod id.toNat st.limit) (if flag then .idle else .allocateStart 0))
  | .allocateStart i =>
    if i < kSizeClassSlots then
      let start := rand.toNat % toUnsigned st.limit
      some (st.divide t start (.allocateTest i start 0))
    else some (st.goto t .idle)
  | .allocateTest i start j =>
    if (j : ℤ) < st.limit then some (st.goto t (.allocatePop i start j))
    else some (st.goto t (.allocateStart (i + 1)))
  | .allocatePop i start j =>
    some (st.divide t ((start + j) % 2 ^ 64 % toUnsigned st.limit)
      (if flag then .idle else .allocateTest i start (j + 1)))
  | .freePush id => some (st.divide t (Int.tmod id.toNat st.limit) .idle)

def step (cfg : Config) (st : State) : Event → Option State
  | .announceNewThread t => if st.pc t = .out then some (announceNewThread cfg st t) else none
  | .announceLeavingThread t =>
    if st.pc t = .idle then
      some { st.goto t .out with currentThreads := (st.currentThreads - 1).bmod (2 ^ 32) }
    else none
  | .allocate t id => if st.pc t = .idle then some (st.goto t (.allocateOwn id)) else none
  | .free t id => if st.pc t = .idle then some (st.goto t (.freePush id)) else none
  | .thread t rand flag => threadStep st t rand flag

/-- The first announcement ends before any other thread begins. -/
def Permitted (st : State) : Event → Prop
  | .announceNewThread _ => st.begun = 0 ∨ 0 < st.ended
  | _ => True

instance : ∀ st e, Decidable (Permitted st e)
  | _, .announceNewThread _ => inferInstanceAs (Decidable (_ ∨ _))
  | _, .announceLeavingThread _ => .isTrue trivial
  | _, .allocate _ _ => .isTrue trivial
  | _, .free _ _ => .isTrue trivial
  | _, .thread _ _ _ => .isTrue trivial

/-- As many backends as `Init` allocates, the build permits and an `int32_t` counts. -/
def bound (cfg : Config) : ℤ := min (min cfg.cpus cfg.hardLimit) (2 ^ 31 - 1)

theorem one_le_bound (cfg : Config) : 1 ≤ bound cfg := by
  have h1 := cfg.cpus_pos
  have h2 := cfg.hardLimit_pos
  unfold bound
  omega

/-- A remainder by a limit that is not zero, inside the array of backends. -/
def Remainder.Inside (cfg : Config) (r : Remainder) : Prop :=
  r.limit ≠ 0 ∧ 0 ≤ r.result ∧ r.result < cfg.cpus

/-- What is known where a thread is: the limit it aims at is permitted, the one it read is
smaller, and whoever searches comes after the first announcement. -/
def Pc.Ok (cfg : Config) (ended : ℕ) : Pc → Prop
  | out => True
  | announceLoad newLimit => newLimit ≤ bound cfg ∧ (ended = 0 → 1 ≤ newLimit)
  | announceSwap newLimit oldLimit =>
    (newLimit ≤ bound cfg ∧ (ended = 0 → 1 ≤ newLimit)) ∧ 0 ≤ oldLimit ∧ oldLimit < newLimit
  | _ => 0 < ended

structure Inv (cfg : Config) (st : State) : Prop where
  limit_nonneg : 0 ≤ st.limit
  limit_le : st.limit ≤ bound cfg
  ended : 0 < st.ended → 1 ≤ st.limit
  begun : st.begun = 0 → st.currentThreads = 0 ∧ ∀ t, st.pc t = .out
  pc : ∀ t, (st.pc t).Ok cfg st.ended
  inside : ∀ r ∈ st.remainders, r.Inside cfg

theorem Pc.Ok.mono {cfg : Config} {n m : ℕ} {pc : Pc} (h : pc.Ok cfg n) (hnm : n ≤ m) :
    pc.Ok cfg m := by
  cases pc with
  | out => trivial
  | announceLoad newLimit => exact ⟨h.1,fun h0 => h.2 (by omega)⟩
  | announceSwap newLimit oldLimit => exact ⟨⟨h.1.1,fun h0 => h.1.2 (by omega)⟩,h.2⟩
  | _ => exact Nat.lt_of_lt_of_le (show 0 < n from h) hnm

theorem inv_init (cfg : Config) : Inv cfg init where
  limit_nonneg := le_rfl
  limit_le := by
    have h := one_le_bound cfg
    change (0 : ℤ) ≤ bound cfg
    omega
  ended := fun h => absurd h (lt_irrefl 0)
  begun := fun _ => ⟨rfl,fun _ => rfl⟩
  pc := fun _ => trivial
  inside := by simp [init]

section Steps
variable {cfg : Config} {st st' : State} {t : ℕ} {pc : Pc}

theorem Inv.limit_le_cpus (h : Inv cfg st) : st.limit ≤ cfg.cpus :=
  h.limit_le.trans ((min_le_left _ _).trans (min_le_left _ _))

theorem Inv.begun_ne (h : Inv cfg st) (ht : st.pc t ≠ .out) : st.begun ≠ 0 :=
  fun h0 => ht ((h.begun h0).2 t)

/-- A thread goes to a place that is sound there. -/
theorem Inv.goto (h : Inv cfg st) (hbegun : st.begun ≠ 0) (hpc : pc.Ok cfg st.ended) :
    Inv cfg (st.goto t pc) where
  limit_nonneg := h.limit_nonneg
  limit_le := h.limit_le
  ended := h.ended
  begun := fun h0 => absurd h0 hbegun
  pc := by
    intro u
    by_cases hu : u = t
    · subst hu
      simpa [State.goto] using hpc
    · simpa [State.goto, hu] using h.pc u
  inside := h.inside

/-- The end of an announcement, with a limit that is at least 1. -/
theorem Inv.announced {l : ℤ} (h : Inv cfg st) (hbegun : st.begun ≠ 0) (h1 : 1 ≤ l)
    (hb : l ≤ bound cfg) :
    Inv cfg { st.announced t with limit := l } where
  limit_nonneg := by
    change 0 ≤ l
    omega
  limit_le := hb
  ended := fun _ => h1
  begun := fun h0 => absurd h0 hbegun
  pc := by
    intro u
    by_cases hu : u = t
    · subst hu
      simp [State.announced, State.goto, Pc.Ok]
    · simpa [State.announced, State.goto, hu] using (h.pc u).mono (Nat.le_succ _)
  inside := h.inside

/-- A remainder by the present limit, once it is positive. -/
theorem Inv.divide {r : ℤ} (h : Inv cfg st) (hbegun : st.begun ≠ 0) (hended : 0 < st.ended)
    (hpc : pc.Ok cfg st.ended) (h0 : 0 ≤ r) (hr : r < st.limit) :
    Inv cfg (st.divide t r pc) where
  limit_nonneg := h.limit_nonneg
  limit_le := h.limit_le
  ended := h.ended
  begun := fun h0 => absurd h0 hbegun
  pc := (h.goto (t := t) hbegun hpc).pc
  inside := by
    intro x hx
    rcases List.mem_cons.mp hx with rfl | hx
    · have h1 := h.ended hended
      have hb := h.limit_le_cpus
      exact ⟨by change st.limit ≠ 0; omega,h0,by change r < cfg.cpus; omega⟩
    · exact h.inside x hx

/-- The unsigned value of the limit is the limit. -/
theorem Inv.toUnsigned_limit (h : Inv cfg st) : toUnsigned st.limit = st.limit := by
  have hb : st.limit ≤ 2 ^ 31 - 1 := h.limit_le.trans (min_le_right _ _)
  exact Int.emod_eq_of_lt h.limit_nonneg (by omega)

theorem bmod_le (x : ℤ) : x.bmod (2 ^ 32) ≤ 2 ^ 31 - 1 := by
  have h := Int.bmod_lt (x := x) (m := 2 ^ 32) (by decide)
  omega

/-- The first announcement aims at limit 1, the others find one that ended. -/
theorem Inv.announceNewThread (h : Inv cfg st) (hok : st.begun = 0 ∨ 0 < st.ended) :
    Inv cfg (announceNewThread cfg st t) := by
  have hone := one_le_bound cfg
  have hnew : st.begun = 0 → (st.currentThreads + 1).bmod (2 ^ 32) = 1 := by
    intro h0
    rw [(h.begun h0).1]
    decide
  have hle := bmod_le (st.currentThreads + 1)
  have hst : Inv cfg { st with
      currentThreads := (st.currentThreads + 1).bmod (2 ^ 32), begun := st.begun + 1 } :=
    ⟨h.limit_nonneg,h.limit_le,h.ended,fun h0 => absurd h0 (Nat.succ_ne_zero _),h.pc,h.inside⟩
  unfold Backends.announceNewThread
  dsimp only
  split
  · next hgt =>
    have hended : 0 < st.ended := by
      rcases hok with h0 | h0
      · have := hnew h0
        unfold bound at hone
        omega
      · exact h0
    exact hst.announced (Nat.succ_ne_zero _) (h.ended hended) h.limit_le
  · next hgt =>
    refine hst.goto (Nat.succ_ne_zero _) ⟨?_,?_⟩
    · unfold bound
      omega
    · intro h0
      rcases hok with hb | he
      · exact (hnew hb).ge
      · exact absurd h0 he.ne'

/-- Every step of a thread keeps the invariant. -/
theorem Inv.threadStep {rand : BitVec 64} {flag : Bool} (h : Inv cfg st)
    (hstep : threadStep st t rand flag = some st') : Inv cfg st' := by
  have hok := h.pc t
  have hbegun : st.begun ≠ 0 := by
    apply h.begun_ne (t := t)
    intro hout
    simp [Backends.threadStep, hout] at hstep
  unfold Backends.threadStep at hstep
  cases hpc : st.pc t with
  | out => simp [hpc] at hstep
  | idle => simp [hpc] at hstep
  | announceLoad newLimit =>
    rw [hpc] at hok
    simp only [hpc] at hstep
    split at hstep
    · next hle =>
      cases hstep
      by_cases he : st.ended = 0
      · have := hok.2 he
        exact h.announced (l := st.limit) hbegun (by omega) h.limit_le
      · exact h.announced hbegun (h.ended (Nat.pos_of_ne_zero he)) h.limit_le
    · next hgt =>
      cases hstep
      exact h.goto hbegun ⟨hok,h.limit_nonneg,not_le.mp hgt⟩
  | announceSwap newLimit oldLimit =>
    rw [hpc] at hok
    obtain ⟨hnew,h0,hlt⟩ := hok
    simp only [hpc] at hstep
    split at hstep
    · cases hstep
      have := hnew.1
      exact h.announced hbegun (by omega) (by omega)
    · cases hstep
      exact h.goto hbegun hnew
  | allocateOwn id =>
    rw [hpc] at hok
    simp only [hpc] at hstep
    cases hstep
    have h1 := h.ended hok
    refine h.divide hbegun hok ?_ (Int.tmod_nonneg _ (Int.natCast_nonneg _)) (Int.tmod_lt_of_pos _ (by omega))
    cases flag <;> exact hok
  | allocateStart i =>
    rw [hpc] at hok
    simp only [hpc] at hstep
    have h1 := h.ended hok
    split at hstep
    · cases hstep
      rw [h.toUnsigned_limit]
      exact h.divide hbegun hok hok (Int.emod_nonneg _ (by omega)) (Int.emod_lt_of_pos _ (by omega))
    · cases hstep
      exact h.goto hbegun hok
  | allocateTest i start j =>
    rw [hpc] at hok
    simp only [hpc] at hstep
    split at hstep
    · cases hstep
      exact h.goto hbegun hok
    · cases hstep
      exact h.goto hbegun hok
  | allocatePop i start j =>
    rw [hpc] at hok
    simp only [hpc] at hstep
    cases hstep
    have h1 := h.ended hok
    rw [h.toUnsigned_limit]
    refine h.divide hbegun hok ?_ (Int.emod_nonneg _ (by omega)) (Int.emod_lt_of_pos _ (by omega))
    cases flag <;> exact hok
  | freePush id =>
    rw [hpc] at hok
    simp only [hpc] at hstep
    cases hstep
    have h1 := h.ended hok
    exact h.divide hbegun hok hok (Int.tmod_nonneg _ (Int.natCast_nonneg _)) (Int.tmod_lt_of_pos _ (by omega))

theorem Inv.step {e : Event} (h : Inv cfg st) (hok : Permitted st e)
    (hstep : step cfg st e = some st') : Inv cfg st' := by
  cases e with
  | announceNewThread t =>
    simp only [Backends.step] at hstep
    split at hstep
    · cases hstep
      exact h.announceNewThread hok
    · cases hstep
  | announceLeavingThread t =>
    simp only [Backends.step] at hstep
    split at hstep
    · next hidle =>
      cases hstep
      have hbegun := h.begun_ne (t := t) (by simp [hidle])
      have hg : Inv cfg (st.goto t .out) := h.goto hbegun trivial
      exact ⟨hg.limit_nonneg,hg.limit_le,hg.ended,fun h0 => absurd h0 hbegun,hg.pc,hg.inside⟩
    · cases hstep
  | allocate t id =>
    simp only [Backends.step] at hstep
    split at hstep
    · next hidle =>
      cases hstep
      have hpc := h.pc t
      rw [hidle] at hpc
      exact h.goto (h.begun_ne (t := t) (by simp [hidle])) hpc
    · cases hstep
  | free t id =>
    simp only [Backends.step] at hstep
    split at hstep
    · next hidle =>
      cases hstep
      have hpc := h.pc t
      rw [hidle] at hpc
      exact h.goto (h.begun_ne (t := t) (by simp [hidle])) hpc
    · cases hstep
  | thread t rand flag => exact h.threadStep hstep

/-- Only a successful exchange writes the limit, and it counts it up. -/
theorem limit_le_of_step {e : Event} (hstep : step cfg st e = some st') : st.limit ≤ st'.limit := by
  cases e with
  | announceNewThread t =>
    simp only [Backends.step, Backends.announceNewThread] at hstep
    split at hstep
    · cases hstep
      split <;> exact le_rfl
    · cases hstep
  | announceLeavingThread t =>
    simp only [Backends.step] at hstep
    split at hstep <;> cases hstep
    exact le_rfl
  | allocate t id =>
    simp only [Backends.step] at hstep
    split at hstep <;> cases hstep
    exact le_rfl
  | free t id =>
    simp only [Backends.step] at hstep
    split at hstep <;> cases hstep
    exact le_rfl
  | thread t rand flag =>
    simp only [Backends.step, Backends.threadStep] at hstep
    split at hstep
    · cases hstep
    · cases hstep
    · split at hstep <;> cases hstep <;> exact le_rfl
    · split at hstep
      · next hcas =>
        cases hstep
        exact hcas.1.le.trans (Int.le_add_of_nonneg_right (by decide))
      · cases hstep
        exact le_rfl
    · cases hstep
      exact le_rfl
    · split at hstep <;> cases hstep <;> exact le_rfl
    · split at hstep <;> cases hstep <;> exact le_rfl
    · cases hstep
      exact le_rfl
    · cases hstep
      exact le_rfl

theorem inv_of_runs (h : Runs (Backends.step cfg) Permitted init st) : Inv cfg st :=
  h.invariant (inv_init cfg) fun _ _ _ hi hok hs => hi.step hok hs

/-- In every interleaving the limit never falls; from the end of the first announcement on it
is at least 1 and at most the number of processors and of permitted backends, and every
remainder by it is taken by a number other than 0 and lies inside the array of backends. -/
theorem limit_of_runs (hs : Runs (Backends.step cfg) Permitted init st)
    (ht : Runs (Backends.step cfg) Permitted st st') :
    st.limit ≤ st'.limit ∧
    (0 < st'.ended → 1 ≤ st'.limit ∧ st'.limit ≤ min (cfg.cpus : ℤ) cfg.hardLimit) ∧
    ∀ r ∈ st'.remainders, r.limit ≠ 0 ∧ 0 ≤ r.result ∧ r.result < cfg.cpus := by
  have hi : Inv cfg st' :=
    ht.invariant (inv_of_runs hs) fun _ _ _ hi hok hs => hi.step hok hs
  refine ⟨?_,?_,hi.inside⟩
  · exact ht.invariant (P := fun u => st.limit ≤ u.limit) le_rfl
      fun _ _ _ hle _ hs => hle.trans (limit_le_of_step hs)
  · intro hended
    exact ⟨hi.ended hended,hi.limit_le.trans (min_le_left _ _)⟩

end Steps

/-- Two processors. -/
def twoCpus : Config where
  cpus := 2
  cpus_pos := by decide
  hardLimit_pos := Nat.succ_pos 16383

/-- The limit rises to 2 between two remainders of one search. -/
theorem limit_duringSearch : ∃ st, Runs (step twoCpus) Permitted init st ∧
    st.limit = 2 ∧ st.remainders = [⟨2,1⟩, ⟨1,0⟩] ∧ init.limit ≤ st.limit ∧
    (0 < st.ended → 1 ≤ st.limit ∧ st.limit ≤ min (twoCpus.cpus : ℤ) twoCpus.hardLimit) ∧
    ∀ r ∈ st.remainders, r.limit ≠ 0 ∧ 0 ≤ r.result ∧ r.result < twoCpus.cpus := by
  have h0 : Runs (step twoCpus) Permitted init _ := .refl
  have h1 := h0.tail (e := Event.announceNewThread 0) (.inl rfl) rfl
  have h2 := h1.tail (e := Event.thread 0 0#64 false) trivial rfl
  have h3 := h2.tail (e := Event.thread 0 0#64 false) trivial rfl
  have h4 := h3.tail (e := Event.allocate 0 5#16) trivial rfl
  have h5 := h4.tail (e := Event.thread 0 0#64 false) trivial rfl
  have h6 := h5.tail (e := Event.announceNewThread 1) (.inr (by decide)) rfl
  have h7 := h6.tail (e := Event.thread 1 0#64 false) trivial rfl
  have h8 := h7.tail (e := Event.thread 1 0#64 false) trivial rfl
  have h9 := h8.tail (e := Event.thread 0 7#64 false) trivial rfl
  exact ⟨_,h9,rfl,rfl,limit_of_runs .refl h9⟩

end Scalloc.Backends
