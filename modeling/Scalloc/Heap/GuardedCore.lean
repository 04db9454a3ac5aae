import Scalloc.Lib.Transition

/-! # The lock elision of a guarded core

In the round-robin build several threads share a core. A thread attaches by counting itself
and waiting until the core is not in use; every call then raises the flag, skips the lock if
only one thread was ever counted, and clears the flag at its end. The flag is shared, so a
locked caller may clear it while another one is still inside.
-/
namespace Scalloc.GuardedCore
open Function Transition

/-- A `pthread_t`. -/
abbrev Thread := BitVec 64

/-- The two calls that the guard wraps. -/
inductive Call
  | allocate
  | free
deriving DecidableEq, Repr

/-- Where a thread is in `GetAB`, and then in a call. -/
inductive Pc
  | detached
  | waiting
  | idle
  | acquire (c : Call)
  | readThreads (c : Call)
  | unlockedBody (c : Call)
  | takeLock (c : Call)
  | lockedBody (c : Call)
  | unlock (c : Call)
  | release (c : Call)
deriving DecidableEq, Repr

/-- Inside `Core::Allocate` or `Core::Free`. -/
def Pc.InBody : Pc → Prop
  | unlockedBody _ => True
  | lockedBody _ => True
  | _ => False

/-- Between taking and giving back the lock. -/
def Pc.HoldsLock : Pc → Prop
  | lockedBody _ => True
  | unlock _ => True
  | _ => False

/-- Not yet through `GetAB`. -/
def Pc.Outside : Pc → Prop
  | detached => True
  | waiting => True
  | _ => False

/-- Relies on the flag that it has raised. -/
def Pc.Relies : Pc → Prop
  | readThreads _ => True
  | unlockedBody _ => True
  | _ => False

/-- The words of the guard and, for the statements, the threads counted so far. -/
structure State where
  numThreads : BitVec 64
  inUse : Bool
  coreLock : Bool
  pc : Thread → Pc
  announced : List Thread

/-- `GuardedCore::GuardedCore`. -/
def new : State := ⟨0,false,false,fun _ => .detached,[]⟩

/-- A thread attaches, calls the core, or makes its next step. -/
inductive Event
  | getAB (t : Thread)
  | call (t : Thread) (c : Call)
  | thread (t : Thread)
deriving DecidableEq, Repr

def State.goto (st : State) (t : Thread) (pc : Pc) : State := { st with pc := update st.pc t pc }

/-- The next step of a thread that is not idle. A waiting thread, at the flag or at the lock,
may find nothing changed. -/
def threadStep (st : State) (t : Thread) : Option State :=
  match st.pc t with
  | .detached => none
  | .idle => none
  | .waiting => if st.inUse then some st else some (st.goto t .idle)
  | .acquire c => some { st.goto t (.readThreads c) with inUse := true }
  | .readThreads c =>
    if st.numThreads = 1 then some (st.goto t (.unlockedBody c)) else some (st.goto t (.takeLock c))
  | .unlockedBody c => some (st.goto t (.release c))
  | .takeLock c =>
    if st.coreLock then some st else some { st.goto t (.lockedBody c) with coreLock := true }
  | .lockedBody c => some (st.goto t (.unlock c))
  | .unlock c => some { st.goto t (.release c) with coreLock := false }
  | .release _ => some { st.goto t .idle with inUse := false }

def step (st : State) : Event → Option State
  | .getAB t =>
    if st.pc t = .detached then
      some { st.goto t .waiting with
        numThreads := st.numThreads + 1, announced := t :: st.announced }
    else none
  | .call t c => if st.pc t = .idle then some (st.goto t (.acquire c)) else none
  | .thread t => threadStep st t

/-- Every other thread is still outside. -/
def Alone (st : State) (t : Thread) : Prop := ∀ u, u ≠ t → (st.pc u).Outside

structure Inv (st : State) : Prop where
  counted : st.numThreads = BitVec.ofNat 64 st.announced.length
  nodup : st.announced.Nodup
  announced : ∀ t, t ∈ st.announced ↔ st.pc t ≠ .detached
  locked : ∀ t, (st.pc t).HoldsLock → st.coreLock = true
  holder : ∀ t u, (st.pc t).HoldsLock → (st.pc u).HoldsLock → t = u
  alone : ∀ t c, st.pc t = .unlockedBody c → Alone st t
  inUse : ∀ t, Alone st t → (st.pc t).Relies → st.inUse = true

theorem inv_new : Inv new where
  counted := rfl
  nodup := List.nodup_nil
  announced := by simp [new]
  locked := fun t h => h.elim
  holder := fun t u h => h.elim
  alone := by simp [new]
  inUse := fun t _ h => h.elim

section Steps
variable {st st' : State} {t : Thread} {pc : Pc}

@[simp] theorem pc_goto_self : (st.goto t pc).pc t = pc := update_self ..

theorem pc_goto_ne {u : Thread} (hu : u ≠ t) : (st.goto t pc).pc u = st.pc u := update_of_ne hu ..

/-- What holds of a thread's place after the move, but not of the place moved to, held before. -/
theorem of_goto {P : Pc → Prop} {u : Thread} (hpc : ¬ P pc) (hu : P ((st.goto t pc).pc u)) :
    u ≠ t ∧ P (st.pc u) := by
  by_cases hut : u = t
  · rw [hut, pc_goto_self] at hu
    exact absurd hu hpc
  · exact ⟨hut,by rwa [pc_goto_ne hut] at hu⟩

/-- No two threads are inside: without the lock one is alone, and the lock has one holder. -/
theorem Inv.exclusive (h : Inv st) {u : Thread} (ht : (st.pc t).InBody) (hu : (st.pc u).InBody) :
    t = u := by
  have hout : ∀ x y c, x ≠ y → st.pc x = .unlockedBody c → ¬ (st.pc y).InBody := by
    intro x y c hne hx hy
    have ho := h.alone x c hx y hne.symm
    cases hy' : st.pc y <;> simp [hy', Pc.Outside, Pc.InBody] at ho hy
  by_contra hne
  cases hpt : st.pc t with
  | unlockedBody c => exact hout t u c hne hpt hu
  | lockedBody c =>
    cases hpu : st.pc u with
    | unlockedBody c' => exact hout u t c' (Ne.symm hne) hpu ht
    | lockedBody c' => exact hne (h.holder t u (by simp [hpt, Pc.HoldsLock]) (by simp [hpu, Pc.HoldsLock]))
    | _ => simp [hpu, Pc.InBody] at hu
  | _ => simp [hpt, Pc.InBody] at ht

/-- The counter is 1 only if one thread was counted: there are no more identities than values. -/
theorem Inv.length_eq_one (h : Inv st) (h1 : st.numThreads = 1) : st.announced.length = 1 := by
  have hcard : st.announced.length ≤ 2 ^ 64 := by
    have hle := h.nodup.length_le_card
    rwa [Fintype.card_congr (BitVec.equivFin (m := 64)).toEquiv, Fintype.card_fin] at hle
  have hmod : st.announced.length % 2 ^ 64 = 1 := by
    have heq := h.counted.symm.trans h1
    simpa using congrArg BitVec.toNat heq
  omega

theorem Inv.alone_of_one (h : Inv st) (h1 : st.numThreads = 1) (ht : st.pc t ≠ .detached) :
    Alone st t := by
  obtain ⟨x,hx⟩ := List.length_eq_one_iff.mp (h.length_eq_one h1)
  intro u hu
  cases hpu : st.pc u with
  | detached => trivial
  | _ =>
    have htx := (h.announced t).mpr ht
    have hux := (h.announced u).mpr (by simp [hpu])
    rw [hx, List.mem_singleton] at htx hux
    exact absurd (hux.trans htx.symm) hu

/-- A thread that is through `GetAB` moves on inside its call. -/
theorem Inv.inside {b l : Bool} (h : Inv st) (hin : ¬ (st.pc t).Outside) (hin' : ¬ pc.Outside)
    (hlocked : ∀ u, u ≠ t → (st.pc u).HoldsLock → l = true)
    (hholds : pc.HoldsLock → l = true ∧ ∀ u, u ≠ t → ¬ (st.pc u).HoldsLock)
    (hbody : ∀ c, pc = .unlockedBody c → Alone st t)
    (huse : Alone st t → pc.Relies → b = true) :
    Inv { st.goto t pc with inUse := b, coreLock := l } := by
  refine ⟨h.counted,h.nodup,?_,?_,?_,?_,?_⟩
  · intro u
    by_cases hut : u = t
    · have hd : st.pc t ≠ .detached := fun hd => hin (by rw [hd]; trivial)
      have hd' : pc ≠ .detached := fun hd => hin' (by rw [hd]; trivial)
      rw [hut]
      exact iff_of_true ((h.announced t).mpr hd) (by simpa using hd')
    · exact (h.announced u).trans (by rw [pc_goto_ne hut])
  · intro u hu
    by_cases hut : u = t
    · rw [hut, pc_goto_self] at hu
      exact (hholds hu).1
    · rw [pc_goto_ne hut] at hu
      exact hlocked u hut hu
  · intro u v hu hv
    by_cases hut : u = t
    · by_cases hvt : v = t
      · rw [hut, hvt]
      · rw [hut, pc_goto_self] at hu
        rw [pc_goto_ne hvt] at hv
        exact absurd hv ((hholds hu).2 v hvt)
    · rw [pc_goto_ne hut] at hu
      by_cases hvt : v = t
      · rw [hvt, pc_goto_self] at hv
        exact absurd hu ((hholds hv).2 u hut)
      · rw [pc_goto_ne hvt] at hv
        exact h.holder u v hu hv
  · intro u c hu
    by_cases hut : u = t
    · rw [hut, pc_goto_self] at hu
      intro v hv
      rw [hut] at hv
      rw [pc_goto_ne hv]
      exact hbody c hu v hv
    · rw [pc_goto_ne hut] at hu
      exact absurd (h.alone u c hu t (Ne.symm hut)) hin
  · intro u ha hu
    by_cases hut : u = t
    · rw [hut, pc_goto_self] at hu
      refine huse (fun v hv => ?_) hu
      have hv' := ha v (by rwa [hut])
      rwa [pc_goto_ne hv] at hv'
    · have ht := ha t (Ne.symm hut)
      rw [pc_goto_self] at ht
      exact absurd ht hin'

/-- A waiting thread finds the flag clear, so no thread is inside without the lock. -/
theorem Inv.enter (h : Inv st) (hw : st.pc t = .waiting) (hidle : st.inUse = false) :
    Inv (st.goto t .idle) := by
  have hholds : ∀ u, ((st.goto t .idle).pc u).HoldsLock → (st.pc u).HoldsLock :=
    fun u hu => (of_goto (P := Pc.HoldsLock) (by simp [Pc.HoldsLock]) hu).2
  refine ⟨h.counted,h.nodup,?_,fun u hu => h.locked u (hholds u hu),
    fun u v hu hv => h.holder u v (hholds u hu) (hholds v hv),?_,?_⟩
  · intro u
    by_cases hut : u = t
    · rw [hut]
      exact iff_of_true ((h.announced t).mpr (by simp [hw])) (by simp)
    · exact (h.announced u).trans (by rw [pc_goto_ne hut])
  · intro u c hu
    obtain ⟨hut,hu'⟩ := of_goto (P := fun p => p = .unlockedBody c) (by simp) hu
    have hflag := h.inUse u (h.alone u c hu') (by rw [hu']; trivial)
    rw [hidle] at hflag
    cases hflag
  · intro u ha hu
    obtain ⟨hut,_⟩ := of_goto (P := Pc.Relies) (by simp [Pc.Relies]) hu
    have ht := ha t (Ne.symm hut)
    rw [pc_goto_self] at ht
    exact ht.elim

/-- A thread counts itself. It is waiting afterwards, so whoever was alone still is. -/
theorem Inv.getAB (h : Inv st) (hd : st.pc t = .detached) :
    Inv { st.goto t .waiting with
      numThreads := st.numThreads + 1, announced := t :: st.announced } := by
  have hmem : t ∉ st.announced := fun hm => (h.announced t).mp hm hd
  have hholds : ∀ u, ((st.goto t .waiting).pc u).HoldsLock → (st.pc u).HoldsLock :=
    fun u hu => (of_goto (P := Pc.HoldsLock) (by simp [Pc.HoldsLock]) hu).2
  refine ⟨?_,List.nodup_cons.mpr ⟨hmem,h.nodup⟩,?_,fun u hu => h.locked u (hholds u hu),
    fun u v hu hv => h.holder u v (hholds u hu) (hholds v hv),?_,?_⟩
  · change st.numThreads + 1 = _
    rw [h.counted, List.length_cons, BitVec.ofNat_add]
    rfl
  · intro u
    by_cases hut : u = t
    · rw [hut]
      exact iff_of_true List.mem_cons_self (by simp)
    · rw [List.mem_cons, or_iff_right hut]
      exact (h.announced u).trans (by rw [pc_goto_ne hut])
  · intro u c hu v hv
    obtain ⟨hut,hu'⟩ := of_goto (P := fun p => p = .unlockedBody c) (by simp) hu
    by_cases hvt : v = t
    · rw [hvt, pc_goto_self]
      trivial
    · rw [pc_goto_ne hvt]
      exact h.alone u c hu' v hv
  · intro u ha hu
    obtain ⟨hut,hr⟩ := of_goto (P := Pc.Relies) (by simp [Pc.Relies]) hu
    refine h.inUse u (fun v hv => ?_) hr
    by_cases hvt : v = t
    · rw [hvt, hd]
      trivial
    · have hv' := ha v hv
      rwa [pc_goto_ne hvt] at hv'

theorem Inv.threadStep (h : Inv st) (hstep : threadStep st t = some st') : Inv st' := by
  unfold GuardedCore.threadStep at hstep
  have hlock := fun u (_ : u ≠ t) => h.locked u
  cases hpc : st.pc t with
  | detached => simp [hpc] at hstep
  | idle => simp [hpc] at hstep
  | waiting =>
    simp only [hpc] at hstep
    split at hstep
    · cases hstep
      exact h
    · next hflag =>
      cases hstep
      exact h.enter hpc (by simpa using hflag)
  | acquire c =>
    simp only [hpc] at hstep
    cases hstep
    exact h.inside (by simp [hpc, Pc.Outside]) (fun h => h) hlock (fun h => h.elim) (by simp)
      fun _ _ => rfl
  | readThreads c =>
    simp only [hpc] at hstep
    have hin : ¬ (st.pc t).Outside := by simp [hpc, Pc.Outside]
    split at hstep
    · next h1 =>
      cases hstep
      have halone := h.alone_of_one (t := t) h1 (by simp [hpc])
      exact h.inside hin (fun h => h) hlock (fun h => h.elim) (fun _ _ => halone)
        fun _ _ => h.inUse t halone (by rw [hpc]; trivial)
    · cases hstep
      exact h.inside hin (fun h => h) hlock (fun h => h.elim) (by simp) fun _ h => h.elim
  | unlockedBody c =>
    simp only [hpc] at hstep
    cases hstep
    exact h.inside (by simp [hpc, Pc.Outside]) (fun h => h) hlock (fun h => h.elim) (by simp)
      fun _ h => h.elim
  | takeLock c =>
    simp only [hpc] at hstep
    split at hstep
    · cases hstep
      exact h
    · next hfree =>
      cases hstep
      exact h.inside (by simp [hpc, Pc.Outside]) (fun h => h) (fun _ _ _ => rfl)
        (fun _ => ⟨rfl,fun u _ hu => hfree (h.locked u hu)⟩) (by simp) fun _ h => h.elim
  | lockedBody c =>
    simp only [hpc] at hstep
    cases hstep
    have hself : (st.pc t).HoldsLock := by rw [hpc]; trivial
    exact h.inside (by simp [hpc, Pc.Outside]) (fun h => h) hlock
      (fun _ => ⟨h.locked t hself,fun u hu hul => hu (h.holder u t hul hself)⟩) (by simp)
      fun _ h => h.elim
  | unlock c =>
    simp only [hpc] at hstep
    cases hstep
    have hself : (st.pc t).HoldsLock := by rw [hpc]; trivial
    exact h.inside (by simp [hpc, Pc.Outside]) (fun h => h)
      (fun u hu hul => absurd (h.holder u t hul hself) hu) (fun h => h.elim) (by simp)
      fun _ h => h.elim
  | release c =>
    simp only [hpc] at hstep
    cases hstep
    exact h.inside (by simp [hpc, Pc.Outside]) (fun h => h) hlock (fun h => h.elim) (by simp)
      fun _ h => h.elim

theorem Inv.step {e : Event} (h : Inv st) (hstep : step st e = some st') : Inv st' := by
  cases e with
  | getAB t =>
    simp only [GuardedCore.step] at hstep
    split at hstep
    · next hd =>
      cases hstep
      exact h.getAB hd
    · cases hstep
  | call t c =>
    simp only [GuardedCore.step] at hstep
    split at hstep
    · next hidle =>
      cases hstep
      exact h.inside (by simp [hidle, Pc.Outside]) (fun h => h) (fun u _ => h.locked u)
        (fun h => h.elim) (by simp) fun _ h => h.elim
    · cases hstep
  | thread t => exact h.threadStep hstep

/-- Any number of threads attach and call the core in any interleaving: at most one of them is
inside at a time. -/
theorem exclusive_of_runs (hr : Runs GuardedCore.step Always new st) :
    {t | (st.pc t).InBody}.Subsingleton := by
  have hi : Inv st := hr.invariant inv_new fun _ _ _ hi _ hs => hi.step hs
  intro t ht u hu
  exact hi.exclusive ht hu

end Steps

/-- One thread is inside without the lock while another one waits for the flag. -/
theorem exclusive_whileWaiting : ∃ st, Runs step Always new st ∧
    st.pc 0 = .unlockedBody .allocate ∧ st.pc 1 = .waiting ∧ st.numThreads = 2 ∧
    {t | (st.pc t).InBody}.Subsingleton := by
  have h0 : Runs step Always new _ := .refl
  have h1 := h0.tail (e := Event.getAB 0) trivial rfl
  have h2 := h1.tail (e := Event.thread 0) trivial rfl
  have h3 := h2.tail (e := Event.call 0 Call.allocate) trivial rfl
  have h4 := h3.tail (e := Event.thread 0) trivial rfl
  have h5 := h4.tail (e := Event.thread 0) trivial rfl
  have h6 := h5.tail (e := Event.getAB 1) trivial rfl
  have h7 := h6.tail (e := Event.thread 1) trivial rfl
  exact ⟨_,h7,rfl,rfl,rfl,exclusive_of_runs h7⟩

end Scalloc.GuardedCore
