import Scalloc.Heap.TreiberSafe
import Scalloc.Lib.Atomic

/-! # The Treiber stack is a linearizable and lock-free stack

A `Push` takes effect at its successful swap, and a `Pop` at its successful swap or where it
loads null. A swap fails only if another thread has swapped since the load, so a thread that
does not come to the end of its call is overtaken again and again.
-/
namespace Scalloc.Treiber
open Function Transition Linked Atomic

inductive Request
  | push (p : ℕ)
  | pop

inductive Reply
  | void
  | pointer (p : ℕ)

/-- The sequential stack. -/
inductive Lifo : List ℕ → Request → Reply → List ℕ → Prop
  | push {xs : List ℕ} {p : ℕ} : Lifo xs (.push p) .void (p :: xs)
  | pop {xs : List ℕ} {p : ℕ} : Lifo (p :: xs) .pop (.pointer p) xs
  | null : Lifo [] .pop (.pointer 0) []

/-- What a call returns in a step between these places. A `Pop` returns in the step that decides
what. -/
def Pc.returns : Pc → Pc → Option Reply
  | pushSwap _ _, idle => some .void
  | _, returned p => some (.pointer p)
  | _, _ => none

/-- What the callers see of a step. -/
def shows (st : State) (e : Event) (st' : State) : List (Visible ℕ Request Reply) :=
  match e with
  | .push t p => [.call t (.push p)]
  | .pop t => [.call t .pop]
  | .write _ _ => []
  | .thread t => (((st.pc t).returns (st'.pc t)).map (.ret t)).toList

/-- The phase of a call in the atomic object. -/
def Pc.phase : Pc → Phase Request Reply
  | idle => .ready
  | pushLoad p => .called (.push p)
  | pushLink p _ => .called (.push p)
  | pushSwap p _ => .called (.push p)
  | popLoad => .called .pop
  | popLink _ _ => .called .pop
  | popSwap _ _ _ => .called .pop
  | returned _ => .ready

/-- The atomic object holds the chain, and each thread is where its call is. -/
structure Abstracts (st : State) (o : Object (List ℕ) ℕ Request Reply) : Prop where
  inv : Inv st o.store
  phase : ∀ t, o.phase t = (st.pc t).phase

section Linearizable
variable {st st' : State} {o : Object (List ℕ) ℕ Request Reply} {t : ℕ} {q : Pc} {xs : List ℕ}
  {mem : ℕ → ℕ}

/-- The list of a state is the chain from its top. -/
theorem Inv.congr (h : Inv st xs) (hi : ∃ ys, Inv st' ys) (htop : st'.top = st.top)
    (hmem : ∀ x ∈ xs, st'.mem x = st.mem x) : Inv st' xs := by
  obtain ⟨ys,hi⟩ := hi
  have hc : Chain 0 st'.mem st'.top.value xs := htop ▸ h.chain.congr hmem
  rwa [hc.unique hi.chain]

theorem Abstracts.goto {x : Phase Request Reply} {ys : List ℕ} (ha : Abstracts st o)
    (hi : Inv st' ys) (hpc : st'.pc = update st.pc t q) (hx : q.phase = x) :
    Abstracts st' ({ o with store := ys }.goto t x) where
  inv := hi
  phase := by
    intro u
    by_cases hut : u = t
    · rw [hut, Object.goto_self, hpc, update_self, hx]
    · rw [Object.goto_of_ne hut, hpc, update_of_ne hut]
      exact ha.phase u

/-- A step inside of a call. -/
theorem Abstracts.silent (ha : Abstracts st o) (hi : Inv st' o.store)
    (hpc : st'.pc = update st.pc t q) (hq : q.phase = (st.pc t).phase) : Abstracts st' o where
  inv := hi
  phase := by
    intro u
    by_cases hut : u = t
    · rw [hut, hpc, update_self, hq]
      exact ha.phase t
    · rw [hpc, update_of_ne hut]
      exact ha.phase u

/-- A call is served and returns. -/
theorem Abstracts.served {op : Request} {r : Reply} {ys : List ℕ} (ha : Abstracts st o)
    (hcalled : (st.pc t).phase = .called op) (hserve : Lifo o.store op r ys) (hi : Inv st' ys)
    (hpc : st'.pc = update st.pc t q) (hq : q.phase = .ready) :
    ∃ o', History Lifo o [.ret t r] o' ∧ Abstracts st' o' := by
  refine ⟨_,.serve ((ha.phase t).trans hcalled) hserve (.ret Object.goto_self .nil),?_⟩
  have hg := ha.goto hi hpc hq
  simpa only [Object.goto, update_idem] using hg

theorem shows_thread (hpc : st'.pc = update st.pc t q) :
    shows st (.thread t) st' = (((st.pc t).returns q).map (.ret t)).toList := by
  rw [shows, hpc, update_self]

/-- The atomic object follows every permitted step of a thread. -/
theorem Abstracts.thread (ha : Abstracts st o) (hp : Permitted st (.thread t))
    (he : step st (.thread t) = some st') :
    ∃ o', History Lifo o (shows st (.thread t) st') o' ∧ Abstracts st' o' := by
  have h := ha.inv
  have hi : ∃ ys, Inv st' ys := h.step hp he
  simp only [step, threadStep] at he
  cases hpc : st.pc t with
  | idle => simp [hpc] at he
  | pushLoad p =>
    simp only [hpc, Option.some.injEq] at he
    subst he
    rw [shows_thread rfl, hpc]
    exact ⟨o,.nil,ha.silent (h.congr hi rfl fun _ _ => rfl) rfl (by rw [hpc]; rfl)⟩
  | pushLink p old =>
    simp only [hpc, Option.some.injEq] at he
    subst he
    rw [shows_thread rfl, hpc]
    have hnot : p ∉ o.store := (h.pushing t p (by rw [hpc]; rfl)).2.2
    refine ⟨o,.nil,ha.silent (h.congr hi rfl fun x hx => ?_) rfl (by rw [hpc]; rfl)⟩
    have hxp : x ≠ p := fun hxp => hnot (hxp ▸ hx)
    exact update_of_ne hxp ..
  | pushSwap p old =>
    simp only [hpc] at he
    by_cases htop : st.top = old
    · subst htop
      rw [if_pos rfl] at he
      obtain rfl := Option.some.inj he
      rw [shows_thread rfl, hpc]
      exact ha.served (by rw [hpc]; rfl) .push (h.pushSwap hpc) rfl rfl
    · rw [if_neg htop] at he
      obtain rfl := Option.some.inj he
      rw [shows_thread rfl, hpc]
      exact ⟨o,.nil,ha.silent (h.congr hi rfl fun _ _ => rfl) rfl (by rw [hpc]; rfl)⟩
  | popLoad =>
    simp only [hpc] at he
    by_cases h0 : st.top.value = 0
    · rw [if_pos h0] at he
      obtain rfl := Option.some.inj he
      rw [shows_thread rfl, hpc]
      refine ha.served (by rw [hpc]; rfl) ?_ (h.congr hi rfl fun _ _ => rfl) rfl rfl
      rw [h.top_zero_iff.mp h0]
      exact .null
    · rw [if_neg h0] at he
      obtain rfl := Option.some.inj he
      rw [shows_thread rfl, hpc]
      exact ⟨o,.nil,ha.silent (h.congr hi rfl fun _ _ => rfl) rfl (by rw [hpc]; rfl)⟩
  | popLink old n =>
    simp only [hpc, Option.some.injEq] at he
    subst he
    rw [shows_thread rfl, hpc]
    exact ⟨o,.nil,ha.silent (h.congr hi rfl fun _ _ => rfl) rfl (by rw [hpc]; rfl)⟩
  | popSwap old next n =>
    simp only [hpc] at he
    simp only [Permitted, hpc] at hp
    by_cases htop : st.top = old
    · subst htop
      rw [if_pos rfl] at he
      obtain rfl := Option.some.inj he
      obtain ⟨rest,hxs,_,hrest⟩ := h.popSwap hpc (hp rfl)
      rw [shows_thread rfl, hpc]
      refine ha.served (by rw [hpc]; rfl) ?_ hrest rfl rfl
      rw [hxs]
      exact .pop
    · rw [if_neg htop] at he
      obtain rfl := Option.some.inj he
      rw [shows_thread rfl, hpc]
      exact ⟨o,.nil,ha.silent (h.congr hi rfl fun _ _ => rfl) rfl (by rw [hpc]; rfl)⟩
  | returned p =>
    simp only [hpc, Option.some.injEq] at he
    subst he
    rw [shows_thread rfl, hpc]
    exact ⟨o,.nil,ha.silent (h.congr hi rfl fun _ _ => rfl) rfl (by rw [hpc]; rfl)⟩

theorem Abstracts.call {op : Request} (ha : Abstracts st o) (hready : (st.pc t).phase = .ready)
    (hi : ∃ ys, Inv { st with pc := update st.pc t q } ys) (hq : q.phase = .called op) :
    ∃ o', History Lifo o [.call t op] o' ∧ Abstracts { st with pc := update st.pc t q } o' := by
  have hi' : Inv { st with pc := update st.pc t q } o.store := ha.inv.congr hi rfl fun _ _ => rfl
  exact ⟨_,.call ((ha.phase t).trans hready) .nil,ha.goto hi' rfl hq⟩

theorem Abstracts.step {e : Event} (ha : Abstracts st o) (hp : Permitted st e)
    (he : Treiber.step st e = some st') :
    ∃ o', History Lifo o (shows st e st') o' ∧ Abstracts st' o' := by
  have hi : ∃ ys, Inv st' ys := ha.inv.step hp he
  cases e with
  | thread t => exact ha.thread hp he
  | push t p =>
    simp only [Treiber.step] at he
    split at he
    · next hpc =>
      obtain rfl := Option.some.inj he
      exact ha.call (by rw [hpc]; rfl) hi rfl
    · cases he
  | pop t =>
    simp only [Treiber.step] at he
    split at he
    · next hpc =>
      obtain rfl := Option.some.inj he
      exact ha.call (by rw [hpc]; rfl) hi rfl
    · cases he
  | write x v =>
    obtain rfl := Option.some.inj he
    refine ⟨o,.nil,ha.inv.congr hi rfl fun y hy => ?_,ha.phase⟩
    have hyx : y ≠ x := fun hyx => hp.1 (hyx ▸ (ha.inv.outstanding y).mp hy)
    exact update_of_ne hyx ..

end Linearizable

/-- Every permitted run is linearizable: what the callers see is a history of the atomic stack,
and the chain in memory is the list that this stack holds. -/
theorem linearizable_stack_of_run {mem : ℕ → ℕ} {es : List Event} {st : State}
    (h : Run step Permitted (new mem) es st) :
    ∃ o, History Lifo ⟨[],fun _ => .ready⟩ (visible step shows (new mem) es) o ∧
      Chain 0 st.mem st.top.value o.store := by
  have hstart : Abstracts (new mem) ⟨[],fun _ => .ready⟩ := ⟨inv_new mem,fun _ => rfl⟩
  have hstep : ∀ s e u o, Abstracts s o → Permitted s e → step s e = some u →
      ∃ o', History Lifo o (shows s e u) o' ∧ Abstracts u o' := fun _ _ _ _ ha hp he => ha.step hp he
  obtain ⟨o,hist,ha⟩ := history_of_run hstep h hstart
  exact ⟨o,hist,ha.inv.chain⟩

/-- One element is pushed, and two threads pop at once: one gets it, the other one has to load
again and gets null. -/
def racingEvents : List Event :=
  [.push 0 16,.thread 0,.thread 0,.thread 0,.pop 1,.pop 2,.thread 1,.thread 2,.thread 1,.thread 2,
    .thread 1,.thread 2,.thread 2]

theorem linearizable_stack_racingEvents : ∃ st o, Run step Permitted (new fun _ => 7) racingEvents st ∧
    History Lifo ⟨[],fun _ => .ready⟩ (visible step shows (new fun _ => 7) racingEvents) o ∧
    Chain 0 st.mem st.top.value o.store ∧ st.pc 1 = .returned 16 ∧ st.pc 2 = .returned 0 := by
  have hr : Run step Permitted (new fun _ => 7) racingEvents _ :=
    .cons ⟨by decide,by decide,outside_new _ _⟩ rfl <| .cons trivial rfl <| .cons trivial rfl <|
    .cons trivial rfl <| .cons trivial rfl <| .cons trivial rfl <| .cons trivial rfl <|
    .cons trivial rfl <| .cons trivial rfl <| .cons trivial rfl <| .cons (fun _ => by decide) rfl <|
    .cons (fun h => by cases h) rfl <| .cons trivial rfl .nil
  obtain ⟨o,hist,hchain⟩ := linearizable_stack_of_run hr
  exact ⟨_,o,hr,hist,hchain,rfl,rfl⟩

section LockFree

/-- A step of thread `t`. -/
def stepOf (t : ℕ) (_ : State) (e : Event) (_ : State) : ℕ := if e = .thread t then 1 else 0

/-- A call of thread `t` is over. -/
def returnOf (t : ℕ) (_ : State) (e : Event) (st' : State) : ℕ :=
  if e = .thread t ∧ st'.pc t = .idle then 1 else 0

/-- A successful swap of a thread other than `t`. -/
def swapOfOthers (t : ℕ) (st : State) (e : Event) (st' : State) : ℕ :=
  if e ≠ .thread t ∧ st'.history ≠ st.history then 1 else 0

/-- How far a thread has come in the loop of its call, less a whole round if the word that it has
loaded is not the top any more. -/
def Pc.potential (top : TaggedValue) : Pc → ℤ
  | idle => 0
  | pushLoad _ => 0
  | pushLink _ old => if top = old then 1 else -2
  | pushSwap _ old => if top = old then 2 else -1
  | popLoad => 0
  | popLink old _ => if top = old then 1 else -2
  | popSwap old _ _ => if top = old then 2 else -1
  | returned _ => 3

variable {st st' : State} {e : Event} {t : ℕ}

theorem Pc.potential_bounds (pc : Pc) (top : TaggedValue) :
    -2 ≤ pc.potential top ∧ pc.potential top ≤ 3 := by
  unfold Pc.potential
  constructor
  all_goals
    split
    all_goals first
      | decide
      | (split <;> decide)

/-- Another top makes at most one round worthless. -/
theorem Pc.potential_le (pc : Pc) (top top' : TaggedValue) :
    pc.potential top ≤ 3 + pc.potential top' := by
  unfold Pc.potential
  split
  all_goals first
    | decide
    | (split <;> split <;> decide)

/-- The top changes with a successful swap only. -/
theorem top_eq (he : step st e = some st') (hh : st'.history = st.history) : st'.top = st.top := by
  cases e with
  | thread t =>
    simp only [step, threadStep] at he
    cases hpc : st.pc t <;> simp only [hpc] at he
    all_goals repeat' split at he
    all_goals cases he <;> first | rfl | simp at hh
  | write x v =>
    obtain rfl := Option.some.inj he
    rfl
  | _ =>
    simp only [step] at he
    split at he
    · obtain rfl := Option.some.inj he
      rfl
    · cases he

/-- The steps of other threads leave a thread where it is, and calls begin without potential. -/
theorem pc_eq (he : step st e = some st') (hne : e ≠ .thread t) :
    st'.pc t = st.pc t ∨ st.pc t = .idle ∧ (st'.pc t = .popLoad ∨ ∃ p, st'.pc t = .pushLoad p) := by
  cases e with
  | thread u =>
    have hut : t ≠ u := fun h => hne (h ▸ rfl)
    simp only [step, threadStep] at he
    cases hpc : st.pc u <;> simp only [hpc] at he
    all_goals repeat' split at he
    all_goals cases he <;> exact .inl (update_of_ne hut ..)
  | write x v =>
    obtain rfl := Option.some.inj he
    exact .inl rfl
  | push u p =>
    simp only [step] at he
    split at he
    · next hpc =>
      obtain rfl := Option.some.inj he
      by_cases hut : t = u
      · subst hut
        exact .inr ⟨hpc,.inr ⟨p,update_self ..⟩⟩
      · exact .inl (update_of_ne hut ..)
    · cases he
  | pop u =>
    simp only [step] at he
    split at he
    · next hpc =>
      obtain rfl := Option.some.inj he
      by_cases hut : t = u
      · subst hut
        exact .inr ⟨hpc,.inl (update_self ..)⟩
      · exact .inl (update_of_ne hut ..)
    · cases he

/-- A step of another thread takes at most one round away, and only with a swap. -/
theorem others_paid (he : step st e = some st') (hne : e ≠ .thread t) :
    (st.pc t).potential st.top ≤ 3 * swapOfOthers t st e st' + (st'.pc t).potential st'.top := by
  rcases pc_eq he hne with hpc | ⟨hidle,hstart⟩
  · rw [hpc]
    by_cases hh : st'.history = st.history
    · rw [top_eq he hh]
      omega
    · rw [show swapOfOthers t st e st' = 1 from if_pos ⟨hne,hh⟩]
      exact (st.pc t).potential_le st.top st'.top
  · have h0 : (st'.pc t).potential st'.top = 0 := by
      rcases hstart with h | ⟨p,h⟩ <;>
      · rw [h]
        rfl
    rw [h0, hidle, Pc.potential]
    omega

/-- A step of a thread brings it forward, or its call ends. -/
theorem thread_paid (he : step st (.thread t) = some st') :
    1 + (st.pc t).potential st.top ≤
      4 * returnOf t st (.thread t) st' + (st'.pc t).potential st'.top := by
  simp only [step, threadStep] at he
  cases hpc : st.pc t <;> simp only [hpc] at he
  all_goals repeat' split at he
  all_goals cases he <;> simp_all [returnOf, Pc.potential]
  all_goals split <;> decide

theorem step_paid (t : ℕ) (he : step st e = some st') :
    stepOf t st e st' + (st.pc t).potential st.top ≤
      (3 * swapOfOthers t st e st' + 4 * returnOf t st e st' : ℕ) + (st'.pc t).potential st'.top := by
  by_cases hne : e = .thread t
  · subst hne
    have h := thread_paid he
    rw [show stepOf t st (.thread t) st' = 1 from if_pos rfl]
    push_cast
    omega
  · have h := others_paid he hne
    rw [show stepOf t st e st' = 0 from if_neg hne]
    push_cast
    omega

/-- In every run the steps of a thread are bounded by the calls that it ends and the swaps of the
others: a thread that stays in one call for `3 * n + 6` steps is overtaken more than `n` times. -/
theorem lockFree_of_run {es : List Event} (t : ℕ) (h : Run step Always st es st') :
    tally step (stepOf t) st es ≤
      3 * tally step (swapOfOthers t) st es + 4 * tally step (returnOf t) st es + 5 := by
  have hpaid : (tally step (stepOf t) st es : ℤ) + (st.pc t).potential st.top ≤
      tally step (fun s e u => 3 * swapOfOthers t s e u + 4 * returnOf t s e u) st es +
        (st'.pc t).potential st'.top :=
    h.tally_le (V := fun s => (s.pc t).potential s.top) fun _ _ _ _ he => step_paid t he
  rw [tally_add step (fun s e u => 3 * swapOfOthers t s e u), tally_mul, tally_mul] at hpaid
  have h1 := ((st.pc t).potential_bounds st.top).1
  have h2 := ((st'.pc t).potential_bounds st'.top).2
  push_cast at hpaid
  omega

end LockFree

/-- Thread 2 takes 4 steps in a call that it does not end; it is overtaken by two swaps. -/
theorem lockFree_racingEvents : ∃ st, Run step Always (new fun _ => 7) racingEvents st ∧
    tally step (stepOf 2) (new fun _ => 7) racingEvents ≤
      3 * tally step (swapOfOthers 2) (new fun _ => 7) racingEvents +
        4 * tally step (returnOf 2) (new fun _ => 7) racingEvents + 5 := by
  have hrun : (exec step Always (new fun _ => 7) racingEvents).isSome = true := by decide
  obtain ⟨st,hst⟩ := Option.isSome_iff_exists.mp hrun
  have hr := run_of_exec hst
  exact ⟨st,hr,lockFree_of_run 2 hr⟩

end Scalloc.Treiber
