import Scalloc.Heap.Treiber

/-! # The Treiber stack neither loses nor duplicates elements

The tag counts the swaps modulo `2 ^ 16`. A `Pop` whose swap succeeds with fewer swaps
since its load therefore saw none at all: the top is the word it loaded, its element was in
the stack all the time and nobody wrote the link that it read.
-/
namespace Scalloc.Treiber
open Function Transition Linked

/-- What a `Pop` knows of the word it loaded. -/
structure Loaded (st : State) (old : TaggedValue) (n : ℕ) : Prop where
  le : n ≤ st.history.length
  tag : old.tag = BitVec.ofNat 16 n
  top : n = st.history.length → old = st.top ∧ old.value ≠ 0

/-- The chain from the top holds `xs`, and the threads know what their places say. -/
structure Inv (st : State) (xs : List ℕ) : Prop where
  chain : Chain 0 st.mem st.top.value xs
  nodup : xs.Nodup
  extended : ∀ x ∈ xs, extend x = x
  outstanding : ∀ x, x ∈ xs ↔ Outstanding st.history x
  once : PoppedOnce st.history
  tag : st.top.tag = BitVec.ofNat 16 st.history.length
  pushing : ∀ t p, (st.pc t).pushing = some p → p ≠ 0 ∧ extend p = p ∧ p ∉ xs
  apart : ∀ t u p, (st.pc t).pushing = some p → (st.pc u).pushing = some p → t = u
  linked : ∀ t p old, st.pc t = .pushSwap p old → st.mem p = old.value
  loaded : ∀ t old n, st.pc t = .popLink old n → Loaded st old n
  read : ∀ t old next n, st.pc t = .popSwap old next n → Loaded st old n ∧
    (n = st.history.length → next = st.mem old.value)

variable {st st' : State} {xs ys : List ℕ} {t : ℕ}

theorem inv_new (mem : ℕ → ℕ) : Inv (new mem) [] where
  chain := rfl
  nodup := List.nodup_nil
  extended := by simp
  outstanding := by simp [new, Outstanding]
  once := by
    intro a b c x he
    simp [new] at he
  tag := rfl
  pushing := fun t p h => nomatch h
  apart := fun t u p h => nomatch h
  linked := fun t p old h => nomatch h
  loaded := fun t old n h => nomatch h
  read := fun t old next n h => nomatch h

theorem Inv.top_zero_iff (h : Inv st xs) : st.top.value = 0 ↔ xs = [] := h.chain.nil_iff.symm

theorem Inv.mem_of_loaded (h : Inv st xs) {old : TaggedValue} {n : ℕ} (hl : Loaded st old n)
    (hn : n = st.history.length) : ∃ rest, xs = old.value :: rest ∧
      Chain 0 st.mem (st.mem old.value) rest := by
  obtain ⟨ht,h0⟩ := hl.top hn
  have hc := h.chain
  cases xs with
  | nil => exact absurd (show st.top.value = 0 from hc) (ht ▸ h0)
  | cons x rest =>
    obtain ⟨rfl,_,hr⟩ := hc
    rw [ht]
    exact ⟨rest,rfl,hr⟩

/-- A link outside the stack and outside of what others push is written. -/
theorem Inv.write (h : Inv st xs) {p v : ℕ} (hx : p ∉ xs)
    (hp : ∀ u old, st.pc u ≠ .pushSwap p old) : Inv { st with mem := update st.mem p v } xs where
  chain := by
    refine h.chain.congr fun y hy => ?_
    have hyp : y ≠ p := fun he => hx (he ▸ hy)
    exact update_of_ne hyp _ _
  nodup := h.nodup
  extended := h.extended
  outstanding := h.outstanding
  once := h.once
  tag := h.tag
  pushing := h.pushing
  apart := h.apart
  linked := by
    intro u q old hu
    have hqp : q ≠ p := fun he => hp u old (he ▸ hu)
    exact (update_of_ne hqp _ _).trans (h.linked u q old hu)
  loaded := fun u old n hu => ⟨(h.loaded u old n hu).le,(h.loaded u old n hu).tag,
    (h.loaded u old n hu).top⟩
  read := by
    intro u old next n hu
    obtain ⟨hl,hr⟩ := h.read u old next n hu
    refine ⟨⟨hl.le,hl.tag,hl.top⟩,fun hn => ?_⟩
    obtain ⟨rest,hxs,_⟩ := h.mem_of_loaded hl hn
    have hne : old.value ≠ p := fun he => hx (he ▸ hxs ▸ List.mem_cons_self ..)
    exact (hr hn).trans (update_of_ne hne _ _).symm

/-- A thread goes to another place, and no word changes. -/
theorem Inv.move (h : Inv st xs) {q : Pc}
    (hpush : ∀ p, q.pushing = some p → (st.pc t).pushing = some p ∨
      (p ≠ 0 ∧ extend p = p ∧ p ∉ xs ∧ ∀ u, (st.pc u).pushing ≠ some p))
    (hlink : ∀ p old, q = .pushSwap p old → st.mem p = old.value)
    (hload : ∀ old n, q = .popLink old n → Loaded st old n)
    (hread : ∀ old next n, q = .popSwap old next n → Loaded st old n ∧
      (n = st.history.length → next = st.mem old.value)) :
    Inv { st with pc := update st.pc t q } xs where
  chain := h.chain
  nodup := h.nodup
  extended := h.extended
  outstanding := h.outstanding
  once := h.once
  tag := h.tag
  pushing := by
    intro u p hu
    by_cases hut : u = t
    · subst hut
      simp only [update_self] at hu
      rcases hpush p hu with hp | ⟨h1,h2,h3,_⟩
      · exact h.pushing u p hp
      · exact ⟨h1,h2,h3⟩
    · simp only [update_of_ne hut] at hu
      exact h.pushing u p hu
  apart := by
    intro u v p hu hv
    by_cases hut : u = t
    · by_cases hvt : v = t
      · exact hut.trans hvt.symm
      · subst hut
        simp only [update_self] at hu
        simp only [update_of_ne hvt] at hv
        rcases hpush p hu with hp | ⟨_,_,_,h4⟩
        · exact h.apart u v p hp hv
        · exact absurd hv (h4 v)
    · simp only [update_of_ne hut] at hu
      by_cases hvt : v = t
      · subst hvt
        simp only [update_self] at hv
        rcases hpush p hv with hp | ⟨_,_,_,h4⟩
        · exact h.apart u v p hu hp
        · exact absurd hu (h4 u)
      · simp only [update_of_ne hvt] at hv
        exact h.apart u v p hu hv
  linked := by
    intro u p old hu
    by_cases hut : u = t
    · subst hut
      exact hlink p old (by simpa using hu)
    · exact h.linked u p old (by simpa [hut] using hu)
  loaded := by
    intro u old n hu
    have hl : Loaded st old n := by
      by_cases hut : u = t
      · subst hut
        exact hload old n (by simpa using hu)
      · exact h.loaded u old n (by simpa [hut] using hu)
    exact ⟨hl.le,hl.tag,hl.top⟩
  read := by
    intro u old next n hu
    have hl : Loaded st old n ∧ (n = st.history.length → next = st.mem old.value) := by
      by_cases hut : u = t
      · subst hut
        exact hread old next n (by simpa using hu)
      · exact h.read u old next n (by simpa [hut] using hu)
    exact ⟨⟨hl.1.le,hl.1.tag,hl.1.top⟩,hl.2⟩

theorem Loaded.older {old top : TaggedValue} {n : ℕ} {o : Op} (h : Loaded st old n) (pc : ℕ → Pc) :
    Loaded { st with top := top, pc := pc, history := o :: st.history } old n where
  le := h.le.trans (Nat.le_succ _)
  tag := h.tag
  top := by
    intro hn
    have hle := h.le
    simp only [List.length_cons] at hn
    omega

/-- A swap succeeds: from now on no `Pop` that has loaded before can succeed. -/
theorem Inv.swap (h : Inv st xs) {q : Pc} {o : Op} {v : ℕ} (hq : q = .idle ∨ ∃ p, q = .returned p)
    (hchain : Chain 0 st.mem v ys) (hnodup : ys.Nodup) (hext : ∀ x ∈ ys, extend x = x)
    (hout : ∀ x, x ∈ ys ↔ Outstanding (o :: st.history) x) (honce : PoppedOnce (o :: st.history))
    (hpush : ∀ u p, u ≠ t → (st.pc u).pushing = some p → p ∉ ys) :
    Inv { st with
      top := ⟨v,st.top.tag + 1⟩
      pc := update st.pc t q
      history := o :: st.history } ys := by
  have hnone : q.pushing = none := by
    rcases hq with rfl | ⟨p,rfl⟩
    · rfl
    · rfl
  have hother : ∀ u p, (update st.pc t q u).pushing = some p → u ≠ t ∧ (st.pc u).pushing = some p := by
    intro u p hu
    by_cases hut : u = t
    · rw [hut, update_self, hnone] at hu
      cases hu
    · rw [update_of_ne hut] at hu
      exact ⟨hut,hu⟩
  have hpc : ∀ u r, update st.pc t q u = r → r ≠ .idle → (∀ p, r ≠ .returned p) → st.pc u = r := by
    intro u r hu h1 h2
    by_cases hut : u = t
    · rw [hut, update_self] at hu
      rcases hq with hq | ⟨p,hq⟩
      · exact absurd (hu.symm.trans hq) h1
      · exact absurd (hu.symm.trans hq) (h2 p)
    · rwa [update_of_ne hut] at hu
  refine ⟨hchain,hnodup,hext,hout,honce,?_,?_,?_,?_,?_,?_⟩
  · simp only [List.length_cons, h.tag, BitVec.ofNat_add]
    rfl
  · intro u p hu
    obtain ⟨hut,hu⟩ := hother u p hu
    obtain ⟨h1,h2,_⟩ := h.pushing u p hu
    exact ⟨h1,h2,hpush u p hut hu⟩
  · intro u w p hu hw
    exact h.apart u w p (hother u p hu).2 (hother w p hw).2
  · intro u p old hu
    exact h.linked u p old (hpc u _ hu (by simp) (by simp))
  · intro u old n hu
    exact (h.loaded u old n (hpc u _ hu (by simp) (by simp))).older _
  · intro u old next n hu
    obtain ⟨hl,_⟩ := h.read u old next n (hpc u _ hu (by simp) (by simp))
    refine ⟨hl.older _,fun hn => ?_⟩
    have hle := hl.le
    simp only [List.length_cons] at hn
    omega

/-- The swap of a `Push` may be late: the link it wrote is the value it compares. -/
theorem Inv.pushSwap (h : Inv st xs) {p : ℕ} (hpc : st.pc t = .pushSwap p st.top) :
    Inv { st with
      top := ⟨extend p,st.top.tag + 1⟩
      pc := update st.pc t .idle
      history := .pushed p :: st.history } (p :: xs) := by
  have hp : (st.pc t).pushing = some p := by rw [hpc]; rfl
  obtain ⟨h0,hext,hx⟩ := h.pushing t p hp
  rw [hext]
  refine h.swap (.inl rfl) ⟨rfl,h0,?_⟩ (List.nodup_cons.mpr ⟨hx,h.nodup⟩) ?_ ?_ (h.once.pushed p) ?_
  · rw [h.linked t p st.top hpc]
    exact h.chain
  · intro x hm
    rcases List.mem_cons.mp hm with rfl | hm
    · exact hext
    · exact h.extended x hm
  · intro x
    rw [outstanding_pushed, List.mem_cons, h.outstanding]
  · intro u q hut hu hm
    rcases List.mem_cons.mp hm with rfl | hm
    · exact hut (h.apart u t q hu hp)
    · exact (h.pushing u q hu).2.2 hm

/-- Equal tags with fewer than `2 ^ 16` swaps between them are the same tag. -/
theorem ofNat_inj_of_lt {n m : ℕ} (h : BitVec.ofNat 16 n = BitVec.ofNat 16 m) (hle : n ≤ m)
    (hlt : m < n + 2 ^ 16) : n = m := by
  have hmod : n % 2 ^ 16 = m % 2 ^ 16 := by
    have := congrArg BitVec.toNat h
    simpa only [BitVec.toNat_ofNat] using this
  omega

/-- The swap of a `Pop` takes the first element. -/
theorem Inv.popSwap (h : Inv st xs) {next n : ℕ} (hpc : st.pc t = .popSwap st.top next n)
    (hlt : st.history.length < n + 2 ^ 16) :
    ∃ rest, xs = st.top.value :: rest ∧ st.top.value ≠ 0 ∧ Inv { st with
      top := ⟨extend next,st.top.tag + 1⟩
      pc := update st.pc t (.returned st.top.value)
      history := .popped st.top.value :: st.history } rest := by
  obtain ⟨hl,hr⟩ := h.read t st.top next n hpc
  have hn : n = st.history.length :=
    ofNat_inj_of_lt (hl.tag.symm.trans h.tag) hl.le hlt
  obtain ⟨rest,hxs,hchain⟩ := h.mem_of_loaded hl hn
  rw [← hr hn] at hchain
  have hsub : ∀ x ∈ rest, x ∈ xs := fun x hx => hxs ▸ List.mem_cons_of_mem _ hx
  have hext : extend next = next := by
    cases rest with
    | nil =>
      rw [show next = 0 from hchain]
      rfl
    | cons y ys =>
      rw [hchain.1]
      exact h.extended y (hsub y (List.mem_cons_self ..))
  have hnd := h.nodup
  rw [hxs, List.nodup_cons] at hnd
  have hmem : st.top.value ∈ xs := hxs ▸ List.mem_cons_self ..
  refine ⟨rest,hxs,(hl.top hn).2,?_⟩
  rw [hext]
  refine h.swap (.inr ⟨_,rfl⟩) hchain hnd.2 (fun x hx => h.extended x (hsub x hx)) ?_
    (h.once.popped ((h.outstanding _).mp hmem)) ?_
  · intro x
    rw [outstanding_popped, ← h.outstanding, hxs, List.mem_cons]
    constructor
    · intro hx
      exact ⟨fun he => hnd.1 (he ▸ hx),.inr hx⟩
    · rintro ⟨hne,hx⟩
      exact hx.resolve_left hne
  · intro u q _ hu hq
    exact (h.pushing u q hu).2.2 (hsub q hq)

/-- Every permitted step of a thread keeps the invariant, and says what a `Pop` returns. -/
theorem Inv.thread (h : Inv st xs) (hp : Permitted st (.thread t))
    (he : step st (.thread t) = some st') : ∃ ys, Inv st' ys ∧ ∀ x, st'.pc t = .returned x →
      (x = 0 ∧ xs = []) ∨
        (x ≠ 0 ∧ xs = x :: ys ∧ st'.history = .popped x :: st.history) := by
  simp only [step, threadStep] at he
  cases hpc : st.pc t with
  | idle => simp [hpc] at he
  | pushLoad p =>
    simp only [hpc, Option.some.injEq] at he
    subst he
    refine ⟨xs,h.move ?_ (by simp) (by simp) (by simp),by simp⟩
    intro q hq
    rw [hpc]
    exact .inl hq
  | pushLink p old =>
    simp only [hpc, Option.some.injEq] at he
    subst he
    have hpp : (st.pc t).pushing = some p := by rw [hpc]; rfl
    have hw := @Inv.write st xs h p old.value (h.pushing t p hpp).2.2 (fun u old' hu => by
      have hut := h.apart u t p (by rw [hu]; rfl) hpp
      rw [hut, hpc] at hu
      cases hu)
    refine ⟨xs,hw.move ?_ ?_ (by simp) (by simp),by simp⟩
    · intro q hq
      refine .inl ?_
      rw [hpc]
      exact hq
    · intro q old' hq
      obtain ⟨rfl,rfl⟩ := Pc.pushSwap.inj hq
      exact update_self ..
  | pushSwap p old =>
    simp only [hpc] at he
    by_cases htop : st.top = old
    · subst htop
      rw [if_pos rfl] at he
      obtain rfl := Option.some.inj he
      exact ⟨p :: xs,h.pushSwap hpc,by simp⟩
    · rw [if_neg htop] at he
      obtain rfl := Option.some.inj he
      refine ⟨xs,h.move ?_ (by simp) (by simp) (by simp),by simp⟩
      intro q hq
      rw [hpc]
      exact .inl hq
  | popLoad =>
    simp only [hpc] at he
    by_cases h0 : st.top.value = 0
    · rw [if_pos h0] at he
      obtain rfl := Option.some.inj he
      refine ⟨xs,h.move (fun _ hq => nomatch hq) (by simp) (by simp) (by simp),?_⟩
      intro x hx
      simp only [update_self, Pc.returned.injEq] at hx
      exact .inl ⟨hx.symm,h.top_zero_iff.mp h0⟩
    · rw [if_neg h0] at he
      obtain rfl := Option.some.inj he
      refine ⟨xs,h.move (fun _ hq => nomatch hq) (by simp) ?_ (by simp),by simp⟩
      intro old n hq
      obtain ⟨rfl,rfl⟩ := Pc.popLink.inj hq
      exact ⟨le_rfl,h.tag,fun _ => ⟨rfl,h0⟩⟩
  | popLink old n =>
    simp only [hpc, Option.some.injEq] at he
    subst he
    refine ⟨xs,h.move (fun _ hq => nomatch hq) (by simp) (by simp) ?_,by simp⟩
    intro old' next n' hq
    obtain ⟨rfl,rfl,rfl⟩ := Pc.popSwap.inj hq
    exact ⟨h.loaded t _ _ hpc,fun _ => rfl⟩
  | popSwap old next n =>
    simp only [hpc] at he
    simp only [Permitted, hpc] at hp
    by_cases htop : st.top = old
    · subst htop
      rw [if_pos rfl] at he
      obtain rfl := Option.some.inj he
      obtain ⟨rest,hxs,h0,hi⟩ := h.popSwap hpc (hp rfl)
      refine ⟨rest,hi,fun x hx => ?_⟩
      simp only [update_self, Pc.returned.injEq] at hx
      subst hx
      exact .inr ⟨h0,hxs,rfl⟩
    · rw [if_neg htop] at he
      obtain rfl := Option.some.inj he
      exact ⟨xs,h.move (fun _ hq => nomatch hq) (by simp) (by simp) (by simp),by simp⟩
  | returned p =>
    simp only [hpc, Option.some.injEq] at he
    subst he
    exact ⟨xs,h.move (fun _ hq => nomatch hq) (by simp) (by simp) (by simp),by simp⟩

theorem Inv.step (h : Inv st xs) {e : Event} (hp : Permitted st e) (he : step st e = some st') :
    ∃ ys, Inv st' ys := by
  cases e with
  | thread t =>
    obtain ⟨ys,hi,_⟩ := h.thread hp he
    exact ⟨ys,hi⟩
  | push t p =>
    simp only [Treiber.step] at he
    split at he
    · obtain rfl := Option.some.inj he
      refine ⟨xs,h.move ?_ (by simp) (by simp) (by simp)⟩
      intro q hq
      obtain rfl := Option.some.inj hq
      exact .inr ⟨hp.1,hp.2.1,fun hm => hp.2.2.1 ((h.outstanding p).mp hm),hp.2.2.2⟩
    · cases he
  | pop t =>
    simp only [Treiber.step] at he
    split at he
    · obtain rfl := Option.some.inj he
      exact ⟨xs,h.move (fun _ hq => nomatch hq) (by simp) (by simp) (by simp)⟩
    · cases he
  | write x v =>
    obtain rfl := Option.some.inj he
    refine ⟨xs,h.write (fun hm => hp.1 ((h.outstanding x).mp hm)) ?_⟩
    intro u old hu
    exact hp.2 u (by rw [hu]; rfl)

theorem outside_new (mem : ℕ → ℕ) (p : ℕ) : Outside (new mem) p := by
  refine ⟨?_,fun _ h => nomatch h⟩
  rintro ⟨a,b,he,_⟩
  simp [new] at he

end Scalloc.Treiber
