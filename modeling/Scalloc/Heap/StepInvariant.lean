import Scalloc.Heap.StepSlots

/-! # Every undisturbed step keeps the invariant

`PushFront` and the `NewMarkHot` of `GetSpan` keep it where they find the span as they left it.
Every other step keeps it.
-/
namespace Scalloc.Stepwise
open Epoch Transition

variable {m : Machine} {st st' : State} {c s sc : ℕ} {pc : Pc} {e : Epoch}

/-- A step of a thread that changes the lists of a span or the owner of a span in its hands. -/
theorem quiet_setSpan {x : Header} (l : List ℕ) (hk : st.Known s)
    (he : x.epoch = (st.spans s).epoch) (hl : x.link = (st.spans s).link)
    (ho : x.owner = (st.spans s).owner ∨ (st.pc c).held = some s ∧ m.Owns x.owner)
    (hheld : pc.held = (st.pc c).held) (hfetch : pc.fetching = (st.pc c).fetching)
    (hgrip : ∀ m l, (st.pc c).held ≠ none → (st.pc c).Grip m l → pc.Grip m l) :
    Quiet m st ({ st.setSpan s x with live := l }.goto c pc) c where
  pc := fun c' hc => State.goto_pc_of_ne hc
  slot := by
    intro sc
    rw [State.slot_goto_self, hfetch]
    rfl
  hot := rfl
  deque := rfl
  pool := rfl
  arena := rfl
  epoch := by
    intro y
    by_cases hy : y = s
    · subst hy
      simpa [State.setSpan] using he
    · simp [State.setSpan, hy]
  link := by
    intro y _
    by_cases hy : y = s
    · subst hy
      simpa [State.setSpan] using hl
    · simp [State.setSpan, hy]
  owner := by
    intro y
    by_cases hy : y = s
    · subst hy
      simpa [State.setSpan] using ho
    · simp [State.setSpan, hy]
  absent := by
    intro y hy
    have hys : y ≠ s := fun he => hy (he ▸ hk)
    simp [State.setSpan, hys]
  held := by
    rw [State.goto_pc_self]
    exact hheld
  grip := by
    rw [State.goto_pc_self]
    exact hgrip

theorem Inv.setSpan {x : Header} {l : List ℕ} (hi : Inv m st) (hk : st.Known s)
    (he : x.epoch = (st.spans s).epoch) (hl : x.link = (st.spans s).link)
    (ho : x.owner = (st.spans s).owner ∨ (st.pc c).held = some s ∧ m.Owns x.owner)
    (hheld : pc.held = (st.pc c).held) (hfetch : pc.fetching = (st.pc c).fetching)
    (hgrip : ∀ m l, (st.pc c).held ≠ none → (st.pc c).Grip m l → pc.Grip m l)
    (hlists : ∀ p, p ∈ x.locals ∨ p ∈ x.remotes → fromObject p = s)
    (hlive : ∀ p ∈ l, st.Used (fromObject p))
    (hknows : pc.Knows m ({ st.setSpan s x with live := l }.goto c pc) c) :
    Inv m ({ st.setSpan s x with live := l }.goto c pc) := by
  refine hi.quiet (quiet_setSpan l hk he hl ho hheld hfetch hgrip)
    (by rw [State.goto_pc_self]; exact hknows) ?_ hlive
  intro y p hp
  by_cases hy : y = s
  · subst hy
    refine hlists p ?_
    simpa [State.setSpan] using hp
  · refine hi.lists y p ?_
    simpa [State.setSpan, hy] using hp

theorem Inv.goto {l : List ℕ} (hi : Inv m st) (hheld : pc.held = (st.pc c).held)
    (hslot : ∀ sc, (st.goto c pc).slot c sc = st.slot c sc)
    (hgrip : ∀ m l, (st.pc c).held ≠ none → (st.pc c).Grip m l → pc.Grip m l)
    (hlive : ∀ p ∈ l, st.Used (fromObject p)) (hknows : pc.Knows m st c) :
    Inv m ({ st with live := l }.goto c pc) := by
  have hq : Quiet m st ({ st with live := l }.goto c pc) c := by
    refine ⟨fun c' hc => State.goto_pc_of_ne hc,hslot,rfl,rfl,rfl,rfl,fun _ => rfl,fun _ _ => rfl,
      fun _ => .inl rfl,fun _ _ => rfl,?_,?_⟩
    · rw [State.goto_pc_self]
      exact hheld
    · rw [State.goto_pc_self]
      exact hgrip
  refine hi.quiet hq ?_ hi.lists hlive
  rw [State.goto_pc_self]
  exact hknows.congr rfl (fun _ => hq.used.mpr) fun _ _ => ⟨rfl,rfl⟩

/-- A step of a thread with nothing in its hands. -/
theorem Inv.load (hi : Inv m st) (hbefore : (st.pc c).held = none) (hheld : pc.held = none)
    (hfetch : pc.fetching = (st.pc c).fetching) (hknows : pc.Knows m st c) :
    Inv m (st.goto c pc) := by
  refine hi.goto (l := st.live) (hheld.trans hbefore.symm) ?_ ?_ hi.live hknows
  · intro sc
    rw [State.slot_goto_self, hfetch]
    rfl
  · intro _ _ hne
    exact absurd hbefore hne

/-- A step of a thread with a span in its hands. -/
theorem Inv.work (hi : Inv m st) (hheld : pc.held = (st.pc c).held)
    (hfetch : pc.fetching = (st.pc c).fetching) (hgrip : ∀ m l, (st.pc c).Grip m l → pc.Grip m l)
    (hknows : pc.Knows m st c) : Inv m (st.goto c pc) := by
  refine hi.goto (l := st.live) hheld ?_ (fun m l _ => hgrip m l) hi.live hknows
  intro sc
  rw [State.slot_goto_self, hfetch]
  rfl

theorem settle_cases (m : Machine) (n : ℕ) (f : FreeCall) :
    m.settle n f = .markFull f ∧ isFloatingOrReusable f.epoch ∨ m.settle n f = .markReuse f ∨
      m.settle n f = .idle := by
  unfold Machine.settle
  split
  · next h => exact .inl ⟨rfl,h.2⟩
  · split
    · exact .inr (.inl rfl)
    · exact .inr (.inr rfl)

theorem Inv.settle (hi : Inv m st) {f : FreeCall} (n : ℕ) (hheld : (st.pc c).held = none)
    (hfetch : (st.pc c).fetching = none) (hf : f.Known m st) : Inv m (st.goto c (m.settle n f)) := by
  rcases settle_cases m n f with ⟨h,hfr⟩ | h | h
  · rw [h]
    exact hi.load hheld rfl hfetch.symm ⟨hf,hfr⟩
  · rw [h]
    exact hi.load hheld rfl hfetch.symm hf
  · rw [h]
    exact hi.load hheld rfl hfetch.symm trivial

/-- `PushFront` finds the span of the call still marked reusable and in no deque, and a
`NewMarkHot` that succeeds in `GetSpan` finds the span that was taken in no deque. -/
def Undisturbed (st : State) : Event → Prop
  | .next c _ =>
    match st.pc c with
    | .pushFront f => isReusable (st.spans f.span).epoch ∧ (st.spans f.span).link = none
    | .markHot _ s e => newMarkHot (st.spans s).epoch e ≠ none → (st.spans s).link = none
    | _ => True
  | _ => True

instance (st : State) (e : Event) : Decidable (Undisturbed st e) := by
  cases e with
  | allocate c size => exact .isTrue trivial
  | free c p => exact .isTrue trivial
  | next c rand =>
    dsimp only [Undisturbed]
    cases st.pc c <;> (dsimp only; infer_instance)

/-- The span has a free object. -/
def Header.Stocked (x : Header) : Prop := x.locals ≠ [] ∨ x.remotes ≠ []

instance (x : Header) : Decidable x.Stocked := inferInstanceAs (Decidable (_ ∨ _))

/-- `NewMarkReuse` finds a free object where it succeeds, and the `NewMarkHot` of `GetSpan`
finds the span still marked reusable. -/
def Supplied (st : State) : Event → Prop
  | .next c _ =>
    match st.pc c with
    | .markReuse f => newMarkReuse (st.spans f.span).epoch f.epoch ≠ none →
        (st.spans f.span).Stocked
    | .markHot _ s e => newMarkHot (st.spans s).epoch e ≠ none → isReusable (st.spans s).epoch
    | _ => True
  | _ => True

instance (st : State) (e : Event) : Decidable (Supplied st e) := by
  cases e with
  | allocate c size => exact .isTrue trivial
  | free c p => exact .isTrue trivial
  | next c rand =>
    dsimp only [Supplied]
    cases st.pc c <;> (dsimp only; infer_instance)

theorem Inv.not_linked (hi : Inv m st) (hk : st.Known s) (hlink : (st.spans s).link = none)
    (c sc : ℕ) : s ∉ st.deque c sc := by
  obtain ⟨w,hat⟩ := hi.placed s hk
  rw [hat.deque, ← hat.link, hlink]
  simp

/-- A free list of the span of a call grows by the freed object. -/
theorem Inv.pushed (hi : Inv m st) {p : ℕ} {f : FreeCall} {x : Header} (hf : f.Known m st)
    (hp : f.span = fromObject p) (hheld : (st.pc c).held = none) (hpc : pc.held = none)
    (hfetch : pc.fetching = (st.pc c).fetching)
    (hx : x = { st.spans f.span with locals := p :: (st.spans f.span).locals } ∨
      x = { st.spans f.span with remotes := p :: (st.spans f.span).remotes })
    (hknows : f.Known m ((st.setSpan f.span x).goto c pc) →
      pc.Knows m ((st.setSpan f.span x).goto c pc) c) :
    Inv m ((st.setSpan f.span x).goto c pc) := by
  have hgrip : ∀ mk l, (st.pc c).held ≠ none → (st.pc c).Grip mk l → pc.Grip mk l :=
    fun _ _ hne => absurd hheld hne
  have hsame : x.epoch = (st.spans f.span).epoch ∧ x.link = (st.spans f.span).link ∧
      x.owner = (st.spans f.span).owner := by
    rcases hx with rfl | rfl <;> exact ⟨rfl,rfl,rfl⟩
  have hq : Quiet m st ((st.setSpan f.span x).goto c pc) c :=
    quiet_setSpan st.live hf.used.1 hsame.1 hsame.2.1 (.inl hsame.2.2) (hpc.trans hheld.symm)
      hfetch hgrip
  refine hi.setSpan (l := st.live) hf.used.1 hsame.1 hsame.2.1 (.inl hsame.2.2)
    (hpc.trans hheld.symm) hfetch hgrip ?_ hi.live
    (hknows ⟨hq.used.mpr hf.used,hf.epoch,hf.owner⟩)
  intro q hq
  have hlists := hi.lists f.span q
  rcases hx with rfl | rfl
  · rcases hq with hq | hq
    · rcases List.mem_cons.mp hq with rfl | hq
      · exact hp.symm
      · exact hlists (.inl hq)
    · exact hlists (.inr hq)
  · rcases hq with hq | hq
    · exact hlists (.inl hq)
    · rcases List.mem_cons.mp hq with rfl | hq
      · exact hp.symm
      · exact hlists (.inr hq)

/-- Every step of `Core::Free` keeps the invariant. -/
theorem Inv.freeStep (hi : Inv m st) (hs : freeStep m st c = some st')
    (hok : ∀ f, st.pc c = .pushFront f →
      isReusable (st.spans f.span).epoch ∧ (st.spans f.span).link = none) : Inv m st' := by
  have hknows := hi.knows c
  unfold Stepwise.freeStep at hs
  split at hs
  · next p hpc =>
    rw [hpc] at hknows
    obtain rfl := Option.some.inj hs
    exact hi.load (by rw [hpc]; rfl) rfl (by rw [hpc]; rfl) ⟨hknows,hi.valid _⟩
  · next p e hpc =>
    rw [hpc] at hknows
    obtain rfl := Option.some.inj hs
    exact hi.load (by rw [hpc]; rfl) rfl (by rw [hpc]; rfl)
      ⟨hknows.1,hknows.2,hi.owners _ hknows.1⟩
  · next p e owner hpc =>
    rw [hpc] at hknows
    obtain ⟨hu,he,ho⟩ := hknows
    obtain rfl := Option.some.inj hs
    exact hi.load (by rw [hpc]; rfl) rfl (by rw [hpc]; rfl) ⟨⟨hu,he,ho⟩,rfl⟩
  · next p f hpc =>
    rw [hpc] at hknows
    split at hs
    · obtain rfl := Option.some.inj hs
      exact hi.load (by rw [hpc]; rfl) rfl (by rw [hpc]; rfl) hknows
    · obtain rfl := Option.some.inj hs
      exact hi.load (by rw [hpc]; rfl) rfl (by rw [hpc]; rfl) hknows
  · next p f hpc =>
    rw [hpc] at hknows
    obtain rfl := Option.some.inj hs
    exact hi.pushed hknows.1 hknows.2 (by rw [hpc]; rfl) rfl (by rw [hpc]; rfl) (.inl rfl) id
  · next n f hpc =>
    rw [hpc] at hknows
    split at hs
    · obtain rfl := Option.some.inj hs
      exact hi.load (by rw [hpc]; rfl) rfl (by rw [hpc]; rfl) hknows
    · obtain rfl := Option.some.inj hs
      exact hi.load (by rw [hpc]; rfl) rfl (by rw [hpc]; rfl) hknows
  · next n f hpc =>
    rw [hpc] at hknows
    obtain rfl := Option.some.inj hs
    exact hi.load (by rw [hpc]; rfl) rfl (by rw [hpc]; rfl) hknows
  · next p f hpc =>
    rw [hpc] at hknows
    obtain rfl := Option.some.inj hs
    exact hi.pushed hknows.1 hknows.2 (by rw [hpc]; rfl) rfl (by rw [hpc]; rfl) (.inr rfl) id
  · next n f hpc =>
    rw [hpc] at hknows
    obtain rfl := Option.some.inj hs
    exact hi.load (by rw [hpc]; rfl) rfl (by rw [hpc]; rfl) hknows
  · next n f hpc =>
    rw [hpc] at hknows
    have ho : m.id f.owner.value ≠ kTerminated := by
      intro he
      exact hknows.owner.1 (congrArg TaggedValue.value he)
    rw [if_neg ho] at hs
    obtain rfl := Option.some.inj hs
    exact hi.load (by rw [hpc]; rfl) rfl (by rw [hpc]; rfl) hknows
  · next n f hpc =>
    rw [hpc] at hknows
    have ho : f.owner = m.id f.owner.value := hknows.owner.2
    rw [if_neg (not_not.mpr ho)] at hs
    obtain rfl := Option.some.inj hs
    exact hi.settle n (by rw [hpc]; rfl) (by rw [hpc]; rfl) hknows
  · next n f hpc =>
    rw [hpc] at hknows
    exact absurd hknows id
  · next n f hpc =>
    rw [hpc] at hknows
    exact absurd hknows id
  · next f hpc =>
    split at hs
    · next e hcas =>
      obtain rfl := Option.some.inj hs
      exact hi.markFull hpc hcas
    · obtain rfl := Option.some.inj hs
      exact hi.load (by rw [hpc]; rfl) rfl (by rw [hpc]; rfl) trivial
  · next f hpc =>
    rw [hpc] at hknows
    split at hs
    · next hlink =>
      obtain rfl := Option.some.inj hs
      exact hi.unlinked hpc hlink
    · next a b hlink =>
      have ho : f.owner = m.id f.owner.value := hknows.2
      rw [if_neg (not_not.mpr ho)] at hs
      obtain rfl := Option.some.inj hs
      exact hi.unlink hpc hlink
  · next f hpc =>
    obtain rfl := Option.some.inj hs
    exact hi.work (by rw [hpc]; rfl) (by rw [hpc]; rfl) (by rw [hpc]; exact fun _ _ h => h) trivial
  · next s sc id hpc =>
    obtain rfl := Option.some.inj hs
    exact hi.poolPush hpc _ _
  · next f hpc =>
    split at hs
    · next e hcas =>
      obtain rfl := Option.some.inj hs
      exact hi.markReuse hpc hcas
    · obtain rfl := Option.some.inj hs
      exact hi.load (by rw [hpc]; rfl) rfl (by rw [hpc]; rfl) trivial
  · next f hpc =>
    rw [hpc] at hknows
    obtain ⟨hm,hlink⟩ := hok f hpc
    have ho : f.owner = m.id f.owner.value := hknows.owner.2
    rw [if_neg (not_not.mpr ho)] at hs
    obtain rfl := Option.some.inj hs
    exact hi.pushFront hpc ((hi.valid _).isReusable_iff.mp hm) (hi.not_linked hknows.used.1 hlink) _ _
  · cases hs

/-- A hot span was constructed. -/
theorem Inv.used_slot (hi : Inv m st) (hfetch : (st.pc c).fetching = none)
    (hne : st.hot c sc ≠ 0) : st.Used (st.hot c sc) := by
  obtain ⟨hk,hat⟩ := hi.at_slot hfetch hne
  refine ⟨hk,fun c' hheld => ?_⟩
  obtain ⟨l,hl⟩ := (hat.held c').mp hheld
  cases hl

/-- `Pop` on the hot span. -/
theorem Inv.popLocal (hi : Inv m st) (hheld : (st.pc c).held = none)
    (hfetch : (st.pc c).fetching = none) (hne : st.hot c sc ≠ 0) (hpc : pc.held = none)
    (hpcf : pc.fetching = none) (hknows : pc.Knows m st c) : Inv m (popLocal st c sc pc) := by
  unfold Stepwise.popLocal
  have hu := hi.used_slot hfetch hne
  have hlists := hi.lists (st.hot c sc)
  split
  · exact hi.load hheld hpc (hpcf.trans hfetch.symm) hknows
  · next p l hl =>
    rw [hl] at hlists
    refine hi.setSpan hu.1 rfl rfl (.inl rfl) hheld.symm hfetch.symm
      (fun _ _ hh => absurd hheld hh) ?_ ?_ trivial
    · intro q hq
      exact hlists q (hq.imp_left (List.mem_cons_of_mem p))
    · intro q hq
      rcases List.mem_cons.mp hq with rfl | hq
      · rw [hlists q (.inl List.mem_cons_self)]
        exact hu
      · exact hi.live q hq

theorem retire_cases (m : Machine) (sc s n : ℕ) :
    m.retire sc s n = .moveEmpty s (.again sc) ∨ m.retire sc s n = .floatingLoad sc := by
  unfold Machine.retire
  split
  · exact .inl rfl
  · exact .inr rfl

theorem Inv.retire (hi : Inv m st) (n : ℕ) (hheld : (st.pc c).held = none)
    (hfetch : (st.pc c).fetching = none) (hsc : IsObjectClass sc) (hne : st.hot c sc ≠ 0) :
    Inv m (st.goto c (m.retire sc (st.hot c sc) n)) := by
  rcases retire_cases m sc (st.hot c sc) n with h | h
  · rw [h]
    exact hi.load hheld rfl hfetch.symm ⟨rfl,hne⟩
  · rw [h]
    exact hi.load hheld rfl hfetch.symm ⟨hsc,hne⟩

section Moves
variable {k : Then}

theorem Then.pc_held : (k.pc s).held = k.held s := by
  cases k <;> rfl

theorem Then.pc_fetching : (k.pc s).fetching = k.fetching := by
  cases k <;> rfl

theorem Then.pc_knows (h : k.Holds st c s) : (k.pc s).Knows m st c := by
  cases k with
  | again sc =>
    obtain ⟨rfl,hne⟩ := h
    exact hne
  | hot g => exact h

theorem Then.pc_grip {mk : Mark} {l : Option (ℕ × ℕ)} (h : (mk = .hot ∨ mk = .full) ∧ l = none) :
    (k.pc s).Grip mk l := by
  cases k <;> exact h

/-- The span of a move is known. -/
theorem Inv.move_known (hi : Inv m st) (hheld : (st.pc c).held = k.held s)
    (hfetch : (st.pc c).fetching = k.fetching) (hk : k.Holds st c s) : st.Known s := by
  cases k with
  | again sc =>
    obtain ⟨rfl,hne⟩ := hk
    exact (hi.at_slot hfetch hne).1
  | hot g => exact (hi.at_held hheld).1

theorem Then.Holds.congr (h : k.Holds st c s) (hhot : st'.hot = st.hot) : k.Holds st' c s := by
  cases k with
  | again sc =>
    rw [Then.Holds, hhot]
    exact h
  | hot g => exact h

/-- The lists of the span of a move change. -/
theorem Inv.move (hi : Inv m st) {x : Header} (hk : k.Holds st c s)
    (hheld : (st.pc c).held = k.held s) (hfetch : (st.pc c).fetching = k.fetching)
    (hpc : pc.held = k.held s) (hpcf : pc.fetching = k.fetching)
    (hgrip : ∀ mk l, (st.pc c).Grip mk l → pc.Grip mk l)
    (hx : x.epoch = (st.spans s).epoch ∧ x.link = (st.spans s).link ∧ x.owner = (st.spans s).owner)
    (hlists : ∀ p, p ∈ x.locals ∨ p ∈ x.remotes → fromObject p = s)
    (hknows : k.Holds ((st.setSpan s x).goto c pc) c s → pc.Knows m ((st.setSpan s x).goto c pc) c) :
    Inv m ((st.setSpan s x).goto c pc) :=
  hi.setSpan (l := st.live) (hi.move_known hheld hfetch hk) hx.1 hx.2.1 (.inl hx.2.2)
    (hpc.trans hheld.symm) (hpcf.trans hfetch.symm) (fun mk l _ => hgrip mk l) hlists hi.live
    (hknows (hk.congr rfl))

end Moves

/-- Every step of `Core::Allocate` outside `GetSpan` keeps the invariant. -/
theorem Inv.allocateStep (hi : Inv m st) (hs : allocateStep m st c = some st') : Inv m st' := by
  have hknows := hi.knows c
  unfold Stepwise.allocateStep at hs
  split at hs
  · next sc hpc =>
    rw [hpc] at hknows
    obtain rfl := Option.some.inj hs
    exact hi.popLocal (by rw [hpc]; rfl) (by rw [hpc]; rfl) hknows.2 rfl rfl hknows
  · next sc hpc =>
    rw [hpc] at hknows
    obtain rfl := Option.some.inj hs
    exact hi.load (by rw [hpc]; rfl) rfl (by rw [hpc]; rfl) hknows
  · next sc n hpc =>
    rw [hpc] at hknows
    split at hs
    · obtain rfl := Option.some.inj hs
      exact hi.retire n (by rw [hpc]; rfl) (by rw [hpc]; rfl) hknows.1 hknows.2
    · obtain rfl := Option.some.inj hs
      exact hi.load (by rw [hpc]; rfl) rfl (by rw [hpc]; rfl) hknows
  · next sc n hpc =>
    rw [hpc] at hknows
    obtain rfl := Option.some.inj hs
    exact hi.retire _ (by rw [hpc]; rfl) (by rw [hpc]; rfl) hknows.1 hknows.2
  · next s k hpc =>
    rw [hpc] at hknows
    split at hs
    · obtain rfl := Option.some.inj hs
      exact hi.work (by rw [hpc]; exact Then.pc_held) (by rw [hpc]; exact Then.pc_fetching)
        (by rw [hpc]; exact fun _ _ h => Then.pc_grip h) (Then.pc_knows hknows)
    · obtain rfl := Option.some.inj hs
      exact hi.work (by rw [hpc]; rfl) (by rw [hpc]; rfl) (by rw [hpc]; exact fun _ _ h => h) hknows
  · next s k hpc =>
    rw [hpc] at hknows
    split at hs
    · obtain rfl := Option.some.inj hs
      exact hi.work (by rw [hpc]; exact Then.pc_held) (by rw [hpc]; exact Then.pc_fetching)
        (by rw [hpc]; exact fun _ _ h => Then.pc_grip h) (Then.pc_knows hknows)
    · obtain rfl := Option.some.inj hs
      exact hi.work (by rw [hpc]; rfl) (by rw [hpc]; rfl) (by rw [hpc]; exact fun _ _ h => h) hknows
  · next s k hpc =>
    rw [hpc] at hknows
    obtain rfl := Option.some.inj hs
    have hlists := hi.lists s
    refine hi.move hknows (by rw [hpc]; rfl) (by rw [hpc]; rfl) rfl rfl
      (by rw [hpc]; exact fun _ _ h => h) ⟨rfl,rfl,rfl⟩ ?_ fun hk => ⟨hk,fun p hp => hlists p (.inr hp)⟩
    intro p hp
    exact hlists p (.inl (hp.resolve_right List.not_mem_nil))
  · next s objects k hpc =>
    rw [hpc] at hknows
    obtain ⟨hholds,hobjects⟩ := hknows
    have hlists := hi.lists s
    split at hs
    · obtain rfl := Option.some.inj hs
      refine hi.move hholds (by rw [hpc]; rfl) (by rw [hpc]; rfl) Then.pc_held Then.pc_fetching
        (by rw [hpc]; exact fun _ _ h => Then.pc_grip h) ⟨rfl,rfl,rfl⟩ ?_ Then.pc_knows
      intro p hp
      exact hp.elim (hobjects p) fun hp => hlists p (.inr hp)
    · obtain rfl := Option.some.inj hs
      exact hi.work (by rw [hpc]; rfl) (by rw [hpc]; rfl) (by rw [hpc]; exact fun _ _ h => h)
        ⟨hholds,hobjects⟩
  · next s objects k hpc =>
    rw [hpc] at hknows
    obtain ⟨hholds,hobjects⟩ := hknows
    have hlists := hi.lists s
    split at hs
    · obtain rfl := Option.some.inj hs
      exact hi.work (by rw [hpc]; exact Then.pc_held) (by rw [hpc]; exact Then.pc_fetching)
        (by rw [hpc]; exact fun _ _ h => Then.pc_grip h) (Then.pc_knows hholds)
    · next p objects =>
      obtain rfl := Option.some.inj hs
      refine hi.move hholds (by rw [hpc]; rfl) (by rw [hpc]; rfl) rfl rfl
        (by rw [hpc]; exact fun _ _ h => h) ⟨rfl,rfl,rfl⟩ ?_
        fun hk => ⟨hk,fun q hq => hobjects q (List.mem_cons_of_mem p hq)⟩
      intro q hq
      rcases hq with hq | hq
      · rcases List.mem_cons.mp hq with rfl | hq
        · exact hobjects q List.mem_cons_self
        · exact hlists q (.inl hq)
      · exact hlists q (.inr hq)
  · next sc hpc =>
    rw [hpc] at hknows
    obtain rfl := Option.some.inj hs
    exact hi.popLocal (by rw [hpc]; rfl) (by rw [hpc]; rfl) hknows rfl rfl trivial
  · next sc hpc =>
    rw [hpc] at hknows
    obtain rfl := Option.some.inj hs
    exact hi.load (by rw [hpc]; rfl) rfl (by rw [hpc]; rfl) hknows
  · next sc e hpc =>
    obtain rfl := Option.some.inj hs
    exact hi.floatingStore hpc
  · cases hs

/-- A store of the constructor. -/
theorem Inv.construct (hi : Inv m st) {x : Header} (hheld : (st.pc c).held = some s)
    (hpc : pc.held = some s) (hpcf : pc.fetching = (st.pc c).fetching)
    (hgrip : ∀ mk l, (st.pc c).Grip mk l → pc.Grip mk l) (he : x.epoch = (st.spans s).epoch)
    (hl : x.link = (st.spans s).link) (ho : x.owner = (st.spans s).owner ∨ m.Owns x.owner)
    (hlists : ∀ p, p ∈ x.locals ∨ p ∈ x.remotes → fromObject p = s)
    (hknows : pc.Knows m ((st.setSpan s x).goto c pc) c) : Inv m ((st.setSpan s x).goto c pc) :=
  hi.setSpan (l := st.live) (hi.at_held hheld).1 he hl (ho.imp_right fun h => ⟨hheld,h⟩)
    (hpc.trans hheld.symm) hpcf (fun mk l _ => hgrip mk l) hlists hi.live hknows

/-- The last step of the constructor. -/
theorem Inv.newMark (hi : Inv m st) {g : Fetch} (hpc : st.pc c = .newMark g s e) :
    (∀ e', newMarkHot (st.spans s).epoch e = some e' →
      Inv m ((st.setEpoch s e').goto c (.setHot g s))) ∧
    (newMarkHot (st.spans s).epoch e = none → Inv m (st.goto c (.setHot g s))) := by
  have hknows := hi.knows c
  rw [hpc] at hknows
  obtain ⟨_,_,rfl⟩ := hknows
  obtain ⟨hk,l,hat⟩ := hi.at_held (c := c) (s := s) (by rw [hpc]; rfl)
  obtain ⟨k,mk,he⟩ := hi.valid s
  have hmark : mk = .full ∨ mk = .floating := by
    have ha := hat.allowed
    rw [State.Allows, hpc, State.mark, he, mark_encode] at ha
    exact ha.1
  constructor
  · intro e' hcas
    rw [he, newMarkHot_encode] at hcas
    obtain ⟨_,rfl⟩ := hcas
    exact hi.constructed hpc ⟨_,_,rfl⟩ (.inl (mark_encode _ _))
  · intro hnone
    have hfull : mk = .full := by
      rcases hmark with hm | rfl
      · exact hm
      · have hsome : newMarkHot (encode k .floating) (encode k .floating) =
            some (encode (k + 1) .hot) := newMarkHot_encode.mpr ⟨⟨rfl,rfl⟩,rfl⟩
        rw [he, hsome] at hnone
        cases hnone
    have hsame : st.setEpoch s (st.spans s).epoch = st := by
      simp [State.setEpoch, State.setSpan]
    have hinv := hi.constructed hpc (hi.valid s) (.inr (by rw [he, mark_encode, hfull]))
    rwa [hsame] at hinv

/-- Every step of `GetSpan` keeps the invariant. -/
theorem Inv.fetchStep (hi : Inv m st) {rand : ℕ → ℕ} (hc : c ≠ 0)
    (hs : fetchStep m st c rand = some st')
    (hok : ∀ g s e, st.pc c = .markHot g s e → newMarkHot (st.spans s).epoch e ≠ none →
      (st.spans s).link = none) : Inv m st' := by
  have hknows := hi.knows c
  unfold Stepwise.fetchStep at hs
  split at hs
  · next g hpc =>
    rw [hpc] at hknows
    split at hs
    · next s hlast =>
      obtain rfl := Option.some.inj hs
      exact hi.removeBack hpc hlast
    · obtain rfl := Option.some.inj hs
      exact hi.load (by rw [hpc]; rfl) rfl (by rw [hpc]; rfl) hknows
  · next g s hpc =>
    rw [hpc] at hknows
    obtain rfl := Option.some.inj hs
    exact hi.load (by rw [hpc]; rfl) rfl (by rw [hpc]; rfl) ⟨hknows.1,hknows.2,hi.valid s⟩
  · next g s e hpc =>
    rw [hpc] at hknows
    split at hs
    · next e' hcas =>
      obtain rfl := Option.some.inj hs
      have hlink := hok g s e hpc (by rw [hcas]; simp)
      exact hi.markHot hpc hcas (hi.not_linked hknows.2.1.1 hlink)
    · obtain rfl := Option.some.inj hs
      exact hi.load (by rw [hpc]; rfl) rfl (by rw [hpc]; rfl) hknows.1
  · next g a b rest hpc =>
    rw [hpc] at hknows
    split at hs
    · next s pool hpop =>
      obtain rfl := Option.some.inj hs
      exact hi.poolPop hpc hpop
    · obtain rfl := Option.some.inj hs
      exact hi.load (by rw [hpc]; rfl) rfl (by rw [hpc]; rfl) hknows
  · next g hpc =>
    split at hs
    · next s arena halloc =>
      obtain rfl := Option.some.inj hs
      exact hi.fresh hpc halloc
    · cases hs
  · next g s hpc =>
    rw [hpc] at hknows
    obtain rfl := Option.some.inj hs
    have hheld : (st.pc c).held = some s := by rw [hpc]; rfl
    obtain ⟨_,l,hat⟩ := hi.at_held hheld
    have hlink : (st.spans s).link = none := by
      have ha := hat.allowed
      rw [State.Allows, hpc] at ha
      rw [hat.link]
      exact ha.2
    exact hi.construct hheld rfl (by rw [hpc]; rfl) (by rw [hpc]; exact fun _ _ h => h) rfl
      hlink.symm (.inl rfl) (hi.lists s) hknows
  · next g s hpc =>
    rw [hpc] at hknows
    obtain rfl := Option.some.inj hs
    have howner : m.Owns (m.id c) := ⟨hc,rfl⟩
    refine hi.construct (by rw [hpc]; rfl) rfl (by rw [hpc]; rfl) (by rw [hpc]; exact fun _ _ h => h)
      rfl rfl (.inr howner) (hi.lists s) ⟨hknows,?_⟩
    simpa [State.setSpan] using howner
  · next g s hpc =>
    rw [hpc] at hknows
    obtain rfl := Option.some.inj hs
    refine hi.construct (by rw [hpc]; rfl) rfl (by rw [hpc]; rfl) (by rw [hpc]; exact fun _ _ h => h)
      rfl rfl (.inl rfl) (hi.lists s) ⟨hknows.1,?_⟩
    simpa [State.setSpan] using hknows.2
  · next g s hpc =>
    rw [hpc] at hknows
    obtain rfl := Option.some.inj hs
    have hheld : (st.pc c).held = some s := by rw [hpc]; rfl
    have hspan := hi.arena.isVirtualSpan (hi.at_held hheld).1
    refine hi.construct hheld rfl (by rw [hpc]; rfl) (by rw [hpc]; exact fun _ _ h => h)
      rfl rfl (.inl rfl) ?_ ⟨hknows.1,?_⟩
    · intro p hp
      rcases hp with hp | hp
      · have hz := classToSize_pos hknows.1
        exact fromObject_of_slot hspan hknows.1 hp le_rfl (by omega)
      · exact hi.lists s p (.inr hp)
    · simpa [State.setSpan] using hknows.2
  · next g s hpc =>
    rw [hpc] at hknows
    obtain rfl := Option.some.inj hs
    refine hi.construct (by rw [hpc]; rfl) rfl (by rw [hpc]; rfl) (by rw [hpc]; exact fun _ _ h => h)
      rfl rfl (.inl rfl) ?_ ⟨hknows.1,?_⟩
    · intro p hp
      exact hi.lists s p (.inl (hp.resolve_right List.not_mem_nil))
    · simpa [State.setSpan] using hknows.2
  · next g s hpc =>
    rw [hpc] at hknows
    obtain rfl := Option.some.inj hs
    exact hi.work (by rw [hpc]; rfl) (by rw [hpc]; rfl) (by rw [hpc]; exact fun _ _ h => h)
      ⟨hknows.1,hknows.2,rfl⟩
  · next g s e hpc =>
    obtain ⟨hsome,hnone⟩ := hi.newMark hpc
    split at hs
    · next e' hcas =>
      obtain rfl := Option.some.inj hs
      exact hsome e' hcas
    · next hcas =>
      obtain rfl := Option.some.inj hs
      exact hnone hcas
  · next g s hpc =>
    rw [hpc] at hknows
    have hs0 : s ≠ 0 := hi.ne_zero (hi.at_held (c := c) (by rw [hpc]; rfl)).1
    dsimp only at hs
    rw [if_neg hs0] at hs
    split at hs
    · obtain rfl := Option.some.inj hs
      exact hi.setHot hpc rfl rfl fun _ hne => ⟨hknows,hne⟩
    · obtain rfl := Option.some.inj hs
      exact hi.setHot hpc rfl rfl fun _ hne => hne
  · cases hs

end Scalloc.Stepwise
