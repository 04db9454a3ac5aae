import Scalloc.Heap.StepRuns

/-! # `Core::Allocate` finds a free object

Only the thread that has a span in a slot or in its hands takes objects off its lists. A span
marked reusable has a free object, and so has the span that a thread takes from a deque, as
long as every `NewMarkReuse` found one. A stale epoch can break this.
-/
namespace Scalloc.Stepwise
open Epoch Transition

/-- No list that has objects becomes empty. -/
def Header.Keeps (x y : Header) : Prop :=
  (x.locals ≠ [] → y.locals ≠ []) ∧ (x.remotes ≠ [] → y.remotes ≠ [])

theorem Header.Stocked.keeps {x y : Header} (h : x.Stocked) (hk : x.Keeps y) : y.Stocked :=
  h.imp hk.1 hk.2

/-- The span is in a slot of thread `c` or in its hands. -/
def State.Has (st : State) (c s : ℕ) : Prop := (∃ sc, st.slot c sc = s) ∨ (st.pc c).held = some s

/-- What thread `c` knows about the free objects of its span. -/
def Pc.Finds (st : State) (c : ℕ) : Pc → Prop
  | done p => p ≠ 0
  | countEmpty sc n => 0 < n → (st.spans (st.hot c sc)).locals ≠ []
  | countLength sc n => 0 < n → (st.spans (st.hot c sc)).locals ≠ []
  | moveEmpty s _ => (st.spans s).Stocked
  | moveLength s _ => (st.spans s).Stocked
  | popAll s _ => (st.spans s).Stocked
  | moveTest s objects _ => (st.spans s).locals ≠ [] ∨ objects ≠ []
  | moveLoop s _ _ => (st.spans s).locals ≠ []
  | allocateLast sc => (st.spans (st.hot c sc)).locals ≠ []
  | newRemote _ s => (st.spans s).locals ≠ []
  | newEpoch _ s => (st.spans s).locals ≠ []
  | newMark _ s _ => (st.spans s).locals ≠ []
  | setHot _ s => (st.spans s).locals ≠ []
  | _ => True

/-- Reusable spans have free objects, and so have the spans that the threads count on. -/
structure StockInv (st : State) : Prop where
  reusable : ∀ s, st.mark s = .reusable → (st.spans s).Stocked
  finds : ∀ c, (st.pc c).Finds st c

section Frames
variable {m : Machine} {st st' X : State} {c c' s sc : ℕ} {pc : Pc} {x : Header}

theorem Pc.Grip.not_reusable {l : Option (ℕ × ℕ)} : ¬ pc.Grip .reusable l := by
  cases pc <;> simp [Pc.Grip]

theorem Inv.has_unique (hi : Inv m st) (hs : s ≠ 0) (h : st.Has c s) (h' : st.Has c' s) :
    c = c' := by
  by_cases hk : st.Known s
  · obtain ⟨w,hat⟩ := hi.placed s hk
    rcases h with ⟨sc,h⟩ | h
    · obtain rfl := (hat.slot c sc).mp h
      rcases h' with ⟨sc',h'⟩ | h'
      · cases (hat.slot c' sc').mp h'
        rfl
      · obtain ⟨l,hl⟩ := (hat.held c').mp h'
        cases hl
    · obtain ⟨l,rfl⟩ := (hat.held c).mp h
      rcases h' with ⟨sc',h'⟩ | h'
      · cases (hat.slot c' sc').mp h'
      · obtain ⟨l',hl⟩ := (hat.held c').mp h'
        cases hl
        rfl
  · obtain ⟨h1,_,_,h4,_⟩ := hi.absent s hk
    rcases h with ⟨sc,h⟩ | h
    · exact absurd (h1 c sc h) hs
    · exact absurd h (h4 c)

/-- A span in a slot or in the hands of a thread is not marked reusable. -/
theorem Inv.not_has_of_reusable (hi : Inv m st) (hmark : st.mark s = .reusable) :
    ¬ st.Has c s := by
  intro h
  by_cases hk : st.Known s
  · obtain ⟨w,hat⟩ := hi.placed s hk
    have ha := hat.allowed
    rw [hmark] at ha
    rcases h with ⟨sc,h⟩ | h
    · obtain rfl := (hat.slot c sc).mp h
      rcases ha with ha | ha <;> cases ha
    · obtain ⟨l,rfl⟩ := (hat.held c).mp h
      exact Pc.Grip.not_reusable ha
  · rw [State.mark, (hi.absent s hk).2.2.2.2] at hmark
    exact absurd hmark (by decide)

theorem has_hot (hfetch : (st.pc c).fetching = none) : st.Has c (st.hot c sc) :=
  .inl ⟨sc,by rw [State.slot, hfetch]; rfl⟩

/-- Thread `c` has the span whose remote objects it moves. -/
theorem Then.Holds.has {k : Then} (h : k.Holds st c s) (hheld : (st.pc c).held = k.held s)
    (hfetch : (st.pc c).fetching = k.fetching) : st.Has c s := by
  cases k with
  | again sc =>
    rw [h.1]
    exact has_hot hfetch
  | hot g => exact .inr hheld

/-- What a thread knows about the free objects of its span stays true when nobody takes objects
off the lists of that span. -/
theorem Inv.finds_congr (hi : Inv m st) (h : (st.pc c).Finds st c) (hhot : st'.hot c = st.hot c)
    (hkeeps : ∀ s, s ≠ 0 → st.Has c s → (st.spans s).Keeps (st'.spans s)) :
    (st.pc c).Finds st' c := by
  have hknows := hi.knows c
  have hheld : ∀ s, (st.pc c).held = some s → (st.spans s).Keeps (st'.spans s) := fun s hs =>
    hkeeps s (hi.ne_zero (hi.at_held hs).1) (.inr hs)
  have hslot : ∀ sc, (st.pc c).fetching = none → st.hot c sc ≠ 0 →
      (st.spans (st.hot c sc)).Keeps (st'.spans (st.hot c sc)) := fun sc hfetch hne =>
    hkeeps _ hne (has_hot hfetch)
  have hmove : ∀ (k : Then) (s : ℕ), (st.pc c).held = k.held s → (st.pc c).fetching = k.fetching →
      k.Holds st c s → (st.spans s).Keeps (st'.spans s) := by
    intro k s hk hfetch hholds
    exact hkeeps s (hi.ne_zero (hi.move_known hk hfetch hholds)) (hholds.has hk hfetch)
  cases hpc : st.pc c with
  | countEmpty sc n =>
    rw [hpc] at h hknows hslot
    rw [Pc.Finds, hhot]
    exact fun hn => (hslot sc rfl hknows.2).1 (h hn)
  | countLength sc n =>
    rw [hpc] at h hknows hslot
    rw [Pc.Finds, hhot]
    exact fun hn => (hslot sc rfl hknows.2).1 (h hn)
  | allocateLast sc =>
    rw [hpc] at h hknows hslot
    rw [Pc.Finds, hhot]
    exact (hslot sc rfl hknows).1 h
  | moveEmpty s k =>
    rw [hpc] at h hknows hmove
    exact Header.Stocked.keeps h (hmove k s rfl rfl hknows)
  | moveLength s k =>
    rw [hpc] at h hknows hmove
    exact Header.Stocked.keeps h (hmove k s rfl rfl hknows)
  | popAll s k =>
    rw [hpc] at h hknows hmove
    exact Header.Stocked.keeps h (hmove k s rfl rfl hknows)
  | moveTest s objects k =>
    rw [hpc] at h hknows hmove
    exact h.imp_left (hmove k s rfl rfl hknows.1).1
  | moveLoop s objects k =>
    rw [hpc] at h hknows hmove
    exact (hmove k s rfl rfl hknows.1).1 h
  | newRemote g s =>
    rw [hpc] at h hheld
    exact (hheld s rfl).1 h
  | newEpoch g s =>
    rw [hpc] at h hheld
    exact (hheld s rfl).1 h
  | newMark g s e =>
    rw [hpc] at h hheld
    exact (hheld s rfl).1 h
  | setHot g s =>
    rw [hpc] at h hheld
    exact (hheld s rfl).1 h
  | done p =>
    rw [hpc] at h
    exact h
  | _ => trivial

/-- A step of thread `c` that takes objects only off the lists of its own spans. -/
structure TakesOwn (st st' : State) (c : ℕ) : Prop where
  pc : ∀ c', c' ≠ c → st'.pc c' = st.pc c'
  hot : ∀ c', c' ≠ c → st'.hot c' = st.hot c'
  keeps : ∀ s, ¬ st.Has c s → (st.spans s).Keeps (st'.spans s)
  reusable : ∀ s, st'.mark s = .reusable → st.mark s = .reusable ∨ (st'.spans s).Stocked

theorem StockInv.next (h : StockInv st) (hi : Inv m st) (hst : TakesOwn st st' c)
    (hfinds : (st'.pc c).Finds st' c) : StockInv st' where
  reusable := by
    intro s hmark
    rcases hst.reusable s hmark with hm | hstock
    · exact (h.reusable s hm).keeps (hst.keeps s (hi.not_has_of_reusable hm))
    · exact hstock
  finds := by
    intro c'
    by_cases hc : c' = c
    · rw [hc]
      exact hfinds
    · rw [hst.pc c' hc]
      refine hi.finds_congr (h.finds c') (hst.hot c' hc) fun s hs hhas => hst.keeps s fun hc' => ?_
      exact hc (hi.has_unique hs hhas hc')

/-- A step that changes no header. -/
theorem StockInv.goto (h : StockInv st) (hi : Inv m st) (hpc : X.pc = st.pc)
    (hhot : ∀ c', c' ≠ c → X.hot c' = st.hot c') (hspans : X.spans = st.spans)
    (hfinds : pc.Finds X c) : StockInv (X.goto c pc) := by
  refine h.next hi (c := c) ⟨?_,hhot,?_,?_⟩ ?_
  · intro c' hc
    rw [State.goto_pc_of_ne hc, hpc]
  · intro s _
    rw [State.goto_spans, hspans]
    exact ⟨id,id⟩
  · intro s hm
    rw [State.mark, State.goto_spans, hspans] at hm
    exact .inl hm
  · rw [State.goto_pc_self]
    exact hfinds

/-- A step that writes the header of `s`. -/
theorem StockInv.update (h : StockInv st) (hi : Inv m st) (hpc : X.pc = st.pc)
    (hhot : ∀ c', c' ≠ c → X.hot c' = st.hot c') (hspans : X.spans = Function.update st.spans s x)
    (hkeeps : st.Has c s ∨ (st.spans s).Keeps x)
    (hmark : mark x.epoch = .reusable → st.mark s = .reusable ∨ x.Stocked)
    (hfinds : pc.Finds X c) : StockInv (X.goto c pc) := by
  refine h.next hi (c := c) ⟨?_,hhot,?_,?_⟩ ?_
  · intro c' hc
    rw [State.goto_pc_of_ne hc, hpc]
  · intro y hy
    rw [State.goto_spans, hspans]
    by_cases hys : y = s
    · subst hys
      rw [Function.update_self]
      exact hkeeps.resolve_left hy
    · rw [Function.update_of_ne hys]
      exact ⟨id,id⟩
  · intro y hm
    rw [State.mark, State.goto_spans, hspans] at hm
    rw [State.goto_spans, hspans]
    by_cases hys : y = s
    · subst hys
      rw [Function.update_self] at hm ⊢
      exact hmark hm
    · rw [Function.update_of_ne hys] at hm
      exact .inl hm
  · rw [State.goto_pc_self]
    exact hfinds

/-- A step that only reads. -/
theorem StockInv.load (h : StockInv st) (hi : Inv m st) (hfinds : pc.Finds st c) :
    StockInv (st.goto c pc) :=
  h.goto hi rfl (fun _ _ => rfl) rfl hfinds

/-- A mark other than reusable is set. -/
theorem StockInv.setEpoch (h : StockInv st) (hi : Inv m st) {e : Epoch} (he : mark e ≠ .reusable)
    (hfinds : pc.Finds (st.setEpoch s e) c) : StockInv ((st.setEpoch s e).goto c pc) :=
  h.update hi rfl (fun _ _ => rfl) rfl (.inr ⟨id,id⟩) (fun hm => absurd hm he) hfinds

theorem mark_of_newMarkFull {e e' e'' : Epoch} (hv : Valid e) (hv' : Valid e')
    (h : newMarkFull e e' = some e'') : mark e'' = .full := by
  obtain ⟨k,mk,rfl⟩ := hv
  obtain ⟨k',mk',rfl⟩ := hv'
  obtain ⟨_,rfl⟩ := newMarkFull_encode.mp h
  exact mark_encode _ _

theorem mark_of_newMarkHot {e e' e'' : Epoch} (hv : Valid e) (hv' : Valid e')
    (h : newMarkHot e e' = some e'') : mark e'' = .hot := by
  obtain ⟨k,mk,rfl⟩ := hv
  obtain ⟨k',mk',rfl⟩ := hv'
  obtain ⟨_,rfl⟩ := newMarkHot_encode.mp h
  exact mark_encode _ _

theorem settle_finds (n : ℕ) (f : FreeCall) : (m.settle n f).Finds st c := by
  rcases settle_cases m n f with ⟨hs,_⟩ | hs | hs
  · rw [hs]
    trivial
  · rw [hs]
    trivial
  · rw [hs]
    trivial

end Frames

section Steps
variable {m : Machine} {st st' : State} {c s sc : ℕ}

theorem StockInv.freeStep (h : StockInv st) (hi : Inv m st) (hs : freeStep m st c = some st')
    (hok : ∀ f, st.pc c = .markReuse f → newMarkReuse (st.spans f.span).epoch f.epoch ≠ none →
      (st.spans f.span).Stocked) : StockInv st' := by
  have hknows := hi.knows c
  unfold Stepwise.freeStep at hs
  split at hs
  · next p hpc =>
    obtain rfl := Option.some.inj hs
    exact h.load hi trivial
  · next p e hpc =>
    obtain rfl := Option.some.inj hs
    exact h.load hi trivial
  · next p e owner hpc =>
    obtain rfl := Option.some.inj hs
    exact h.load hi trivial
  · next p f hpc =>
    split at hs
    · obtain rfl := Option.some.inj hs
      exact h.load hi trivial
    · obtain rfl := Option.some.inj hs
      exact h.load hi trivial
  · next p f hpc =>
    obtain rfl := Option.some.inj hs
    exact h.update hi rfl (fun _ _ => rfl) rfl (.inr ⟨fun _ => List.cons_ne_nil _ _,id⟩) .inl trivial
  · next n f hpc =>
    split at hs
    · obtain rfl := Option.some.inj hs
      exact h.load hi trivial
    · obtain rfl := Option.some.inj hs
      exact h.load hi trivial
  · next n f hpc =>
    obtain rfl := Option.some.inj hs
    exact h.load hi trivial
  · next p f hpc =>
    obtain rfl := Option.some.inj hs
    exact h.update hi rfl (fun _ _ => rfl) rfl (.inr ⟨id,fun _ => List.cons_ne_nil _ _⟩) .inl trivial
  · next n f hpc =>
    obtain rfl := Option.some.inj hs
    exact h.load hi trivial
  · next n f hpc =>
    split at hs
    · obtain rfl := Option.some.inj hs
      exact h.load hi trivial
    · obtain rfl := Option.some.inj hs
      exact h.load hi trivial
  · next n f hpc =>
    split at hs
    · obtain rfl := Option.some.inj hs
      exact h.load hi trivial
    · obtain rfl := Option.some.inj hs
      exact h.load hi (settle_finds n f)
  · next n f hpc =>
    rw [hpc] at hknows
    exact hknows.elim
  · next n f hpc =>
    rw [hpc] at hknows
    exact hknows.elim
  · next f hpc =>
    split at hs
    · next e hcas =>
      obtain rfl := Option.some.inj hs
      rw [hpc] at hknows
      refine h.setEpoch hi ?_ ?_
      · rw [mark_of_newMarkFull (hi.valid f.span) hknows.1.epoch hcas]
        simp
      · split <;> trivial
    · obtain rfl := Option.some.inj hs
      exact h.load hi trivial
  · next f hpc =>
    split at hs
    · obtain rfl := Option.some.inj hs
      exact h.load hi trivial
    · split at hs
      · obtain rfl := Option.some.inj hs
        exact h.load hi trivial
      · obtain rfl := Option.some.inj hs
        exact h.update hi rfl (fun _ _ => rfl) rfl (.inr ⟨id,id⟩) .inl trivial
  · next f hpc =>
    obtain rfl := Option.some.inj hs
    exact h.load hi trivial
  · next s sc id hpc =>
    obtain rfl := Option.some.inj hs
    exact h.goto hi rfl (fun _ _ => rfl) rfl trivial
  · next f hpc =>
    split at hs
    · next e hcas =>
      obtain rfl := Option.some.inj hs
      exact h.update hi rfl (fun _ _ => rfl) rfl (.inr ⟨id,id⟩)
        (fun _ => .inr (hok f hpc (by rw [hcas]; simp))) trivial
    · obtain rfl := Option.some.inj hs
      exact h.load hi trivial
  · next f hpc =>
    split at hs
    · obtain rfl := Option.some.inj hs
      exact h.load hi trivial
    · obtain rfl := Option.some.inj hs
      exact h.update hi rfl (fun _ _ => rfl) rfl (.inr ⟨id,id⟩) .inl trivial
  · cases hs

theorem fromObject_zero : fromObject 0 = 0 := Nat.zero_and _

/-- A thread pops an object of its hot span. -/
theorem StockInv.popLocal (h : StockInv st) (hi : Inv m st) {empty : Pc}
    (hfetch : (st.pc c).fetching = none) (hne : st.hot c sc ≠ 0)
    (hempty : (st.spans (st.hot c sc)).locals = [] → empty.Finds st c) :
    StockInv (popLocal st c sc empty) := by
  unfold Stepwise.popLocal
  split
  · next hl => exact h.load hi (hempty hl)
  · next p l hl =>
    refine h.update hi rfl (fun _ _ => rfl) rfl (.inl (has_hot hfetch)) .inl ?_
    rintro rfl
    have hfrom := hi.lists (st.hot c sc) 0 (.inl (by rw [hl]; exact List.mem_cons_self))
    exact hne (hfrom.symm.trans fromObject_zero)

theorem StockInv.retire (h : StockInv st) (hi : Inv m st) {n : ℕ}
    (hn : 0 < n → (st.spans (st.hot c sc)).Stocked) :
    StockInv (st.goto c (m.retire sc (st.hot c sc) n)) := by
  unfold Machine.retire
  split
  · next hlt => exact h.load hi (hn (Nat.zero_lt_of_lt hlt))
  · exact h.load hi trivial

theorem Then.pc_finds {k : Then} (hhot : k.Holds st c s) (h : (st.spans s).locals ≠ []) :
    (k.pc s).Finds st c := by
  cases k with
  | again sc =>
    rw [Then.pc, Pc.Finds, ← hhot.1]
    exact h
  | hot g => exact h

theorem StockInv.allocateStep (h : StockInv st) (hi : Inv m st) (hs : allocateStep m st c = some st') :
    StockInv st' := by
  have hknows := hi.knows c
  have hfinds := h.finds c
  unfold Stepwise.allocateStep at hs
  split at hs
  · next sc hpc =>
    rw [hpc] at hknows
    obtain rfl := Option.some.inj hs
    exact h.popLocal hi (by rw [hpc]; rfl) hknows.2 fun _ => trivial
  · next sc hpc =>
    obtain rfl := Option.some.inj hs
    exact h.load hi List.ne_nil_of_length_pos
  · next sc n hpc =>
    rw [hpc] at hfinds
    split at hs
    · obtain rfl := Option.some.inj hs
      exact h.retire hi fun hn => .inl (hfinds hn)
    · obtain rfl := Option.some.inj hs
      exact h.load hi hfinds
  · next sc n hpc =>
    rw [hpc] at hfinds
    obtain rfl := Option.some.inj hs
    refine h.retire hi fun hn => ?_
    by_cases hn0 : 0 < n
    · exact .inl (hfinds hn0)
    · exact .inr (List.ne_nil_of_length_pos (by omega))
  · next s k hpc =>
    rw [hpc] at hknows hfinds
    split at hs
    · next hr =>
      obtain rfl := Option.some.inj hs
      exact h.load hi (Then.pc_finds hknows (hfinds.resolve_right fun hne => hne hr))
    · obtain rfl := Option.some.inj hs
      exact h.load hi hfinds
  · next s k hpc =>
    rw [hpc] at hknows hfinds
    split at hs
    · next hr =>
      obtain rfl := Option.some.inj hs
      have hnil := List.eq_nil_of_length_eq_zero hr
      exact h.load hi (Then.pc_finds hknows (hfinds.resolve_right fun hne => hne hnil))
    · obtain rfl := Option.some.inj hs
      exact h.load hi hfinds
  · next s k hpc =>
    rw [hpc] at hknows hfinds
    obtain rfl := Option.some.inj hs
    refine h.update hi rfl (fun _ _ => rfl) rfl
      (.inl (hknows.has (by rw [hpc]; rfl) (by rw [hpc]; rfl))) .inl ?_
    simpa [Pc.Finds, Header.Stocked, State.setRemotes, State.setSpan] using hfinds
  · next s objects k hpc =>
    rw [hpc] at hknows hfinds
    split at hs
    · next hl =>
      obtain rfl := Option.some.inj hs
      have hnil := List.eq_nil_of_length_eq_zero hl
      have hne : objects ≠ [] := hfinds.resolve_left fun hne => hne hnil
      refine h.update hi rfl (fun _ _ => rfl) rfl
        (.inl (hknows.1.has (by rw [hpc]; rfl) (by rw [hpc]; rfl))) .inl ?_
      refine Then.pc_finds (hknows.1.congr rfl) ?_
      simpa [State.setLocals, State.setSpan] using hne
    · next hl =>
      obtain rfl := Option.some.inj hs
      exact h.load hi (List.ne_nil_of_length_pos (Nat.pos_of_ne_zero hl))
  · next s objects k hpc =>
    rw [hpc] at hknows hfinds
    split at hs
    · obtain rfl := Option.some.inj hs
      exact h.load hi (Then.pc_finds hknows.1 hfinds)
    · next p objects =>
      obtain rfl := Option.some.inj hs
      refine h.update hi rfl (fun _ _ => rfl) rfl (.inr ⟨fun _ => List.cons_ne_nil _ _,id⟩) .inl ?_
      simp [Pc.Finds, State.setLocals, State.setSpan]
  · next sc hpc =>
    rw [hpc] at hknows hfinds
    obtain rfl := Option.some.inj hs
    exact h.popLocal hi (by rw [hpc]; rfl) hknows fun hnil => absurd hnil hfinds
  · next sc hpc =>
    obtain rfl := Option.some.inj hs
    exact h.load hi trivial
  · next sc e hpc =>
    obtain rfl := Option.some.inj hs
    refine h.setEpoch hi ?_ trivial
    rw [(valid_newMarkFloating e).2]
    simp
  · cases hs

/-- A store of the constructor. -/
theorem StockInv.construct (h : StockInv st) (hi : Inv m st) {x : Header} {pc : Pc}
    (hheld : (st.pc c).held = some s) (he : x.epoch = (st.spans s).epoch)
    (hfinds : pc.Finds (st.setSpan s x) c) : StockInv ((st.setSpan s x).goto c pc) := by
  refine h.update hi rfl (fun _ _ => rfl) rfl (.inl (.inr hheld)) ?_ hfinds
  rw [he]
  exact .inl

theorem StockInv.fetchStep (h : StockInv st) (hi : Inv m st) {rand : ℕ → ℕ}
    (hs : fetchStep m st c rand = some st')
    (hok : ∀ g s e, st.pc c = .markHot g s e → newMarkHot (st.spans s).epoch e ≠ none →
      isReusable (st.spans s).epoch) : StockInv st' := by
  have hknows := hi.knows c
  have hfinds := h.finds c
  unfold Stepwise.fetchStep at hs
  split at hs
  · next g hpc =>
    split at hs
    · next s hlast =>
      obtain rfl := Option.some.inj hs
      exact h.update hi rfl (fun _ _ => rfl) rfl (.inr ⟨id,id⟩) .inl trivial
    · obtain rfl := Option.some.inj hs
      exact h.load hi trivial
  · next g s hpc =>
    obtain rfl := Option.some.inj hs
    exact h.load hi trivial
  · next g s e hpc =>
    rw [hpc] at hknows
    split at hs
    · next e' hcas =>
      obtain rfl := Option.some.inj hs
      have hmark := (hi.valid s).isReusable_iff.mp (hok g s e hpc (by rw [hcas]; simp))
      refine h.setEpoch hi ?_ ?_
      · rw [mark_of_newMarkHot (hi.valid s) hknows.2.2 hcas]
        simp
      · have hstock := h.reusable s hmark
        simpa [Pc.Finds, Header.Stocked] using hstock
    · obtain rfl := Option.some.inj hs
      exact h.load hi trivial
  · next g a b rest hpc =>
    split at hs
    · next s pool hpop =>
      obtain rfl := Option.some.inj hs
      exact h.goto hi rfl (fun _ _ => rfl) rfl trivial
    · obtain rfl := Option.some.inj hs
      exact h.load hi trivial
  · next g hpc =>
    split at hs
    · next s arena halloc =>
      obtain rfl := Option.some.inj hs
      exact h.goto hi rfl (fun _ _ => rfl) rfl trivial
    · cases hs
  · next g s hpc =>
    obtain rfl := Option.some.inj hs
    exact h.construct hi (by rw [hpc]; rfl) rfl trivial
  · next g s hpc =>
    obtain rfl := Option.some.inj hs
    exact h.construct hi (by rw [hpc]; rfl) rfl trivial
  · next g s hpc =>
    obtain rfl := Option.some.inj hs
    exact h.construct hi (by rw [hpc]; rfl) rfl trivial
  · next g s hpc =>
    rw [hpc] at hknows
    obtain rfl := Option.some.inj hs
    refine h.construct hi (by rw [hpc]; rfl) rfl ?_
    have hpos : slots s g.sizeClass ≠ [] := List.ne_nil_of_length_pos (by
      rw [slots_length]
      exact classToObjects_pos hknows.1)
    simpa [Pc.Finds, State.setSpan] using hpos
  · next g s hpc =>
    rw [hpc] at hfinds
    obtain rfl := Option.some.inj hs
    refine h.construct hi (by rw [hpc]; rfl) rfl ?_
    simpa [Pc.Finds, State.setSpan] using hfinds
  · next g s hpc =>
    rw [hpc] at hfinds
    obtain rfl := Option.some.inj hs
    exact h.load hi hfinds
  · next g s e hpc =>
    rw [hpc] at hknows hfinds
    split at hs
    · next e' hcas =>
      obtain rfl := Option.some.inj hs
      refine h.setEpoch hi ?_ ?_
      · rw [mark_of_newMarkHot (hi.valid s) (hknows.2.2 ▸ hi.valid s) hcas]
        simp
      · simpa [Pc.Finds] using hfinds
    · obtain rfl := Option.some.inj hs
      exact h.load hi hfinds
  · next g s hpc =>
    rw [hpc] at hfinds
    have hs0 : s ≠ 0 := hi.ne_zero (hi.at_held (c := c) (by rw [hpc]; rfl)).1
    have hhot : ∀ c', c' ≠ c → update₂ st.hot c g.sizeClass s c' = st.hot c' := fun c' hc =>
      funext fun sc => by simp [update₂, hc]
    dsimp only at hs
    rw [if_neg hs0] at hs
    split at hs
    · obtain rfl := Option.some.inj hs
      exact h.goto hi rfl hhot rfl trivial
    · obtain rfl := Option.some.inj hs
      refine h.goto hi rfl hhot rfl ?_
      simpa [Pc.Finds] using hfinds
  · cases hs

theorem StockInv.step {e : Event} (h : StockInv st) (hi : Inv m st) (hok : Supplied st e)
    (hs : Stepwise.step m st e = some st') : StockInv st' := by
  cases e with
  | allocate c size =>
    rw [Stepwise.step] at hs
    split at hs
    · cases hs
      refine h.load hi ?_
      split <;> trivial
    · cases hs
  | free c p =>
    rw [Stepwise.step] at hs
    split at hs
    · cases hs
      exact h.goto hi rfl (fun _ _ => rfl) rfl trivial
    · cases hs
  | next c rand =>
    rcases step_next hs with hs | hs | hs
    · refine h.freeStep hi hs fun f hpc => ?_
      simpa only [Supplied, hpc] using hok
    · exact h.allocateStep hi hs
    · refine h.fetchStep hi hs fun g s e hpc => ?_
      simpa only [Supplied, hpc] using hok

end Steps

/-- No call of `Core::Allocate` has returned null, and the span that `GetSpan` returns has a
local free object. -/
def State.Served (st : State) : Prop :=
  (∀ c, st.pc c ≠ .done 0) ∧ ∀ c g s, st.pc c = .setHot g s → (st.spans s).locals ≠ []

variable {m : Machine} {l : Layout} {st : State}

theorem stocked_init (m : Machine) (l : Layout) : StockInv (init m l) where
  reusable := by
    intro s hm
    exact absurd hm (by simp [State.mark, init, Header.zero]; decide)
  finds := fun _ => trivial

theorem stocked_of_runs (hr : Runs (step m) (fun st e => Undisturbed st e ∧ Supplied st e)
    (init m l) st) : StockInv st := by
  have hall : Inv m st ∧ st.pc 0 = .idle ∧ StockInv st := by
    refine hr.invariant (P := fun st => Inv m st ∧ st.pc 0 = .idle ∧ StockInv st)
      ⟨inv_init m l,rfl,stocked_init m l⟩ ?_
    rintro st e st' ⟨hi,h0,h⟩ hok hs
    exact ⟨hi.step h0 hok.1 hs,step_pc h0 hs,h.step hi hok.2 hs⟩
  exact hall.2.2

/-- In every undisturbed and supplied run `Core::Allocate` never returns null. -/
theorem served_of_runs (m : Machine) (l : Layout) : ∀ st,
    Runs (step m) (fun st e => Undisturbed st e ∧ Supplied st e) (init m l) st → st.Served := by
  intro st hr
  have h := stocked_of_runs hr
  constructor
  · intro c hpc
    have hf := h.finds c
    rw [hpc] at hf
    exact hf rfl
  · intro c g s hpc
    have hf := h.finds c
    rwa [hpc] at hf

/-- Thread 2 links the span, and thread 1, which looks for one, takes it. -/
theorem served_spentEvents : ∃ st, Runs (step sampleMachine)
    (fun st e => Undisturbed st e ∧ Supplied st e) (init sampleMachine sampleLayout) st ∧
    st.Served ∧ st.hot 1 25 = kObjectSpaceSize ∧ (st.spans kObjectSpaceSize).locals.length = 6 := by
  have hrun : (exec (step sampleMachine) (fun st e => Undisturbed st e ∧ Supplied st e)
      (init sampleMachine sampleLayout) (spentEvents ++ frees 2 6 10 ++ nexts 1 9)).map (fun st =>
        (st.hot 1 25,(st.spans kObjectSpaceSize).locals.length)) =
      some (kObjectSpaceSize,6) := by decide +kernel
  obtain ⟨st,hst,hval⟩ := Option.map_eq_some_iff.mp hrun
  simp only [Prod.mk.injEq] at hval
  have hr := runs_of_exec hst
  exact ⟨st,hr,served_of_runs sampleMachine sampleLayout st hr,hval⟩

def Pc.returned : Pc → Option ℕ
  | done p => some p
  | _ => none

/-- Thread 2 frees the only object of a hot span and counts it. Thread 1 takes it again and
gives the span up. Then thread 2 links the span, and thread 1 takes it from the deque. -/
def staleEvents : List Event :=
  .allocate 1 1048576 :: nexts 1 25 ++ .free 2 (kObjectSpaceSize + 128) :: nexts 2 8 ++
    .allocate 1 1048576 :: nexts 1 9 ++ .allocate 1 1048576 :: nexts 1 5 ++ nexts 2 2 ++ nexts 1 6

theorem not_served_staleEvents : ¬ ∀ (m : Machine) (l : Layout) (st : State),
    Runs (step m) Always (init m l) st → st.Served := by
  intro hall
  have hrun : (exec (step sampleMachine) Always (init sampleMachine sampleLayout)
      staleEvents).map (fun st => (st.pc 1).returned) = some (some 0) := by decide +kernel
  obtain ⟨st,hst,hval⟩ := Option.map_eq_some_iff.mp hrun
  have hnull : st.pc 1 = .done 0 := by
    cases hpc : st.pc 1 with
    | done p =>
      rw [hpc] at hval
      cases hval
      rfl
    | _ => simp [hpc, Pc.returned] at hval
  exact (hall _ _ st (runs_of_exec hst)).1 1 hnull

end Scalloc.Stepwise
