import Scalloc.Heap.StepSafe

/-! # A hot span has the class of its slot

The class of a span changes in its constructor only. A call of `Core::Free` links a span for the
class that it has read, and `GetSpan` takes a span for the class of its deque. Where that is
still the class of the span, all spans of a deque and of a slot have the class of that place.
-/
namespace Scalloc.Stepwise
open Epoch Transition

def Then.taken (s : ℕ) : Then → Option (ℕ × ℕ)
  | again _ => none
  | hot g => some (s,g.sizeClass)

/-- The span that `GetSpan` has taken or constructed, and the class for which it did. -/
def Pc.taken : Pc → Option (ℕ × ℕ)
  | moveEmpty s k => k.taken s
  | moveLength s k => k.taken s
  | popAll s k => k.taken s
  | moveTest s _ k => k.taken s
  | moveLoop s _ k => k.taken s
  | newLocal g s => some (s,g.sizeClass)
  | newRemote g s => some (s,g.sizeClass)
  | newEpoch g s => some (s,g.sizeClass)
  | newMark g s _ => some (s,g.sizeClass)
  | setHot g s => some (s,g.sizeClass)
  | _ => none

structure ClassInv (st : State) : Prop where
  slot : ∀ c sc, st.slot c sc ≠ 0 → (st.spans (st.slot c sc)).sizeClass = sc
  deque : ∀ c sc, ∀ s ∈ st.deque c sc, (st.spans s).sizeClass = sc
  taken : ∀ c s sc, (st.pc c).taken = some (s,sc) → (st.spans s).sizeClass = sc

def Pc.Classed (st : State) : Pc → Prop
  | pushFront f => (st.spans f.span).sizeClass = f.sizeClass
  | markHot g s e => newMarkHot (st.spans s).epoch e ≠ none → (st.spans s).sizeClass = g.sizeClass
  | _ => True

instance (st : State) (pc : Pc) : Decidable (pc.Classed st) := by
  apply Pc.casesOn (motive := fun pc => Decidable (pc.Classed st)) pc
  all_goals
    intros
    dsimp only [Pc.Classed]
    infer_instance

/-- Where a span is linked or taken it has the class of the deque. -/
def Classed (st : State) : Event → Prop
  | .next c _ => (st.pc c).Classed st
  | _ => True

instance (st : State) : (e : Event) → Decidable (Classed st e)
  | .next c _ => inferInstanceAs (Decidable ((st.pc c).Classed st))
  | .allocate .. => inferInstanceAs (Decidable True)
  | .free .. => inferInstanceAs (Decidable True)

/-- What a step of thread `c` does to classes and to the places of a class. -/
structure Sorts (st st' : State) (c : ℕ) : Prop where
  pc : ∀ c', c' ≠ c → st'.pc c' = st.pc c'
  sizeClass : ∀ s, (st'.spans s).sizeClass = (st.spans s).sizeClass ∨ ∃ g, st.pc c = .newClass g s
  deque : ∀ c' sc, ∀ s ∈ st'.deque c' sc, s ∈ st.deque c' sc ∨
    ∃ f, st.pc c = .pushFront f ∧ s = f.span ∧ sc = f.sizeClass
  slot : ∀ c' sc, st'.slot c' sc = 0 ∨ st'.slot c' sc = st.slot c' sc ∨
    ∃ g, st.pc c = .setHot g (st'.slot c' sc) ∧ sc = g.sizeClass
  taken : ∀ s sc, (st'.pc c).taken = some (s,sc) → (st.pc c).taken = some (s,sc) ∨
    (∃ g, st.pc c = .newClass g s ∧ (st'.spans s).sizeClass = sc) ∨
    ∃ g e, st.pc c = .markHot g s e ∧ sc = g.sizeClass ∧ newMarkHot (st.spans s).epoch e ≠ none

section Steps
variable {m : Machine} {st st' X : State} {c s sc : ℕ} {pc : Pc} {x : Header}

theorem Pc.taken_held {w : ℕ × ℕ} (h : pc.taken = some w) : pc.held = some w.1 := by
  have hthen : ∀ {s k}, Then.taken s k = some w → k.held s = some w.1 := by
    intro s k hk
    cases k with
    | again sc => cases hk
    | hot g =>
      cases hk
      rfl
  cases pc <;> first
    | exact hthen h
    | (cases h; rfl)
    | cases h

theorem class_setSpan (h : x.sizeClass = (st.spans s).sizeClass) (y : ℕ) :
    ((st.setSpan s x).spans y).sizeClass = (st.spans y).sizeClass := by
  rw [setSpan_spans]
  split
  · next hy => rw [hy, h]
  · rfl

theorem class_setDeque {a b : ℕ} {l : List ℕ} {link : Option (ℕ × ℕ)} (y : ℕ) :
    ((st.setDeque a b l s link).spans y).sizeClass = (st.spans y).sizeClass :=
  class_setSpan (x := { st.spans s with link := link }) rfl y

/-- A step that changes no class and links no span. -/
theorem Sorts.goto (hpc : X.pc = st.pc) (hhot : X.hot = st.hot)
    (hclass : ∀ y, (X.spans y).sizeClass = (st.spans y).sizeClass)
    (hdeque : ∀ c' sc, ∀ y ∈ X.deque c' sc, y ∈ st.deque c' sc)
    (hfetch : pc.fetching = (st.pc c).fetching ∨ (st.pc c).fetching = none)
    (htaken : ∀ w, pc.taken = some w → (st.pc c).taken = some w) : Sorts st (X.goto c pc) c where
  pc := by
    intro c' hc
    rw [State.goto_pc_of_ne hc, hpc]
  sizeClass := fun y => .inl (hclass y)
  deque := fun c' sc y hy => .inl (hdeque c' sc y hy)
  slot := by
    intro c' sc
    by_cases hc : c' = c
    · subst hc
      rw [State.slot_goto_self, hhot, State.slot]
      rcases hfetch with hf | hf
      · rw [hf]
        exact .inr (.inl rfl)
      · rw [hf]
        split
        · exact .inl rfl
        · exact .inr (.inl rfl)
    · rw [State.slot, State.slot, State.goto_pc_of_ne hc, hpc, State.goto_hot, hhot]
      exact .inr (.inl rfl)
  taken := by
    intro y sc hy
    rw [State.goto_pc_self] at hy
    exact .inl (htaken _ hy)

/-- A step of a call that is not in `GetSpan`. -/
theorem Sorts.outside (hpc : X.pc = st.pc) (hhot : X.hot = st.hot)
    (hclass : ∀ y, (X.spans y).sizeClass = (st.spans y).sizeClass)
    (hdeque : ∀ c' sc, ∀ y ∈ X.deque c' sc, y ∈ st.deque c' sc)
    (hfetch : (st.pc c).fetching = none) (htaken : pc.taken = none) : Sorts st (X.goto c pc) c :=
  .goto hpc hhot hclass hdeque (.inr hfetch) fun _ hw => by rw [htaken] at hw; cases hw

theorem Sorts.load (hfetch : (st.pc c).fetching = none) (htaken : pc.taken = none) :
    Sorts st (st.goto c pc) c :=
  .outside rfl rfl (fun _ => rfl) (fun _ _ _ hy => hy) hfetch htaken

theorem Sorts.update (h : x.sizeClass = (st.spans s).sizeClass)
    (hfetch : (st.pc c).fetching = none) (htaken : pc.taken = none) :
    Sorts st ((st.setSpan s x).goto c pc) c :=
  .outside rfl rfl (class_setSpan h) (fun _ _ _ hy => hy) hfetch htaken

theorem settle_taken (n : ℕ) (f : FreeCall) : (m.settle n f).taken = none := by
  rcases settle_cases m n f with ⟨h,_⟩ | h | h <;>
  · rw [h]
    rfl

theorem deque_cons {c' a b y : ℕ} {l : List ℕ} (hy : y ∈ update₂ st.deque a b l c' sc) :
    y ∈ st.deque c' sc ∨ y ∈ l ∧ c' = a ∧ sc = b := by
  unfold update₂ at hy
  split at hy
  · next h => exact .inr ⟨hy,h⟩
  · exact .inl hy

theorem Sorts.freeStep (hs : freeStep m st c = some st') : Sorts st st' c := by
  unfold Stepwise.freeStep at hs
  split at hs
  · next p hpc =>
    cases hs
    exact .load (by rw [hpc]; rfl) rfl
  · next p e hpc =>
    cases hs
    exact .load (by rw [hpc]; rfl) rfl
  · next p e owner hpc =>
    cases hs
    exact .load (by rw [hpc]; rfl) rfl
  · next p f hpc =>
    split at hs <;>
    · cases hs
      exact .load (by rw [hpc]; rfl) rfl
  · next p f hpc =>
    cases hs
    exact .update rfl (by rw [hpc]; rfl) rfl
  · next n f hpc =>
    split at hs <;>
    · cases hs
      exact .load (by rw [hpc]; rfl) rfl
  · next n f hpc =>
    cases hs
    exact .load (by rw [hpc]; rfl) rfl
  · next p f hpc =>
    cases hs
    exact .update rfl (by rw [hpc]; rfl) rfl
  · next n f hpc =>
    cases hs
    exact .load (by rw [hpc]; rfl) rfl
  · next n f hpc =>
    split at hs <;>
    · cases hs
      exact .load (by rw [hpc]; rfl) rfl
  · next n f hpc =>
    split at hs
    · cases hs
      exact .load (by rw [hpc]; rfl) rfl
    · cases hs
      exact .load (by rw [hpc]; rfl) (settle_taken n f)
  · next n f hpc =>
    split at hs
    · cases hs
      exact .update rfl (by rw [hpc]; rfl) rfl
    · cases hs
      exact .load (by rw [hpc]; rfl) (settle_taken n f)
  · next n f hpc =>
    split at hs
    · cases hs
      exact .update rfl (by rw [hpc]; rfl) (settle_taken n f)
    · cases hs
      exact .load (by rw [hpc]; rfl) (settle_taken n f)
  · next f hpc =>
    split at hs
    · cases hs
      exact .update rfl (by rw [hpc]; rfl) (by split <;> rfl)
    · cases hs
      exact .load (by rw [hpc]; rfl) rfl
  · next f hpc =>
    split at hs
    · cases hs
      exact .load (by rw [hpc]; rfl) rfl
    · split at hs
      · cases hs
        exact .load (by rw [hpc]; rfl) rfl
      · cases hs
        refine .outside rfl rfl class_setDeque ?_ (by rw [hpc]; rfl) rfl
        intro c' sc y hy
        rcases deque_cons hy with hold | ⟨hnew,rfl,rfl⟩
        · exact hold
        · exact List.mem_of_mem_erase hnew
  · next f hpc =>
    cases hs
    exact .load (by rw [hpc]; rfl) rfl
  · next s sc id hpc =>
    cases hs
    exact .outside rfl rfl (fun _ => rfl) (fun _ _ _ hy => hy) (by rw [hpc]; rfl) rfl
  · next f hpc =>
    split at hs
    · cases hs
      exact .update rfl (by rw [hpc]; rfl) rfl
    · cases hs
      exact .load (by rw [hpc]; rfl) rfl
  · next f hpc =>
    split at hs
    · cases hs
      exact .load (by rw [hpc]; rfl) rfl
    · cases hs
      refine ⟨fun c' hc => State.goto_pc_of_ne hc,?_,?_,?_,?_⟩
      · intro y
        rw [State.goto_spans]
        exact .inl (class_setDeque y)
      · intro c' sc y hy
        rcases deque_cons hy with hold | ⟨hnew,rfl,rfl⟩
        · exact .inl hold
        · rcases List.mem_cons.mp hnew with rfl | hold
          · exact .inr ⟨f,hpc,rfl,rfl⟩
          · exact .inl hold
      · intro c' sc
        refine .inr (.inl (slot_goto rfl rfl ?_ c' sc))
        rw [State.setDeque_pc, hpc]
        rfl
      · intro y sc hy
        rw [State.goto_pc_self] at hy
        cases hy
  · cases hs

theorem sorts_popLocal {empty : Pc} (hfetch : (st.pc c).fetching = none)
    (hempty : empty.taken = none) : Sorts st (popLocal st c sc empty) c := by
  unfold popLocal
  split
  · exact .load hfetch hempty
  · exact .outside rfl rfl (class_setSpan rfl) (fun _ _ _ hy => hy) hfetch rfl

/-- A step of `MoveRemoteToLocalObjects`. -/
theorem Sorts.move (hpc : X.pc = st.pc) (hhot : X.hot = st.hot) (hdeque : X.deque = st.deque)
    (hclass : ∀ y, (X.spans y).sizeClass = (st.spans y).sizeClass)
    (hfetch : pc.fetching = (st.pc c).fetching) (htaken : pc.taken = (st.pc c).taken) :
    Sorts st (X.goto c pc) c := by
  refine .goto hpc hhot hclass ?_ (.inl hfetch) fun w hw => htaken ▸ hw
  intro c' sc y hy
  rwa [hdeque] at hy

theorem Then.pc_places (s : ℕ) (k : Then) :
    (k.pc s).fetching = k.fetching ∧ (k.pc s).taken = k.taken s := by
  cases k <;> exact ⟨rfl,rfl⟩

theorem Sorts.allocateStep (hs : allocateStep m st c = some st') : Sorts st st' c := by
  unfold Stepwise.allocateStep at hs
  split at hs
  · next sc hpc =>
    cases hs
    exact sorts_popLocal (by rw [hpc]; rfl) rfl
  · next sc hpc =>
    cases hs
    exact .load (by rw [hpc]; rfl) rfl
  · next sc n hpc =>
    split at hs
    · cases hs
      exact .load (by rw [hpc]; rfl) (by unfold Machine.retire; split <;> rfl)
    · cases hs
      exact .load (by rw [hpc]; rfl) rfl
  · next sc n hpc =>
    cases hs
    exact .load (by rw [hpc]; rfl) (by unfold Machine.retire; split <;> rfl)
  · next s k hpc =>
    split at hs
    · cases hs
      exact .move rfl rfl rfl (fun _ => rfl) (by rw [hpc]; exact (Then.pc_places s k).1)
        (by rw [hpc]; exact (Then.pc_places s k).2)
    · cases hs
      exact .move rfl rfl rfl (fun _ => rfl) (by rw [hpc]; rfl) (by rw [hpc]; rfl)
  · next s k hpc =>
    split at hs
    · cases hs
      exact .move rfl rfl rfl (fun _ => rfl) (by rw [hpc]; exact (Then.pc_places s k).1)
        (by rw [hpc]; exact (Then.pc_places s k).2)
    · cases hs
      exact .move rfl rfl rfl (fun _ => rfl) (by rw [hpc]; rfl) (by rw [hpc]; rfl)
  · next s k hpc =>
    cases hs
    exact .move rfl rfl rfl (class_setSpan rfl) (by rw [hpc]; rfl) (by rw [hpc]; rfl)
  · next s objects k hpc =>
    split at hs
    · cases hs
      exact .move rfl rfl rfl (class_setSpan rfl) (by rw [hpc]; exact (Then.pc_places s k).1)
        (by rw [hpc]; exact (Then.pc_places s k).2)
    · cases hs
      exact .move rfl rfl rfl (fun _ => rfl) (by rw [hpc]; rfl) (by rw [hpc]; rfl)
  · next s objects k hpc =>
    split at hs
    · cases hs
      exact .move rfl rfl rfl (fun _ => rfl) (by rw [hpc]; exact (Then.pc_places s k).1)
        (by rw [hpc]; exact (Then.pc_places s k).2)
    · cases hs
      exact .move rfl rfl rfl (class_setSpan rfl) (by rw [hpc]; rfl) (by rw [hpc]; rfl)
  · next sc hpc =>
    cases hs
    exact sorts_popLocal (by rw [hpc]; rfl) rfl
  · next sc hpc =>
    cases hs
    exact .load (by rw [hpc]; rfl) rfl
  · next sc e hpc =>
    cases hs
    exact .update rfl (by rw [hpc]; rfl) rfl
  · cases hs

/-- A step of `GetSpan` or of a constructor. -/
theorem Sorts.fetch (hpc : X.pc = st.pc) (hhot : X.hot = st.hot)
    (hclass : ∀ y, (X.spans y).sizeClass = (st.spans y).sizeClass) (hdeque : X.deque = st.deque)
    (hfetch : pc.fetching = (st.pc c).fetching)
    (htaken : ∀ w, pc.taken = some w → (st.pc c).taken = some w) : Sorts st (X.goto c pc) c := by
  refine .goto hpc hhot hclass ?_ (.inl hfetch) htaken
  intro c' sc y hy
  rwa [hdeque] at hy

/-- The store of the result of `GetSpan`. -/
theorem sorts_setHot {g : Fetch} (hpc : st.pc c = .setHot g s) (hfetch : pc.fetching = none)
    (htaken : pc.taken = none) :
    Sorts st ({ st with hot := update₂ st.hot c g.sizeClass s }.goto c pc) c where
  pc := fun c' hc => State.goto_pc_of_ne hc
  sizeClass := fun _ => .inl rfl
  deque := fun _ _ _ hy => .inl hy
  slot := by
    intro c' sc
    by_cases hc : c' = c
    · subst hc
      rw [State.slot_goto_self, hfetch, if_neg (Option.some_ne_none _).symm, State.slot, hpc,
        Pc.fetching]
      by_cases hsc : sc = g.sizeClass
      · subst hsc
        exact .inr (.inr ⟨g,congrArg _ (if_pos ⟨rfl,rfl⟩).symm,rfl⟩)
      · rw [if_neg fun h => hsc (Option.some.inj h).symm]
        exact .inr (.inl (if_neg fun h => hsc h.2))
    · refine .inr (.inl (State.slot_congr ?_ ?_ sc))
      · rw [State.goto_pc_of_ne hc]
      · exact fun _ => if_neg fun h => hc h.1
  taken := by
    intro y sc hy
    rw [State.goto_pc_self, htaken] at hy
    cases hy

theorem Sorts.fetchStep {rand : ℕ → ℕ} (hs : fetchStep m st c rand = some st') :
    Sorts st st' c := by
  unfold Stepwise.fetchStep at hs
  split at hs
  · next g hpc =>
    split at hs
    · cases hs
      refine .goto rfl rfl class_setDeque ?_ (.inl (by rw [hpc]; rfl)) nofun
      intro c' sc y hy
      rcases deque_cons hy with hold | ⟨hnew,rfl,rfl⟩
      · exact hold
      · exact List.mem_of_mem_dropLast hnew
    · cases hs
      exact .fetch rfl rfl (fun _ => rfl) rfl (by rw [hpc]; rfl) nofun
  · next g s hpc =>
    cases hs
    exact .fetch rfl rfl (fun _ => rfl) rfl (by rw [hpc]; rfl) nofun
  · next g s e hpc =>
    split at hs
    · next e' hcas =>
      cases hs
      have hq : Sorts st ((st.setEpoch s e').goto c (.takeEpoch g s)) c :=
        .fetch rfl rfl (class_setSpan rfl) rfl (by rw [hpc]; rfl) nofun
      refine ⟨fun c' hc => State.goto_pc_of_ne hc,hq.sizeClass,hq.deque,?_,?_⟩
      · intro c' sc
        refine .inr (.inl (slot_goto rfl rfl ?_ c' sc))
        rw [State.setEpoch_pc, hpc]
        rfl
      · intro y sc hy
        rw [State.goto_pc_self] at hy
        cases hy
        refine .inr (.inr ⟨g,e,hpc,rfl,?_⟩)
        rw [hcas]
        exact Option.some_ne_none _
    · cases hs
      exact .fetch rfl rfl (fun _ => rfl) rfl (by rw [hpc]; rfl) nofun
  · next g a b rest hpc =>
    split at hs <;>
    · cases hs
      exact .fetch rfl rfl (fun _ => rfl) rfl (by rw [hpc]; rfl) nofun
  · next g hpc =>
    split at hs
    · cases hs
      exact .fetch rfl rfl (fun _ => rfl) rfl (by rw [hpc]; rfl) nofun
    · cases hs
  · next g s hpc =>
    cases hs
    exact .fetch rfl rfl (class_setSpan rfl) rfl (by rw [hpc]; rfl) nofun
  · next g s hpc =>
    cases hs
    exact .fetch rfl rfl (class_setSpan rfl) rfl (by rw [hpc]; rfl) nofun
  · next g s hpc =>
    cases hs
    refine ⟨fun c' hc => State.goto_pc_of_ne hc,?_,fun _ _ _ hy => .inl hy,?_,?_⟩
    · intro y
      rw [State.goto_spans, setSpan_spans]
      split
      · next hy => exact .inr ⟨g,hy ▸ hpc⟩
      · exact .inl rfl
    · intro c' sc
      refine .inr (.inl (slot_goto rfl rfl ?_ c' sc))
      exact (congrArg Pc.fetching hpc).symm
    · intro y sc hy
      rw [State.goto_pc_self] at hy
      cases hy
      refine .inr (.inl ⟨g,hpc,?_⟩)
      rw [State.goto_spans, setSpan_spans, if_pos rfl]
  · next g s hpc =>
    cases hs
    exact .fetch rfl rfl (class_setSpan rfl) rfl (by rw [hpc]; rfl) (by rw [hpc]; exact fun _ h => h)
  · next g s hpc =>
    cases hs
    exact .fetch rfl rfl (class_setSpan rfl) rfl (by rw [hpc]; rfl) (by rw [hpc]; exact fun _ h => h)
  · next g s hpc =>
    cases hs
    exact .fetch rfl rfl (fun _ => rfl) rfl (by rw [hpc]; rfl) (by rw [hpc]; exact fun _ h => h)
  · next g s e hpc =>
    split at hs
    · cases hs
      exact .fetch rfl rfl (class_setSpan rfl) rfl (by rw [hpc]; rfl)
        (by rw [hpc]; exact fun _ h => h)
    · cases hs
      exact .fetch rfl rfl (fun _ => rfl) rfl (by rw [hpc]; rfl) (by rw [hpc]; exact fun _ h => h)
  · next g s hpc =>
    dsimp only at hs
    repeat' split at hs
    all_goals
      cases hs
      exact sorts_setHot hpc rfl rfl
  · cases hs

/-- A span that is under construction is at no other place. -/
theorem ClassInv.next (h : ClassInv st) (hi : Inv m st) (hst : Sorts st st' c)
    (hlink : ∀ f, st.pc c = .pushFront f → (st.spans f.span).sizeClass = f.sizeClass)
    (htake : ∀ g s e, st.pc c = .markHot g s e → newMarkHot (st.spans s).epoch e ≠ none →
      (st.spans s).sizeClass = g.sizeClass) : ClassInv st' := by
  have hplace : ∀ {y g}, st.pc c = .newClass g y → st.At y (.held c none) := by
    intro y g hpc
    obtain ⟨hk,l,hat⟩ := hi.at_held (c := c) (s := y) (by rw [hpc]; rfl)
    have hallowed := hat.allowed
    rw [State.Allows, hpc] at hallowed
    obtain rfl : l = none := hallowed.2
    exact hat
  refine ⟨?_,?_,?_⟩
  · intro c' sc hne
    rcases hst.slot c' sc with h0 | heq | ⟨g,hpc,rfl⟩
    · exact absurd h0 hne
    · rw [heq] at hne ⊢
      rcases hst.sizeClass (st.slot c' sc) with hclass | ⟨g,hpc⟩
      · rw [hclass]
        exact h.slot c' sc hne
      · cases ((hplace hpc).slot c' sc).mp rfl
    · rcases hst.sizeClass (st'.slot c' g.sizeClass) with hclass | ⟨g',hpc'⟩
      · rw [hclass]
        exact h.taken c _ _ (by rw [hpc]; rfl)
      · rw [hpc] at hpc'
        cases hpc'
  · intro c' sc y hy
    rcases hst.deque c' sc y hy with hold | ⟨f,hpc,rfl,rfl⟩
    · rcases hst.sizeClass y with hclass | ⟨g,hpc⟩
      · rw [hclass]
        exact h.deque c' sc y hold
      · cases ((hplace hpc).deque c' sc).mp hold
    · rcases hst.sizeClass f.span with hclass | ⟨g,hpc'⟩
      · rw [hclass]
        exact hlink f hpc
      · rw [hpc] at hpc'
        cases hpc'
  · intro c' y sc hy
    by_cases hc : c' = c
    · subst hc
      rcases hst.taken y sc hy with hold | ⟨g,_,hclass⟩ | ⟨g,e,hpc,rfl,hcas⟩
      · rcases hst.sizeClass y with hclass | ⟨g,hpc⟩
        · rw [hclass]
          exact h.taken c' y sc hold
        · rw [hpc] at hold
          cases hold
      · exact hclass
      · rcases hst.sizeClass y with hclass | ⟨g',hpc'⟩
        · rw [hclass]
          exact htake g y e hpc hcas
        · rw [hpc] at hpc'
          cases hpc'
    · rw [hst.pc c' hc] at hy
      rcases hst.sizeClass y with hclass | ⟨g,hpc⟩
      · rw [hclass]
        exact h.taken c' y sc hy
      · exact absurd (Pc.taken_held hy) ((hplace hpc).others c' hc)

theorem ClassInv.step {e : Event} (h : ClassInv st) (hi : Inv m st) (hok : Classed st e)
    (hs : Stepwise.step m st e = some st') : ClassInv st' := by
  cases e with
  | allocate c size =>
    rw [Stepwise.step] at hs
    split at hs
    · next hcall =>
      cases hs
      have hrests := Pc.held_of_rests hcall.2.1
      refine h.next hi (.load hrests.2 (by split <;> rfl)) ?_ ?_
      · intro f hpc
        rw [hpc] at hcall
        cases hcall.2.1
      · intro g s e hpc
        rw [hpc] at hcall
        cases hcall.2.1
    · cases hs
  | free c p =>
    rw [Stepwise.step] at hs
    split at hs
    · next hcall =>
      cases hs
      have hrests := Pc.held_of_rests hcall.2.1
      refine h.next hi (.outside rfl rfl (fun _ => rfl) (fun _ _ _ hy => hy) hrests.2 rfl) ?_ ?_
      · intro f hpc
        rw [hpc] at hcall
        cases hcall.2.1
      · intro g s e hpc
        rw [hpc] at hcall
        cases hcall.2.1
    · cases hs
  | next c rand =>
    have hsorts : Sorts st st' c := by
      rcases step_next hs with hs | hs | hs
      · exact .freeStep hs
      · exact .allocateStep hs
      · exact .fetchStep hs
    refine h.next hi hsorts ?_ ?_
    · intro f hpc
      simpa only [Classed, hpc, Pc.Classed] using hok
    · intro g s e hpc
      simpa only [Classed, hpc, Pc.Classed] using hok

end Steps
end Scalloc.Stepwise
