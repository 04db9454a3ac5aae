import Scalloc.Heap.StepServed

/-! # What a free knows about the number of free objects

Every change of an epoch moves it up, so a word that a call of `Core::Free` finds again did
not change in between. A span that is floating or reusable all the time only gains free
objects: the count that the call took is still a lower bound when `NewMarkFull` succeeds.
-/
namespace Scalloc.Stepwise
open Epoch Transition

variable {m : Machine} {st st' X : State} {c c' s y sc : ℕ} {pc : Pc} {x : Header}

/-- The epochs in the order in which a span takes them: the counter first, and floating after
the mark with the same counter. -/
def rank (e : Epoch) : ℕ := 2 * (counter e).toNat + if mark e = .floating then 1 else 0

/-- The counter does not wrap when it is increased. -/
def Room (e : Epoch) : Prop := (counter e).toNat + 1 < 2 ^ 28

instance (e : Epoch) : Decidable (Room e) := inferInstanceAs (Decidable (_ < _))

/-- The compare-exchange at which a thread is does not wrap the counter of the epoch. -/
def Pc.Unwrapped (st : State) : Pc → Prop
  | markFull f => Room (st.spans f.span).epoch
  | markReuse f => Room (st.spans f.span).epoch
  | markHot _ s _ => Room (st.spans s).epoch
  | newMark _ s _ => Room (st.spans s).epoch
  | _ => True

instance (st : State) (pc : Pc) : Decidable (pc.Unwrapped st) := by
  apply Pc.casesOn (motive := fun pc => Decidable (pc.Unwrapped st)) pc
  all_goals
    intros
    dsimp only [Pc.Unwrapped]
    infer_instance

/-- No compare-exchange of the step wraps the counter of an epoch. -/
def Unwrapped (st : State) : Event → Prop
  | .next c _ => (st.pc c).Unwrapped st
  | _ => True

instance (st : State) : (e : Event) → Decidable (Unwrapped st e)
  | .next c _ => inferInstanceAs (Decidable ((st.pc c).Unwrapped st))
  | .allocate .. => inferInstanceAs (Decidable True)
  | .free .. => inferInstanceAs (Decidable True)

theorem rank_encode (k : BitVec 28) (mk : Mark) :
    rank (encode k mk) = 2 * k.toNat + if mk = .floating then 1 else 0 := by
  rw [rank, counter_encode, mark_encode]

/-- A compare-exchange that succeeds moves the epoch up. -/
theorem rank_succ {k : BitVec 28} {mk mk' : Mark} (h : Room (encode k mk)) :
    rank (encode k mk) < rank (encode (k + 1) mk') := by
  rw [Room, counter_encode] at h
  have hk : (k + 1).toNat = k.toNat + 1 := by
    rw [BitVec.toNat_add, show (1 : BitVec 28).toNat = 1 from rfl, Nat.mod_eq_of_lt h]
  rw [rank_encode, rank_encode, hk]
  split <;> split <;> omega

theorem rank_markFull {e e' e'' : Epoch} (hv : Valid e) (hv' : Valid e') (hr : Room e)
    (h : newMarkFull e e' = some e'') : rank e < rank e'' := by
  obtain ⟨k,mk,rfl⟩ := hv
  obtain ⟨k',mk',rfl⟩ := hv'
  obtain ⟨⟨rfl,_⟩,rfl⟩ := newMarkFull_encode.mp h
  exact rank_succ hr

theorem rank_markReuse {e e' e'' : Epoch} (hv : Valid e) (hv' : Valid e') (hr : Room e)
    (h : newMarkReuse e e' = some e'') : rank e < rank e'' := by
  obtain ⟨k,mk,rfl⟩ := hv
  obtain ⟨k',mk',rfl⟩ := hv'
  obtain ⟨⟨rfl,_⟩,rfl⟩ := newMarkReuse_encode.mp h
  exact rank_succ hr

theorem rank_markHot {e e' e'' : Epoch} (hv : Valid e) (hv' : Valid e') (hr : Room e)
    (h : newMarkHot e e' = some e'') : rank e < rank e'' := by
  obtain ⟨k,mk,rfl⟩ := hv
  obtain ⟨k',mk',rfl⟩ := hv'
  obtain ⟨⟨rfl,_⟩,rfl⟩ := newMarkHot_encode.mp h
  exact rank_succ hr

theorem rank_markFloating {e : Epoch} (hv : Valid e) (h : mark e = .hot ∨ mark e = .full) :
    rank e < rank (newMarkFloating e) := by
  obtain ⟨k,mk,rfl⟩ := hv
  rw [mark_encode] at h
  rw [newMarkFloating_encode, rank_encode, rank_encode]
  rcases h with rfl | rfl <;> simp

/-- No list gets shorter, and the class stays. -/
structure Header.Grows (x y : Header) : Prop where
  locals : x.locals.length ≤ y.locals.length
  remotes : x.remotes.length ≤ y.remotes.length
  sizeClass : y.sizeClass = x.sizeClass

theorem Header.Grows.refl (x : Header) : x.Grows x := ⟨le_rfl,le_rfl,rfl⟩

/-- The object that a call of `Core::Free` has not put on a list yet. -/
def Pc.freed : Pc → Option ℕ
  | loadEpoch p => some p
  | loadOwner p _ => some p
  | loadClass p _ _ => some p
  | compareOwner p _ => some p
  | pushLocal p _ => some p
  | pushRemote p _ => some p
  | _ => none

/-- What a step of thread `c` does to the spans of the others: an epoch changes upwards and
never that of a hot span, and only its own spans lose free objects. A local list of another
thread changes only by the freed object. -/
structure Mild (st st' : State) (c : ℕ) : Prop where
  pc : ∀ c', c' ≠ c → st'.pc c' = st.pc c'
  hot : ∀ c', c' ≠ c → st'.hot c' = st.hot c'
  epoch : ∀ s, (st'.spans s).epoch = (st.spans s).epoch ∨
    rank (st.spans s).epoch < rank (st'.spans s).epoch ∧
      ∀ c', c' ≠ c → ∀ sc, st.slot c' sc ≠ s
  grows : ∀ s, ¬ st.Has c s → (st.spans s).Grows (st'.spans s)
  steady : ∀ s, ¬ st.Has c s → (st'.spans s).locals = (st.spans s).locals ∨
    ∃ p, (st.pc c).freed = some p ∧ fromObject p = s

theorem Mild.goto (hpc : X.pc = st.pc) (hhot : ∀ c', c' ≠ c → X.hot c' = st.hot c')
    (hspans : X.spans = st.spans) : Mild st (X.goto c pc) c where
  pc := by
    intro c' hc
    rw [State.goto_pc_of_ne hc, hpc]
  hot := hhot
  epoch := by
    intro s
    rw [State.goto_spans, hspans]
    exact .inl rfl
  grows := by
    intro s _
    rw [State.goto_spans, hspans]
    exact .refl _
  steady := by
    intro s _
    rw [State.goto_spans, hspans]
    exact .inl rfl

theorem Mild.load : Mild st (st.goto c pc) c := .goto rfl (fun _ _ => rfl) rfl

theorem Mild.update (hpc : X.pc = st.pc) (hhot : ∀ c', c' ≠ c → X.hot c' = st.hot c')
    (hspans : X.spans = Function.update st.spans s x)
    (he : x.epoch = (st.spans s).epoch ∨
      rank (st.spans s).epoch < rank x.epoch ∧ ∀ c', c' ≠ c → ∀ sc, st.slot c' sc ≠ s)
    (hg : st.Has c s ∨ (st.spans s).Grows x ∧ (x.locals = (st.spans s).locals ∨
      ∃ p, (st.pc c).freed = some p ∧ fromObject p = s)) : Mild st (X.goto c pc) c where
  pc := by
    intro c' hc
    rw [State.goto_pc_of_ne hc, hpc]
  hot := hhot
  epoch := by
    intro y
    rw [State.goto_spans, hspans]
    by_cases hy : y = s
    · subst hy
      rw [Function.update_self]
      exact he
    · rw [Function.update_of_ne hy]
      exact .inl rfl
  grows := by
    intro y hy
    rw [State.goto_spans, hspans]
    by_cases hys : y = s
    · subst hys
      rw [Function.update_self]
      exact (hg.resolve_left hy).1
    · rw [Function.update_of_ne hys]
      exact .refl _
  steady := by
    intro y hy
    rw [State.goto_spans, hspans]
    by_cases hys : y = s
    · subst hys
      rw [Function.update_self]
      exact (hg.resolve_left hy).2
    · rw [Function.update_of_ne hys]
      exact .inl rfl

/-- What a call still knows of its span: the epoch did not go back, and if it is the one that
the call has read and the span was not hot, class and counts are as they were. -/
def FreeCall.Fresh (st : State) (f : FreeCall) (counted : Prop) : Prop :=
  rank f.epoch ≤ rank (st.spans f.span).epoch ∧
    ((st.spans f.span).epoch = f.epoch → isFloatingOrReusable f.epoch →
      f.sizeClass = (st.spans f.span).sizeClass ∧ counted)

/-- The free objects of a span. -/
def Header.total (x : Header) : ℕ := x.locals.length + x.remotes.length

/-- What thread `c` knows about epochs and counts. -/
def Pc.Counts (st : State) (c : ℕ) : Pc → Prop
  | loadOwner p e => rank e ≤ rank (st.spans (fromObject p)).epoch
  | loadClass p e _ => rank e ≤ rank (st.spans (fromObject p)).epoch
  | compareOwner _ f => f.Fresh st True
  | pushLocal _ f => f.Fresh st True
  | pushRemote _ f => f.Fresh st True
  | remoteEmpty n f => f.Fresh st (n ≤ (st.spans f.span).locals.length)
  | remoteLength n f => f.Fresh st (n ≤ (st.spans f.span).locals.length)
  | localLength n f => f.Fresh st (n ≤ (st.spans f.span).remotes.length)
  | ownerTerminated n f => f.Fresh st (n ≤ (st.spans f.span).total)
  | ownerRecycled n f => f.Fresh st (n ≤ (st.spans f.span).total)
  | markFull f => f.Fresh st (classToObjects f.sizeClass ≤ (st.spans f.span).total)
  | floatingStore sc e => e = (st.spans (st.hot c sc)).epoch
  | _ => True

/-- A step that changes the lists, the link or the owner of a span. -/
theorem Mild.lists (hpc : X.pc = st.pc) (hhot : X.hot = st.hot)
    (hspans : X.spans = Function.update st.spans s x) (he : x.epoch = (st.spans s).epoch)
    (hg : st.Has c s ∨ (st.spans s).Grows x ∧ (x.locals = (st.spans s).locals ∨
      ∃ p, (st.pc c).freed = some p ∧ fromObject p = s)) : Mild st (X.goto c pc) c :=
  .update hpc (fun _ _ => by rw [hhot]) hspans (.inl he) hg

/-- A floating or reusable span is in no slot and in the hands of no thread. -/
theorem Inv.not_has (hi : Inv m st) (hu : st.Used s)
    (hm : st.mark s = .floating ∨ st.mark s = .reusable) : ¬ st.Has c s := by
  rcases hm with hm | hm
  · rintro (⟨sc,h⟩ | h)
    · obtain ⟨w,hat⟩ := hi.placed s hu.1
      obtain rfl := (hat.slot c sc).mp h
      have ha := hat.allowed
      rw [hm] at ha
      rcases ha with ha | ha <;> cases ha
    · exact hu.2 c h hm
  · exact hi.not_has_of_reusable hm

theorem mark_of_floatingOrReusable {e : Epoch} (hv : Valid e) (h : isFloatingOrReusable e = true) :
    mark e = .floating ∨ mark e = .reusable := by
  obtain ⟨k,mk,rfl⟩ := hv
  rw [isFloatingOrReusable, isFull_encode, isHot_encode] at h
  rw [mark_encode]
  cases mk <;> simp_all

section Marks
variable {e e' : Epoch}

/-- The mark before a compare-exchange that succeeded. -/
theorem loose_of_markFull (hv : Valid e) (hv' : Valid e') {e'' : Epoch}
    (h : newMarkFull e e' = some e'') : mark e = .floating ∨ mark e = .reusable := by
  obtain ⟨k,mk,rfl⟩ := hv
  obtain ⟨k',mk',rfl⟩ := hv'
  obtain ⟨⟨_,rfl⟩,_⟩ := newMarkFull_encode.mp h
  rw [mark_encode]
  cases mk' <;> simp [Mark.keepReuse]

theorem loose_of_markHot (hv : Valid e) (hv' : Valid e') {e'' : Epoch}
    (h : newMarkHot e e' = some e'') : mark e = .floating ∨ mark e = .reusable := by
  obtain ⟨k,mk,rfl⟩ := hv
  obtain ⟨k',mk',rfl⟩ := hv'
  obtain ⟨⟨_,rfl⟩,_⟩ := newMarkHot_encode.mp h
  rw [mark_encode]
  cases mk' <;> simp [Mark.keepReuse]

theorem loose_of_markReuse (hv : Valid e) (hv' : Valid e') {e'' : Epoch}
    (h : newMarkReuse e e' = some e'') : mark e = .floating ∨ mark e = .reusable := by
  obtain ⟨k,mk,rfl⟩ := hv
  obtain ⟨k',mk',rfl⟩ := hv'
  obtain ⟨⟨_,rfl⟩,_⟩ := newMarkReuse_encode.mp h
  rw [mark_encode]
  exact .inl rfl

end Marks

/-- A span that is not in a slot may change its epoch upwards. -/
theorem Inv.mild_mark (hi : Inv m st) {e : Epoch} (hu : st.Used s)
    (hm : st.mark s = .floating ∨ st.mark s = .reusable)
    (hr : rank (st.spans s).epoch < rank e) : Mild st ((st.setEpoch s e).goto c pc) c := by
  refine .update rfl (fun _ _ => rfl) rfl (.inr ⟨hr,fun c' _ sc h => ?_⟩) (.inr ⟨⟨le_rfl,le_rfl,rfl⟩,.inl rfl⟩)
  exact hi.not_has hu hm (.inl ⟨sc,h⟩)

/-- Every step of `Core::Free` leaves the spans of the other threads alone. -/
theorem Inv.mild_free (hi : Inv m st) {rand : ℕ → ℕ}
    (hs : Stepwise.freeStep m st c = some st') (hok : Unwrapped st (.next c rand)) :
    Mild st st' c := by
  have hknows := hi.knows c
  unfold Stepwise.freeStep at hs
  split at hs
  · cases hs
    exact .load
  · cases hs
    exact .load
  · cases hs
    exact .load
  · split at hs <;> (cases hs; exact .load)
  · next p f hpc =>
    rw [hpc] at hknows
    cases hs
    exact .lists rfl rfl rfl rfl (.inr ⟨⟨Nat.le_succ _,le_rfl,rfl⟩,
      .inr ⟨p,by rw [hpc]; rfl,hknows.2.symm⟩⟩)
  · split at hs <;> (cases hs; exact .load)
  · cases hs
    exact .load
  · cases hs
    exact .lists rfl rfl rfl rfl (.inr ⟨⟨le_rfl,Nat.le_succ _,rfl⟩,.inl rfl⟩)
  · cases hs
    exact .load
  · split at hs <;> (cases hs; exact .load)
  · split at hs <;> (cases hs; exact .load)
  · next n f hpc =>
    rw [hpc] at hknows
    exact hknows.elim
  · next n f hpc =>
    rw [hpc] at hknows
    exact hknows.elim
  · next f hpc =>
    rw [hpc] at hknows
    split at hs
    · next e hcas =>
      cases hs
      simp only [Unwrapped, hpc, Pc.Unwrapped] at hok
      exact hi.mild_mark hknows.1.used (loose_of_markFull (hi.valid _) hknows.1.epoch hcas)
        (rank_markFull (hi.valid _) hknows.1.epoch hok hcas)
    · cases hs
      exact .load
  · split at hs
    · cases hs
      exact .load
    · split at hs
      · cases hs
        exact .load
      · cases hs
        exact .lists rfl rfl rfl rfl (.inr ⟨⟨le_rfl,le_rfl,rfl⟩,.inl rfl⟩)
  · cases hs
    exact .load
  · cases hs
    exact .goto rfl (fun _ _ => rfl) rfl
  · next f hpc =>
    rw [hpc] at hknows
    split at hs
    · next e hcas =>
      cases hs
      simp only [Unwrapped, hpc, Pc.Unwrapped] at hok
      exact hi.mild_mark hknows.used (loose_of_markReuse (hi.valid _) hknows.epoch hcas)
        (rank_markReuse (hi.valid _) hknows.epoch hok hcas)
    · cases hs
      exact .load
  · split at hs
    · cases hs
      exact .load
    · cases hs
      exact .lists rfl rfl rfl rfl (.inr ⟨⟨le_rfl,le_rfl,rfl⟩,.inl rfl⟩)
  · cases hs

theorem mild_popLocal (hfetch : (st.pc c).fetching = none) : Mild st (popLocal st c sc pc) c := by
  unfold popLocal
  split
  · exact .load
  · exact .lists rfl rfl rfl rfl (.inl (has_hot hfetch))

theorem Inv.mild_allocate (hi : Inv m st) (hs : Stepwise.allocateStep m st c = some st')
    (hread : (st.pc c).Counts st c) : Mild st st' c := by
  have hknows := hi.knows c
  unfold Stepwise.allocateStep at hs
  split at hs
  · next sc hpc =>
    cases hs
    exact mild_popLocal (by rw [hpc]; rfl)
  · cases hs
    exact .load
  · split at hs <;> (cases hs; exact .load)
  · cases hs
    exact .load
  · split at hs <;> (cases hs; exact .load)
  · split at hs <;> (cases hs; exact .load)
  · next s k hpc =>
    rw [hpc] at hknows
    cases hs
    exact .lists rfl rfl rfl rfl (.inl (hknows.has (by rw [hpc]; rfl) (by rw [hpc]; rfl)))
  · next s objects k hpc =>
    rw [hpc] at hknows
    split at hs
    · cases hs
      exact .lists rfl rfl rfl rfl (.inl (hknows.1.has (by rw [hpc]; rfl) (by rw [hpc]; rfl)))
    · cases hs
      exact .load
  · next s objects k hpc =>
    rw [hpc] at hknows
    split at hs
    · cases hs
      exact .load
    · cases hs
      exact .lists rfl rfl rfl rfl (.inl (hknows.1.has (by rw [hpc]; rfl) (by rw [hpc]; rfl)))
  · next sc hpc =>
    cases hs
    exact mild_popLocal (by rw [hpc]; rfl)
  · cases hs
    exact .load
  · next sc e hpc =>
    rw [hpc] at hknows hread
    cases hs
    obtain ⟨hk,hat⟩ := hi.at_slot (c := c) (by rw [hpc]; rfl) hknows.2
    obtain rfl : e = _ := hread
    refine .update rfl (fun _ _ => rfl) rfl (.inr ⟨rank_markFloating (hi.valid _) hat.allowed,?_⟩)
      (.inr ⟨⟨le_rfl,le_rfl,rfl⟩,.inl rfl⟩)
    intro c' hc sc' h
    cases (hat.slot c' sc').mp h
    exact hc rfl
  · cases hs

theorem mild_construct (hheld : (st.pc c).held = some s) (he : x.epoch = (st.spans s).epoch) :
    Mild st ((st.setSpan s x).goto c pc) c :=
  .lists rfl rfl rfl he (.inl (.inr hheld))

theorem Inv.mild_fetch (hi : Inv m st) {rand : ℕ → ℕ}
    (hs : Stepwise.fetchStep m st c rand = some st') (hok : Unwrapped st (.next c rand)) :
    Mild st st' c := by
  have hknows := hi.knows c
  unfold Stepwise.fetchStep at hs
  split at hs
  · split at hs
    · cases hs
      exact .lists rfl rfl rfl rfl (.inr ⟨⟨le_rfl,le_rfl,rfl⟩,.inl rfl⟩)
    · cases hs
      exact .load
  · cases hs
    exact .load
  · next g s e hpc =>
    rw [hpc] at hknows
    simp only [Unwrapped, hpc, Pc.Unwrapped] at hok
    split at hs
    · next e' hcas =>
      cases hs
      exact hi.mild_mark hknows.2.1 (loose_of_markHot (hi.valid _) hknows.2.2 hcas)
        (rank_markHot (hi.valid _) hknows.2.2 hok hcas)
    · cases hs
      exact .load
  · split at hs
    · cases hs
      exact .goto rfl (fun _ _ => rfl) rfl
    · cases hs
      exact .load
  · split at hs
    · cases hs
      exact .goto rfl (fun _ _ => rfl) rfl
    · cases hs
  · next g s hpc =>
    cases hs
    exact mild_construct (by rw [hpc]; rfl) rfl
  · next g s hpc =>
    cases hs
    exact mild_construct (by rw [hpc]; rfl) rfl
  · next g s hpc =>
    cases hs
    exact mild_construct (by rw [hpc]; rfl) rfl
  · next g s hpc =>
    cases hs
    exact mild_construct (by rw [hpc]; rfl) rfl
  · next g s hpc =>
    cases hs
    exact mild_construct (by rw [hpc]; rfl) rfl
  · cases hs
    exact .load
  · next g s e hpc =>
    rw [hpc] at hknows
    simp only [Unwrapped, hpc, Pc.Unwrapped] at hok
    split at hs
    · next e' hcas =>
      cases hs
      obtain ⟨hk,l,hat⟩ := hi.at_held (c := c) (s := s) (by rw [hpc]; rfl)
      refine .update rfl (fun _ _ => rfl) rfl (.inr ⟨?_,fun c' _ sc h => ?_⟩)
        (.inr ⟨⟨le_rfl,le_rfl,rfl⟩,.inl rfl⟩)
      · exact rank_markHot (hi.valid _) (hknows.2.2 ▸ hi.valid _) hok hcas
      · cases (hat.slot c' sc).mp h
    · cases hs
      exact .load
  · next g s hpc =>
    have hhot : ∀ c', c' ≠ c → update₂ st.hot c g.sizeClass s c' = st.hot c' := fun c' hc =>
      funext fun sc => by simp [update₂, hc]
    dsimp only at hs
    split at hs
    · cases hs
      exact .goto rfl hhot rfl
    · split at hs <;> (cases hs; exact .goto rfl hhot rfl)
  · cases hs

section Knowledge
variable {f : FreeCall} {P P' : Prop}

/-- What a call knows survives every step. -/
theorem FreeCall.Fresh.next (h : f.Fresh st P) (hi : Inv m st) (hu : st.Used f.span)
    (hv : Valid f.epoch) (hm : Mild st st' c)
    (hp : (st.spans f.span).Grows (st'.spans f.span) → P → P') : f.Fresh st' P' := by
  obtain ⟨hrank,hcount⟩ := h
  rcases hm.epoch f.span with he | ⟨hlt,_⟩
  · refine ⟨by rw [he]; exact hrank,fun hsame hloose => ?_⟩
    rw [he] at hsame
    have hmark := mark_of_floatingOrReusable hv hloose
    rw [← hsame] at hmark
    have hg := hm.grows f.span (hi.not_has hu hmark)
    obtain ⟨hclass,hP⟩ := hcount hsame hloose
    exact ⟨hclass.trans hg.sizeClass.symm,hp hg hP⟩
  · refine ⟨hrank.trans hlt.le,fun hsame _ => ?_⟩
    rw [hsame] at hlt
    exact absurd hrank (not_le.mpr hlt)

theorem Mild.rank_le (hm : Mild st st' c) (s : ℕ) :
    rank (st.spans s).epoch ≤ rank (st'.spans s).epoch := by
  rcases hm.epoch s with he | ⟨hlt,_⟩
  · rw [he]
  · exact hlt.le

theorem Header.Grows.total_le {x y : Header} (h : x.Grows y) : x.total ≤ y.total :=
  Nat.add_le_add h.locals h.remotes

/-- A step of thread `c` does not touch what thread `c'` knows. -/
theorem Mild.counts (hm : Mild st st' c) (hi : Inv m st) (hc : c' ≠ c)
    (h : (st.pc c').Counts st c') : (st.pc c').Counts st' c' := by
  have hknows := hi.knows c'
  cases hpc : st.pc c' with
  | loadOwner p e =>
    rw [hpc] at h
    exact h.trans (hm.rank_le _)
  | loadClass p e owner =>
    rw [hpc] at h
    exact h.trans (hm.rank_le _)
  | compareOwner p f =>
    rw [hpc] at h hknows
    exact h.next hi hknows.1.used hknows.1.epoch hm fun _ => id
  | pushLocal p f =>
    rw [hpc] at h hknows
    exact h.next hi hknows.1.used hknows.1.epoch hm fun _ => id
  | pushRemote p f =>
    rw [hpc] at h hknows
    exact h.next hi hknows.1.used hknows.1.epoch hm fun _ => id
  | remoteEmpty n f =>
    rw [hpc] at h hknows
    exact h.next hi hknows.used hknows.epoch hm fun hg hn => hn.trans hg.locals
  | remoteLength n f =>
    rw [hpc] at h hknows
    exact h.next hi hknows.used hknows.epoch hm fun hg hn => hn.trans hg.locals
  | localLength n f =>
    rw [hpc] at h hknows
    exact h.next hi hknows.used hknows.epoch hm fun hg hn => hn.trans hg.remotes
  | ownerTerminated n f =>
    rw [hpc] at h hknows
    exact h.next hi hknows.used hknows.epoch hm fun hg hn => hn.trans hg.total_le
  | ownerRecycled n f =>
    rw [hpc] at h hknows
    exact h.next hi hknows.used hknows.epoch hm fun hg hn => hn.trans hg.total_le
  | markFull f =>
    rw [hpc] at h hknows
    exact h.next hi hknows.1.used hknows.1.epoch hm fun hg hn => hn.trans hg.total_le
  | floatingStore sc e =>
    rw [hpc] at h hknows
    have hslot : st.slot c' sc = st.hot c' sc := by
      rw [State.slot, hpc]
      rfl
    rw [Pc.Counts, hm.hot c' hc]
    rcases hm.epoch (st.hot c' sc) with he | ⟨_,hno⟩
    · rw [he]
      exact h
    · exact absurd hslot (hno c' hc sc)
  | _ => trivial

/-- What every thread knows. -/
def CountInv (st : State) : Prop := ∀ c, (st.pc c).Counts st c

theorem CountInv.next (h : CountInv st) (hi : Inv m st) (hm : Mild st st' c)
    (hc : (st'.pc c).Counts st' c) : CountInv st' := by
  intro c'
  by_cases hcc : c' = c
  · rw [hcc]
    exact hc
  · rw [hm.pc c' hcc]
    exact hm.counts hi hcc (h c')

theorem Then.pc_counts {k : Then} : (k.pc s).Counts st c := by
  cases k <;> trivial

theorem settle_counts {n : ℕ} {f : FreeCall} (h : f.Fresh st (n ≤ (st.spans f.span).total)) :
    (m.settle n f).Counts st c := by
  unfold Machine.settle
  split
  · next hn =>
    rw [hn.1] at h
    exact h
  · split <;> trivial

theorem CountInv.freeStep (h : CountInv st) (hi : Inv m st) {rand : ℕ → ℕ}
    (hs : Stepwise.freeStep m st c = some st') (hok : Unwrapped st (.next c rand)) :
    CountInv st' := by
  have hm := hi.mild_free hs hok
  have hknows := hi.knows c
  have hcounts := h c
  refine h.next hi hm ?_
  unfold Stepwise.freeStep at hs
  split at hs
  · next p hpc =>
    cases hs
    rw [State.goto_pc_self]
    exact le_rfl
  · next p e hpc =>
    rw [hpc] at hcounts
    cases hs
    rw [State.goto_pc_self]
    exact hcounts
  · next p e owner hpc =>
    rw [hpc] at hcounts
    cases hs
    rw [State.goto_pc_self]
    exact ⟨hcounts,fun _ _ => ⟨rfl,trivial⟩⟩
  · next p f hpc =>
    rw [hpc] at hcounts
    split at hs <;>
    · cases hs
      rw [State.goto_pc_self]
      exact hcounts
  · next p f hpc =>
    rw [hpc] at hcounts hknows
    cases hs
    rw [State.goto_pc_self]
    refine hcounts.next hi hknows.1.used hknows.1.epoch hm fun _ _ => ?_
    rw [State.goto_spans, State.setLocals, State.setSpan]
    simp
  · next n f hpc =>
    rw [hpc] at hcounts
    split at hs <;> (cases hs; rw [State.goto_pc_self])
    · exact ⟨hcounts.1,fun h1 h2 => (hcounts.2 h1 h2).imp_right fun hn =>
        hn.trans (Nat.le_add_right _ _)⟩
    · exact hcounts
  · next n f hpc =>
    rw [hpc] at hcounts
    cases hs
    rw [State.goto_pc_self]
    exact ⟨hcounts.1,fun h1 h2 => (hcounts.2 h1 h2).imp_right fun hn =>
      Nat.add_le_add_right hn _⟩
  · next p f hpc =>
    rw [hpc] at hcounts hknows
    cases hs
    rw [State.goto_pc_self]
    refine hcounts.next hi hknows.1.used hknows.1.epoch hm fun _ _ => ?_
    rw [State.goto_spans, State.setRemotes, State.setSpan]
    simp
  · next n f hpc =>
    rw [hpc] at hcounts
    cases hs
    rw [State.goto_pc_self]
    refine ⟨hcounts.1,fun h1 h2 => (hcounts.2 h1 h2).imp_right fun hn => ?_⟩
    rw [State.goto_spans, Header.total]
    omega
  · next n f hpc =>
    rw [hpc] at hcounts
    split at hs <;> (cases hs; rw [State.goto_pc_self])
    · trivial
    · exact hcounts
  · next n f hpc =>
    rw [hpc] at hcounts
    split at hs <;> (cases hs; rw [State.goto_pc_self])
    · trivial
    · exact settle_counts hcounts
  · next n f hpc =>
    rw [hpc] at hknows
    exact hknows.elim
  · next n f hpc =>
    rw [hpc] at hknows
    exact hknows.elim
  · split at hs <;> (cases hs; rw [State.goto_pc_self])
    · split <;> trivial
    · trivial
  · split at hs
    · cases hs
      rw [State.goto_pc_self]
      trivial
    · split at hs <;> (cases hs; rw [State.goto_pc_self]; trivial)
  · cases hs
    rw [State.goto_pc_self]
    trivial
  · cases hs
    rw [State.goto_pc_self]
    trivial
  · split at hs <;> (cases hs; rw [State.goto_pc_self]; trivial)
  · split at hs <;> (cases hs; rw [State.goto_pc_self]; trivial)
  · cases hs

theorem popLocal_counts {empty : Pc} (h : empty.Counts st c) :
    ((popLocal st c sc empty).pc c).Counts (popLocal st c sc empty) c := by
  unfold popLocal
  split
  · rw [State.goto_pc_self]
    cases empty <;> exact h
  · rw [State.goto_pc_self]
    trivial

theorem CountInv.allocateStep (h : CountInv st) (hi : Inv m st)
    (hs : Stepwise.allocateStep m st c = some st') : CountInv st' := by
  refine h.next hi (hi.mild_allocate hs (h c)) ?_
  unfold Stepwise.allocateStep at hs
  split at hs
  · cases hs
    exact popLocal_counts trivial
  · cases hs
    rw [State.goto_pc_self]
    trivial
  · next sc n hpc =>
    split at hs <;> (cases hs; rw [State.goto_pc_self])
    · rcases retire_cases m sc (st.hot c sc) n with hr | hr <;> (rw [hr]; trivial)
    · trivial
  · next sc n hpc =>
    cases hs
    rw [State.goto_pc_self]
    rcases retire_cases m sc (st.hot c sc) (n + (st.spans (st.hot c sc)).remotes.length) with
      hr | hr <;> (rw [hr]; trivial)
  · split at hs <;> (cases hs; rw [State.goto_pc_self])
    · exact Then.pc_counts
    · trivial
  · split at hs <;> (cases hs; rw [State.goto_pc_self])
    · exact Then.pc_counts
    · trivial
  · cases hs
    rw [State.goto_pc_self]
    trivial
  · split at hs <;> (cases hs; rw [State.goto_pc_self])
    · exact Then.pc_counts
    · trivial
  · split at hs <;> (cases hs; rw [State.goto_pc_self])
    · exact Then.pc_counts
    · trivial
  · cases hs
    exact popLocal_counts trivial
  · cases hs
    rw [State.goto_pc_self]
    rfl
  · cases hs
    rw [State.goto_pc_self]
    trivial
  · cases hs

theorem CountInv.fetchStep (h : CountInv st) (hi : Inv m st) {rand : ℕ → ℕ}
    (hs : Stepwise.fetchStep m st c rand = some st') (hok : Unwrapped st (.next c rand)) :
    CountInv st' := by
  refine h.next hi (hi.mild_fetch hs hok) ?_
  unfold Stepwise.fetchStep at hs
  dsimp only at hs
  repeat' split at hs
  all_goals first | (cases hs; rw [State.goto_pc_self]; trivial) | cases hs

theorem CountInv.step {e : Event} (h : CountInv st) (hi : Inv m st)
    (hok : Unwrapped st e) (hs : Stepwise.step m st e = some st') : CountInv st' := by
  cases e with
  | allocate c size =>
    rw [Stepwise.step] at hs
    split at hs
    · cases hs
      refine h.next hi .load ?_
      rw [State.goto_pc_self]
      split <;> trivial
    · cases hs
  | free c p =>
    rw [Stepwise.step] at hs
    split at hs
    · cases hs
      refine h.next hi (.goto rfl (fun _ _ => rfl) rfl) ?_
      rw [State.goto_pc_self]
      trivial
    · cases hs
  | next c rand =>
    rcases step_next hs with hs | hs | hs
    · exact h.freeStep hi hs hok
    · exact h.allocateStep hi hs
    · exact h.fetchStep hi hs hok

end Knowledge

end Scalloc.Stepwise
