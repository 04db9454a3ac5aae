import Scalloc.Heap.StepPlaces

/-! # The steps that move a span

Twelve steps change where a span is. Each keeps the invariant; two of them, `PushFront` and the
`NewMarkHot` of `GetSpan`, only when they find the span as the thread left it.
-/
namespace Scalloc.Stepwise
open Epoch Transition

namespace State
variable {st : State} {c c' s y sc : ℕ} {pc : Pc} {e : Epoch}

@[simp] theorem goto_pc_self : (st.goto c pc).pc c = pc := by simp [goto]

theorem goto_pc_of_ne (h : c' ≠ c) : (st.goto c pc).pc c' = st.pc c' := by simp [goto, h]

@[simp] theorem goto_spans : (st.goto c pc).spans = st.spans := rfl
@[simp] theorem goto_deque : (st.goto c pc).deque = st.deque := rfl
@[simp] theorem goto_hot : (st.goto c pc).hot = st.hot := rfl
@[simp] theorem goto_pool : (st.goto c pc).pool = st.pool := rfl
@[simp] theorem goto_arena : (st.goto c pc).arena = st.arena := rfl
@[simp] theorem goto_live : (st.goto c pc).live = st.live := rfl

theorem slot_goto_self (sc : ℕ) :
    (st.goto c pc).slot c sc = if pc.fetching = some sc then 0 else st.hot c sc := by
  simp [slot]

@[simp] theorem setEpoch_pc : (st.setEpoch s e).pc = st.pc := rfl
@[simp] theorem setEpoch_deque : (st.setEpoch s e).deque = st.deque := rfl
@[simp] theorem setEpoch_hot : (st.setEpoch s e).hot = st.hot := rfl
@[simp] theorem setEpoch_pool : (st.setEpoch s e).pool = st.pool := rfl
@[simp] theorem setEpoch_arena : (st.setEpoch s e).arena = st.arena := rfl
@[simp] theorem setEpoch_live : (st.setEpoch s e).live = st.live := rfl

@[simp] theorem setEpoch_self : (st.setEpoch s e).spans s = { st.spans s with epoch := e } := by
  simp [setEpoch, setSpan]

theorem setEpoch_of_ne (h : y ≠ s) : (st.setEpoch s e).spans y = st.spans y := by
  simp [setEpoch, setSpan, h]

variable {l : List ℕ} {link : Option (ℕ × ℕ)}

@[simp] theorem setDeque_pc : (st.setDeque c sc l s link).pc = st.pc := rfl
@[simp] theorem setDeque_hot : (st.setDeque c sc l s link).hot = st.hot := rfl
@[simp] theorem setDeque_pool : (st.setDeque c sc l s link).pool = st.pool := rfl
@[simp] theorem setDeque_arena : (st.setDeque c sc l s link).arena = st.arena := rfl
@[simp] theorem setDeque_live : (st.setDeque c sc l s link).live = st.live := rfl

@[simp] theorem setDeque_deque :
    (st.setDeque c sc l s link).deque = update₂ st.deque c sc l := rfl

@[simp] theorem setDeque_self :
    (st.setDeque c sc l s link).spans s = { st.spans s with link := link } := by
  simp [setDeque, setSpan]

theorem setDeque_of_ne (h : y ≠ s) : (st.setDeque c sc l s link).spans y = st.spans y := by
  simp [setDeque, setSpan, h]

end State

section Goto
variable {st X : State} {c s : ℕ} {w : Place} {pc : Pc}

theorem Pc.eq_of_held (h : pc.held = none ∨ pc.held = some s) (y : ℕ) (hy : pc.held = some y) :
    y = s := by
  rw [hy] at h
  exact Option.some_inj.mp (h.resolve_left (Option.some_ne_none y))

theorem State.At.not_held (hat : st.At s w) (hw : ∀ l, w ≠ .held c l) :
    (st.pc c).held ≠ some s := by
  intro hheld
  obtain ⟨l,rfl⟩ := (hat.held c).mp hheld
  exact hw l rfl

/-- The other threads do not have the span that is in the hands of this one. -/
theorem State.At.others {l : Option (ℕ × ℕ)} (hat : st.At s (.held c l)) (c' : ℕ) (hc : c' ≠ c) :
    (st.pc c').held ≠ some s :=
  hat.not_held fun _ he => hc (Place.held.inj he).1.symm

theorem known_or (hk : st.Known s) (harena : X.arena = st.arena) (y : ℕ) :
    X.Known y ↔ y = s ∨ st.Known y := by
  rw [State.Known, harena]
  refine ⟨.inr,fun h => h.elim ?_ id⟩
  rintro rfl
  exact hk

/-- The slots do not change when a thread neither enters nor leaves `GetSpan`. -/
theorem slot_goto (hX : X.pc = st.pc) (hhot : X.hot = st.hot)
    (hfetch : pc.fetching = (st.pc c).fetching) (c' sc : ℕ) :
    (X.goto c pc).slot c' sc = st.slot c' sc := by
  by_cases hc : c' = c
  · subst hc
    rw [State.slot_goto_self, hfetch, hhot]
    rfl
  · refine State.slot_congr ?_ (fun _ => ?_) sc
    · rw [State.goto_pc_of_ne hc, hX]
    · rw [State.goto_hot, hhot]

theorem State.At.slot_goto (hat : st.At s w) (hX : X.pc = st.pc) (hhot : X.hot = st.hot)
    (hfetch : pc.fetching = (st.pc c).fetching) (c' sc : ℕ) :
    (X.goto c pc).slot c' sc = s ↔ w = .slot c' sc := by
  rw [Stepwise.slot_goto hX hhot hfetch]
  exact hat.slot c' sc

/-- The thread has the span in its hands after the step. -/
theorem held_goto (hX : X.pc = st.pc) (hpc : pc.held = some s)
    (hothers : ∀ c', c' ≠ c → (st.pc c').held ≠ some s) (l : Option (ℕ × ℕ)) (c' : ℕ) :
    ((X.goto c pc).pc c').held = some s ↔ ∃ l', Place.held c l = .held c' l' := by
  by_cases hc : c' = c
  · subst hc
    rw [State.goto_pc_self]
    exact iff_of_true hpc ⟨l,rfl⟩
  · rw [State.goto_pc_of_ne hc, hX]
    refine iff_of_false (hothers c' hc) ?_
    rintro ⟨l',hl⟩
    cases hl
    exact hc rfl

/-- Nobody has the span in his hands after the step. -/
theorem not_held_goto (hX : X.pc = st.pc) (hpc : pc.held ≠ some s)
    (hothers : ∀ c', c' ≠ c → (st.pc c').held ≠ some s) (c' : ℕ) :
    ((X.goto c pc).pc c').held ≠ some s := by
  by_cases hc : c' = c
  · subst hc
    rwa [State.goto_pc_self]
  · rw [State.goto_pc_of_ne hc, hX]
    exact hothers c' hc

/-- A step that leaves the slots alone. -/
theorem touches_goto (hX : X.pc = st.pc) (hhot : X.hot = st.hot) (hlive : X.live = st.live)
    (hfetch : pc.fetching = (st.pc c).fetching)
    (hbefore : (st.pc c).held = none ∨ (st.pc c).held = some s)
    (hafter : pc.held = none ∨ pc.held = some s)
    (hdeque : ∀ c' sc y, y ≠ s → (y ∈ X.deque c' sc ↔ y ∈ st.deque c' sc))
    (hpool : ∀ a b y, y ≠ s → (y ∈ X.pool.spans a b ↔ y ∈ st.pool.spans a b))
    (hspan : ∀ y, y ≠ s → X.spans y = st.spans y)
    (howner : (X.spans s).owner = (st.spans s).owner)
    (hlists : (X.spans s).locals = (st.spans s).locals ∧ (X.spans s).remotes = (st.spans s).remotes)
    (hothers : ∀ c', c' ≠ c → (st.pc c').held = some s → (X.spans s).epoch = (st.spans s).epoch)
    (hknown : ∀ y, X.Known y ↔ y = s ∨ st.Known y) : Touches st (X.goto c pc) c s where
  pc := by
    intro c' hc
    rw [State.goto_pc_of_ne hc, hX]
  hot := fun _ _ => by rw [State.goto_hot, hhot]
  slot := by
    intro sc y _ _
    rw [slot_goto hX hhot hfetch]
  deque := hdeque
  pool := hpool
  span := hspan
  owner := howner
  lists := hlists
  before := Pc.eq_of_held hbefore
  after := by
    rw [State.goto_pc_self]
    exact Pc.eq_of_held hafter
  others := hothers
  known := hknown
  live := hlive

end Goto

variable {m : Machine} {st : State} {c s : ℕ} {w : Place} {pc : Pc} {e : Epoch}

/-- The place of a span in the hands of a thread. -/
theorem Inv.at_held (hi : Inv m st) (hheld : (st.pc c).held = some s) :
    st.Known s ∧ ∃ l, st.At s (.held c l) := by
  have hk : st.Known s := by
    by_contra hk
    exact (hi.absent s hk).2.2.2.1 c hheld
  obtain ⟨w,hat⟩ := hi.placed s hk
  obtain ⟨l,rfl⟩ := (hat.held c).mp hheld
  exact ⟨hk,l,hat⟩

/-- A span of a call that does not hold it is in a deque or nowhere while its mark is
floating or reusable. -/
theorem Inv.place_of_mark (hi : Inv m st) (hu : st.Used s)
    (hm : st.mark s = .floating ∨ st.mark s = .reusable) :
    ∃ w, st.At s w ∧ (w = .loose ∨ ∃ c sc, w = .linked c sc) := by
  obtain ⟨w,hw⟩ := hi.placed s hu.1
  refine ⟨w,hw,?_⟩
  have ha := hw.allowed
  cases w with
  | slot c sc => rcases hm with hm | hm <;> simp [State.Allows, hm] at ha
  | linked c sc => exact .inr ⟨c,sc,rfl⟩
  | pooled a b => rcases hm with hm | hm <;> simp [State.Allows, hm] at ha
  | held c l =>
    have hheld := (hw.held c).mpr ⟨l,rfl⟩
    have hne := hu.2 c hheld
    rcases hm with hm | hm
    · exact absurd hm hne
    · simp only [State.Allows, hm] at ha
      cases hpc : st.pc c <;> simp [hpc, Pc.Grip] at ha
  | loose => exact .inl rfl

/-- A new epoch for a span that no other thread has in its hands. -/
theorem touches_mark (hk : st.Known s) (hfetch : pc.fetching = (st.pc c).fetching)
    (hbefore : (st.pc c).held = none ∨ (st.pc c).held = some s)
    (hafter : pc.held = none ∨ pc.held = some s)
    (hothers : ∀ c', c' ≠ c → (st.pc c').held ≠ some s) :
    Touches st ((st.setEpoch s e).goto c pc) c s :=
  touches_goto rfl rfl rfl hfetch hbefore hafter (fun _ _ _ _ => Iff.rfl) (fun _ _ _ _ => Iff.rfl)
    (fun _ hy => State.setEpoch_of_ne hy) (by simp) (by simp)
    (fun c' hc h => absurd h (hothers c' hc)) (known_or hk rfl)

/-- A thread takes a span that is in a deque or nowhere into its hands. -/
theorem Inv.hold (hi : Inv m st) (hu : st.Used s) (hat : st.At s w)
    (hw : w = .loose ∨ ∃ c sc, w = .linked c sc) (hheld : (st.pc c).held = none)
    (hpc : pc.held = some s) (hfetch : pc.fetching = (st.pc c).fetching) (hv : Valid e)
    (hgrip : pc.Grip (Epoch.mark e) w.link) (hfloat : Epoch.mark e ≠ .floating)
    (hknows : pc.Knows m ((st.setEpoch s e).goto c pc) c) :
    Inv m ((st.setEpoch s e).goto c pc) := by
  have hnot : ∀ c', c' ≠ c → (st.pc c').held ≠ some s := by
    intro c' _
    refine hat.not_held ?_
    rcases hw with rfl | ⟨_,_,rfl⟩ <;> simp
  have ht : Touches st ((st.setEpoch s e).goto c pc) c s :=
    touches_mark hu.1 hfetch (.inl hheld) (.inr hpc) hnot
  have hused : ((st.setEpoch s e).goto c pc).Used s := by
    refine ⟨hu.1,fun _ _ => ?_⟩
    simpa [State.mark] using hfloat
  refine hi.touch ht hi.arena (w := .held c w.link) ⟨?_,?_,?_,held_goto rfl hpc hnot _,?_,?_⟩
    (by simpa using hv) hi.nodup hi.poolNodup (fun _ => hused)
    (fun _ => by simpa using hi.owners s hu) (by rw [State.goto_pc_self]; exact hknows)
  · intro c' sc
    refine (hat.slot_goto rfl rfl hfetch c' sc).trans ?_
    rcases hw with rfl | ⟨_,_,rfl⟩ <;> simp
  · intro c' sc
    exact hat.deque c' sc
  · intro a b
    refine (hat.pool a b).trans ?_
    rcases hw with rfl | ⟨_,_,rfl⟩ <;> simp
  · rw [State.goto_spans, State.setEpoch_self]
    exact hat.link
  · simpa [State.Allows, State.mark] using hgrip

/-- `NewMarkFull` succeeds. -/
theorem Inv.markFull (hi : Inv m st) {f : FreeCall} (hpc : st.pc c = .markFull f)
    (hcas : newMarkFull (st.spans f.span).epoch f.epoch = some e) :
    Inv m ((st.setEpoch f.span e).goto c
      (if isReusable f.epoch then .remove f else .deleteSpan f)) := by
  have hknows := hi.knows c
  rw [hpc] at hknows
  obtain ⟨hf,hfr⟩ := hknows
  obtain ⟨k,mk,hk⟩ := hi.valid f.span
  obtain ⟨k',mk',hk'⟩ := hf.epoch
  rw [hk, hk', newMarkFull_encode] at hcas
  obtain ⟨⟨rfl,hmk⟩,rfl⟩ := hcas
  have hmark : st.mark f.span = mk := by rw [State.mark, hk, mark_encode]
  rw [hk'] at hfr ⊢
  have hkind : mk' = .floating ∨ mk' = .reusable := by
    cases mk' <;> simp [isFloatingOrReusable] at hfr ⊢
  have hsame : mk = mk' := by
    rw [hmk]
    rcases hkind with rfl | rfl <;> rfl
  subst hsame
  obtain ⟨w,hat,hw⟩ := hi.place_of_mark hf.used (by rw [hmark]; exact hkind)
  rw [isReusable_encode]
  rcases hkind with rfl | rfl
  · have hloose : w = .loose := by
      rcases hw with rfl | ⟨c',sc,rfl⟩
      · rfl
      · have ha := hat.allowed
        simp [State.Allows, hmark] at ha
    subst hloose
    exact hi.hold hf.used hat hw (by rw [hpc]; rfl) rfl (by rw [hpc]; rfl) ⟨_,_,rfl⟩
      (by simp [Pc.Grip, Place.link]) (by simp) trivial
  · exact hi.hold hf.used hat hw (by rw [hpc]; rfl) rfl (by rw [hpc]; rfl) ⟨_,_,rfl⟩
      (by simp [Pc.Grip]) (by simp) hf.owner

/-- `NewMarkHot` succeeds in `GetSpan` on a span that is in no deque. -/
theorem Inv.markHot (hi : Inv m st) {g : Fetch} {e' : Epoch} (hpc : st.pc c = .markHot g s e)
    (hcas : newMarkHot (st.spans s).epoch e = some e') (hout : ∀ c sc, s ∉ st.deque c sc) :
    Inv m ((st.setEpoch s e').goto c (.moveEmpty s (.hot g))) := by
  have hknows := hi.knows c
  rw [hpc] at hknows
  obtain ⟨hsc,hu,k',mk',rfl⟩ := hknows
  obtain ⟨k,mk,hk⟩ := hi.valid s
  rw [hk, newMarkHot_encode] at hcas
  obtain ⟨⟨rfl,hmk⟩,rfl⟩ := hcas
  have hmark : st.mark s = .floating ∨ st.mark s = .reusable := by
    rw [State.mark, hk, mark_encode, hmk]
    cases mk' <;> simp [Mark.keepReuse]
  obtain ⟨w,hat,hw⟩ := hi.place_of_mark hu hmark
  have hloose : w = .loose := by
    rcases hw with rfl | ⟨c',sc,rfl⟩
    · rfl
    · exact absurd ((hat.deque c' sc).mpr rfl) (hout c' sc)
  subst hloose
  exact hi.hold hu hat hw (by rw [hpc]; rfl) rfl (by rw [hpc]; rfl) ⟨_,_,rfl⟩
    (by simp [Pc.Grip, Place.link]) (by simp) hsc

/-- `NewMarkReuse` succeeds. -/
theorem Inv.markReuse (hi : Inv m st) {f : FreeCall} (hpc : st.pc c = .markReuse f)
    (hcas : newMarkReuse (st.spans f.span).epoch f.epoch = some e) :
    Inv m ((st.setEpoch f.span e).goto c (.pushFront f)) := by
  have hf : f.Known m st := by
    have hknows := hi.knows c
    rw [hpc] at hknows
    exact hknows
  obtain ⟨k,mk,hk⟩ := hi.valid f.span
  obtain ⟨k',mk',hk'⟩ := hf.epoch
  rw [hk, hk', newMarkReuse_encode] at hcas
  obtain ⟨⟨rfl,rfl⟩,rfl⟩ := hcas
  have hmark : st.mark f.span = .floating := by rw [State.mark, hk, mark_encode]
  obtain ⟨w,hat,hw⟩ := hi.place_of_mark hf.used (.inl hmark)
  have hloose : w = .loose := by
    rcases hw with rfl | ⟨c',sc,rfl⟩
    · rfl
    · have ha := hat.allowed
      simp [State.Allows, hmark] at ha
  subst hloose
  have hnot : ∀ c', c' ≠ c → (st.pc c').held ≠ some f.span := fun c' _ => hat.not_held (by simp)
  have hfetch : (Pc.pushFront f).fetching = (st.pc c).fetching := by rw [hpc]; rfl
  have ht : Touches st ((st.setEpoch f.span (encode (k + 1) .reusable)).goto c (.pushFront f)) c
      f.span := touches_mark hf.used.1 hfetch (.inl (by rw [hpc]; rfl)) (.inl rfl) hnot
  have hused : ((st.setEpoch f.span (encode (k + 1) .reusable)).goto c (.pushFront f)).Used
      f.span := by
    refine ⟨hf.used.1,fun _ _ => ?_⟩
    simp [State.mark]
  refine hi.touch ht hi.arena (w := .loose) ⟨?_,?_,?_,?_,?_,?_⟩ (by simpa using ⟨_,_,rfl⟩) hi.nodup
    hi.poolNodup (fun _ => hused) (fun _ => by simpa using hi.owners _ hf.used)
    (by rw [State.goto_pc_self]; exact ⟨hused,hf.epoch,hf.owner⟩)
  · intro c' sc
    exact hat.slot_goto rfl rfl hfetch c' sc
  · exact hat.deque
  · exact hat.pool
  · intro c'
    exact iff_of_false (not_held_goto rfl (by simp [Pc.held]) hnot c') (by simp)
  · rw [State.goto_spans, State.setEpoch_self]
    exact hat.link
  · simp [State.Allows, State.mark]

/-- A deque gains or loses the span `s`. -/
theorem touches_deque {a b : ℕ} {l : List ℕ} {link : Option (ℕ × ℕ)} (hk : st.Known s)
    (hl : ∀ y, y ≠ s → (y ∈ l ↔ y ∈ st.deque a b)) (hfetch : pc.fetching = (st.pc c).fetching)
    (hbefore : (st.pc c).held = none ∨ (st.pc c).held = some s)
    (hafter : pc.held = none ∨ pc.held = some s) :
    Touches st ((st.setDeque a b l s link).goto c pc) c s := by
  refine touches_goto rfl rfl rfl hfetch hbefore hafter ?_ (fun _ _ _ _ => Iff.rfl)
    (fun _ hy => State.setDeque_of_ne hy) (by simp) (by simp) (by simp) (known_or hk rfl)
  intro c' sc y hy
  rw [State.setDeque_deque, update₂_apply]
  split
  · next he =>
    rw [he.1, he.2]
    exact hl y hy
  · rfl

/-- `Remove` of a span that is in a deque. -/
theorem Inv.unlink (hi : Inv m st) {f : FreeCall} {a b : ℕ} (hpc : st.pc c = .remove f)
    (hlink : (st.spans f.span).link = some (a,b)) :
    Inv m ((st.setDeque a b ((st.deque a b).erase f.span) f.span none).goto c (.deleteSpan f)) := by
  have hheld : (st.pc c).held = some f.span := by rw [hpc]; rfl
  obtain ⟨hk,l,hat⟩ := hi.at_held hheld
  obtain rfl : l = some (a,b) := hat.link.symm.trans hlink
  have hfull : st.mark f.span = .full := by
    have ha := hat.allowed
    rwa [State.Allows, hpc] at ha
  have hfetch : (Pc.deleteSpan f).fetching = (st.pc c).fetching := by rw [hpc]; rfl
  have hused : ∀ st' : State, st'.Known f.span → (st'.spans f.span).epoch = (st.spans f.span).epoch →
      st'.Used f.span := by
    intro st' hk' he
    refine ⟨hk',fun _ _ => ?_⟩
    rw [State.mark, he, ← State.mark, hfull]
    simp
  have hu : st.Used f.span := hused st hk rfl
  have ht : Touches st ((st.setDeque a b ((st.deque a b).erase f.span) f.span none).goto c
      (.deleteSpan f)) c f.span :=
    touches_deque hk (fun y hy => List.mem_erase_of_ne hy) hfetch (.inr hheld) (.inr rfl)
  refine hi.touch ht hi.arena (w := .held c none) ⟨?_,?_,?_,held_goto rfl rfl hat.others _,?_,?_⟩
    (by simpa using hi.valid f.span) ?_ hi.poolNodup (fun _ => hused _ hk (by simp))
    (fun _ => by simpa using hi.owners _ hu) (by rw [State.goto_pc_self]; trivial)
  · intro c' sc
    refine (hat.slot_goto rfl rfl hfetch c' sc).trans ?_
    simp
  · intro c' sc
    simp only [State.goto_deque, State.setDeque_deque, update₂_apply, Place.link]
    split
    · simp [(hi.nodup a b).mem_erase_iff]
    · next hne =>
      rw [hat.deque]
      simp only [Place.link, Option.some_inj, Prod.mk.injEq, reduceCtorEq, iff_false]
      exact fun he => hne ⟨he.1.symm,he.2.symm⟩
  · intro x y
    refine (hat.pool x y).trans ?_
    simp
  · simp [Place.link]
  · simp [State.Allows, State.mark, Pc.Grip]
    exact hfull
  · intro c' sc
    simp only [State.goto_deque, State.setDeque_deque, update₂_apply]
    split
    · exact (hi.nodup a b).erase _
    · exact hi.nodup c' sc

/-- `PushFront` of a span that is still marked reusable and in no deque. -/
theorem Inv.pushFront (hi : Inv m st) {f : FreeCall} (hpc : st.pc c = .pushFront f)
    (hm : st.mark f.span = .reusable) (hout : ∀ c sc, f.span ∉ st.deque c sc) (a b : ℕ) :
    Inv m ((st.setDeque a b (f.span :: st.deque a b) f.span (some (a,b))).goto c .idle) := by
  have hf : f.Known m st := by
    have hknows := hi.knows c
    rw [hpc] at hknows
    exact hknows
  obtain ⟨w,hat,hw⟩ := hi.place_of_mark hf.used (.inr hm)
  have hloose : w = .loose := by
    rcases hw with rfl | ⟨c',sc,rfl⟩
    · rfl
    · exact absurd ((hat.deque c' sc).mpr rfl) (hout c' sc)
  subst hloose
  have hfetch : Pc.idle.fetching = (st.pc c).fetching := by rw [hpc]; rfl
  have hk := hf.used.1
  have hused : ((st.setDeque a b (f.span :: st.deque a b) f.span (some (a,b))).goto c .idle).Used
      f.span := by
    refine ⟨hk,fun _ _ => ?_⟩
    rw [State.mark, State.goto_spans, State.setDeque_self]
    change st.mark f.span ≠ _
    simp [hm]
  have hnot : ∀ c', c' ≠ c → (st.pc c').held ≠ some f.span := fun c' _ => hat.not_held (by simp)
  have ht : Touches st ((st.setDeque a b (f.span :: st.deque a b) f.span (some (a,b))).goto c
      .idle) c f.span :=
    touches_deque hk (fun y hy => by simp [hy]) hfetch (.inl (by rw [hpc]; rfl)) (.inl rfl)
  refine hi.touch ht hi.arena (w := .linked a b) ⟨?_,?_,?_,?_,?_,?_⟩
    (by simpa using hi.valid f.span) ?_ hi.poolNodup (fun _ => hused)
    (fun _ => by simpa using hi.owners _ hf.used) (by rw [State.goto_pc_self]; trivial)
  · intro c' sc
    refine (hat.slot_goto rfl rfl hfetch c' sc).trans ?_
    simp
  · intro c' sc
    simp only [State.goto_deque, State.setDeque_deque, update₂_apply, Place.link]
    split
    · next he => simp [he.1, he.2]
    · next hne =>
      refine iff_of_false (hout c' sc) fun he => hne ?_
      simp only [Option.some_inj, Prod.mk.injEq] at he
      exact ⟨he.1.symm,he.2.symm⟩
  · intro x y
    refine (hat.pool x y).trans ?_
    simp
  · intro c'
    exact iff_of_false (not_held_goto rfl (by simp [Pc.held]) hnot c') (by simp)
  · simp [Place.link]
  · rw [State.Allows, State.mark, State.goto_spans, State.setDeque_self]
    exact hm
  · intro c' sc
    simp only [State.goto_deque, State.setDeque_deque, update₂_apply]
    split
    · exact List.nodup_cons.mpr ⟨hout a b,hi.nodup a b⟩
    · exact hi.nodup c' sc

/-- Only before `Remove` a span in the hands of a thread is in a deque. -/
theorem Pc.Grip.unlinked {mk : Mark} {l : ℕ × ℕ} (h : pc.Grip mk (some l)) :
    mk = .full ∧ pc.Grip mk none := by
  cases pc <;> simp [Pc.Grip] at h ⊢
  exact h

/-- A span that leaves its deque is nowhere, or in the hands of the thread that deletes it. -/
theorem State.At.removed (hat : st.At s w) {a b : ℕ} {l : List ℕ} (hlink : w.link = some (a,b))
    (hl : s ∉ l) (hbefore : (st.pc c).held = none) (hafter : pc.held = none)
    (hfetch : pc.fetching = (st.pc c).fetching) :
    ∃ w', ((st.setDeque a b l s none).goto c pc).At s w' := by
  have hdeque : ∀ c' sc, s ∉ ((st.setDeque a b l s none).goto c pc).deque c' sc := by
    intro c' sc
    simp only [State.goto_deque, State.setDeque_deque, update₂_apply]
    split
    · exact hl
    · next hne =>
      rw [hat.deque, hlink, Option.some_inj, Prod.mk.injEq]
      exact fun he => hne ⟨he.1.symm,he.2.symm⟩
  have hheld : ∀ c', (((st.setDeque a b l s none).goto c pc).pc c').held = some s ↔
      (st.pc c').held = some s := by
    intro c'
    by_cases hc : c' = c
    · subst hc
      rw [State.goto_pc_self, hafter, hbefore]
    · rw [State.goto_pc_of_ne hc]
      rfl
  cases w with
  | slot c' sc => cases hlink
  | pooled x y => cases hlink
  | loose => cases hlink
  | linked c' sc =>
    refine ⟨.loose,?_,fun c' sc => iff_of_false (hdeque c' sc) (by simp [Place.link]),?_,?_,
      by simp [Place.link],?_⟩
    · intro c' sc
      refine (hat.slot_goto rfl rfl hfetch c' sc).trans ?_
      simp
    · intro x y
      refine (hat.pool x y).trans ?_
      simp
    · intro c'
      rw [hheld, hat.held]
      simp
    · rw [State.Allows, State.mark, State.goto_spans, State.setDeque_self]
      exact .inr hat.allowed
  | held c₀ l' =>
    obtain rfl : l' = _ := hlink
    have hne : c₀ ≠ c := by
      rintro rfl
      have hh := (hat.held c₀).mpr ⟨_,rfl⟩
      rw [hbefore] at hh
      cases hh
    refine ⟨.held c₀ none,?_,fun c' sc => iff_of_false (hdeque c' sc) (by simp [Place.link]),?_,?_,
      by simp [Place.link],?_⟩
    · intro c' sc
      refine (hat.slot_goto rfl rfl hfetch c' sc).trans ?_
      simp
    · intro x y
      refine (hat.pool x y).trans ?_
      simp
    · intro c'
      rw [hheld, hat.held]
      simp
    · rw [State.Allows, State.mark, State.goto_spans, State.setDeque_self, State.goto_pc_of_ne hne]
      exact (Pc.Grip.unlinked hat.allowed).2

/-- `RemoveBack` takes a span out of the deque. -/
theorem Inv.removeBack (hi : Inv m st) {g : Fetch} (hpc : st.pc c = .removeBack g)
    (hlast : (st.deque c g.sizeClass).getLast? = some s) :
    Inv m ((st.setDeque c g.sizeClass (st.deque c g.sizeClass).dropLast s none).goto c
      (.takeEpoch g s)) := by
  obtain ⟨l,hl⟩ := List.getLast?_eq_some_iff.mp hlast
  have hn := hi.nodup c g.sizeClass
  rw [hl] at hn
  have hsl : s ∉ l := fun hm => (List.nodup_append.mp hn).2.2 s hm s (by simp) rfl
  rw [hl, List.dropLast_concat]
  have hmem : s ∈ st.deque c g.sizeClass := by
    rw [hl]
    simp
  have hk : st.Known s := by
    by_contra hk
    exact (hi.absent s hk).2.1 _ _ hmem
  obtain ⟨w,hat⟩ := hi.placed s hk
  have hlink := (hat.deque _ _).mp hmem
  have hfetch : (Pc.takeEpoch g s).fetching = (st.pc c).fetching := by rw [hpc]; rfl
  have hheld : (st.pc c).held = none := by rw [hpc]; rfl
  have hsc : IsObjectClass g.sizeClass := by
    have hknows := hi.knows c
    rwa [hpc] at hknows
  have hu : st.Used s := by
    refine ⟨hk,fun c' hheld => ?_⟩
    obtain ⟨l',rfl⟩ := (hat.held c').mp hheld
    obtain rfl : l' = _ := hlink
    rw [(Pc.Grip.unlinked hat.allowed).1]
    simp
  have hused : ((st.setDeque c g.sizeClass l s none).goto c (.takeEpoch g s)).Used s := by
    refine ⟨hk,fun c' hheld => ?_⟩
    rw [State.mark, State.goto_spans, State.setDeque_self]
    by_cases hc : c' = c
    · subst hc
      rw [State.goto_pc_self] at hheld
      cases hheld
    · rw [State.goto_pc_of_ne hc] at hheld
      exact hu.2 c' hheld
  have ht : Touches st ((st.setDeque c g.sizeClass l s none).goto c (.takeEpoch g s)) c s :=
    touches_deque hk (fun y hy => by simp [hl, hy]) hfetch (.inl hheld) (.inl rfl)
  have hnodup : ∀ c' sc, (((st.setDeque c g.sizeClass l s none).goto c
      (.takeEpoch g s)).deque c' sc).Nodup := by
    intro c' sc
    simp only [State.goto_deque, State.setDeque_deque, update₂_apply]
    split
    · exact (List.nodup_append.mp hn).1
    · exact hi.nodup c' sc
  obtain ⟨w',hw'⟩ := hat.removed hlink hsl hheld rfl hfetch
  exact hi.touch ht hi.arena hw' (by simpa using hi.valid s) hnodup hi.poolNodup (fun _ => hused)
    (fun _ => by simpa using hi.owners s hu) (by rw [State.goto_pc_self]; exact ⟨hsc,hused⟩)

end Scalloc.Stepwise
