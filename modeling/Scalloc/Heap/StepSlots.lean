import Scalloc.Heap.StepMoves
import Scalloc.Heap.Labels

/-! # Spans enter and leave the pool and the slots -/
namespace Scalloc.Stepwise
open Epoch Transition

variable {m : Machine} {st : State} {c s sc : ℕ} {w : Place} {pc : Pc} {e : Epoch}

/-- A stack of the pool gains or loses the span `s`. -/
theorem touches_pool {a b : ℕ} {l : List ℕ} (hk : st.Known s)
    (hl : ∀ y, y ≠ s → (y ∈ l ↔ y ∈ st.pool.spans a b)) (hfetch : pc.fetching = (st.pc c).fetching)
    (hbefore : (st.pc c).held = none ∨ (st.pc c).held = some s)
    (hafter : pc.held = none ∨ pc.held = some s) :
    Touches st ({ st with pool := st.pool.setStack a b l }.goto c pc) c s := by
  refine touches_goto rfl rfl rfl hfetch hbefore hafter (fun _ _ _ _ => Iff.rfl) ?_
    (fun _ _ => rfl) rfl ⟨rfl,rfl⟩ (fun _ _ _ => rfl) (known_or hk rfl)
  intro a' b' y hy
  rw [SpanPool.spans_setStack, update₂_apply]
  split
  · next he =>
    rw [he.1, he.2]
    exact hl y hy
  · rfl

/-- `Push` of a deleted span. -/
theorem Inv.poolPush (hi : Inv m st) {id : ℕ} (hpc : st.pc c = .poolPush s sc id) (a b : ℕ) :
    Inv m ({ st with pool := st.pool.push a b s }.goto c .idle) := by
  obtain ⟨hk,l,hat⟩ := hi.at_held (c := c) (s := s) (by rw [hpc]; rfl)
  obtain ⟨hfull,rfl⟩ : st.mark s = .full ∧ l = none := by
    have ha := hat.allowed
    rwa [State.Allows, hpc] at ha
  have hfloat : st.mark s ≠ .floating := by simp [hfull]
  have hspans : (st.pool.push a b s).spans = update₂ st.pool.spans a b (s :: st.pool.spans a b) :=
    SpanPool.spans_setStack _ _ _ _
  have hfetch : Pc.idle.fetching = (st.pc c).fetching := by rw [hpc]; rfl
  have hnot : ∀ x y, s ∉ st.pool.spans x y := by
    intro x y hm
    cases (hat.pool x y).mp hm
  have ht : Touches st ({ st with pool := st.pool.push a b s }.goto c .idle) c s :=
    touches_pool hk (fun y hy => by simp [hy]) hfetch (.inr (by rw [hpc]; rfl)) (.inl rfl)
  refine hi.touch ht hi.arena (w := .pooled a b) ⟨?_,?_,?_,?_,hat.link,hfull⟩ (hi.valid s)
    hi.nodup ?_ (fun _ => ⟨hk,fun _ _ => hfloat⟩) (fun _ => hi.owners s ⟨hk,fun _ _ => hfloat⟩)
    (by rw [State.goto_pc_self]; trivial)
  · intro c' sc
    refine (hat.slot_goto rfl rfl hfetch c' sc).trans ?_
    simp
  · intro c' sc
    exact (hat.deque c' sc).trans (by simp [Place.link])
  · intro x y
    change s ∈ (st.pool.push a b s).spans x y ↔ _
    rw [hspans, update₂_apply]
    split
    · next he => simp [he.1, he.2]
    · next hne =>
      refine iff_of_false (hnot x y) fun he => hne ?_
      simp only [Place.pooled.injEq] at he
      exact ⟨he.1.symm,he.2.symm⟩
  · intro c'
    exact iff_of_false (not_held_goto rfl (by simp [Pc.held]) hat.others c') (by simp)
  · intro x y
    change ((st.pool.push a b s).spans x y).Nodup
    rw [hspans, update₂_apply]
    split
    · exact List.nodup_cons.mpr ⟨hnot a b,hi.poolNodup a b⟩
    · exact hi.poolNodup x y

/-- `Pop` of a span for a call of `GetSpan`. -/
theorem Inv.poolPop (hi : Inv m st) {g : Fetch} {rest : List (ℕ × ℕ)} {a b : ℕ} {pool : SpanPool}
    (hpc : st.pc c = .probe g rest) (hpop : st.pool.pop a b = some (s,pool)) :
    Inv m ({ st with pool := pool }.goto c (.newLink g s)) := by
  obtain ⟨l,hl,rfl⟩ : ∃ l, st.pool.spans a b = s :: l ∧ pool = st.pool.setStack a b l := by
    unfold SpanPool.pop at hpop
    split at hpop
    · cases hpop
    · next x l hl =>
      obtain ⟨rfl,rfl⟩ := Prod.mk.inj (Option.some.inj hpop)
      exact ⟨l,hl,rfl⟩
  have hmem : s ∈ st.pool.spans a b := by
    rw [hl]
    exact List.mem_cons_self
  have hk : st.Known s := by
    by_contra hk
    exact (hi.absent s hk).2.2.1 a b hmem
  obtain ⟨w,hat⟩ := hi.placed s hk
  obtain rfl := (hat.pool a b).mp hmem
  have hfull : st.mark s = .full := hat.allowed
  have hfloat : st.mark s ≠ .floating := by simp [hfull]
  have hn := hi.poolNodup a b
  rw [hl, List.nodup_cons] at hn
  have hfetch : (Pc.newLink g s).fetching = (st.pc c).fetching := by rw [hpc]; rfl
  have hnot : ∀ c', c' ≠ c → (st.pc c').held ≠ some s := fun c' _ => hat.not_held (by simp)
  have hsc : IsObjectClass g.sizeClass := by
    have hknows := hi.knows c
    rwa [hpc] at hknows
  have ht : Touches st ({ st with pool := st.pool.setStack a b l }.goto c (.newLink g s)) c s :=
    touches_pool hk (fun y hy => by simp [hl, hy]) hfetch (.inl (by rw [hpc]; rfl)) (.inr rfl)
  refine hi.touch ht hi.arena (w := .held c none) ⟨?_,?_,?_,held_goto rfl rfl hnot _,hat.link,?_⟩
    (hi.valid s) hi.nodup ?_ (fun _ => ⟨hk,fun _ _ => hfloat⟩)
    (fun _ => hi.owners s ⟨hk,fun _ _ => hfloat⟩) (by rw [State.goto_pc_self]; exact hsc)
  · intro c' sc
    refine (hat.slot_goto rfl rfl hfetch c' sc).trans ?_
    simp
  · intro c' sc
    exact (hat.deque c' sc).trans (by simp [Place.link])
  · intro x y
    rw [State.goto_pool, SpanPool.spans_setStack, update₂_apply]
    refine iff_of_false ?_ (by simp)
    split
    · exact hn.1
    · next hne =>
      rw [hat.pool]
      exact fun he => hne (by cases he; exact ⟨rfl,rfl⟩)
  · rw [State.Allows, State.goto_pc_self]
    exact ⟨.inl hfull,rfl⟩
  · intro x y
    rw [State.goto_pool, SpanPool.spans_setStack, update₂_apply]
    split
    · exact hn.2
    · exact hi.poolNodup x y

/-- A span from the arena for a call of `GetSpan`. -/
theorem Inv.fresh (hi : Inv m st) {g : Fetch} {arena : Arena} {rest : List (ℕ × ℕ)}
    (hpc : st.pc c = .probe g rest)
    (halloc : st.arena.allocateVirtualSpan = some (s,arena)) :
    Inv m ({ st with arena := arena }.goto c (.newLink g s)) := by
  obtain ⟨harena,hs,hknown⟩ := hi.arena.extend halloc
  have hnk : ¬ st.Known s := fun hk => absurd hk.2.1 (by rw [hs]; exact lt_irrefl _)
  obtain ⟨h1,h2,h3,h4,h5⟩ := hi.absent s hnk
  have hs0 : s ≠ 0 := by
    have := hi.arena.start_pos
    have := hi.arena.start_le
    omega
  have hfetch : (Pc.newLink g s).fetching = (st.pc c).fetching := by rw [hpc]; rfl
  have hslot : ∀ c' sc, ({ st with arena := arena }.goto c (.newLink g s)).slot c' sc =
      st.slot c' sc := slot_goto rfl rfl hfetch
  have hmark : st.mark s = .floating := by
    rw [State.mark, h5]
    decide
  have hsc : IsObjectClass g.sizeClass := by
    have hknows := hi.knows c
    rwa [hpc] at hknows
  have ht : Touches st ({ st with arena := arena }.goto c (.newLink g s)) c s :=
    touches_goto rfl rfl rfl hfetch (.inl (by rw [hpc]; rfl)) (.inr rfl) (fun _ _ _ _ => Iff.rfl)
      (fun _ _ _ _ => Iff.rfl) (fun _ _ => rfl) rfl ⟨rfl,rfl⟩ (fun _ _ _ => rfl) hknown
  refine hi.touch ht harena (w := .held c none)
    ⟨?_,?_,?_,held_goto rfl rfl (fun c' _ => h4 c') _,?_,?_⟩ (hi.valid s) hi.nodup
    hi.poolNodup (fun hu => absurd hu.1 hnk) ?_ (by rw [State.goto_pc_self]; exact hsc)
  · intro c' sc
    rw [hslot]
    exact iff_of_false (fun he => hs0 (h1 c' sc he)) (by simp)
  · intro c' sc
    exact iff_of_false (h2 c' sc) (by simp [Place.link])
  · intro x y
    exact iff_of_false (h3 x y) (by simp)
  · rw [State.goto_spans]
    change (st.spans s).link = none
    rw [h5]
    rfl
  · rw [State.Allows, State.goto_pc_self]
    exact ⟨.inr hmark,rfl⟩
  · intro hu
    have hheld : (({ st with arena := arena }.goto c (.newLink g s)).pc c).held = some s := by
      rw [State.goto_pc_self]
      rfl
    exact absurd hmark (hu.2 c hheld)

theorem valid_newMarkFloating (e : Epoch) :
    Valid (newMarkFloating e) ∧ Epoch.mark (newMarkFloating e) = .floating := by
  have he : newMarkFloating e = encode (counter e) .floating := by
    rw [newMarkFloating, and_onlyValues]
    exact (BitVec.or_zero).symm
  rw [he, mark_encode]
  exact ⟨⟨_,_,rfl⟩,rfl⟩

/-- The place of the hot span of a thread outside `GetSpan`. -/
theorem Inv.at_slot (hi : Inv m st) (hfetch : (st.pc c).fetching = none) (hne : st.hot c sc ≠ 0) :
    st.Known (st.hot c sc) ∧ st.At (st.hot c sc) (.slot c sc) := by
  have hslot : st.slot c sc = st.hot c sc := by
    rw [State.slot, hfetch]
    rfl
  have hk : st.Known (st.hot c sc) := by
    by_contra hk
    exact hne ((hi.absent _ hk).1 c sc hslot)
  obtain ⟨w,hat⟩ := hi.placed _ hk
  obtain rfl := (hat.slot c sc).mp hslot
  exact ⟨hk,hat⟩

/-- The store of `NewMarkFloating`. -/
theorem Inv.floatingStore (hi : Inv m st) (hpc : st.pc c = .floatingStore sc e) :
    Inv m ((st.setEpoch (st.hot c sc) (newMarkFloating e)).goto c (.removeBack ⟨sc,false⟩)) := by
  have hknows := hi.knows c
  rw [hpc] at hknows
  obtain ⟨hsc,hne⟩ := hknows
  have hfetch : (st.pc c).fetching = none := by rw [hpc]; rfl
  obtain ⟨hk,hat⟩ := hi.at_slot hfetch hne
  obtain ⟨hv,hfloat⟩ := valid_newMarkFloating e
  obtain ⟨s,hs⟩ : ∃ s, s = st.hot c sc := ⟨_,rfl⟩
  rw [← hs] at hk hat hne ⊢
  have hnot : ∀ c', (st.pc c').held ≠ some s := fun _ => hat.not_held (by simp)
  have hbefore : ∀ sc', st.slot c sc' = st.hot c sc' := by
    intro sc'
    rw [State.slot, hfetch]
    rfl
  have hslot : ∀ sc', ((st.setEpoch s (newMarkFloating e)).goto c (.removeBack ⟨sc,false⟩)).slot c
      sc' = if sc' = sc then 0 else st.slot c sc' := by
    intro sc'
    rw [State.slot_goto_self, hbefore]
    simp only [Pc.fetching, Option.some_inj, eq_comm]
    rfl
  have hslots : ∀ sc' y, y ≠ s → y ≠ 0 → (((st.setEpoch s (newMarkFloating e)).goto c
      (.removeBack ⟨sc,false⟩)).slot c sc' = y ↔ st.slot c sc' = y) := by
    intro sc' y hy hy0
    rw [hslot]
    split
    · next he =>
      subst he
      rw [hbefore, ← hs]
      exact iff_of_false (Ne.symm hy0) (Ne.symm hy)
    · rfl
  have ht : Touches st ((st.setEpoch s (newMarkFloating e)).goto c (.removeBack ⟨sc,false⟩)) c s := by
    refine ⟨fun c' hc => State.goto_pc_of_ne hc,fun _ _ => rfl,hslots,fun _ _ _ _ => Iff.rfl,
      fun _ _ _ _ => Iff.rfl,fun y hy => State.setEpoch_of_ne hy,by simp,by simp,?_,?_,
      fun c' _ h => absurd h (hnot c'),known_or hk rfl,rfl⟩
    · exact Pc.eq_of_held (.inl (by rw [hpc]; rfl))
    · rw [State.goto_pc_self]
      exact Pc.eq_of_held (.inl rfl)
  have hheld : ∀ c', (((st.setEpoch s (newMarkFloating e)).goto c (.removeBack ⟨sc,false⟩)).pc
      c').held ≠ some s := not_held_goto rfl (by simp [Pc.held]) fun c' _ => hnot c'
  refine hi.touch ht hi.arena (w := .loose) ⟨?_,?_,?_,?_,?_,?_⟩ (by simpa using hv) hi.nodup
    hi.poolNodup (fun _ => ⟨hk,fun c' hc => absurd hc (hheld c')⟩)
    (fun _ => by simpa using hi.owners s ⟨hk,fun c' hc => absurd hc (hnot c')⟩)
    (by rw [State.goto_pc_self]; exact hsc)
  · intro c' sc'
    refine iff_of_false ?_ (by simp)
    by_cases hc : c' = c
    · subst hc
      rw [hslot]
      split
      · exact Ne.symm hne
      · next hsc' =>
        rw [hat.slot]
        simp [Ne.symm hsc']
    · rw [State.slot_congr (State.goto_pc_of_ne hc) (fun _ => rfl)]
      change ¬ st.slot c' sc' = s
      rw [hat.slot]
      simp [Ne.symm hc]
  · intro c' sc'
    exact (hat.deque c' sc').trans (by simp [Place.link])
  · intro x y
    exact (hat.pool x y).trans (by simp)
  · intro c'
    exact iff_of_false (hheld c') (by simp)
  · rw [State.goto_spans, State.setEpoch_self]
    exact hat.link
  · simp [State.Allows, State.mark, hfloat]

/-- The end of the constructor: the span is hot, or it keeps the mark it had in the pool. -/
theorem Inv.constructed (hi : Inv m st) {g : Fetch} {e' : Epoch} (hpc : st.pc c = .newMark g s e)
    (hv : Valid e') (hmark : Epoch.mark e' = .hot ∨ Epoch.mark e' = .full) :
    Inv m ((st.setEpoch s e').goto c (.setHot g s)) := by
  have hknows := hi.knows c
  rw [hpc] at hknows
  obtain ⟨hsc,howner,_⟩ := hknows
  obtain ⟨hk,l,hat⟩ := hi.at_held (c := c) (s := s) (by rw [hpc]; rfl)
  obtain ⟨_,rfl⟩ : (st.mark s = .full ∨ st.mark s = .floating) ∧ l = none := by
    have ha := hat.allowed
    rwa [State.Allows, hpc] at ha
  have hfetch : (Pc.setHot g s).fetching = (st.pc c).fetching := by rw [hpc]; rfl
  have hused : ((st.setEpoch s e').goto c (.setHot g s)).Used s := by
    refine ⟨hk,fun _ _ => ?_⟩
    rw [State.mark, State.goto_spans, State.setEpoch_self]
    rcases hmark with hm | hm <;> simp [hm]
  have ht : Touches st ((st.setEpoch s e').goto c (.setHot g s)) c s :=
    touches_mark hk hfetch (.inr (by rw [hpc]; rfl)) (.inr rfl) hat.others
  refine hi.touch ht hi.arena (w := .held c none) ⟨hat.slot_goto rfl rfl hfetch,hat.deque,hat.pool,
    held_goto rfl rfl hat.others _,?_,?_⟩ (by simpa using hv) hi.nodup hi.poolNodup
    (fun _ => hused) (fun _ => by simpa using howner) (by rw [State.goto_pc_self]; exact hsc)
  · rw [State.goto_spans, State.setEpoch_self]
    exact hat.link
  · rw [State.Allows, State.goto_pc_self]
    simpa [State.mark, Pc.Grip] using hmark

/-- The store of the result of `GetSpan`. -/
theorem Inv.setHot (hi : Inv m st) {g : Fetch} (hpc : st.pc c = .setHot g s)
    (hheld : pc.held = none) (hfetch : pc.fetching = none)
    (hknows : ∀ st' : State, st'.hot c g.sizeClass ≠ 0 → pc.Knows m st' c) :
    Inv m ({ st with hot := update₂ st.hot c g.sizeClass s }.goto c pc) := by
  obtain ⟨hk,l,hat⟩ := hi.at_held (c := c) (s := s) (by rw [hpc]; rfl)
  obtain ⟨hmark,rfl⟩ : (st.mark s = .hot ∨ st.mark s = .full) ∧ l = none := by
    have ha := hat.allowed
    rwa [State.Allows, hpc] at ha
  have hs0 := hi.ne_zero hk
  have hfloat : st.mark s ≠ .floating := by
    rcases hmark with hm | hm <;> simp [hm]
  have hbefore : ∀ sc, st.slot c sc = if sc = g.sizeClass then 0 else st.hot c sc := by
    intro sc
    rw [State.slot, hpc]
    simp only [Pc.fetching, Option.some_inj, eq_comm]
  have hslot : ∀ sc, ({ st with hot := update₂ st.hot c g.sizeClass s }.goto c pc).slot c sc =
      if sc = g.sizeClass then s else st.slot c sc := by
    intro sc
    rw [State.slot_goto_self, hfetch, hbefore]
    change update₂ st.hot c g.sizeClass s c sc = _
    rw [update₂_apply]
    by_cases hsc : sc = g.sizeClass <;> simp [hsc]
  have hothers : ∀ c', c' ≠ c → ∀ sc, ({ st with hot := update₂ st.hot c g.sizeClass s }.goto c
      pc).slot c' sc = st.slot c' sc := by
    intro c' hc sc
    have hsame : ({ st with hot := update₂ st.hot c g.sizeClass s }.goto c pc).pc c' = st.pc c' :=
      State.goto_pc_of_ne hc
    refine State.slot_congr hsame (fun sc => ?_) sc
    change update₂ st.hot c g.sizeClass s c' sc = _
    rw [update₂_apply, if_neg fun he => hc he.1]
  have ht : Touches st ({ st with hot := update₂ st.hot c g.sizeClass s }.goto c pc) c s := by
    refine ⟨fun c' hc => State.goto_pc_of_ne hc,?_,?_,fun _ _ _ _ => Iff.rfl,fun _ _ _ _ => Iff.rfl,
      fun _ _ => rfl,rfl,⟨rfl,rfl⟩,?_,?_,fun _ _ _ => rfl,known_or hk rfl,rfl⟩
    · intro c' hc
      funext sc
      change update₂ st.hot c g.sizeClass s c' sc = _
      rw [update₂_apply, if_neg fun he => hc he.1]
    · intro sc y hy hy0
      rw [hslot]
      split
      · next he =>
        rw [hbefore, if_pos he]
        exact iff_of_false (Ne.symm hy) (Ne.symm hy0)
      · rfl
    · exact Pc.eq_of_held (.inr (by rw [hpc]; rfl))
    · rw [State.goto_pc_self]
      exact Pc.eq_of_held (.inl hheld)
  refine hi.touch ht hi.arena (w := .slot c g.sizeClass) ⟨?_,?_,?_,?_,hat.link,hmark⟩ (hi.valid s)
    hi.nodup hi.poolNodup (fun _ => ⟨hk,fun _ _ => hfloat⟩)
    (fun _ => hi.owners s ⟨hk,fun _ _ => hfloat⟩) ?_
  · intro c' sc
    by_cases hc : c' = c
    · subst hc
      rw [hslot]
      split
      · next he => simp [he]
      · next hne =>
        rw [hat.slot]
        simp [Ne.symm hne]
    · rw [hothers c' hc, hat.slot]
      simp [Ne.symm hc]
  · intro c' sc
    exact (hat.deque c' sc).trans (by simp [Place.link])
  · intro x y
    exact (hat.pool x y).trans (by simp)
  · intro c'
    exact iff_of_false (not_held_goto rfl (by simp [hheld]) hat.others c') (by simp)
  · rw [State.goto_pc_self]
    refine hknows _ ?_
    change update₂ st.hot c g.sizeClass s c g.sizeClass ≠ 0
    simpa using hs0

/-- `Remove` of a span that is in no deque. -/
theorem Inv.unlinked (hi : Inv m st) {f : FreeCall} (hpc : st.pc c = .remove f)
    (hlink : (st.spans f.span).link = none) : Inv m (st.goto c (.deleteSpan f)) := by
  obtain ⟨hk,l,hat⟩ := hi.at_held (c := c) (s := f.span) (by rw [hpc]; rfl)
  obtain rfl : l = none := hat.link.symm.trans hlink
  have hfull : st.mark f.span = .full := by
    have ha := hat.allowed
    rwa [State.Allows, hpc] at ha
  have hfloat : st.mark f.span ≠ .floating := by simp [hfull]
  have hfetch : (Pc.deleteSpan f).fetching = (st.pc c).fetching := by rw [hpc]; rfl
  have ht : Touches st (st.goto c (.deleteSpan f)) c f.span :=
    touches_goto rfl rfl rfl hfetch (.inr (by rw [hpc]; rfl)) (.inr rfl) (fun _ _ _ _ => Iff.rfl)
      (fun _ _ _ _ => Iff.rfl) (fun _ _ => rfl) rfl ⟨rfl,rfl⟩ (fun _ _ _ => rfl) (known_or hk rfl)
  refine hi.touch ht hi.arena (w := .held c none) ⟨hat.slot_goto rfl rfl hfetch,hat.deque,hat.pool,
    held_goto rfl rfl hat.others _,hat.link,?_⟩ (hi.valid _) hi.nodup hi.poolNodup
    (fun _ => ⟨hk,fun _ _ => hfloat⟩) (fun _ => hi.owners _ ⟨hk,fun _ _ => hfloat⟩)
    (by rw [State.goto_pc_self]; trivial)
  · rw [State.Allows, State.goto_pc_self]
    exact ⟨hfull,rfl⟩

end Scalloc.Stepwise
