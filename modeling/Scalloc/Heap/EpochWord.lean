import Scalloc.Heap.Integrity

/-! # The epoch word tells where a span is

The constructor of a recycled span asks `NewMarkHot` to mark it hot, but the mask of
that operation removes the full bit that the span brings along from the pool, so the
exchange fails and the word stays full. Runs that never recycle a span, and that never
give a new thread the id of an exited one, keep word and place in agreement.
-/
namespace Scalloc
open ByteMemory Epoch Transition

namespace Board
variable {percent : ℕ} {B B' : Board} {c sc s x : ℕ} {id : CoreId}

/-- Hot spans are marked hot, and a reusable span is linked unless its owner is gone. -/
structure Exact (B : Board) : Prop where
  hot : ∀ s, B.known s → B.IsHot s → (B.card s).mark = .hot
  reusable : ∀ s, B.known s → (B.card s).mark = .reusable →
    (B.card s).link ≠ none ∨ B.Gone (B.card s).owner

theorem At.isHot_iff {w : Place} (hat : B.At percent s w) : B.IsHot s ↔ ∃ c sc, w = .hot c sc := by
  simp only [IsHot, hat.hot]

/-- A move that keeps ids and all spans but `s`. -/
theorem Exact.ofMove (he : Exact B) (hids : B'.ids = B.ids)
    (hknown : ∀ x, B'.known x → x ≠ s → B.known x)
    (hcard : ∀ x, x ≠ s → B'.card x = B.card x)
    (hhot : ∀ x, x ≠ s → B'.known x → B'.IsHot x → B.IsHot x)
    (hs : (B'.IsHot s → (B'.card s).mark = .hot) ∧ ((B'.card s).mark = .reusable →
      (B'.card s).link ≠ none ∨ B'.Gone (B'.card s).owner)) : Exact B' where
  hot := by
    intro x hk hx
    by_cases hxs : x = s
    · subst hxs
      exact hs.1 hx
    · rw [hcard x hxs]
      exact he.hot x (hknown x hk hxs) (hhot x hxs hk hx)
  reusable := by
    intro x hk hx
    by_cases hxs : x = s
    · subst hxs
      exact hs.2 hx
    · have hgone : ∀ owner, B'.Gone owner ↔ B.Gone owner := fun owner => by simp only [Gone, hids]
      rw [hcard x hxs] at hx ⊢
      rw [hgone]
      exact he.reusable x (hknown x hk hxs) hx

theorem Exact.setFree (he : Exact B) (f : ℤ) : Exact (B.setFree s f) := by
  have hcard : ∀ x, ((B.setFree s f).card x).mark = (B.card x).mark ∧
      ((B.setFree s f).card x).link = (B.card x).link ∧
      ((B.setFree s f).card x).owner = (B.card x).owner := by
    intro x
    by_cases hx : x = s <;> simp [Board.setFree, setCard, hx]
  constructor
  · intro x hk hx
    rw [(hcard x).1]
    exact he.hot x hk hx
  · intro x hk hx
    rw [(hcard x).1] at hx
    rw [(hcard x).2.1, (hcard x).2.2]
    exact he.reusable x hk hx

theorem Exact.retire (h : Inv percent B) (he : Exact B) (hne : B.hot c sc ≠ 0) :
    Exact (B.retire c sc) := by
  have hi := h.retire hne
  have hmark : ((B.retire c sc).card (B.hot c sc)).mark = .floating := by
    simp [Board.retire, setCard]
  refine he.ofMove (s := B.hot c sc) rfl (fun _ hk _ => hk) ?_ ?_ ⟨?_,?_⟩
  · intro x hx
    simp [Board.retire, setCard, hx]
  · rintro x _ hk ⟨c',sc',hx⟩
    have hx0 := hi.ne_zero hk
    by_cases hcc : c' = c ∧ sc' = sc
    · simp [Board.retire, hcc] at hx
      exact absurd hx.symm hx0
    · exact ⟨c',sc',by simpa [Board.retire, hcc] using hx⟩
  · intro hhot
    obtain ⟨w,hw⟩ := hi.placed _ (by exact h.known_of_hot hne)
    obtain ⟨c',sc',rfl⟩ := hw.isHot_iff.mp hhot
    have hm := hw.allowed.2.2.2
    rw [hmark] at hm
    simp at hm
  · intro hm
    rw [hmark] at hm
    simp at hm

/-- A fetch that does not recycle a span. -/
theorem Exact.fetches (he : Exact B) (hf : B.Fetches c sc s B')
    (hpool : (B.deque c sc).nodes = [] → ∀ x, ¬ B.Pooled x) : Exact B' := by
  have hhot : ∀ B'' : Board, B''.hot = update₂ B.hot c sc s → ∀ x, x ≠ s → B''.IsHot x →
      B.IsHot x := by
    rintro B'' hB x hx ⟨c',sc',hslot⟩
    rw [hB, update₂_apply] at hslot
    split at hslot
    · exact absurd hslot.symm hx
    · exact ⟨c',sc',hslot⟩
  cases hf with
  | reuse hl =>
    have hmark : ((B.reuse c sc s).card s).mark = .hot := by simp [Board.reuse, setCard]
    refine he.ofMove (s := s) rfl (fun _ hk _ => hk) ?_ (fun x hx _ => hhot _ rfl x hx)
      ⟨fun _ => hmark,fun hm => ?_⟩
    · intro x hx
      simp [Board.reuse, setCard, hx]
    · rw [hmark] at hm
      simp at hm
  | fresh hl hs hk =>
    have hmark : ((B.adopt c sc s .hot B.pool).card s).mark = .hot := by simp [Board.adopt]
    refine he.ofMove (s := s) rfl (fun x hk hx => hk.resolve_left hx) ?_
      (fun x hx _ => hhot _ rfl x hx) ⟨fun _ => hmark,fun hm => ?_⟩
    · intro x hx
      simp [Board.adopt, hx]
    · rw [hmark] at hm
      simp at hm
  | @recycled a b rest hl hp => exact absurd ⟨a,b,by simp [hp]⟩ (hpool hl s)

theorem Exact.serves (h : Inv percent B) (he : Exact B) (hs : B.Serves percent c sc B')
    (hpool : (B.hot c sc = 0 ∨ (B.card (B.hot c sc)).free ≤ classToReuseThreshold percent sc) →
      (B.deque c sc).nodes = [] → ∀ x, ¬ B.Pooled x) : Exact B' := by
  cases hs with
  | direct hne => exact he.setFree _
  | first h0 hf => exact (he.fetches hf (hpool (.inl h0))).setFree _
  | next hne ht hf =>
    exact ((he.retire h hne).fetches hf (by exact hpool (.inr ht))).setFree _

/-- A free of an object of a hot span only counts it. -/
theorem Settled.of_hot {old : Mark} {a b : ℕ} {w' : Place}
    (h : Settled percent B old s a b (.hot c sc) B' w') (hold : old ≠ .floating) : B' = B := by
  cases h with
  | hot _ => rfl
  | pooled _ hplace _ => simp at hplace
  | linked hf _ _ => exact absurd hf hold
  | kept _ _ _ => rfl

/-- A span that is unplaced after a free was so before it. -/
theorem Settled.of_loose {old : Mark} {a b : ℕ} {w w' : Place}
    (h : Settled percent B old s a b w B' w') (hw : w' = .loose) : B' = B ∧ w = .loose := by
  cases h with
  | hot _ => exact ⟨rfl,hw⟩
  | pooled _ _ _ => simp at hw
  | linked _ _ _ => simp at hw
  | kept _ _ _ => exact ⟨rfl,hw⟩

theorem Exact.freed {a b : ℕ} {w : Place} (h : Inv percent B) (he : Exact B) (hk : B.known s)
    (hat : B.At percent s w) (hw : ∀ a b, w ≠ .pooled a b) (hid : ¬ B.Gone id) :
    Exact (B.freed percent s id a b) := by
  obtain ⟨hi,w',hset,hat'⟩ := h.freed (a := a) (b := b) hk hat hw hid
  have htouch := touches_freed percent B s id a b
  have hcard := taken_card B s id
  refine he.ofMove (s := s) htouch.ids (fun x hk _ => htouch.known ▸ hk) htouch.card ?_ ?_
  · rintro x _ _ ⟨c,sc,hx⟩
    rw [htouch.hot] at hx
    exact ⟨c,sc,hx⟩
  · have hhot := hat.mark_hot_or_full hw
    constructor
    · rintro ⟨c,sc,hx⟩
      rw [htouch.hot] at hx
      obtain rfl := (hat.hot c sc).mp hx
      have hm := he.hot s hk ⟨c,sc,hx⟩
      have hgone := h.not_gone hat.allowed.1 hat.allowed.2.2.1
      rw [if_neg hgone] at hcard
      rw [hset.of_hot (by simp [hm]), hcard]
      exact hm
    · intro hm
      have ha := hat'.allowed
      have hl := hat'.link
      cases w' with
      | hot c sc => simp [Place.Allows, hm] at ha
      | linked c sc =>
        refine .inl ?_
        rw [hl]
        simp [Place.link]
      | pooled a b => simp [Place.Allows, hm] at ha
      | loose =>
        obtain ⟨hold,rfl⟩ := hset.of_loose rfl
        rw [hold, hcard] at hm
        split at hm
        · simp at hm
        · next hgone =>
          rcases he.reusable s hk hm with hlink | hg
          · exact absurd hat.link hlink
          · exact absurd hg hgone

theorem Exact.close (h : Inv percent B) (he : Exact B) (hc : B.Closes c B') : Exact B' := by
  have hgone : ∀ owner, B.Gone owner → B'.Gone owner := by
    intro owner hg
    unfold Gone at hg ⊢
    rw [hc.ids, Function.update_apply]
    split
    · exact .inl rfl
    · exact hg
  constructor
  · rintro s hk ⟨c',sc,hx⟩
    rw [hc.known] at hk
    rw [hc.hot] at hx
    obtain ⟨w,hw⟩ := h.placed s hk
    split at hx
    · exact absurd hx.symm (h.ne_zero hk)
    · next hne =>
      obtain rfl := (hw.hot c' sc).mp hx
      rw [hc.card (h.ne_zero hk) hk hw, Place.closeCard, if_neg hne]
      exact he.hot s hk ⟨c',sc,hx⟩
  · intro s hk hm
    rw [hc.known] at hk
    obtain ⟨w,hw⟩ := h.placed s hk
    rw [hc.card (h.ne_zero hk) hk hw] at hm ⊢
    have ha := hw.allowed
    cases w with
    | hot c' sc =>
      simp only [Place.closeCard] at hm
      split at hm
      · simp at hm
      · simp [Place.Allows, hm] at ha
    | linked c' sc =>
      simp only [Place.closeCard]
      split
      · next hcc =>
        subst hcc
        refine .inr (.inl ?_)
        change B'.ids (B.card s).owner.value = kTerminated
        rw [ha.2.2.1, h.coreId c' ha.1, hc.ids, Function.update_self]
      · refine .inl ?_
        rw [hw.link]
        simp [Place.link]
    | pooled a b => simp [Place.Allows, Place.closeCard] at ha hm; simp [ha] at hm
    | loose =>
      rcases he.reusable s hk hm with hlink | hg
      · exact absurd hw.link hlink
      · exact .inr (hgone _ hg)

/-- A start that gives no thread the id of an owner of a reusable span. -/
theorem Exact.open (h : Inv percent B) (he : Exact B) (ho : B.Opens c id B')
    (hid : ∀ s, B.known s → (B.card s).mark = .reusable → (B.card s).owner ≠ id) : Exact B' := by
  constructor
  · rintro s hk ⟨c',sc,hx⟩
    rw [ho.known] at hk
    rw [ho.hot] at hx
    rw [ho.card]
    split at hx
    · exact absurd hx.symm (h.ne_zero hk)
    · exact he.hot s hk ⟨c',sc,hx⟩
  · intro s hk hm
    rw [ho.known] at hk
    rw [ho.card] at hm ⊢
    refine (he.reusable s hk hm).imp (fun hl => hl) fun hg => ?_
    unfold Gone
    rw [ho.ids, Function.update_apply]
    split
    · exact .inr (hid s hk hm)
    · exact hg

end Board

/-- The epoch word of every span tells where the span is. -/
structure State.EpochTells (st : State) : Prop where
  hot : ∀ s, st.heap.Known s → ((∃ c sc, (st.heap.cores c).id ≠ kTerminated ∧
    (st.heap.cores c).hotSpan sc = s) ↔ isHot (st.heap.spans s).epoch)
  pooled : ∀ s, st.heap.Known s → (st.heap.pool.Holds s ↔ isFull (st.heap.spans s).epoch)
  linked : ∀ s, st.heap.Known s → ∀ c sc, (st.heap.cores c).id ≠ kTerminated →
    s ∈ (st.heap.deque c sc).nodes → isReusable (st.heap.spans s).epoch
  unplaced : ∀ s, st.heap.Known s →
    (∀ c sc, (st.heap.cores c).id ≠ kTerminated →
      (st.heap.cores c).hotSpan sc ≠ s ∧ s ∉ (st.heap.deque c sc).nodes) →
    ¬ st.heap.pool.Holds s →
    (¬ isHot (st.heap.spans s).epoch ∧ ¬ isFull (st.heap.spans s).epoch ∧
      ¬ isReusable (st.heap.spans s).epoch) ∨
    (isReusable (st.heap.spans s).epoch ∧ st.heap.ownerGone (st.heap.spans s).owner)

namespace State
variable {cfg : Config} {st : State}

theorem Inv.epochTells (hi : Inv cfg st) (he : (st.heap.board st.heap.hot).Exact) :
    st.EpochTells := by
  have hb := hi.heap.board
  constructor
  · intro s hk
    rw [(hi.heap.epoch s).isHot_iff]
    obtain ⟨w,hw⟩ := hb.placed s hk
    constructor
    · rintro ⟨c,sc,_,hx⟩
      exact he.hot s hk ⟨c,sc,hx⟩
    · intro hm
      have ha := hw.allowed
      change (st.heap.spans s).card.mark = _ at hm
      cases w with
      | hot c sc => exact ⟨c,sc,ha.1,(hw.hot c sc).mpr rfl⟩
      | linked c sc => exact absurd (ha.2.2.2.1.symm.trans hm) (by simp)
      | pooled a b => exact absurd (ha.symm.trans hm) (by simp)
      | loose =>
        rcases ha with ha | ⟨ha,_⟩
        · exact absurd (ha.symm.trans hm) (by simp)
        · exact absurd (ha.symm.trans hm) (by simp)
  · intro s hk
    rw [(hi.heap.epoch s).isFull_iff]
    obtain ⟨w,hw⟩ := hb.placed s hk
    constructor
    · rintro ⟨a,b,hx⟩
      obtain rfl := (hw.pool a b).mp hx
      exact hw.allowed
    · intro hm
      have ha := hw.allowed
      change (st.heap.spans s).card.mark = _ at hm
      cases w with
      | hot c sc =>
        have hhot := he.hot s hk ⟨c,sc,(hw.hot c sc).mpr rfl⟩
        exact absurd (hhot.symm.trans hm) (by simp)
      | linked c sc => exact absurd (ha.2.2.2.1.symm.trans hm) (by simp)
      | pooled a b => exact ⟨a,b,(hw.pool a b).mpr rfl⟩
      | loose =>
        rcases ha with ha | ⟨ha,_⟩
        · exact absurd (ha.symm.trans hm) (by simp)
        · exact absurd (ha.symm.trans hm) (by simp)
  · intro s hk c sc _ hx
    rw [(hi.heap.epoch s).isReusable_iff]
    obtain ⟨w,hw⟩ := hb.placed s hk
    obtain rfl := (hw.deque c sc).mp hx
    exact hw.allowed.2.2.2.1
  · intro s hk hnot hp
    rw [(hi.heap.epoch s).isHot_iff, (hi.heap.epoch s).isFull_iff, (hi.heap.epoch s).isReusable_iff]
    obtain ⟨w,hw⟩ := hb.placed s hk
    have ha := hw.allowed
    cases w with
    | hot c sc => exact absurd ((hw.hot c sc).mpr rfl) (hnot c sc ha.1).1
    | linked c sc => exact absurd ((hw.deque c sc).mpr rfl) (hnot c sc ha.1).2
    | pooled a b => exact absurd ⟨a,b,(hw.pool a b).mpr rfl⟩ hp
    | loose =>
      rcases ha with ha | ⟨ha,_⟩
      · have hm : mark (st.heap.spans s).epoch = .floating := ha
        exact .inl (by simp [hm])
      · refine .inr ⟨ha,?_⟩
        rcases he.reusable s hk ha with hl | hg
        · exact absurd hw.link hl
        · rw [Heap.ownerGone, Bool.or_eq_true, beq_iff_eq, bne_iff_ne]
          exact hg

end State

/-- The request cannot be served by the hot span and finds no span in its deque. -/
def Heap.NeedsSpan (cfg : Config) (h : Heap) (c sc : ℕ) : Prop :=
  ((h.cores c).hotSpan sc = 0 ∨ ((h.spans ((h.cores c).hotSpan sc)).nrLocalObjects = 0 ∧
    (h.spans ((h.cores c).hotSpan sc)).nrFreeObjects ≤
      classToReuseThreshold cfg.reuseThreshold sc)) ∧
  (h.deque c sc).nodes = []

/-- No request that needs a new span meets a span in the pool, and no thread starts with
the id that a reusable span has as its owner. -/
def NeverRecycles (cfg : Config) (st : State) : Event → Prop
  | .allocate t size _ => st.heap.NeedsSpan cfg (st.heap.tls t) (sizeToClass size) →
      ∀ s, ¬ st.heap.pool.Holds s
  | .start _ => ∀ c g, st.heap.findFreeAB = .ok (c,g) → ∀ s, st.heap.Known s →
      isReusable (st.heap.spans s).epoch →
        (st.heap.spans s).owner ≠ ⟨c,BitVec.ofNat 16 (st.heap.threadIds + 1)⟩
  | _ => True

namespace State
variable {cfg : Config} {st st' : State} {e : Event}

theorem Exact.step (hclean : cfg.cleanupInFree = true) (hi : Inv cfg st)
    (he : (st.heap.board st.heap.hot).Exact) (hok : NeverRecycles cfg st e)
    (hs : step cfg st e = some st') : (st'.heap.board st'.heap.hot).Exact := by
  have hb := hi.heap.board
  cases e with
  | start t =>
    obtain ⟨_,⟨c,id,hst⟩,_⟩ := step_start hi hs
    obtain ⟨g,hg⟩ := hst.found
    refine he.open hb hst.opens fun s hk hm => ?_
    rw [hst.newId]
    exact hok c g hg s hk ((hi.heap.epoch s).isReusable_iff.mpr hm)
  | exit t =>
    obtain ⟨_,_,hc,_⟩ := step_exit hi hs
    exact he.close hb hc
  | allocate t size rand =>
    obtain ⟨hsc,ht,p,s,_,hall,_⟩ := step_allocate hi hs
    by_cases hd : (st.heap.cores (st.heap.tls t)).hotSpan (sizeToClass size) ≠ 0 ∧
        (st.heap.spans ((st.heap.cores (st.heap.tls t)).hotSpan (sizeToClass size))).nrLocalObjects ≠ 0
    · rw [hall.direct hd.1 hd.2]
      exact he.setFree _
    · refine he.serves hb (hclean ▸ hall.serves).serves fun hslot hdeque x hx => hok ⟨?_,hdeque⟩ x hx
      rw [not_and_or, not_not, not_not] at hd
      rcases hslot with hslot | hslot
      · exact .inl hslot
      · exact hd.imp (fun h => h) fun h => ⟨h,hslot⟩
  | free t b =>
    obtain ⟨ht,hbl,_,⟨i,j,hboard⟩,_⟩ := step_free hclean hi hs
    rw [hboard]
    obtain ⟨w,hw⟩ := hb.placed _ (hi.live b hbl).1
    refine he.freed hb (hi.live b hbl).1 hw ?_ (hi.core ht).2
    rintro x y rfl
    have hm := mem_liveIn hbl
    rw [hi.heap.pooled _ ⟨x,y,(hw.pool x y).mpr rfl⟩] at hm
    simp at hm
  | write b a v =>
    obtain ⟨_,hboard,_⟩ := step_write hi hs
    rw [hboard]
    exact he

end State

/-- In runs that never recycle a span or an id the epoch word tells where a span is. -/
theorem epochTells_of_neverRecycles {cfg : Config} (hcfg : cfg.Default) {st : State}
    (h : ReachableIf cfg (NeverRecycles cfg) st) : st.EpochTells := by
  obtain ⟨l,seen,hrun⟩ := h
  have hboth : st.Inv cfg ∧ (st.heap.board st.heap.hot).Exact := by
    refine hrun.invariant (P := fun st => st.Inv cfg ∧ (st.heap.board st.heap.hot).Exact)
      ⟨State.Inv.init cfg l seen,?_⟩ ?_
    · have hnone : ∀ s, ¬ (Heap.init l seen).Known s := fun s hs => absurd hs.2.1 (not_lt.mpr hs.1)
      exact ⟨fun s hk => absurd hk (hnone s),fun s hk => absurd hk (hnone s)⟩
    · rintro st e st' ⟨hi,he⟩ hok hs
      exact ⟨hi.step hs,State.Exact.step hcfg.cleanupInFree hi he hok hs⟩
  exact hboth.1.epochTells hboth.2

/-- The first thread allocates its first object. -/
theorem epochTells_firstObject : ∃ st, ReachableIf sampleConfig (NeverRecycles sampleConfig) st ∧
    st.live = [⟨kObjectSpaceSize + 128,3⟩] ∧ st.EpochTells := by
  have hrun : (sampleRun [.start 0, .allocate 0 48 fun _ _ => 0]).map (fun st => st.live) =
      some [⟨kObjectSpaceSize + 128,3⟩] := by decide +kernel
  obtain ⟨st,hst,hlive⟩ := Option.map_eq_some_iff.mp hrun
  obtain ⟨st₁,hs₁,hst⟩ := exec_cons hst
  obtain ⟨st₂,hs₂,hst⟩ := exec_cons hst
  obtain rfl := Option.some.inj hst
  obtain ⟨_,⟨c,id,hstart⟩,_⟩ := State.step_start (State.Inv.init sampleConfig sampleLayout false) hs₁
  have hpool : st₁.heap.pool.spans = fun _ _ => [] := hstart.opens.pool
  have hok₁ : NeverRecycles sampleConfig (State.init sampleLayout false) (.start 0) :=
    fun _ _ _ s hk => absurd hk.2.1 (not_lt.mpr hk.1)
  have hok₂ : NeverRecycles sampleConfig st₁ (.allocate 0 48 fun _ _ => 0) := by
    rintro - s ⟨a,b,hs⟩
    rw [hpool] at hs
    cases hs
  have hreach : ReachableIf sampleConfig (NeverRecycles sampleConfig) st₂ :=
    ⟨sampleLayout,false,(Runs.refl.tail hok₁ hs₁).tail hok₂ hs₂⟩
  exact ⟨st₂,hreach,hlive,epochTells_of_neverRecycles sampleConfig_default hreach⟩

/-- The spans that a run constructed twice are hot and marked full. -/
def recycledEvents : List Event :=
  [.start 0, .allocate 0 1048576 fun _ _ => 0, .allocate 0 1048576 fun _ _ => 0,
    .free 0 ⟨kObjectSpaceSize + 128,28⟩, .allocate 0 1048576 fun _ _ => 0]

theorem not_epochTells_recycledEvents : ¬ ∀ cfg : Config, cfg.Default → ∀ st, Reachable cfg st →
    st.EpochTells := by
  intro hall
  have hrun : (sampleRun recycledEvents).map (fun st =>
      ((st.heap.cores (st.heap.tls 0)).id,(st.heap.cores (st.heap.tls 0)).hotSpan 28,
        isHot (st.heap.spans kObjectSpaceSize).epoch,st.heap.objectSpace.start,
        st.heap.objectSpace.current)) =
      some (⟨kPageSize,1⟩,kObjectSpaceSize,false,kObjectSpaceSize,
        kObjectSpaceSize + 2 * kVirtualSpanSize) := by
    decide +kernel
  obtain ⟨st,hst,hval⟩ := Option.map_eq_some_iff.mp hrun
  simp only [Prod.mk.injEq] at hval
  obtain ⟨hid,hhot,hepoch,hstart,hcurrent⟩ := hval
  have htells := hall sampleConfig sampleConfig_default st (reachable_sampleRun hst)
  have hk : st.heap.Known kObjectSpaceSize := by
    rw [Heap.Known, hstart, hcurrent]
    decide
  have hmark := (htells.hot _ hk).mp ⟨st.heap.tls 0,28,by rw [hid]; decide,hhot⟩
  rw [hepoch] at hmark
  cases hmark

end Scalloc
