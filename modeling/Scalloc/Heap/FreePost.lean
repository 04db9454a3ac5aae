import Scalloc.Heap.ThreadExit

/-! # What a free does to its span

After `Core::Free` a span that is not hot should be where its number of free objects
says. `TryReviveNew` makes a reusable span of an exited thread floating, and neither
`NewMarkFull` nor `NewMarkReuse` is then tried with the new word, so such a span stays
floating and unlinked whatever its number of free objects.
-/
namespace Scalloc
open ByteMemory Epoch Transition

namespace Board
variable {percent : ℕ} {B B' : Board} {s a b : ℕ} {id : CoreId} {w w' : Place} {old : Mark}

/-- The span is where its number of free objects says. -/
structure Sorted (percent : ℕ) (B : Board) (s : ℕ) : Prop where
  full : (B.card s).free = classToObjects (B.card s).sizeClass →
    (B.card s).mark = .full ∧ B.Pooled s ∧ ∀ c sc, s ∉ (B.deque c sc).nodes
  reusable : (classToReuseThreshold percent (B.card s).sizeClass : ℤ) < (B.card s).free →
    (B.card s).free < classToObjects (B.card s).sizeClass →
    (B.card s).mark = .reusable ∧ ¬ B.Gone (B.card s).owner ∧
      ∀ c sc, s ∈ (B.deque c sc).nodes ↔ c = (B.card s).owner.value ∧ sc = (B.card s).sizeClass
  floating : (B.card s).free ≤ classToReuseThreshold percent (B.card s).sizeClass →
    (B.card s).mark = .floating ∧ ∀ c sc, s ∉ (B.deque c sc).nodes

theorem At.sorted_pooled (hat : B.At percent s (.pooled a b)) (hp : percent < 100)
    (hf : (B.card s).free = classToObjects (B.card s).sizeClass) : B.Sorted percent s where
  full := fun _ => ⟨hat.allowed,⟨a,b,(hat.pool a b).mpr rfl⟩,fun c sc hm => by
    simpa using (hat.deque c sc).mp hm⟩
  reusable := fun _ hlt => absurd hf hlt.ne
  floating := fun hle => by
    have ht := classToReuseThreshold_lt hp hat.objectClass
    omega

theorem At.sorted_linked {c sc : ℕ} (h : Inv percent B) (hat : B.At percent s (.linked c sc))
    (hf : (B.card s).free ≠ classToObjects (B.card s).sizeClass) : B.Sorted percent s := by
  obtain ⟨hl,hsc,ho,hm,ht⟩ := hat.allowed
  have hv := h.coreId c hl
  refine ⟨fun he => absurd he hf,fun _ _ => ⟨hm,h.not_gone hl ho,fun c' sc' => ?_⟩,fun hle => ?_⟩
  · rw [hat.deque, ho, hv, hsc]
    simp only [Place.linked.injEq]
    exact ⟨fun he => ⟨he.1.symm,he.2.symm⟩,fun he => ⟨he.1.symm,he.2.symm⟩⟩
  · rw [hsc] at hle
    omega

theorem At.sorted_loose (hat : B.At percent s .loose) (hp : percent < 100)
    (hm : (B.card s).mark = .floating)
    (hf : (B.card s).free ≤ classToReuseThreshold percent (B.card s).sizeClass) :
    B.Sorted percent s := by
  have ht := classToReuseThreshold_lt hp hat.objectClass
  refine ⟨fun he => by omega,fun hlt _ => by omega,fun _ => ⟨hm,fun c sc hmem => ?_⟩⟩
  simpa using (hat.deque c sc).mp hmem

/-- Above the threshold an unplaced span is not where it should be. -/
theorem At.not_sorted_loose (hat : B.At percent s .loose)
    (hf : (classToReuseThreshold percent (B.card s).sizeClass : ℤ) < (B.card s).free)
    (hle : (B.card s).free ≤ classToObjects (B.card s).sizeClass) : ¬ B.Sorted percent s := by
  intro hsort
  by_cases hn : (B.card s).free = classToObjects (B.card s).sizeClass
  · obtain ⟨a,b,hm⟩ := (hsort.full hn).2.1
    simpa using (hat.pool a b).mp hm
  · have hmem := ((hsort.reusable hf (by omega)).2.2 _ _).mpr ⟨rfl,rfl⟩
    simpa using (hat.deque _ _).mp hmem

/-- A reusable span that is not hot is above the threshold. -/
theorem At.free_of_reusable (hat : B.At percent s w) (hm : (B.card s).mark = .reusable) :
    (classToReuseThreshold percent (B.card s).sizeClass : ℤ) < (B.card s).free := by
  have ha := hat.allowed
  cases w with
  | hot c sc => simp [Place.Allows, hm] at ha
  | linked c sc => exact ha.2.1 ▸ ha.2.2.2.2
  | pooled a b => simp [Place.Allows, hm] at ha
  | loose => exact (ha.resolve_left (by simp [hm])).2

/-- When a free leaves its span where it belongs. -/
theorem Inv.freed_sorted_iff (h : Inv percent B) (hp : percent < 100) (hk : B.known s)
    (hat : B.At percent s w) (hw : ∀ a b, w ≠ .pooled a b) (hid : ¬ B.Gone id)
    (hhot : ¬ B.IsHot s) (hle : (B.card s).free + 1 ≤ classToObjects (B.card s).sizeClass) :
    (B.freed percent s id a b).Sorted percent s ↔
      (B.card s).mark ≠ .reusable ∨ (B.card s).link ≠ none ∨
        (¬ B.Gone (B.card s).owner ∧
          (B.card s).free + 1 = classToObjects (B.card s).sizeClass) := by
  obtain ⟨hi,w',hset,hat'⟩ := h.freed (a := a) (b := b) hk hat hw hid
  have hcard := taken_card B s id
  have hfree : (((B.setFree s ((B.card s).free + 1)).revive s id).card s).free =
      (B.card s).free + 1 := by
    rw [revive_free]
    simp [Board.setFree, setCard]
  have hclass : (((B.setFree s ((B.card s).free + 1)).revive s id).card s).sizeClass =
      (B.card s).sizeClass := by
    rw [revive_sizeClass]
    simp [Board.setFree, setCard]
  have hmark := hat.mark_hot_or_full hw
  generalize B.freed percent s id a b = B' at hi hset hat'
  generalize (B.setFree s ((B.card s).free + 1)).revive s id = B₁ at hset hcard hfree hclass
  cases hset with
  | hot hold =>
    obtain ⟨c,sc,rfl⟩ := hmark.mp hold
    exact absurd ⟨c,sc,(hat.hot c sc).mpr rfl⟩ hhot
  | pooled hold hplace hf =>
    have htouch := touches_discard B₁ s a b
    have hf' : ((B₁.discard s a b).card s).free = (B₁.card s).free := by
      unfold Board.discard
      split <;> simp [Board.unlink, Board.toPool, setCard]
    refine iff_of_true (hat'.sorted_pooled hp ?_) ?_
    · rw [hf', htouch.sizeClass]
      exact hf
    · rw [hcard] at hold
      split at hold
      · exact .inl (by rw [← hold]; simp)
      · next hg => exact .inr (.inr ⟨hg,by rw [← hfree, ← hclass]; exact hf⟩)
  | linked hold hf ht =>
    refine iff_of_true (hat'.sorted_linked hi ?_) (.inl (by simp [hold]))
    simpa [Board.relink, setCard] using hf
  | kept hold hf ht =>
    have hcold : ∀ m, (B.card s).mark = m → ¬ B.Gone (B.card s).owner → (B'.card s).mark = m := by
      intro m hm hg
      rw [hcard, if_neg hg]
      exact hm
    rcases hold with hold | hold
    · have hm : (B'.card s).mark = .floating := by
        rw [hcard]
        split
        · rfl
        · exact hold
      have hw : w = .loose := by
        have ha := hat'.allowed
        cases w with
        | hot c sc => simp [Place.Allows, hm] at ha
        | linked c sc => simp [Place.Allows, hm] at ha
        | pooled a b => exact absurd rfl (hw a b)
        | loose => rfl
      subst hw
      refine iff_of_true (hat'.sorted_loose hp hm ?_) (.inl (by simp [hold]))
      by_contra hlt
      rcases ht (not_le.mp hlt) with he | he
      · exact hf he (hm.trans hold.symm)
      · simp [hold] at he
    · have hgt := hat.free_of_reusable hold
      cases w with
      | hot c sc => exact absurd ⟨c,sc,(hat.hot c sc).mpr rfl⟩ hhot
      | pooled a b => exact absurd rfl (hw a b)
      | linked c sc =>
        have hng := h.not_gone hat.allowed.1 hat.allowed.2.2.1
        have hlink : (B.card s).link ≠ none := by
          rw [hat.link]
          simp [Place.link]
        refine iff_of_true (hat'.sorted_linked hi fun he => ?_) (.inr (.inl hlink))
        exact hf he ((hcold _ hold hng).trans hold.symm)
      | loose =>
        refine iff_of_false (hat'.not_sorted_loose ?_ ?_) ?_
        · rw [hfree, hclass]
          omega
        · rw [hfree, hclass]
          exact hle
        · rintro (hne | hlink | ⟨hng,he⟩)
          · exact hne hold
          · exact hlink hat.link
          · exact hf (by rw [hfree, hclass]; exact he) ((hcold _ hold hng).trans hold.symm)

end Board

/-- What `Core::Free` promises for the span `s`, in the state after the call. -/
structure FreePost (cfg : Config) (h : Heap) (s : ℕ) : Prop where
  full : (h.spans s).nrFreeObjects = classToObjects (h.spans s).sizeClass →
    isFull (h.spans s).epoch ∧ h.pool.Holds s ∧ ∀ c sc, s ∉ (h.deque c sc).nodes
  reusable : (classToReuseThreshold cfg.reuseThreshold (h.spans s).sizeClass : ℤ) <
      (h.spans s).nrFreeObjects →
    (h.spans s).nrFreeObjects < classToObjects (h.spans s).sizeClass →
    isReusable (h.spans s).epoch ∧ ¬ h.ownerGone (h.spans s).owner ∧
      ∀ c sc, s ∈ (h.deque c sc).nodes ↔ c = (h.spans s).owner.value ∧ sc = (h.spans s).sizeClass
  floating : (h.spans s).nrFreeObjects ≤
      classToReuseThreshold cfg.reuseThreshold (h.spans s).sizeClass →
    (¬ isHot (h.spans s).epoch ∧ ¬ isFull (h.spans s).epoch ∧ ¬ isReusable (h.spans s).epoch) ∧
      ∀ c sc, s ∉ (h.deque c sc).nodes

/-- The span is the hot span of a live core. -/
def Heap.IsHotSpan (h : Heap) (s : ℕ) : Prop :=
  ∃ c sc, (h.cores c).id ≠ kTerminated ∧ (h.cores c).hotSpan sc = s

/-- The span is hot, not marked reusable or linked in a deque, or its owner is not gone and
one live object is left. -/
def Heap.Settles (h : Heap) (s : ℕ) : Prop :=
  h.IsHotSpan s ∨ ¬ isReusable (h.spans s).epoch ∨ (∃ c sc, s ∈ (h.deque c sc).nodes) ∨
    (¬ h.ownerGone (h.spans s).owner ∧
      (h.spans s).nrFreeObjects + 1 = classToObjects (h.spans s).sizeClass)

namespace State
variable {cfg : Config} {st st' : State}

theorem Inv.isHotSpan_iff (hi : Inv cfg st) {s : ℕ} (hk : st.heap.Known s) :
    st.heap.IsHotSpan s ↔ (st.heap.board st.heap.hot).IsHot s := by
  constructor
  · rintro ⟨c,sc,_,hs⟩
    exact ⟨c,sc,hs⟩
  · rintro ⟨c,sc,hs⟩
    refine ⟨c,sc,?_,hs⟩
    have hne : (st.heap.board st.heap.hot).hot c sc ≠ 0 := by
      rw [hs]
      exact hi.heap.board.ne_zero hk
    exact hi.heap.board.live_of_hot hne

theorem Inv.freePost_iff (hi : Inv cfg st) (s : ℕ) :
    FreePost cfg st.heap s ↔ (st.heap.board st.heap.hot).Sorted cfg.reuseThreshold s := by
  have hv := hi.heap.epoch s
  have hfloat : (¬ isHot (st.heap.spans s).epoch ∧ ¬ isFull (st.heap.spans s).epoch ∧
      ¬ isReusable (st.heap.spans s).epoch) ↔ mark (st.heap.spans s).epoch = .floating := by
    rw [hv.isHot_iff, hv.isFull_iff, hv.isReusable_iff]
    cases mark (st.heap.spans s).epoch <;> simp
  constructor
  · intro hp
    refine ⟨fun he => ?_,fun h1 h2 => ?_,fun hle => ?_⟩
    · obtain ⟨h1,h2,h3⟩ := hp.full he
      exact ⟨hv.isFull_iff.mp h1,h2,h3⟩
    · obtain ⟨h3,h4,h5⟩ := hp.reusable h1 h2
      exact ⟨hv.isReusable_iff.mp h3,fun hg => h4 ((ownerGone_iff _ _ _).mpr hg),h5⟩
    · obtain ⟨h1,h2⟩ := hp.floating hle
      exact ⟨hfloat.mp h1,h2⟩
  · intro hp
    refine ⟨fun he => ?_,fun h1 h2 => ?_,fun hle => ?_⟩
    · obtain ⟨h1,h2,h3⟩ := hp.full he
      exact ⟨hv.isFull_iff.mpr h1,h2,h3⟩
    · obtain ⟨h3,h4,h5⟩ := hp.reusable h1 h2
      exact ⟨hv.isReusable_iff.mpr h3,fun hg => h4 ((ownerGone_iff _ _ _).mp hg),h5⟩
    · obtain ⟨h1,h2⟩ := hp.floating hle
      exact ⟨hfloat.mpr h1,h2⟩

end State

/-- A free in a reachable state returns, and it leaves its span where it belongs exactly if
the span settles. -/
theorem freePost_iff_settles {cfg : Config} (hcfg : cfg.Default) {st : State}
    (h : Reachable cfg st) {t : ℕ} {b : Block} (ht : st.heap.tls t ≠ 0) (hb : b ∈ st.live) :
    (cfg.debug = false → ∃ st', step cfg st (.free t b) = some st') ∧
    ∀ st', step cfg st (.free t b) = some st' →
      ((¬ st'.heap.IsHotSpan (fromObject b.start) →
        FreePost cfg st'.heap (fromObject b.start)) ↔ st.heap.Settles (fromObject b.start)) := by
  have hclean := hcfg.cleanupInFree
  have hi := h.inv
  refine ⟨fun _ => ?_,fun st' hs => ?_⟩
  · obtain ⟨h',hf,_⟩ := hi.free_ok ht hb
    refine ⟨⟨h',st.live.erase b⟩,?_⟩
    simp [step, ht, hb, hf, Except.toOption]
  · obtain ⟨_,_,_,⟨i,j,hboard⟩,hi'⟩ := State.step_free hclean hi hs
    have hk := (hi.live b hb).1
    have htouch := Board.touches_freed cfg.reuseThreshold (st.heap.board st.heap.hot)
      (fromObject b.start) (st.heap.cores (st.heap.tls t)).id i j
    rw [← hboard] at htouch
    have hk' : st'.heap.Known (fromObject b.start) := (congrFun htouch.known _).mpr hk
    have hhot : st'.heap.IsHotSpan (fromObject b.start) ↔
        st.heap.IsHotSpan (fromObject b.start) := by
      rw [hi.isHotSpan_iff hk, hi'.isHotSpan_iff hk', Board.IsHot, Board.IsHot, htouch.hot]
    rw [hhot, hi'.freePost_iff, Heap.Settles]
    by_cases hh : st.heap.IsHotSpan (fromObject b.start)
    · exact iff_of_true (fun hn => absurd hh hn) (.inl hh)
    · obtain ⟨w,hw⟩ := hi.heap.board.placed _ hk
      have hnp := hi.not_pooled hb hw
      have hfree : (st.heap.spans (fromObject b.start)).nrFreeObjects + 1 ≤
          classToObjects (st.heap.spans (fromObject b.start)).sizeClass := by
        have hout : ¬ st.heap.pool.Holds (fromObject b.start) := by
          rintro ⟨x,y,hm⟩
          exact hnp x y ((hw.pool x y).mp hm)
        have heq := hi.heap.free_eq hk hout
        have hpos := List.length_pos_of_mem (State.mem_liveIn hb)
        omega
      have hp : cfg.reuseThreshold < 100 := by
        rw [hcfg.reuseThreshold]
        decide
      have hiff := hi.heap.board.freed_sorted_iff (a := i) (b := j) hp hk hw hnp (hi.core ht).2
        (fun hx => hh ((hi.isHotSpan_iff hk).mpr hx)) hfree
      rw [← hboard] at hiff
      have hlink : (st.heap.spans (fromObject b.start)).spanLink ≠ none ↔
          ∃ c sc, fromObject b.start ∈ (st.heap.deque c sc).nodes := by
        have hl : (st.heap.spans (fromObject b.start)).spanLink = w.link := hw.link
        rw [hl]
        constructor
        · intro hne
          cases w with
          | linked c sc => exact ⟨c,sc,(hw.deque c sc).mpr rfl⟩
          | hot c sc => exact absurd rfl hne
          | pooled x y => exact absurd rfl hne
          | loose => exact absurd rfl hne
        · rintro ⟨c,sc,hm⟩
          obtain rfl := (hw.deque c sc).mp hm
          simp [Place.link]
      rw [(hi.heap.epoch _).isReusable_iff, ← hlink, State.ownerGone_iff _ st.heap.hot]
      constructor
      · intro hpost
        exact .inr (hiff.mp (hpost hh))
      · rintro (hx | hx) -
        · exact absurd hx hh
        · exact hiff.mpr hx

/-- The only object of a floating span is freed: the span goes to the pool. -/
theorem freePost_floatingSpan : ∃ st st', Reachable sampleConfig st ∧
    step sampleConfig st (.free 0 ⟨kObjectSpaceSize + 128,28⟩) = some st' ∧
    ¬ st'.heap.IsHotSpan kObjectSpaceSize ∧ FreePost sampleConfig st'.heap kObjectSpaceSize := by
  have hrun : ((sampleRun [.start 0, .allocate 0 1048576 fun _ _ => 0,
      .allocate 0 1048576 fun _ _ => 0]).bind fun st =>
      (step sampleConfig st (.free 0 ⟨kObjectSpaceSize + 128,28⟩)).map fun st' =>
        (decide (st.heap.tls 0 ≠ 0),decide (Block.mk (kObjectSpaceSize + 128) 28 ∈ st.live),
          isReusable (st.heap.spans kObjectSpaceSize).epoch,
          decide (kObjectSpaceSize ∈ st'.heap.pool.spans (SpanPool.slot 28) 0))) =
      some (true,true,false,true) := by
    decide +kernel
  obtain ⟨st,hst,hmap⟩ := Option.bind_eq_some_iff.mp hrun
  obtain ⟨st',hs,hval⟩ := Option.map_eq_some_iff.mp hmap
  simp only [Prod.mk.injEq, decide_eq_true_eq] at hval
  obtain ⟨ht,hb,hre,hpool⟩ := hval
  have hreach := reachable_sampleRun hst
  have hfrom : fromObject (kObjectSpaceSize + 128) = kObjectSpaceSize := by decide
  have hiff := (freePost_iff_settles sampleConfig_default hreach ht hb).2 st' hs
  rw [hfrom] at hiff
  have hi' := hreach.inv.step hs
  have hhot : ¬ st'.heap.IsHotSpan kObjectSpaceSize := by
    rintro ⟨c,sc,_,hslot⟩
    obtain ⟨w,hw⟩ := hi'.heap.board.placed _ (hi'.heap.board.known_of_pooled ⟨_,0,hpool⟩)
    obtain rfl := (hw.pool _ 0).mp hpool
    simpa using (hw.hot c sc).mp hslot
  exact ⟨st,st',hreach,hs,hhot,hiff.mpr (.inr (.inl (by simp [hre]))) hhot⟩

/-- A thread fills a span with eight objects, frees seven of them after the span has been
given up, and exits. -/
def orphanEvents : List Event :=
  [.start 0, .start 1] ++ List.replicate 9 (.allocate 0 131072 fun _ _ => 0) ++
    (List.range 7).map (fun i => .free 0 ⟨blockStart kObjectSpaceSize 25 i,25⟩) ++ [.exit 0]

/-- Another thread frees the last object: the span is in no deque and not in the pool. -/
theorem not_freePost_orphan : ¬ ∀ cfg : Config, cfg.Default → ∀ st st' t b, Reachable cfg st →
    step cfg st (.free t b) = some st' → ¬ st'.heap.IsHotSpan (fromObject b.start) →
    FreePost cfg st'.heap (fromObject b.start) := by
  intro hall
  have hrun : ((sampleRun orphanEvents).bind fun st =>
      (step sampleConfig st (.free 1 ⟨blockStart kObjectSpaceSize 25 7,25⟩)).map fun st' =>
        (mark (st'.heap.spans kObjectSpaceSize).epoch,
          (st'.heap.spans kObjectSpaceSize).nrFreeObjects,
          (st'.heap.spans kObjectSpaceSize).sizeClass,st'.heap.objectSpace.start,
          st'.heap.objectSpace.current)) =
      some (.floating,8,25,kObjectSpaceSize,kObjectSpaceSize + 2 * kVirtualSpanSize) := by
    decide +kernel
  obtain ⟨st,hst,hmap⟩ := Option.bind_eq_some_iff.mp hrun
  obtain ⟨st',hs,hval⟩ := Option.map_eq_some_iff.mp hmap
  simp only [Prod.mk.injEq] at hval
  obtain ⟨hmark,hfree,hclass,hstart,hcurrent⟩ := hval
  have hreach := reachable_sampleRun hst
  have hi' := hreach.inv.step hs
  have hfrom : fromObject (blockStart kObjectSpaceSize 25 7) = kObjectSpaceSize := by decide
  have hk : st'.heap.Known kObjectSpaceSize := by
    rw [Heap.Known, hstart, hcurrent]
    decide
  have hhot : ¬ st'.heap.IsHotSpan kObjectSpaceSize := by
    rintro ⟨c,sc,_,hslot⟩
    obtain ⟨w,hw⟩ := hi'.heap.board.placed _ hk
    obtain rfl := (hw.hot c sc).mp hslot
    have hm : mark (st'.heap.spans kObjectSpaceSize).epoch = .hot ∨
      mark (st'.heap.spans kObjectSpaceSize).epoch = .full := hw.allowed.2.2.2
    rw [hmark] at hm
    simp at hm
  have hpost := hall sampleConfig sampleConfig_default st st' 1 _ hreach hs
  rw [hfrom] at hpost
  have hfull := ((hpost hhot).full (by rw [hfree, hclass]; decide)).1
  rw [(hi'.heap.epoch _).isFull_iff, hmark] at hfull
  simp at hfull

end Scalloc
