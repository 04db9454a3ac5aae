import Scalloc.Heap.EpochWord

/-! # Thread exit and the spans it gives up

`Core::Destroy` marks the hot spans of a core floating and forgets them. Only a later
`Core::Free` of one of its objects brings such a span back, so a hot span without live
objects is lost.
-/
namespace Scalloc
open ByteMemory Epoch Transition

namespace Board
variable {percent : ℕ} {B B' : Board} {c sc s x : ℕ} {id : CoreId}

/-- Spans that are neither pooled nor hot have a live object. -/
def Kept (B : Board) : Prop := ∀ s, B.known s → B.Pooled s ∨ B.IsHot s ∨
  (B.card s).free ≠ classToObjects (B.card s).sizeClass

theorem Kept.setFree (hk : Kept B) (hs : B.IsHot s) (f : ℤ) : Kept (B.setFree s f) := by
  intro x hx
  by_cases hxs : x = s
  · exact .inr (.inl (hxs ▸ hs))
  · have hcard : (B.setFree s f).card x = B.card x := by simp [Board.setFree, setCard, hxs]
    rw [hcard]
    exact hk x hx

theorem Kept.retire (h : Inv percent B) (hk : Kept B) (hp : percent < 100)
    (ht : (B.card (B.hot c sc)).free ≤ classToReuseThreshold percent sc) :
    Kept (B.retire c sc) := by
  intro x hx
  have hx' : B.known x := hx
  by_cases hxs : x = B.hot c sc
  · obtain ⟨w,hw⟩ := h.placed _ hx'
    obtain rfl := (hw.hot c sc).mp hxs.symm
    have hlt := classToReuseThreshold_lt hp hw.objectClass
    have hsc := hw.allowed.2.1
    refine .inr (.inr ?_)
    have hcard : ((B.retire c sc).card x).free = (B.card x).free ∧
        ((B.retire c sc).card x).sizeClass = (B.card x).sizeClass := by
      simp [Board.retire, setCard, hxs]
    rw [hcard.1, hcard.2]
    rw [hsc] at hlt ⊢
    rw [← hxs] at ht
    omega
  · have hcard : (B.retire c sc).card x = B.card x := by simp [Board.retire, setCard, hxs]
    rw [hcard]
    refine (hk x hx').imp (fun hpool => hpool) (Or.imp_left ?_)
    rintro ⟨c',sc',hhot⟩
    refine ⟨c',sc',?_⟩
    have hcc : ¬ (c' = c ∧ sc' = sc) := fun he => hxs (by rw [← hhot, he.1, he.2])
    simpa [Board.retire, update₂_apply, hcc] using hhot

theorem Kept.fetches (h : Inv percent B) (hk : Kept B) (h0 : B.hot c sc = 0)
    (hf : B.Fetches c sc s B') : Kept B' ∧ B'.IsHot s := by
  have hhot : ∀ B'' : Board, B''.hot = update₂ B.hot c sc s → ∀ x, x ≠ 0 → B.IsHot x →
      B''.IsHot x := by
    rintro B'' hB x hx ⟨c',sc',hslot⟩
    refine ⟨c',sc',?_⟩
    rw [hB, update₂_apply, if_neg]
    · exact hslot
    · rintro ⟨rfl,rfl⟩
      exact hx (hslot.symm.trans h0)
  have hs : B'.IsHot s := by
    refine ⟨c,sc,?_⟩
    cases hf with
    | reuse hl => simp [Board.reuse]
    | fresh hl hs hks => simp [Board.adopt]
    | recycled hl hp => simp [Board.adopt]
  refine ⟨fun x hx => ?_,hs⟩
  by_cases hxs : x = s
  · exact .inr (.inl (hxs ▸ hs))
  · cases hf with
    | reuse hl =>
      have hcard : (B.reuse c sc s).card x = B.card x := by simp [Board.reuse, setCard, hxs]
      rw [hcard]
      exact (hk x hx).imp (fun hp => hp) (Or.imp_left (hhot _ rfl x (h.ne_zero hx)))
    | fresh hl hs hks =>
      have hx' : B.known x := hx.resolve_left hxs
      have hcard : (B.adopt c sc s .hot B.pool).card x = B.card x := by simp [Board.adopt, hxs]
      rw [hcard]
      exact (hk x hx').imp (fun hp => hp) (Or.imp_left (hhot _ rfl x (h.ne_zero hx')))
    | @recycled a b rest hl hp =>
      have hx' : B.known x := hx.resolve_left hxs
      have hcard : (B.adopt c sc s .full (update₂ B.pool a b rest)).card x = B.card x := by
        simp [Board.adopt, hxs]
      rw [hcard]
      refine (hk x hx').imp ?_ (Or.imp_left (hhot _ rfl x (h.ne_zero hx')))
      rintro ⟨a',b',hm⟩
      exact ⟨a',b',(h.mem_pop hp x a' b').mpr ⟨hxs,hm⟩⟩

theorem Kept.serves (h : Inv percent B) (hk : Kept B) (hp : percent < 100)
    (hs : B.Serves percent c sc B') : Kept B' := by
  cases hs with
  | direct hne => exact hk.setFree ⟨c,sc,rfl⟩ _
  | first h0 hf =>
    obtain ⟨h1,h2⟩ := hk.fetches h h0 hf
    exact h1.setFree h2 _
  | next hne ht hf =>
    obtain ⟨h1,h2⟩ := (hk.retire h hp ht).fetches (h.retire hne) (by simp [Board.retire]) hf
    exact h1.setFree h2 _

theorem discard_pool (a b : ℕ) :
    (B.discard s a b).pool = update₂ B.pool a b (s :: B.pool a b) := by
  unfold Board.discard
  split <;> rfl

/-- A free takes no span out of the pool. -/
theorem Settled.pooled_of {old : Mark} {a b : ℕ} {w w' : Place}
    (h : Settled percent B old s a b w B' w') (hx : B.Pooled x) : B'.Pooled x := by
  cases h with
  | hot _ => exact hx
  | pooled _ _ _ =>
    obtain ⟨a',b',hm⟩ := hx
    refine ⟨a',b',?_⟩
    rw [discard_pool, update₂_apply]
    split
    · next he => exact List.mem_cons_of_mem _ (he.1 ▸ he.2 ▸ hm)
    · exact hm
  | linked _ _ _ => exact hx
  | kept _ _ _ => exact hx

/-- A free leaves the span in the pool, hot or with a live object, unless it takes over a
reusable span and frees its last object. -/
theorem Kept.freed {a b : ℕ} {w : Place} (h : Inv percent B) (hk : Kept B) (hs : B.known s)
    (hat : B.At percent s w) (hw : ∀ a b, w ≠ .pooled a b) (hid : ¬ B.Gone id)
    (hlast : (B.card s).mark = .reusable → B.Gone (B.card s).owner →
      (B.card s).free + 1 ≠ classToObjects (B.card s).sizeClass) :
    Kept (B.freed percent s id a b) := by
  obtain ⟨hi,w',hset,hat'⟩ := h.freed (a := a) (b := b) hs hat hw hid
  have htouch := touches_freed percent B s id a b
  have hcard := taken_card B s id
  have hmark := hat.mark_hot_or_full hw
  have hpool : ∀ x, B.Pooled x → (B.freed percent s id a b).Pooled x := by
    intro x hx
    refine hset.pooled_of ?_
    rw [Pooled, revive_pool]
    exact hx
  intro x hx
  rw [htouch.known] at hx
  by_cases hxs : x = s
  · subst hxs
    generalize hB' : B.freed percent x id a b = B' at hset hat' htouch
    cases hset with
    | hot hold =>
      obtain ⟨c,sc,rfl⟩ := hmark.mp hold
      refine .inr (.inl ⟨c,sc,?_⟩)
      rw [htouch.hot]
      exact (hat.hot c sc).mpr rfl
    | pooled _ _ _ => exact .inl ⟨a,b,(hat'.pool a b).mpr rfl⟩
    | linked _ hf _ =>
      refine .inr (.inr ?_)
      simpa [relink, setCard] using hf
    | kept hold hf _ =>
      refine .inr (.inr fun hfree => ?_)
      refine hf hfree ?_
      rw [hcard] at hfree ⊢
      split at hfree
      · next hg =>
        rw [if_pos hg]
        rcases hold with hold | hold
        · exact hold.symm
        · exact absurd hfree (hlast hold hg)
      · next hg => rw [if_neg hg]
  · rw [htouch.card x hxs]
    refine (hk x hx).imp (hpool x) (Or.imp_left ?_)
    rintro ⟨c,sc,hhot⟩
    exact ⟨c,sc,by rw [htouch.hot]; exact hhot⟩

/-- An exit of a core all of whose hot spans have live objects. -/
theorem Kept.close (h : Inv percent B) (hk : Kept B) (hc : B.Closes c B')
    (hhot : ∀ sc, B.hot c sc ≠ 0 → (B.card (B.hot c sc)).free ≠
      classToObjects (B.card (B.hot c sc)).sizeClass) : Kept B' := by
  intro x hx
  rw [hc.known] at hx
  obtain ⟨w,hw⟩ := h.placed x hx
  have hx0 := h.ne_zero hx
  have hcard : (B'.card x).free = (B.card x).free ∧
      (B'.card x).sizeClass = (B.card x).sizeClass := by
    rw [hc.card hx0 hx hw]
    exact Place.closeCard_keeps c _ w
  rw [hcard.1, hcard.2]
  rcases hk x hx with ⟨a,b,hp⟩ | ⟨c',sc,hslot⟩ | hf
  · exact .inl ⟨a,b,by rw [hc.pool]; exact hp⟩
  · by_cases hcc : c' = c
    · subst hcc
      refine .inr (.inr ?_)
      rw [← hslot]
      exact hhot sc (by rw [hslot]; exact hx0)
    · exact .inr (.inl ⟨c',sc,by rw [hc.hot, if_neg hcc]; exact hslot⟩)
  · exact .inr (.inr hf)

theorem Kept.open (h : Inv percent B) (hk : Kept B) (ho : B.Opens c id B') (hdead : ¬ B.Live c) :
    Kept B' := by
  intro x hx
  rw [ho.known] at hx
  rw [ho.card]
  rcases hk x hx with ⟨a,b,hp⟩ | ⟨c',sc,hslot⟩ | hf
  · exact .inl ⟨a,b,by rw [ho.pool]; exact hp⟩
  · refine .inr (.inl ⟨c',sc,?_⟩)
    have hcc : c' ≠ c := by
      rintro rfl
      have hne : B.hot c' sc ≠ 0 := by
        rw [hslot]
        exact h.ne_zero hx
      exact hdead (h.live_of_hot hne)
    rw [ho.hot, if_neg hcc]
    exact hslot
  · exact .inr (.inr hf)

end Board

/-- All objects of the span are free. -/
def Span.AllFree (x : Span) : Prop := x.nrFreeObjects = classToObjects x.sizeClass

/-- The exit of thread `t`, which leads from `st` to `st'`, loses no span. -/
structure LosesNone (st st' : State) (t : ℕ) : Prop where
  owned : ∀ s, st.heap.Known s → (st.heap.spans s).owner = (st.heap.cores (st.heap.tls t)).id →
    st'.heap.pool.Holds s ∨ ∃ b ∈ st'.live, fromObject b.start = s
  unplaced : ∀ s, st'.heap.Known s → ¬ st'.heap.pool.Holds s →
    (∀ c sc, (st'.heap.cores c).id ≠ kTerminated →
      (st'.heap.cores c).hotSpan sc ≠ s ∧ s ∉ (st'.heap.deque c sc).nodes) →
    ¬ (st'.heap.spans s).AllFree

/-- Every hot span of an exiting core has a live object, and no call frees the last live
object of a span that is marked reusable and whose owner is gone. -/
def LeavesLive (st : State) : Event → Prop
  | .exit t => ∀ sc, (st.heap.cores (st.heap.tls t)).hotSpan sc ≠ 0 →
      ¬ (st.heap.spans ((st.heap.cores (st.heap.tls t)).hotSpan sc)).AllFree
  | .free _ b => isReusable (st.heap.spans (fromObject b.start)).epoch →
      st.heap.ownerGone (st.heap.spans (fromObject b.start)).owner →
      (st.heap.spans (fromObject b.start)).nrFreeObjects + 1 ≠
        classToObjects (st.heap.spans (fromObject b.start)).sizeClass
  | _ => True

namespace State
variable {cfg : Config} {st st' : State} {e : Event} {s : ℕ}

theorem ownerGone_iff (h : Heap) (hot : ℕ → ℕ → ℕ) (owner : CoreId) :
    h.ownerGone owner ↔ (h.board hot).Gone owner := by
  rw [Heap.ownerGone, Bool.or_eq_true, beq_iff_eq, bne_iff_ne]
  rfl

/-- The span of a live block is not in the pool. -/
theorem Inv.not_pooled (hi : Inv cfg st) {b : Block} (hb : b ∈ st.live) {w : Place}
    (hw : (st.heap.board st.heap.hot).At cfg.reuseThreshold (fromObject b.start) w) (x y : ℕ) :
    w ≠ .pooled x y := by
  rintro rfl
  have hm := mem_liveIn hb
  rw [hi.heap.pooled _ ⟨x,y,(hw.pool x y).mpr rfl⟩] at hm
  simp at hm

theorem kept_step (hcfg : cfg.Default) (hi : Inv cfg st)
    (hk : (st.heap.board st.heap.hot).Kept) (hok : LeavesLive st e)
    (hs : step cfg st e = some st') : (st'.heap.board st'.heap.hot).Kept := by
  have hb := hi.heap.board
  have hclean := hcfg.cleanupInFree
  cases e with
  | start t =>
    obtain ⟨_,⟨c,id,hst⟩,_⟩ := step_start hi hs
    exact hk.open hb hst.opens fun hl => hl hst.dead
  | exit t =>
    obtain ⟨_,_,hc,_⟩ := step_exit hi hs
    exact hk.close hb hc hok
  | allocate t size rand =>
    obtain ⟨_,_,_,_,_,hall,_⟩ := step_allocate hi hs
    have hp : cfg.reuseThreshold < 100 := by
      rw [hcfg.reuseThreshold]
      decide
    exact hk.serves hb hp (hclean ▸ hall.serves).serves
  | free t b =>
    obtain ⟨ht,hbl,_,⟨i,j,hboard⟩,_⟩ := step_free hclean hi hs
    rw [hboard]
    obtain ⟨w,hw⟩ := hb.placed _ (hi.live b hbl).1
    refine hk.freed hb (hi.live b hbl).1 hw (hi.not_pooled hbl hw) (hi.core ht).2 fun hm hg => ?_
    exact hok ((hi.heap.epoch _).isReusable_iff.mpr hm) ((ownerGone_iff _ _ _).mpr hg)
  | write b a v =>
    obtain ⟨_,hboard,_⟩ := step_write hi hs
    rw [hboard]
    exact hk

theorem exists_of_liveIn (h : 0 < (st.liveIn s).length) : ∃ b ∈ st.live, fromObject b.start = s := by
  obtain ⟨p,hp⟩ := List.exists_mem_of_length_pos h
  simp only [liveIn, List.mem_map, List.mem_filter, decide_eq_true_eq] at hp
  obtain ⟨b,⟨hb,hbs⟩,_⟩ := hp
  exact ⟨b,hb,hbs⟩

/-- A span outside the pool that is not all free has a live block. -/
theorem Inv.exists_live (hi : Inv cfg st) (hk : st.heap.Known s) (hp : ¬ st.heap.pool.Holds s)
    (hf : ¬ (st.heap.spans s).AllFree) : ∃ b ∈ st.live, fromObject b.start = s := by
  refine exists_of_liveIn (List.length_pos_iff.mpr fun he => hf ?_)
  have hfree := hi.heap.free_eq hk hp
  rw [he] at hfree
  simpa [Span.AllFree] using hfree

theorem losesNone_of_kept (hi : Inv cfg st) (hi' : Inv cfg st')
    (hk : (st'.heap.board st'.heap.hot).Kept) {t : ℕ}
    (hs : step cfg st (.exit t) = some st') : LosesNone st st' t := by
  obtain ⟨ht,_,hc,_⟩ := step_exit hi hs
  have hb := hi.heap.board
  have hb' := hi'.heap.board
  constructor
  · intro s hs howner
    obtain ⟨w,hw⟩ := hb.placed s hs
    have hs' : st'.heap.Known s := (congrFun hc.known s).mpr hs
    by_cases hp : st'.heap.pool.Holds s
    · exact .inl hp
    · refine .inr (hi'.exists_live hs' hp ?_)
      rcases hk s hs' with hpool | ⟨c,sc,hhot⟩ | hf
      · exact absurd hpool hp
      · rw [hc.hot] at hhot
        split at hhot
        · exact absurd hhot.symm (hb.ne_zero hs)
        · next hcc =>
          obtain rfl := (hw.hot c sc).mp hhot
          have hv := hb.coreId c hw.allowed.1
          rw [← hw.allowed.2.2.1] at hv
          have hv' := hb.coreId _ (hi.core ht).1
          refine absurd (hv.symm.trans (Eq.trans ?_ hv')) hcc
          exact congrArg TaggedValue.value howner
      · exact hf
  · intro s hs' hp hnot
    rcases hk s hs' with hpool | ⟨c,sc,hhot⟩ | hf
    · exact absurd hpool hp
    · have hne : (st'.heap.board st'.heap.hot).hot c sc ≠ 0 := by
        rw [hhot]
        exact hb'.ne_zero hs'
      have hl := hb'.live_of_hot hne
      exact absurd hhot (hnot c sc hl).1
    · exact hf

end State

/-- In runs that leave a live object in every span they give up no exit loses a span. -/
theorem losesNone_of_leavesLive {cfg : Config} (hcfg : cfg.Default) {st st' : State} {t : ℕ}
    (h : ReachableIf cfg LeavesLive st) (hok : LeavesLive st (.exit t))
    (hs : step cfg st (.exit t) = some st') : LosesNone st st' t := by
  obtain ⟨l,seen,hrun⟩ := h
  have hboth : st.Inv cfg ∧ (st.heap.board st.heap.hot).Kept := by
    refine hrun.invariant (P := fun st => st.Inv cfg ∧ (st.heap.board st.heap.hot).Kept)
      ⟨State.Inv.init cfg l seen,?_⟩ ?_
    · intro s hk
      exact absurd hk.2.1 (not_lt.mpr hk.1)
    · rintro st e st' ⟨hi,hk⟩ hok hs
      exact ⟨hi.step hs,State.kept_step hcfg hi hk hok hs⟩
  exact State.losesNone_of_kept hboth.1 (hboth.1.step hs)
    (State.kept_step hcfg hboth.1 hboth.2 hok hs) hs

/-- A thread exits with its only object live. -/
theorem losesNone_liveObject : ∃ st st', ReachableIf sampleConfig LeavesLive st ∧
    step sampleConfig st (.exit 0) = some st' ∧ st'.live = [⟨kObjectSpaceSize + 128,3⟩] ∧
    LosesNone st st' 0 := by
  have hrun : ((sampleRun [.start 0, .allocate 0 48 fun _ _ => 0]).bind fun st =>
      (step sampleConfig st (.exit 0)).map fun st' => (st'.live,st.heap.objectSpace.start,
        st.heap.objectSpace.current,(st.heap.spans kObjectSpaceSize).nrFreeObjects,
        (st.heap.spans kObjectSpaceSize).sizeClass)) =
      some ([Block.mk (kObjectSpaceSize + 128) 3],kObjectSpaceSize,
        kObjectSpaceSize + kVirtualSpanSize,679,3) := by
    decide +kernel
  obtain ⟨st,hst,hmap⟩ := Option.bind_eq_some_iff.mp hrun
  obtain ⟨st',hs,hval⟩ := Option.map_eq_some_iff.mp hmap
  simp only [Prod.mk.injEq] at hval
  obtain ⟨hlive,hstart,hcurrent,hfree,hclass⟩ := hval
  obtain ⟨st₁,hs₁,hst⟩ := exec_cons hst
  obtain ⟨st₂,hs₂,hst⟩ := exec_cons hst
  obtain rfl := Option.some.inj hst
  have hok₁ : LeavesLive (State.init sampleLayout false) (.start 0) := trivial
  have hok₂ : LeavesLive st₁ (.allocate 0 48 fun _ _ => 0) := trivial
  have hreach : ReachableIf sampleConfig LeavesLive st₂ :=
    ⟨sampleLayout,false,(Runs.refl.tail hok₁ hs₁).tail hok₂ hs₂⟩
  have hok : LeavesLive st₂ (.exit 0) := by
    intro sc hne hall
    have hk := hreach.inv.heap.board.known_of_hot hne
    have hspan : (st₂.heap.cores (st₂.heap.tls 0)).hotSpan sc = kObjectSpaceSize := by
      obtain ⟨h1,h2,h3⟩ := hk
      have hsize : kObjectSpaceSize % kVirtualSpanSize = 0 := by decide
      have hv : kVirtualSpanSize = 2097152 := rfl
      rw [hstart] at h1
      rw [hcurrent, hv] at h2
      rw [hv] at h3 hsize
      change (st₂.heap.cores (st₂.heap.tls 0)).hotSpan sc < _ at h2
      change kObjectSpaceSize ≤ (st₂.heap.cores (st₂.heap.tls 0)).hotSpan sc at h1
      change (st₂.heap.cores (st₂.heap.tls 0)).hotSpan sc % 2097152 = 0 at h3
      omega
    rw [hspan, Span.AllFree, hfree, hclass] at hall
    exact absurd hall (by decide)
  exact ⟨st₂,st',hreach,hs,hlive,losesNone_of_leavesLive sampleConfig_default hreach hok hs⟩

/-- A thread frees its only object and exits: its hot span is lost. -/
theorem not_losesNone_freedObject : ¬ ∀ cfg : Config, cfg.Default → ∀ st st' t, Reachable cfg st →
    step cfg st (.exit t) = some st' → LosesNone st st' t := by
  intro hall
  have hrun : ((sampleRun [.start 0, .allocate 0 48 fun _ _ => 0,
      .free 0 ⟨kObjectSpaceSize + 128,3⟩]).bind fun st =>
      (step sampleConfig st (.exit 0)).map fun st' => (st'.live,st.heap.objectSpace.start,
        st.heap.objectSpace.current,mark (st'.heap.spans kObjectSpaceSize).epoch,
        decide ((st.heap.spans kObjectSpaceSize).owner = (st.heap.cores (st.heap.tls 0)).id))) =
      some ([],kObjectSpaceSize,kObjectSpaceSize + kVirtualSpanSize,.floating,true) := by
    decide +kernel
  obtain ⟨st,hst,hmap⟩ := Option.bind_eq_some_iff.mp hrun
  obtain ⟨st',hs,hval⟩ := Option.map_eq_some_iff.mp hmap
  simp only [Prod.mk.injEq, decide_eq_true_eq] at hval
  obtain ⟨hlive,hstart,hcurrent,hmark,howner⟩ := hval
  have hreach := reachable_sampleRun hst
  have hi' := hreach.inv.step hs
  have hk : st.heap.Known kObjectSpaceSize := by
    rw [Heap.Known, hstart, hcurrent]
    decide
  rcases (hall sampleConfig sampleConfig_default st st' 0 hreach hs).owned _ hk howner with
    hp | ⟨b,hb,_⟩
  · obtain ⟨a,b,hm⟩ := hp
    obtain ⟨w,hw⟩ := hi'.heap.board.placed _ (hi'.heap.board.known_of_pooled ⟨a,b,hm⟩)
    obtain rfl := (hw.pool a b).mp hm
    have hfull : mark (st'.heap.spans kObjectSpaceSize).epoch = .full := hw.allowed
    rw [hmark] at hfull
    cases hfull
  · rw [hlive] at hb
    cases hb

end Scalloc
