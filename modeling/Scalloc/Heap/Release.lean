import Scalloc.Heap.Labels
import Scalloc.Heap.Freed

/-! # `Core::Free` and the board

A free of a live block is a free on the board, and it keeps the invariant of the heap.
-/
namespace Scalloc
open ByteMemory Epoch

theorem clear_sameOutside (m : Memory) (s : ℕ) :
    SameOutside m (clear m (s + kPageSize) (kVirtualSpanSize - kPageSize)) (headerEnd s)
      (s + kVirtualSpanSize) := by
  intro x hx
  have hp : kPageSize = 4096 := rfl
  have hh : kSpanHeaderSize = 128 := rfl
  have hv : kVirtualSpanSize = 2097152 := rfl
  have hx' : ¬ (s + kPageSize ≤ x ∧ x < s + kPageSize + (kVirtualSpanSize - kPageSize)) := by
    unfold headerEnd at hx
    omega
  simp only [clear, hx', if_false]

namespace Heap
variable {cfg : Config} {h h' : Heap} {hot : ℕ → ℕ → ℕ} {live : ℕ → List ℕ} {s c p : ℕ}
  {k : BitVec 28} {m m' : Mark} {w : Place} {percent : ℕ}

theorem ownerGone_iff {owner : CoreId} : h.ownerGone owner = true ↔ (h.board hot).Gone owner := by
  simp [ownerGone, Board.Gone, board]

theorem mem_push {pool : SpanPool} {a b x a' b' : ℕ} :
    x ∈ (pool.push a b s).spans a' b' ↔ (x = s ∧ a' = a ∧ b' = b) ∨ x ∈ pool.spans a' b' := by
  rw [SpanPool.push, SpanPool.spans_setStack, update₂_apply]
  split
  · next he =>
    obtain ⟨rfl,rfl⟩ := he
    simp
  · next he => simp [he]

theorem relabels_push {mem : Memory} (hv : Valid (h.spans s).epoch) (a b : ℕ)
    (hm : SameOutside h.mem mem (headerEnd s) (s + kVirtualSpanSize)) :
    Relabels h { h with mem := mem, pool := h.pool.push a b s } s where
  spans := fun _ _ => rfl
  sizeClass := rfl
  locals := rfl
  remotes := rfl
  epoch := hv
  mem := hm
  unpooled := fun hp => absurd ⟨a,b,mem_push.mpr (.inl ⟨rfl,rfl,rfl⟩)⟩ hp
  pool := by
    intro x hx
    simp [SpanPool.Holds, mem_push, hx]
  arena := rfl
  threads := ⟨fun _ => rfl,rfl,rfl,rfl,⟨rfl,rfl⟩⟩
  hot := rfl

/-- The caller takes over a span whose owner is gone. -/
theorem revive_ok (cfg : Config) (hot : ℕ → ℕ → ℕ) {caller : CoreId} (hc : caller.value ≠ 0)
    (he : (h.spans s).epoch = encode k m) :
    ∃ o m', h.revive cfg s (h.spans s).owner (encode k m) caller =
        .ok (o,h.setSpan s { h.spans s with owner := o, epoch := encode k m' }) ∧
      (¬ (h.board hot).Gone (h.spans s).owner ∧ m' = m ∧ o = (h.spans s).owner ∨
        (h.board hot).Gone (h.spans s).owner ∧ m' = .floating ∧ o = caller) := by
  by_cases hg : h.ownerGone (h.spans s).owner = true
  · have hmark : tryMarkFloating (encode k m) (encode k m) = some (encode k .floating) :=
      tryMarkFloating_encode.mpr ⟨⟨rfl,rfl⟩,rfl⟩
    have hne : (caller.value != 0) = true := bne_iff_ne.mpr hc
    refine ⟨caller,.floating,?_,.inr ⟨ownerGone_iff.mp hg,rfl,rfl⟩⟩
    simp only [revive, hg, if_true, he, hmark, Option.getD_some, scallocAssert_true cfg _ hne]
    rfl
  · refine ⟨(h.spans s).owner,m,?_,.inl ⟨fun hg' => hg (ownerGone_iff.mpr hg'),rfl,rfl⟩⟩
    have hself : h.setSpan s { h.spans s with epoch := encode k m } = h := by
      rw [← he]
      simp [setSpan]
    rw [revive, if_neg hg, hself]
    rfl

theorem board_revive (hot : ℕ → ℕ → ℕ) {caller o : CoreId} {m' : Mark}
    (he : (h.spans s).epoch = encode k m)
    (hr : ¬ (h.board hot).Gone (h.spans s).owner ∧ m' = m ∧ o = (h.spans s).owner ∨
      (h.board hot).Gone (h.spans s).owner ∧ m' = .floating ∧ o = caller) :
    (h.setSpan s { h.spans s with owner := o, epoch := encode k m' }).board hot =
      (h.board hot).revive s caller := by
  rcases hr with ⟨hg,rfl,rfl⟩ | ⟨hg,rfl,rfl⟩
  · have hself : h.setSpan s { h.spans s with epoch := encode k m' } = h := by
      rw [← he]
      simp [setSpan]
    rw [hself]
    exact (if_neg hg).symm
  · have hcard : Span.card { h.spans s with owner := o, epoch := encode k .floating } =
        { (h.spans s).card with owner := o, mark := .floating } := by
      rw [Span.card, mark_encode]
      rfl
    rw [board_setSpan, hcard]
    exact (if_pos hg).symm

/-- `Remove` of a linked span by a caller that names the owner of its deque. -/
theorem remove_linked (cfg : Config) {owner : CoreId} {c sc : ℕ}
    (hlink : (h.spans s).spanLink = some (c,sc)) (howner : (h.deque c sc).owner = owner)
    (hmem : s ∈ (h.deque c sc).nodes) (hnull : (h.deque c sc).noNull = true) :
    h.remove cfg c sc owner s = .ok
      ((h.setDeque c sc { h.deque c sc with nodes := (h.deque c sc).nodes.erase s }).setLink s
        none) := by
  have hcheck : ((h.deque c sc).nodes.contains s && (h.deque c sc).noNull) = true := by
    simp [hmem, hnull]
  simp only [remove, hlink, howner, ne_eq, not_true, if_false]
  rw [scallocAssert_true cfg _ hcheck]
  rfl

theorem board_unlink (hot : ℕ → ℕ → ℕ) (c sc : ℕ) :
    ((h.setDeque c sc { h.deque c sc with nodes := (h.deque c sc).nodes.erase s }).setLink s
      none).board hot = (h.board hot).unlink c sc s := by
  rw [board_setLink, board_setDeque]
  rfl

theorem relabels_unlink (hv : Valid (h.spans s).epoch) (c sc : ℕ) :
    Relabels h ((h.setDeque c sc { h.deque c sc with
      nodes := (h.deque c sc).nodes.erase s }).setLink s none) s :=
  (relabels_setDeque hv c sc _).trans (relabels_setSpan rfl rfl rfl hv) rfl

theorem remove_unlinked (cfg : Config) {owner : CoreId} {c sc : ℕ}
    (hlink : (h.spans s).spanLink = none) : h.remove cfg c sc owner s = .ok h := by
  rw [remove, hlink]
  rfl

/-- `Span::Delete` of an unlinked span. -/
theorem deleteSpan_ok (cfg : Config) (hlink : (h.spans s).spanLink = none)
    (hlimit : h.pool.limit ≠ 0) :
    ∃ mem, h.deleteSpan cfg s = .ok { h with
        mem := mem
        pool := h.pool.push (SpanPool.slot (h.spans s).sizeClass)
          ((h.spans s).owner.tag.toNat % h.pool.limit) s } ∧
      SameOutside h.mem mem (headerEnd s) (s + kVirtualSpanSize) := by
  have h1 : (h.spans s).spanLink.isNone = true := by rw [hlink]; rfl
  have h2 : (h.pool.limit != 0) = true := bne_iff_ne.mpr hlimit
  rw [deleteSpan, scallocAssert_true cfg _ h1, spanPoolFree, scallocAssert_true cfg _ h2]
  refine ⟨_,rfl,?_⟩
  split
  · exact clear_sameOutside h.mem s
  · exact SameOutside.refl _ _ _

/-- The end of a discard: from a heap that differs from `h` in the labels of `s`, the
span goes to the pool. -/
theorem deleteSpan_relabels (cfg : Config) (hot : ℕ → ℕ → ℕ) {g : Heap} (hg : Relabels h g s)
    (hmem : g.mem = h.mem) (hpool : g.pool = h.pool)
    (howner : (g.spans s).owner = (h.spans s).owner) (hlink : (g.spans s).spanLink = none)
    (hlimit : h.pool.limit ≠ 0) :
    ∃ h', g.deleteSpan cfg s = .ok h' ∧ h'.board hot = { g.board hot with
        pool := ((h.board hot).toPool s (SpanPool.slot (h.spans s).sizeClass)
          ((h.spans s).owner.tag.toNat % h.pool.limit)).pool } ∧ Relabels h h' s := by
  obtain ⟨mem,heq,hm⟩ := deleteSpan_ok cfg hlink (by rw [hpool]; exact hlimit)
  refine ⟨_,heq,?_,hg.trans (relabels_push hg.epoch _ _ hm) hmem⟩
  rw [hg.sizeClass, howner, hpool]
  have hp := SpanPool.spans_setStack h.pool (SpanPool.slot (h.spans s).sizeClass)
    ((h.spans s).owner.tag.toNat % h.pool.limit)
    (s :: h.pool.spans (SpanPool.slot (h.spans s).sizeClass)
      ((h.spans s).owner.tag.toNat % h.pool.limit))
  simp only [board, Board.toPool, SpanPool.push, hp]
  rfl

/-- The part of `settle` behind `NewMarkFull`, in a heap that has the new epoch. -/
def discardMarked (cfg : Config) (h : Heap) (s : ℕ) (owner : CoreId) (sc : ℕ) (reusable : Bool) :
    Result Heap := do
  let h ← if reusable then h.remove cfg owner.value sc owner s else pure h
  scallocAssert cfg .fullSpanNotHot (!isHot (h.spans s).epoch)
  h.deleteSpan cfg s

theorem discardMarked_eq (cfg : Config) {g : Heap} {owner : CoreId} {sc : ℕ} {reusable : Bool}
    (hr : (if reusable then h.remove cfg owner.value sc owner s else .ok h) = .ok g)
    (hcold : (!isHot (g.spans s).epoch) = true) :
    h.discardMarked cfg s owner sc reusable = g.deleteSpan cfg s := by
  cases reusable with
  | true =>
    rw [if_pos rfl] at hr
    rw [discardMarked, if_pos rfl, hr]
    change (scallocAssert cfg _ (!isHot (g.spans s).epoch) >>= _) = _
    rw [scallocAssert_true cfg _ hcold]
    rfl
  | false =>
    obtain rfl := Except.ok.inj hr
    rw [discardMarked, if_neg Bool.false_ne_true]
    change (scallocAssert cfg _ (!isHot (h.spans s).epoch) >>= _) = _
    rw [scallocAssert_true cfg _ hcold]
    rfl

/-- The span goes to the pool, out of the deque it may be in. -/
theorem discard_ok (cfg : Config) (hi : (h.board hot).Inv percent)
    (hat : (h.board hot).At percent s w)
    (hw : w = .loose ∨ ∃ c sc, w = .linked c sc) {reusable : Bool}
    (hre : ∀ c sc, w = .linked c sc → reusable = true) (hlimit : h.pool.limit ≠ 0)
    (k : BitVec 28) :
    ∃ h', (h.setEpoch s (encode k .full)).discardMarked cfg s (h.spans s).owner
        (h.spans s).sizeClass reusable = .ok h' ∧
      h'.board hot = (h.board hot).discard s (SpanPool.slot (h.spans s).sizeClass)
        ((h.spans s).owner.tag.toNat % h.pool.limit) ∧ Relabels h h' s := by
  have hmark : Relabels h (h.setEpoch s (encode k .full)) s :=
    relabels_setSpan rfl rfl rfl ⟨k,.full,rfl⟩
  have hcold : (!isHot (encode k .full)) = true := by simp
  rw [Board.discard, hat.link]
  rcases hw with rfl | ⟨c,sc,rfl⟩
  · have hspan : (h.setEpoch s (encode k .full)).spans s =
        { h.spans s with epoch := encode k .full } := by simp [setEpoch, setSpan]
    have hlink : ((h.setEpoch s (encode k .full)).spans s).spanLink = none := by
      rw [hspan]
      exact hat.link
    obtain ⟨h',heq,h1,h2⟩ := deleteSpan_relabels cfg hot hmark rfl rfl (by rw [hspan]) hlink hlimit
    refine ⟨h',?_,?_,h2⟩
    · rw [discardMarked_eq cfg (g := h.setEpoch s (encode k .full)) ?_ (by rw [hspan]; exact hcold)]
      · exact heq
      · split
        · exact remove_unlinked cfg hlink
        · rfl
    · rw [h1, board_setEpoch]
      rfl
  · obtain ⟨hl,hsc,ho,_,_⟩ := hat.allowed
    have hlink : (h.spans s).spanLink = some (c,sc) := hat.link
    have hval : (h.spans s).owner.value = c := by
      rw [show (h.spans s).owner = (h.cores c).id from ho]
      exact hi.coreId c hl
    have howner : (h.deque c sc).owner = (h.spans s).owner :=
      (hi.dequeOwner c sc hl (hsc ▸ hat.objectClass.2)).trans ho.symm
    have hclass : (h.spans s).sizeClass = sc := hsc
    obtain ⟨g,hg⟩ : ∃ g : Heap, g = ((h.setEpoch s (encode k .full)).setDeque c sc
        { (h.setEpoch s (encode k .full)).deque c sc with
          nodes := ((h.setEpoch s (encode k .full)).deque c sc).nodes.erase s }).setLink s none :=
      ⟨_,rfl⟩
    have hrel : Relabels h g s := hg ▸ hmark.trans (relabels_unlink hmark.epoch c sc) rfl
    have hspan : g.spans s = { h.spans s with epoch := encode k .full, spanLink := none } := by
      simp [hg, setLink, setEpoch, setSpan, setDeque, setCore]
    have hremove : (h.setEpoch s (encode k .full)).remove cfg c sc (h.spans s).owner s = .ok g := by
      rw [hg]
      exact remove_linked cfg (by simp [setEpoch, setSpan, hlink]) howner
        ((hat.deque c sc).mpr rfl) (noNull_of_inv hi c sc)
    obtain ⟨h',heq,h1,h2⟩ := deleteSpan_relabels cfg hot hrel (by rw [hg]; rfl) (by rw [hg]; rfl)
      (by rw [hspan]) (by rw [hspan]) hlimit
    have hunlink := board_unlink (h := h.setEpoch s (encode k .full)) (s := s) hot c sc
    rw [board_setEpoch, ← hg] at hunlink
    refine ⟨h',?_,?_,h2⟩
    · rw [discardMarked_eq cfg (g := g) ?_ (by rw [hspan]; exact hcold)]
      · exact heq
      · rw [hre c sc rfl, if_pos rfl, hval, hclass]
        exact hremove
    · rw [h1, hunlink]
      simp [Board.unlink, Board.toPool, Board.setCard, Place.link]

theorem isFloatingOrReusable_encode :
    isFloatingOrReusable (encode k m) = true ↔ ¬ (m = .hot ∨ m = .full) := by
  cases m <;> simp [isFloatingOrReusable]

/-- `PushFront` by a caller that names the owner of the deque. -/
theorem pushFront_ok (cfg : Config) {owner : CoreId} {c sc : ℕ} (hs : s ≠ 0)
    (howner : (h.deque c sc).owner = owner) (hnull : (h.deque c sc).noNull = true) :
    h.pushFront cfg c sc owner s = .ok ((h.setDeque c sc { h.deque c sc with
      nodes := s :: (h.deque c sc).nodes }).setLink s (some (c,sc))) := by
  have hne : (s != 0) = true := bne_iff_ne.mpr hs
  rw [pushFront, scallocAssert_true cfg _ hne]
  change (if owner ≠ (h.deque c sc).owner then _ else _) = _
  rw [if_neg (not_not.mpr howner.symm), scallocAssert_true cfg _ hnull]
  rfl

/-- The end of a free, case by case. -/
theorem settle_hot {sc : ℕ} {o : CoreId} {f : ℤ} (hm : m = .hot ∨ m = .full)
    (he : (h.spans s).epoch = encode k m) : h.settle cfg s sc o (encode k m) f = .ok h := by
  have hnone : newMarkReuse (encode k m) (encode k m) = none := by
    refine Option.eq_none_iff_forall_ne_some.mpr fun e hsome => ?_
    obtain ⟨⟨_,hfl⟩,_⟩ := newMarkReuse_encode.mp hsome
    rw [hfl] at hm
    simp at hm
  simp only [settle, isFloatingOrReusable_encode, hm, not_true, and_false, if_false, he, hnone]
  split <;> rfl

theorem settle_full (hclean : cfg.cleanupInFree = true) {sc : ℕ} {o : CoreId} {f : ℤ}
    (hm : ¬ (m = .hot ∨ m = .full)) (he : (h.spans s).epoch = encode k m)
    (hf : f = classToObjects sc) :
    h.settle cfg s sc o (encode k m) f =
      (h.setEpoch s (encode (k + 1) .full)).discardMarked cfg s o sc (isReusable (encode k m)) := by
  have hsome : newMarkFull (encode k m) (encode k m) = some (encode (k + 1) .full) := by
    refine newMarkFull_encode.mpr ⟨⟨rfl,?_⟩,rfl⟩
    cases m <;> simp_all [Mark.keepReuse]
  rw [settle, if_pos ⟨hclean,hf,isFloatingOrReusable_encode.mpr hm⟩, he, hsome]
  rfl

/-- A span that was taken over while reusable is not marked full. -/
theorem settle_lost (hclean : cfg.cleanupInFree = true) {sc : ℕ} {o : CoreId} {f : ℤ}
    (he : (h.spans s).epoch = encode k .floating) (hf : f = classToObjects sc) :
    h.settle cfg s sc o (encode k .reusable) f = .ok h := by
  have hnone : newMarkFull (encode k .floating) (encode k .reusable) = none := by
    refine Option.eq_none_iff_forall_ne_some.mpr fun e hsome => ?_
    obtain ⟨⟨_,hfl⟩,_⟩ := newMarkFull_encode.mp hsome
    simp [Mark.keepReuse] at hfl
  rw [settle, if_pos ⟨hclean,hf,isFloatingOrReusable_encode.mpr (by simp)⟩, he, hnone]
  rfl

theorem settle_reuse {sc : ℕ} {o : CoreId} {f : ℤ} (he : (h.spans s).epoch = encode k .floating)
    (hf : ¬ (cfg.cleanupInFree = true ∧ f = classToObjects sc))
    (hmany : f > classToReuseThreshold cfg.reuseThreshold sc) :
    h.settle cfg s sc o (encode k .floating) f =
      (h.setEpoch s (encode (k + 1) .reusable)).pushFront cfg o.value sc o s := by
  have hsome : newMarkReuse (encode k .floating) (encode k .floating) =
      some (encode (k + 1) .reusable) := newMarkReuse_encode.mpr ⟨⟨rfl,rfl⟩,rfl⟩
  rw [settle, if_neg (fun hc => hf ⟨hc.1,hc.2.1⟩), if_pos ⟨hmany,by simp⟩, he, hsome]

theorem settle_keep {sc : ℕ} {o : CoreId} {f : ℤ}
    (hf : ¬ (cfg.cleanupInFree = true ∧ f = classToObjects sc))
    (hkeep : ¬ (f > classToReuseThreshold cfg.reuseThreshold sc ∧ m ≠ .reusable)) :
    h.settle cfg s sc o (encode k m) f = .ok h := by
  have hif : ¬ (f > classToReuseThreshold cfg.reuseThreshold sc ∧
      (!isReusable (encode k m)) = true) := by
    simpa [isReusable_encode] using hkeep
  rw [settle, if_neg (fun hc => hf ⟨hc.1,hc.2.1⟩), if_neg hif]
  rfl

/-- A span above the threshold enters the deque of its owner. -/
theorem relink_ok (hi : (h.board hot).Inv percent) (hat : (h.board hot).At percent s w)
    (hk : h.Known s) (howner : ¬ (h.board hot).Gone (h.spans s).owner) (cfg : Config)
    (k : BitVec 28) :
    ∃ h', (h.setEpoch s (encode k .reusable)).pushFront cfg (h.spans s).owner.value
        (h.spans s).sizeClass (h.spans s).owner s = .ok h' ∧
      h'.board hot = (h.board hot).relink (h.spans s).owner.value (h.spans s).sizeClass s ∧
      Relabels h h' s := by
  obtain ⟨hl,ho⟩ := Board.live_of_not_gone howner
  have hdeque : ((h.setEpoch s (encode k .reusable)).deque (h.spans s).owner.value
      (h.spans s).sizeClass).owner = (h.spans s).owner :=
    (hi.dequeOwner _ _ hl hat.objectClass.2).trans ho.symm
  refine ⟨_,pushFront_ok cfg (hi.ne_zero hk) hdeque (noNull_of_inv hi _ _),?_,?_⟩
  · rw [board_setLink, board_setDeque, board_setEpoch]
    simp [Board.setCard, Board.relink, setEpoch, setSpan, deque, board, Span.card]
    rfl
  · have h1 : Relabels h (h.setEpoch s (encode k .reusable)) s :=
      relabels_setSpan rfl rfl rfl ⟨k,.reusable,rfl⟩
    exact (h1.trans (relabels_setDeque h1.epoch _ _ _) rfl).trans
      (relabels_setSpan rfl rfl rfl h1.epoch) rfl

/-- A span that is not marked hot or full is in no hot slot. -/
theorem loose_or_linked (hat : (h.board hot).At percent s w) (hw : ∀ a b, w ≠ .pooled a b)
    (he : (h.spans s).epoch = encode k m) (hm : ¬ (m = .hot ∨ m = .full)) :
    w = .loose ∨ ∃ c sc, w = .linked c sc := by
  have ha := hat.allowed
  cases w with
  | hot c sc =>
    have hmark : mark (h.spans s).epoch = .hot ∨ mark (h.spans s).epoch = .full := ha.2.2.2
    rw [he, mark_encode] at hmark
    exact absurd hmark hm
  | linked c sc => exact .inr ⟨c,sc,rfl⟩
  | pooled a b => exact absurd rfl (hw a b)
  | loose => exact .inl rfl

section Settle
variable (hi : (h.board hot).Inv cfg.reuseThreshold) (hat : (h.board hot).At cfg.reuseThreshold s w)
  (hk : h.Known s) (hw : ∀ a b, w ≠ .pooled a b) (he : (h.spans s).epoch = encode k m')
  (hm : m' = m ∨ m = .reusable ∧ m' = .floating)
  (howner : ¬ (h.board hot).Gone (h.spans s).owner)
include hi hat hk he hm howner

/-- The end of a free that does not clean up: the span enters the deque of its owner or stays. -/
theorem settle_unfull (hhot : ¬ (m = .hot ∨ m = .full))
    (hf : ¬ (cfg.cleanupInFree = true ∧
      (h.spans s).nrFreeObjects = classToObjects (h.spans s).sizeClass)) :
    ∃ h', h.settle cfg s (h.spans s).sizeClass (h.spans s).owner (encode k m)
        (h.spans s).nrFreeObjects = .ok h' ∧
      h'.board hot = (if (h.spans s).nrFreeObjects >
          classToReuseThreshold cfg.reuseThreshold (h.spans s).sizeClass ∧ m ≠ .reusable then
        (h.board hot).relink (h.spans s).owner.value (h.spans s).sizeClass s else h.board hot) ∧
      Relabels h h' s := by
  split
  · next hre =>
    have hm' : m' = .floating ∧ m = .floating := by
      rcases hm with rfl | ⟨hr,_⟩
      · cases m' <;> simp_all
      · exact absurd hr hre.2
    obtain ⟨rfl,rfl⟩ := hm'
    rw [settle_reuse he hf hre.1]
    exact relink_ok hi hat hk howner cfg (k + 1)
  · next hre => exact ⟨h,settle_keep hf hre,rfl,Relabels.refl h ⟨k,m',he⟩⟩

include hw
/-- `settle` on a span that was marked `m` before the call and is marked `m'` now. -/
theorem settle_ok (hlimit : h.pool.limit ≠ 0) :
    ∃ h', h.settle cfg s (h.spans s).sizeClass (h.spans s).owner (encode k m)
        (h.spans s).nrFreeObjects = .ok h' ∧
      h'.board hot = (h.board hot).settleIn cfg.cleanupInFree cfg.reuseThreshold m s
        (SpanPool.slot (h.spans s).sizeClass) ((h.spans s).owner.tag.toNat % h.pool.limit) ∧
      Relabels h h' s := by
  have hsame : Relabels h h s := Relabels.refl h ⟨k,m',he⟩
  have hcard : (h.board hot).card s = (h.spans s).card := rfl
  have hmark : (h.spans s).card.mark = m' := by
    rw [Span.card, he, mark_encode]
  have hfree : (h.spans s).card.free = (h.spans s).nrFreeObjects := rfl
  have hclass : (h.spans s).card.sizeClass = (h.spans s).sizeClass := rfl
  have hown : (h.spans s).card.owner = (h.spans s).owner := rfl
  simp only [Board.settleIn, Board.settle, Board.settleKept, hcard, hmark, hfree, hclass, hown]
  by_cases hhot : m = .hot ∨ m = .full
  · have hm' : m' = m := by
      rcases hm with hm | ⟨rfl,_⟩
      · exact hm
      · simp at hhot
    rw [hm'] at he
    exact ⟨h,settle_hot hhot he,by simp only [hhot, if_true, ite_self],hsame⟩
  have hhot' : ¬ (m' = .hot ∨ m' = .full) := by
    rcases hm with rfl | ⟨_,rfl⟩
    · exact hhot
    · simp
  have hplace := loose_or_linked hat hw he hhot'
  simp only [if_neg hhot]
  by_cases hfull : cfg.cleanupInFree = true ∧
      (h.spans s).nrFreeObjects = classToObjects (h.spans s).sizeClass
  · obtain ⟨hclean,hfull⟩ := hfull
    rw [if_pos hclean, if_pos hfull]
    by_cases hmm : m' = m
    · rw [if_pos hmm]
      subst hmm
      rw [settle_full hclean hhot he hfull]
      refine discard_ok cfg hi hat hplace ?_ hlimit (k + 1)
      rintro c sc rfl
      have hr : mark (h.spans s).epoch = .reusable := hat.allowed.2.2.2.1
      rw [he, mark_encode] at hr
      rw [isReusable_encode, hr]
      rfl
    · rw [if_neg hmm]
      obtain ⟨rfl,rfl⟩ := hm.resolve_left hmm
      exact ⟨h,settle_lost hclean he hfull,rfl,hsame⟩
  · obtain ⟨h',h1,h2,h3⟩ := settle_unfull hi hat hk he hm howner hhot hfull
    refine ⟨h',h1,h2.trans ?_,h3⟩
    by_cases hclean : cfg.cleanupInFree = true
    · rw [if_pos hclean, if_neg fun hf => hfull ⟨hclean,hf⟩]
    · rw [if_neg hclean]

end Settle

theorem free_header (x : Span) (mem : Memory) (p : ℕ) (caller : CoreId) :
    (x.free mem p caller).1 = { x with
      localFreeList := (x.free mem p caller).1.localFreeList
      remoteFreeList := (x.free mem p caller).1.remoteFreeList } := by
  unfold Span.free
  split <;> rfl

/-- `Span::Free` of a live object gives the span one more free object and leaves the rest of
its card. -/
theorem free_spec {x y : Span} {mem mem' : Memory} {l L R : List ℕ} {j : ℕ} {f : ℤ}
    (hsl : Slots mem s x l L R j) (hs : IsVirtualSpan s) (caller : CoreId) (hp : p ∈ l)
    (hr : x.free mem p caller = (y,mem',f)) :
    (∃ L' R', Slots mem' s y (l.erase p) L' R' j) ∧
      SameOutside mem mem' (headerEnd s) (s + kVirtualSpanSize) ∧ f = y.nrFreeObjects ∧
      y.nrFreeObjects = x.nrFreeObjects + 1 ∧ y.card = { x.card with free := x.card.free + 1 } ∧
      y.owner = x.owner ∧ y.epoch = x.epoch ∧ y.sizeClass = x.sizeClass := by
  obtain ⟨hslots,hmem,hcount⟩ := hsl.free hs caller hp
  have hheader := free_header x mem p caller
  rw [hr] at hslots hmem hcount hheader
  dsimp only at hslots hmem hcount hheader
  obtain ⟨L',R',hslots⟩ := hslots
  have hsc : y.sizeClass = x.sizeClass := by rw [hheader]
  have hfree : y.nrFreeObjects = x.nrFreeObjects + 1 := by
    have hlen := List.length_erase_of_mem hp
    have hpos := List.length_pos_of_mem hp
    rw [hslots.nrFreeObjects_eq, hsl.nrFreeObjects_eq, hlen, hsc]
    omega
  have hcard : y.card = { x.card with free := y.nrFreeObjects } := by
    conv_lhs => rw [hheader]
    rfl
  rw [hfree] at hcard
  exact ⟨⟨L',R',hslots⟩,hmem,hcount,hfree,hcard,by rw [hheader],by rw [hheader],hsc⟩

/-- The second half of `Core::Free`, after the object is back in the span. -/
theorem revive_settle {owner caller : CoreId}
    (hi : ((h.board hot).revive s caller).Inv cfg.reuseThreshold)
    (hat : ((h.board hot).revive s caller).At cfg.reuseThreshold s w) (hk : h.Known s)
    (hw : ∀ a b, w ≠ .pooled a b) (ho : (h.spans s).owner = owner)
    (he : (h.spans s).epoch = encode k m) (hm : m = .floating ∨ m = .reusable ∨ ¬ (h.board hot).Gone owner)
    (hc : ¬ (h.board hot).Gone caller) (hcaller : caller.value ≠ 0) (hlimit : h.pool.limit ≠ 0) :
    ∃ o g h', h.revive cfg s owner (encode k m) caller = .ok (o,g) ∧
      g.settle cfg s (h.spans s).sizeClass o (encode k m) (h.spans s).nrFreeObjects = .ok h' ∧
      (∃ a b, h'.board hot = ((h.board hot).revive s caller).settleIn cfg.cleanupInFree
        cfg.reuseThreshold m s a b) ∧ Relabels h h' s := by
  subst ho
  obtain ⟨o,m',hr,hm'⟩ := revive_ok cfg hot hcaller he
  have hboard := board_revive hot he hm'
  have hspan : (h.setSpan s { h.spans s with owner := o, epoch := encode k m' }).spans s =
      { h.spans s with owner := o, epoch := encode k m' } := by simp [setSpan]
  have hrel : Relabels h (h.setSpan s { h.spans s with owner := o, epoch := encode k m' }) s :=
    relabels_setSpan rfl rfl rfl ⟨k,m',rfl⟩
  have hgone := Board.not_gone_revive (s := s) hc
  rw [← hboard] at hi hat hgone
  have hmark : m' = m ∨ m = .reusable ∧ m' = .floating := by
    rcases hm' with ⟨_,rfl,_⟩ | ⟨hg,rfl,_⟩
    · exact .inl rfl
    · rcases hm with rfl | rfl | hm
      · exact .inl rfl
      · exact .inr ⟨rfl,rfl⟩
      · exact absurd hg hm
  obtain ⟨h',hs,h1,h2⟩ := settle_ok (m := m) hi hat hk hw (by rw [hspan]) hmark hgone hlimit
  rw [hboard] at h1
  rw [hspan] at hs
  exact ⟨o,_,h',hr,hs,⟨_,_,h1⟩,hrel.trans h2 rfl⟩

/-- `Core::Free` of a live block. -/
theorem free_ok (hi : Inv cfg.reuseThreshold h hot live)
    (hk : h.Known s) (hc : ¬ (h.board hot).Gone (h.cores c).id) (hcore : (h.board hot).Live c)
    (hc0 : c ≠ 0) (hlimit : h.pool.limit ≠ 0) (hp : p ∈ live s) :
    ∃ h', h.free cfg c p = .ok h' ∧
      (∃ a b, h'.board hot = (h.board hot).freedIn cfg.cleanupInFree cfg.reuseThreshold s
        (h.cores c).id a b) ∧
      Inv cfg.reuseThreshold h' hot (Function.update live s ((live s).erase p)) ∧
      SameThreads h h' ∧ h'.hot = h.hot := by
  have hnp : ¬ h.pool.Holds s := by
    intro hpool
    rw [hi.pooled s hpool] at hp
    simp at hp
  obtain ⟨w,hat⟩ := hi.board.placed s hk
  have hw : ∀ a b, w ≠ .pooled a b := fun a b he => hnp ⟨a,b,(hat.pool a b).mpr he⟩
  obtain ⟨L,R,j,hsl⟩ := hi.slots s hk hnp
  have hslot := hsl.mem_live hp
  have hspan : fromObject p = s := fromObject_of_slot (hi.isVirtualSpan hk) hsl.objectClass hslot
    le_rfl (Nat.lt_add_of_pos_right (by have := classToSize_pos hsl.objectClass; omega))
  obtain ⟨i,_,rfl⟩ := mem_slots.mp hslot
  obtain ⟨k,m,he⟩ := hi.epoch s
  rcases hr : (h.spans s).free h.mem (blockStart s (h.spans s).sizeClass i) (h.cores c).id with ⟨y,mem,f⟩
  obtain ⟨⟨L',R',hslots⟩,hmem,hcount,hfree,hcard,howner,hepoch,hclass⟩ :=
    free_spec hsl (hi.isVirtualSpan hk) (h.cores c).id hp hr
  obtain ⟨g,hg⟩ : ∃ g : Heap, g = { h.setSpan s y with mem := mem } := ⟨_,rfl⟩
  have hgs : g.spans s = y := by simp [hg, setSpan]
  have hboard : g.board hot = (h.board hot).setFree s (((h.board hot).card s).free + 1) := by
    rw [hg]
    refine .trans (board_setSpan h hot s y) ?_
    rw [hcard]
    rfl
  obtain ⟨hib,hatb⟩ := hi.board.taken (h.cores c).id hk hat hw
  rw [← hboard] at hib hatb
  have hmark : ((h.board hot).card s).mark = m := by
    rw [show ((h.board hot).card s).mark = mark (h.spans s).epoch from rfl, he, mark_encode]
  have hgone : m = .floating ∨ m = .reusable ∨ ¬ (g.board hot).Gone (h.spans s).owner := by
    rw [hboard, ← hmark]
    exact hat.mark_or_not_gone hi.board hw
  have hcaller : (h.cores c).id.value ≠ 0 := by
    rw [show (h.cores c).id.value = c from hi.board.coreId c hcore]
    exact hc0
  obtain ⟨o,h2,h',hrev,hset,⟨a,b,hfinal⟩,hrel⟩ := revive_settle hib hatb
    (by rw [hg]; exact hk) hw (by rw [hgs]; exact howner) (by rw [hgs, hepoch]; exact he) hgone
    (by rw [hboard]; exact hc) hcaller (by rw [hg]; exact hlimit)
  have hcall : h.free cfg c (blockStart s (h.spans s).sizeClass i) = .ok h' := by
    have hlive : ((h.cores c).id != kTerminated) = true := bne_iff_ne.mpr hcore
    rw [free, scallocAssert_true cfg _ hlive]
    simp only [bind, Except.bind, hspan, freedAddress_blockStart, hr]
    rw [← hg, he, show ((h.setSpan s y).cores c).id = (h.cores c).id from rfl, hrev]
    dsimp only
    rw [hcount, ← hclass, ← hgs]
    exact hset
  have hfreed : h'.board hot = (h.board hot).freedIn cfg.cleanupInFree cfg.reuseThreshold s
      (h.cores c).id a b := by
    rw [hfinal, hboard, Board.freedIn, hmark]
  have hlive : ∀ x, x ≠ s → Function.update live s
      ((live s).erase (blockStart s (h.spans s).sizeClass i)) x = live x :=
    fun x hx => Function.update_of_ne hx _ _
  have hthreads : SameThreads h g := by
    rw [hg]
    exact ⟨fun _ => rfl,rfl,rfl,rfl,⟨rfl,rfl⟩⟩
  refine ⟨h',hcall,⟨a,b,hfreed⟩,?_,hthreads.trans hrel.threads,by rw [hrel.hot, hg]; rfl⟩
  have hsame : h'.objectSpace = h.objectSpace := by rw [hrel.arena, hg]; rfl
  refine hi.touch (s := s) ?_ ?_ ?_ ?_ ?_ ?_ hrel.epoch ?_ ?_
  · rw [hfreed]
    exact hi.board.freedIn _ hk hat hw hc
  · rw [hsame]
    exact hi.arena
  · intro x
    rw [Known, hsame]
    exact ⟨.inr,fun hx => hx.elim (fun he => he ▸ hk) id⟩
  · intro x hx
    refine ⟨?_,hlive x hx⟩
    rw [hrel.spans x hx, hg]
    simp [setSpan, hx]
  · refine hmem.trans ?_
    have hm := hrel.mem
    rwa [show g.mem = mem by rw [hg]] at hm
  · intro x hx
    rw [hrel.pool x hx, hg]
    rfl
  · intro hpool
    by_contra hne
    rw [Function.update_self] at hne
    have hcount' : ((h.board hot).card s).free + 1 ≠
        classToObjects ((h.board hot).card s).sizeClass := by
      have hn := hslots.nrFreeObjects_eq
      have hpos : 0 < ((live s).erase (blockStart s (h.spans s).sizeClass i)).length :=
        List.length_pos_iff.mpr hne
      rw [hfree, hclass] at hn
      rw [show ((h.board hot).card s).free = (h.spans s).nrFreeObjects from rfl,
        show ((h.board hot).card s).sizeClass = (h.spans s).sizeClass from rfl]
      omega
    have hp' : (h'.board hot).pool = (h.board hot).pool := by
      rw [hfreed, Board.freedIn, Board.settleIn_pool, Board.revive_pool]
      · rfl
      · rw [Board.revive_free, Board.revive_sizeClass]
        simpa [Board.setFree, Board.setCard] using hcount'
    obtain ⟨a',b',hx⟩ := hpool
    exact hnp ⟨a',b',by rw [show h.pool.spans = (h.board hot).pool from rfl, ← hp']; exact hx⟩
  · intro hnp'
    rw [Function.update_self, hrel.unpooled hnp', show g.mem = mem by rw [hg]]
    refine ⟨L',R',j,hslots.relabel ?_ ?_ ?_⟩
    · rw [hrel.sizeClass, hgs]
    · rw [hrel.locals, hgs]
    · rw [hrel.remotes, hgs]

end Heap
end Scalloc
