import Scalloc.Heap.Sweep

/-! # `Core::Allocate` never fails

The hot span serves the request, else its remote objects do, else a fetched span.
-/
namespace Scalloc
open ByteMemory Epoch

namespace Heap
variable {percent : ℕ} {cfg : Config} {h h' : Heap} {hot : ℕ → ℕ → ℕ} {live : ℕ → List ℕ}
  {c sc s p : ℕ}

/-- The slots of the core records themselves play no role in the invariant. -/
theorem Inv.setHot (hi : Inv percent h hot live) (c sc s : ℕ) :
    Inv percent (h.setHot c sc s) hot live where
  board := by
    rw [board_setHot]
    exact hi.board
  arena := hi.arena
  epoch := hi.epoch
  fresh := hi.fresh
  pooled := hi.pooled
  slots := hi.slots

theorem update₂_update₂ {α : Type*} (f : ℕ → ℕ → α) (a b : ℕ) (v v' : α) :
    update₂ (update₂ f a b v) a b v' = update₂ f a b v' := by
  funext a' b'
  simp only [update₂]
  split <;> rfl

/-- What `Core::Allocate` does when it returns the object `p` of the span `s`. -/
structure Allocated (clean : Bool) (percent : ℕ) (h h' : Heap) (live : ℕ → List ℕ)
    (c sc p s : ℕ) : Prop where
  slot : p ∈ slots s sc
  fresh : p ∉ live s
  known : h'.Known s
  sizeClass : (h'.spans s).sizeClass = sc
  serves : (h.board h.hot).ServesIn clean percent c sc (h'.board h'.hot)
  direct : (h.cores c).hotSpan sc ≠ 0 → (h.spans ((h.cores c).hotSpan sc)).nrLocalObjects ≠ 0 →
    h'.board h'.hot = (h.board h.hot).setFree ((h.cores c).hotSpan sc)
      (((h.board h.hot).card ((h.cores c).hotSpan sc)).free - 1)
  given : (h.cores c).hotSpan sc ≠ 0 → (h.spans ((h.cores c).hotSpan sc)).nrLocalObjects = 0 →
    (h.spans ((h.cores c).hotSpan sc)).nrFreeObjects ≤ classToReuseThreshold percent sc →
    ∃ B, ((h.board h.hot).retire c sc).Renews clean c sc s B ∧
      h'.board h'.hot = B.setFree s ((B.card s).free - 1)
  inv : Inv percent h' h'.hot (Function.update live s (p :: live s))
  threads : SameThreads h h'

/-- A span with local objects serves the request from the slot that it is put into. -/
theorem allocateFrom_slot {g : Heap} (hinv : Inv percent g (update₂ hot c sc s) live)
    (hk : g.Known s) (hat : (g.board (update₂ hot c sc s)).At percent s (.hot c sc))
    (hlocals : 0 < (g.spans s).nrLocalObjects) (hhot : update₂ g.hot c sc s = update₂ hot c sc s) :
    ∃ p h', (g.setHot c sc s).allocateFrom c sc = (p,h') ∧ p ∈ slots s sc ∧ p ∉ live s ∧
      h'.Known s ∧ (h'.spans s).sizeClass = sc ∧ h'.hot = update₂ hot c sc s ∧
      h'.board h'.hot = (g.board (update₂ hot c sc s)).setFree s
        (((g.board (update₂ hot c sc s)).card s).free - 1) ∧
      Inv percent h' h'.hot (Function.update live s (p :: live s)) ∧ SameThreads g h' := by
  obtain ⟨p,h',hfrom,hslot,hfresh,hboard,hinv',hthreads,hhot'⟩ := allocateFrom_ok
    (hinv.setHot c sc s) (c := c) (by exact hk) (by rw [board_setHot]; exact hat)
    (by simp [setHot, setCore]) (by exact hlocals.ne')
  rw [board_setHot] at hboard
  have hh : h'.hot = update₂ hot c sc s := by rw [hhot', hot_setHot, hhot]
  refine ⟨p,h',hfrom,hslot,hfresh,?_,?_,hh,?_,?_,(sameThreads_setHot g c sc s).trans hthreads⟩
  · have : (h'.board (update₂ hot c sc s)).known s := by
      rw [hboard]
      exact hk
    exact this
  · have : ((h'.board (update₂ hot c sc s)).card s).sizeClass = sc := by
      rw [hboard]
      simpa [Board.setFree, Board.setCard] using hat.allowed.2.1
    exact this
  · rw [hh]
    exact hboard
  · rw [hh]
    exact hinv'

theorem allocateFrom_empty (hi : Inv percent h hot live) (hk : h.Known s)
    (hnp : ¬ h.pool.Holds s) (hslot : (h.cores c).hotSpan sc = s)
    (hlocal : (h.spans s).nrLocalObjects = 0) : h.allocateFrom c sc = (0,h) := by
  obtain ⟨L,R,j,hsl⟩ := hi.slots s hk hnp
  obtain ⟨L',j',_,_,hsl'⟩ | ⟨hpop,_⟩ := hsl.allocate
  · have hlen := hsl'.len
    have hl : ((h.spans s).allocate h.mem).2.localFreeList.len =
        (h.spans s).localFreeList.len - 1 := by
      have h1 := hsl'.nrFreeObjects_eq
      have h2 := hsl.nrFreeObjects_eq
      rw [allocate_header, List.length_cons] at h1
      simp only [Span.nrFreeObjects, Span.nrLocalObjects, Span.nrRemoteObjects] at h1 h2
      push_cast at h1
      linarith
    have hz : (h.spans s).localFreeList.len = 0 := hlocal
    omega
  · simp [allocateFrom, hslot, hpop, setSpan]

theorem Inv.hot_at (hi : Inv percent h h.hot live) (hne : (h.cores c).hotSpan sc ≠ 0) :
    h.Known ((h.cores c).hotSpan sc) ∧
      (h.board h.hot).At percent ((h.cores c).hotSpan sc) (.hot c sc) ∧
      ¬ h.pool.Holds ((h.cores c).hotSpan sc) := by
  have hk := hi.board.known_of_hot (show (h.board h.hot).hot c sc ≠ 0 from hne)
  obtain ⟨w,hat⟩ := hi.board.placed _ hk
  obtain rfl := (hat.hot c sc).mp rfl
  refine ⟨hk,hat,?_⟩
  rintro ⟨a,b,hp⟩
  cases (hat.pool a b).mp hp

/-- An allocation that the hot span itself serves. -/
theorem allocated_direct (clean : Bool) (hi : Inv percent h h.hot live) (hne : (h.cores c).hotSpan sc ≠ 0)
    (hlocal : (h.spans ((h.cores c).hotSpan sc)).nrLocalObjects ≠ 0) :
    ∃ p h', h.allocateFrom c sc = (p,h') ∧ p ≠ 0 ∧
      Allocated clean percent h h' live c sc p ((h.cores c).hotSpan sc) := by
  obtain ⟨hk,hat,_⟩ := hi.hot_at hne
  obtain ⟨p,h',hfrom,hslot,hfresh,hboard,hinv,hthreads,hhot⟩ := allocateFrom_ok hi hk hat rfl hlocal
  refine ⟨p,h',hfrom,slot_ne_zero hslot,hslot,hfresh,?_,?_,?_,?_,?_,?_,hthreads⟩
  · have : (h'.board h.hot).known ((h.cores c).hotSpan sc) := by
      rw [hboard]
      exact hk
    exact this
  · have : ((h'.board h.hot).card ((h.cores c).hotSpan sc)).sizeClass = sc := by
      rw [hboard]
      simpa [Board.setFree, Board.setCard] using hat.allowed.2.1
    exact this
  · rw [hhot, hboard]
    exact .direct hne
  · intro _ _
    rw [hhot, hboard]
  · intro _ hzero
    exact absurd hzero hlocal
  · rw [hhot]
    exact hinv

/-- What a call of `Core::Allocate` for class `sc` returns. -/
def ReturnsObject (clean : Bool) (percent : ℕ) (h : Heap) (live : ℕ → List ℕ) (c sc : ℕ)
    (r : Result (Allocation × Heap)) : Prop :=
  Returns r fun r => ∃ p s, r.1 = .object p ∧ p ≠ 0 ∧ Allocated clean percent h r.2 live c sc p s

/-- The remote objects of the hot span serve the request. -/
theorem allocateHot_move (clean : Bool) (cfg : Config) (hi : Inv percent h h.hot live)
    (hne : (h.cores c).hotSpan sc ≠ 0)
    (hlocal : (h.spans ((h.cores c).hotSpan sc)).nrLocalObjects = 0)
    (hmany : (classToReuseThreshold percent sc : ℤ) <
      (h.spans ((h.cores c).hotSpan sc)).nrFreeObjects) :
    ReturnsObject clean percent h live c sc (do
      let h ← h.moveRemote cfg ((h.cores c).hotSpan sc)
      let (obj,h) := h.allocateFrom c sc
      return (.object obj,h)) := by
  obtain ⟨hk,hat,hnp⟩ := hi.hot_at hne
  obtain ⟨g,hmove,hig,hshift,_,_,hall⟩ := moveRemote_ok cfg hi hk hnp
  have hhot : g.hot = h.hot := by
    unfold Heap.hot
    rw [hshift.cores]
  have hslot : (g.cores c).hotSpan sc = (h.cores c).hotSpan sc := by rw [hshift.cores]
  have hpos : (g.spans ((h.cores c).hotSpan sc)).nrLocalObjects ≠ 0 := by
    rw [hall]
    omega
  rw [← hhot] at hig
  obtain ⟨p,h2,hfrom,hp0,hall2⟩ := allocated_direct clean hig (c := c) (by rw [hslot]; exact hne)
    (by rw [hslot]; exact hpos)
  have hb : g.board g.hot = h.board h.hot := by rw [hhot, hshift.board]
  refine .inr ⟨(.object p,h2),?_,p,_,rfl,hp0,hall2.slot,hall2.fresh,hall2.known,hall2.sizeClass,
    hb ▸ hall2.serves,fun _ hl => absurd hlocal hl,
    fun _ _ hfew => absurd hmany (not_lt.mpr hfew),hall2.inv,hshift.threads.trans hall2.threads⟩
  rw [hmove]
  change Except.ok (Allocation.object (g.allocateFrom c sc).1,(g.allocateFrom c sc).2) = _
  rw [hfrom]

/-- `NewMarkFloating` of the hot span, whose slot counts as empty from there on. -/
theorem retire_ok {g : Heap} (hi : Inv percent h h.hot live) (hne : (h.cores c).hotSpan sc ≠ 0)
    (hg : g = h.setEpoch ((h.cores c).hotSpan sc)
      (newMarkFloating (h.spans ((h.cores c).hotSpan sc)).epoch)) :
    g.board (update₂ h.hot c sc 0) = (h.board h.hot).retire c sc ∧
      Inv percent g (update₂ h.hot c sc 0) live ∧ Relabels h g ((h.cores c).hotSpan sc) := by
  obtain ⟨hk,_⟩ := hi.hot_at hne
  obtain ⟨k,m,he⟩ := hi.epoch ((h.cores c).hotSpan sc)
  rw [he, newMarkFloating_encode] at hg
  have hrel : Relabels h g ((h.cores c).hotSpan sc) :=
    hg ▸ relabels_setSpan rfl rfl rfl ⟨k,.floating,rfl⟩
  have hboard : g.board (update₂ h.hot c sc 0) = (h.board h.hot).retire c sc := by
    have hb : g.board h.hot = _ := hg ▸ board_setEpoch h h.hot ((h.cores c).hotSpan sc) k .floating
    calc g.board (update₂ h.hot c sc 0)
        = { g.board h.hot with hot := update₂ h.hot c sc 0 } := rfl
      _ = (h.board h.hot).retire c sc := by
        rw [hb]
        rfl
  have hinv : (g.board (update₂ h.hot c sc 0)).Inv percent := by
    rw [hboard]
    exact hi.board.retire hne
  exact ⟨hboard,hi.relabel hk hrel hinv (by rw [hg]; rfl) (by rw [hg]; rfl),hrel⟩

/-- The hot span is given up and another one serves the request. -/
theorem allocateHot_next (hi : Inv cfg.reuseThreshold h h.hot live) (hc : (h.board h.hot).Live c) (hc0 : c ≠ 0)
    (hlimit : h.pool.limit ≠ 0) (hsc : IsObjectClass sc) (hne : (h.cores c).hotSpan sc ≠ 0)
    (hlocal : (h.spans ((h.cores c).hotSpan sc)).nrLocalObjects = 0)
    (hfew : (h.spans ((h.cores c).hotSpan sc)).nrFreeObjects ≤
      classToReuseThreshold cfg.reuseThreshold sc) (rand : ℕ → ℕ) :
    ReturnsObject cfg.cleanupInFree cfg.reuseThreshold h live c sc (do
      let s := (h.cores c).hotSpan sc
      let h := h.setEpoch s (newMarkFloating (h.spans s).epoch)
      let (s,h) ← h.getSpan cfg c sc rand
      let h := h.setHot c sc s
      if s = 0 then return (.object 0,h)
      else
        let (obj,h) := h.allocateFrom c sc
        return (.object obj,h)) := by
  dsimp only
  obtain ⟨g,hg⟩ : ∃ g : Heap, g = h.setEpoch ((h.cores c).hotSpan sc)
    (newMarkFloating (h.spans ((h.cores c).hotSpan sc)).epoch) := ⟨_,rfl⟩
  rw [← hg]
  obtain ⟨hboard,hig,hrel⟩ := retire_ok hi hne hg
  have hlive : (g.board (update₂ h.hot c sc 0)).Live c := by
    rw [hboard]
    exact hc
  refine (getSpan_ok cfg hig hlive hc0 (by rw [hrel.threads.backends.1]; exact hlimit) hsc
    (by simp) rand).bind fun r hren => ?_
  obtain ⟨s,g'⟩ := r
  have hg' : update₂ g'.hot c sc s = update₂ (update₂ h.hot c sc 0) c sc s := by
    rw [hren.hot, hrel.hot, update₂_update₂]
  obtain ⟨p,h2,hfrom,hslot,hfresh,hk2,hclass,hhot2,hboard2,hinv2,hthreads⟩ :=
    allocateFrom_slot hren.inv hren.known hren.at_hot hren.locals hg'
  have hs0 : s ≠ 0 := hren.inv.board.ne_zero hren.known
  refine .inr ⟨(.object p,h2),?_,p,s,rfl,slot_ne_zero hslot,hslot,hfresh,hk2,hclass,?_,
    fun _ hl => absurd hlocal hl,fun _ _ _ => ⟨_,hboard ▸ hren.renews,hboard2⟩,hinv2,
    (hrel.threads.trans hren.threads).trans hthreads⟩
  · dsimp only
    rw [if_neg hs0, hfrom]
    rfl
  · rw [hboard2]
    exact .next hne hfew (hboard ▸ hren.renews)

/-- `Core::Allocate` with a hot span in place. -/
theorem allocateHot_ok (hi : Inv cfg.reuseThreshold h h.hot live) (hc : (h.board h.hot).Live c) (hc0 : c ≠ 0)
    (hlimit : h.pool.limit ≠ 0) (hsc : IsObjectClass sc) (hne : (h.cores c).hotSpan sc ≠ 0)
    (rand : ℕ → ℕ) :
    ReturnsObject cfg.cleanupInFree cfg.reuseThreshold h live c sc (h.allocateHot cfg c sc rand) := by
  obtain ⟨hk,hat,hnp⟩ := hi.hot_at hne
  by_cases hlocal : (h.spans ((h.cores c).hotSpan sc)).nrLocalObjects = 0
  · have hempty := allocateFrom_empty hi hk hnp rfl hlocal
    simp only [allocateHot, hempty, ne_eq, not_true, if_false]
    split
    · next hmany => exact allocateHot_move cfg.cleanupInFree cfg hi hne hlocal hmany
    · next hfew => exact allocateHot_next hi hc hc0 hlimit hsc hne hlocal (not_lt.mp hfew) rand
  · obtain ⟨p,h2,hfrom,hp0,hall⟩ := allocated_direct cfg.cleanupInFree hi hne hlocal
    refine .inr ⟨(.object p,h2),?_,p,_,rfl,hp0,hall⟩
    simp only [allocateHot, hfrom, ne_eq, hp0, not_false_eq_true, if_true]
    rfl

/-- `Core::Allocate` of a small or medium size gets a hot span first if there is none. -/
theorem allocate_eq (cfg : Config) (hc : (h.cores c).id ≠ kTerminated) {size : ℕ}
    (hsc : IsObjectClass (sizeToClass size)) (rand : ℕ → ℕ → ℕ) :
    h.allocate cfg c size rand =
      if (h.cores c).hotSpan (sizeToClass size) = 0 then
        h.getSpan cfg c (sizeToClass size) (rand 0) >>= fun r =>
          (r.2.setHot c (sizeToClass size) r.1).allocateHot cfg c (sizeToClass size) (rand 1)
      else h.allocateHot cfg c (sizeToClass size) (rand 1) := by
  have hlive : ((h.cores c).id != kTerminated) = true := bne_iff_ne.mpr hc
  have hsc0 : sizeToClass size ≠ 0 := fun he => by
    have := hsc.1
    omega
  rw [allocate, scallocAssert_true cfg _ hlive]
  change (if _ then if _ then _ else _ else _) = _
  rw [if_neg hsc0]

theorem allocate_ok (hi : Inv cfg.reuseThreshold h h.hot live) (hc : (h.board h.hot).Live c) (hc0 : c ≠ 0)
    (hlimit : h.pool.limit ≠ 0) {size : ℕ} (h1 : 0 < size) (h2 : size ≤ kMaxMediumSize)
    (rand : ℕ → ℕ → ℕ) :
    ReturnsObject cfg.cleanupInFree cfg.reuseThreshold h live c (sizeToClass size) (h.allocate cfg c size rand) := by
  have hsc := sizeToClass_isObjectClass h1 h2
  rw [allocate_eq cfg hc hsc]
  split
  · next h0 =>
    refine (getSpan_ok cfg hi hc hc0 hlimit hsc h0 (rand 0)).bind fun r hren => ?_
    obtain ⟨s,g⟩ := r
    obtain ⟨p,h2,hfrom,hslot,hfresh,hk2,hclass,hhot2,hboard2,hinv2,hthreads⟩ :=
      allocateFrom_slot hren.inv hren.known hren.at_hot hren.locals (by rw [hren.hot])
    have hp0 := slot_ne_zero hslot
    refine .inr ⟨(.object p,h2),?_,p,s,rfl,hp0,hslot,hfresh,hk2,hclass,?_,fun hne => absurd h0 hne,
      fun hne => absurd h0 hne,hinv2,hren.threads.trans hthreads⟩
    · simp only [allocateHot, hfrom, ne_eq, hp0, not_false_eq_true, if_true]
      rfl
    · rw [hboard2]
      exact .first h0 hren.renews
  · next h0 => exact allocateHot_ok hi hc hc0 hlimit hsc h0 (rand 1)

end Heap
end Scalloc
