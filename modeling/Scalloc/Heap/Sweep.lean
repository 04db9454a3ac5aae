import Scalloc.Heap.Acquire
import Scalloc.Heap.Release

/-! # The second loop of `GetSpan`

A build that does not clean up in `Core::Free` empties the deque of a core in `GetSpan`. Spans
without live objects go to the pool; the others are taken out of the deque and left there with
the mark they had in it.
-/
namespace Scalloc
open ByteMemory Epoch

namespace Board

/-- A span leaves its deque, for the pool if it has no live object. -/
def cleanOne (B : Board) (c sc x a b : ℕ) : Board :=
  if (B.card x).free = classToObjects (B.card x).sizeClass then (B.unlink c sc x).toPool x a b
  else B.unlink c sc x

/-- What the loop makes of the board. -/
structure Swept (B B' : Board) (c sc : ℕ) : Prop where
  known : B'.known = B.known
  ids : B'.ids = B.ids
  hot : B'.hot = B.hot
  nodes : (B'.deque c sc).nodes = []
  other : ∀ x, x ∉ (B.deque c sc).nodes → B'.card x = B.card x ∧
    ∀ a b, x ∈ B'.pool a b ↔ x ∈ B.pool a b
  full : ∀ x ∈ (B.deque c sc).nodes, (B.card x).free = classToObjects (B.card x).sizeClass →
    B'.Pooled x ∧ (B'.card x).sizeClass = (B.card x).sizeClass
  dropped : ∀ x ∈ (B.deque c sc).nodes, (B.card x).free ≠ classToObjects (B.card x).sizeClass →
    B'.card x = { B.card x with link := none } ∧ ¬ B'.Pooled x

/-- `GetSpan` in either build, for a slot that counts as empty. -/
inductive Renews (clean : Bool) (B : Board) (c sc s : ℕ) : Board → Prop
  | fetched {B' : Board} (hclean : clean = true) (hf : B.Fetches c sc s B') :
    Renews clean B c sc s B'
  | swept {B' B'' : Board} (hclean : clean = false) (hf : B.Fetches c sc s B')
    (hs : B'.Swept B'' c sc) : Renews clean B c sc s B''

/-- `Allocate` of one object of class `sc` by core `c` in either build. -/
inductive ServesIn (clean : Bool) (percent : ℕ) (B : Board) (c sc : ℕ) : Board → Prop
  | direct (hne : B.hot c sc ≠ 0) :
    ServesIn clean percent B c sc (B.setFree (B.hot c sc) ((B.card (B.hot c sc)).free - 1))
  | first {s : ℕ} {B' : Board} (h0 : B.hot c sc = 0) (hr : B.Renews clean c sc s B') :
    ServesIn clean percent B c sc (B'.setFree s ((B'.card s).free - 1))
  | next {s : ℕ} {B' : Board} (hne : B.hot c sc ≠ 0)
    (ht : (B.card (B.hot c sc)).free ≤ classToReuseThreshold percent sc)
    (hr : (B.retire c sc).Renews clean c sc s B') :
    ServesIn clean percent B c sc (B'.setFree s ((B'.card s).free - 1))

variable {percent : ℕ} {B B' B'' : Board} {c sc s x : ℕ} {l : List ℕ}

theorem Renews.fetches (h : Renews true B c sc s B') : Fetches B c sc s B' := by
  cases h with
  | fetched _ hf => exact hf
  | swept hclean _ _ => cases hclean

/-- With the cleanup in `Core::Free` there is no second loop. -/
theorem ServesIn.serves (h : ServesIn true percent B c sc B') : Serves percent B c sc B' := by
  cases h with
  | direct hne => exact .direct hne
  | first h0 hr => exact .first h0 hr.fetches
  | next hne ht hr => exact .next hne ht hr.fetches

theorem Swept.sizeClass (h : Swept B B' c sc) (x : ℕ) :
    (B'.card x).sizeClass = (B.card x).sizeClass := by
  by_cases hx : x ∈ (B.deque c sc).nodes
  · by_cases hf : (B.card x).free = classToObjects (B.card x).sizeClass
    · exact (h.full x hx hf).2
    · rw [(h.dropped x hx hf).1]
  · rw [(h.other x hx).1]

/-- A fetch leaves the spans outside the pool in their classes. -/
theorem Fetches.keeps (hf : B.Fetches c sc s B') (hk : B.known x) (hp : ¬ B.Pooled x) :
    B'.known x ∧ (B'.card x).sizeClass = (B.card x).sizeClass := by
  cases hf with
  | reuse hl =>
    refine ⟨hk,?_⟩
    by_cases hx : x = s <;> simp [Board.reuse, setCard, hx]
  | fresh hl hs hks =>
    have hx : x ≠ s := fun he => hks (he ▸ hk)
    exact ⟨.inr hk,by simp [Board.adopt, hx]⟩
  | @recycled a b rest hl hpool =>
    have hx : x ≠ s := fun he => hp ⟨a,b,by simp [hpool, he]⟩
    exact ⟨.inr hk,by simp [Board.adopt, hx]⟩

theorem Renews.keeps {clean : Bool} (hr : B.Renews clean c sc s B') (hk : B.known x)
    (hp : ¬ B.Pooled x) : B'.known x ∧ (B'.card x).sizeClass = (B.card x).sizeClass := by
  cases hr with
  | fetched _ hf => exact hf.keeps hk hp
  | swept _ hf hs =>
    rw [hs.known, hs.sizeClass]
    exact hf.keeps hk hp

theorem setFree_sizeClass (f : ℤ) : ((B.setFree s f).card x).sizeClass = (B.card x).sizeClass := by
  by_cases hx : x = s <;> simp [setFree, setCard, hx]

theorem ServesIn.keeps {clean : Bool} (hs : B.ServesIn clean percent c sc B') (hk : B.known x)
    (hp : ¬ B.Pooled x) : B'.known x ∧ (B'.card x).sizeClass = (B.card x).sizeClass := by
  cases hs with
  | direct hne => exact ⟨hk,setFree_sizeClass _⟩
  | first h0 hr =>
    rw [setFree_sizeClass]
    exact hr.keeps hk hp
  | next hne ht hr =>
    have hretire : ((B.retire c sc).card x).sizeClass = (B.card x).sizeClass := by
      by_cases hx : x = B.hot c sc <;> simp [retire, setCard, hx]
    rw [setFree_sizeClass, ← hretire]
    exact hr.keeps (by exact hk) (by exact hp)

theorem Swept.refl (hl : (B.deque c sc).nodes = []) : Swept B B c sc where
  known := rfl
  ids := rfl
  hot := rfl
  nodes := hl
  other := fun _ _ => ⟨rfl,fun _ _ => Iff.rfl⟩
  full := fun x hx => by simp [hl] at hx
  dropped := fun x hx => by simp [hl] at hx

theorem erase_concat {l : List ℕ} (hn : (l ++ [x]).Nodup) : (l ++ [x]).erase x = l := by
  have hx : x ∉ l := fun hm => (List.nodup_append.mp hn).2.2 x hm x (by simp) rfl
  rw [List.erase_append_right _ hx]
  simp

/-- The last span of a deque is cleaned up, and the rest is swept. -/
theorem Inv.swept_concat {a b : ℕ} (h : Inv percent B) (hl : (B.deque c sc).nodes = l ++ [x])
    (hs : Swept (B.cleanOne c sc x a b) B' c sc) : Swept B B' c sc := by
  have hn := h.nodup c sc
  rw [hl] at hn
  have hx : x ∉ l := fun hm => (List.nodup_append.mp hn).2.2 x hm x (by simp) rfl
  have hnodes : ((B.cleanOne c sc x a b).deque c sc).nodes = l := by
    unfold cleanOne
    split <;> simp [Board.toPool, Board.unlink, setCard, hl, erase_concat hn]
  have hcard : ∀ y, y ≠ x → (B.cleanOne c sc x a b).card y = B.card y := by
    intro y hy
    unfold cleanOne
    split <;> simp [Board.toPool, Board.unlink, setCard, hy]
  have hpool : ∀ y, y ≠ x → ∀ a' b', y ∈ (B.cleanOne c sc x a b).pool a' b' ↔ y ∈ B.pool a' b' := by
    intro y hy a' b'
    unfold cleanOne
    split
    · simp only [Board.toPool, Board.unlink, setCard, update₂_apply]
      split
      · next he => simp [hy, he.1, he.2]
      · rfl
    · rfl
  have hfixed : (B.cleanOne c sc x a b).known = B.known ∧ (B.cleanOne c sc x a b).ids = B.ids ∧
      (B.cleanOne c sc x a b).hot = B.hot := by
    unfold cleanOne
    split <;> exact ⟨rfl,rfl,rfl⟩
  obtain ⟨hcx,hpx⟩ := hs.other x (by rw [hnodes]; exact hx)
  refine ⟨hs.known.trans hfixed.1,hs.ids.trans hfixed.2.1,hs.hot.trans hfixed.2.2,hs.nodes,?_,?_,?_⟩
  · intro y hy
    rw [hl, List.mem_append, not_or, List.mem_singleton] at hy
    obtain ⟨h1,h2⟩ := hs.other y (by rw [hnodes]; exact hy.1)
    exact ⟨h1.trans (hcard y hy.2),fun a' b' => (h2 a' b').trans (hpool y hy.2 a' b')⟩
  · intro y hy hf
    by_cases hyx : y = x
    · subst hyx
      have heq : B.cleanOne c sc y a b = (B.unlink c sc y).toPool y a b := if_pos hf
      refine ⟨⟨a,b,(hpx a b).mpr ?_⟩,?_⟩
      · rw [heq]
        simp [Board.toPool]
      · rw [hcx, heq]
        simp [Board.toPool, Board.unlink, setCard]
    · have hyl : y ∈ l := by
        rw [hl, List.mem_append, List.mem_singleton] at hy
        exact hy.resolve_right hyx
      have hr := hs.full y (by rw [hnodes]; exact hyl)
      rw [hcard y hyx] at hr
      exact hr hf
  · intro y hy hf
    by_cases hyx : y = x
    · subst hyx
      have heq : B.cleanOne c sc y a b = B.unlink c sc y := if_neg hf
      refine ⟨?_,?_⟩
      · rw [hcx, heq]
        simp [Board.unlink, setCard]
      · rintro ⟨a',b',hm⟩
        have hm' := (hpx a' b').mp hm
        rw [heq] at hm'
        obtain ⟨w,hw⟩ := h.placed y (h.known_of_mem hy)
        obtain rfl := (hw.deque c sc).mp hy
        cases (hw.pool a' b').mp hm'
    · have hyl : y ∈ l := by
        rw [hl, List.mem_append, List.mem_singleton] at hy
        exact hy.resolve_right hyx
      have hr := hs.dropped y (by rw [hnodes]; exact hyl)
      rw [hcard y hyx] at hr
      exact hr hf

end Board

namespace Heap
variable {percent : ℕ} {cfg : Config} {h h' : Heap} {hot : ℕ → ℕ → ℕ} {live : ℕ → List ℕ}
  {c sc s x : ℕ} {l : List ℕ}

/-- A span without live objects goes to the pool. -/
theorem Inv.toPool {g : Heap} {a b : ℕ} (hi : Inv percent h hot live) (hk : h.Known x)
    (hat : (h.board hot).At percent x .loose) (hrel : Relabels h g x)
    (hboard : g.board hot = (h.board hot).toPool x a b) (hlive : live x = []) :
    Inv percent g hot live := by
  refine hi.touch (s := x) ?_ ?_ ?_ (fun y hy => ⟨hrel.spans y hy,rfl⟩) hrel.mem hrel.pool
    hrel.epoch (fun _ => hlive) ?_
  · rw [hboard]
    exact (hi.board.toPool hk hat).1
  · rw [hrel.arena]
    exact hi.arena
  · intro y
    rw [Known, hrel.arena]
    exact ⟨.inr,fun hy => hy.elim (fun he => he ▸ hk) id⟩
  · intro hnp
    refine absurd ⟨a,b,?_⟩ hnp
    rw [show g.pool.spans = (g.board hot).pool from rfl, hboard]
    simp [Board.toPool]

/-- One round of the loop. -/
theorem cleanup_concat (hi : Inv percent h hot live) (hl : (h.deque c sc).nodes = l ++ [x])
    (hlimit : h.pool.limit ≠ 0) (cfg : Config) (fuel : ℕ) :
    ∃ g a b, h.cleanup cfg c sc (fuel + 1) = g.cleanup cfg c sc fuel ∧
      g.board hot = (h.board hot).cleanOne c sc x a b ∧ Inv percent g hot live ∧
      Relabels h g x := by
  have hmem : x ∈ ((h.board hot).deque c sc).nodes := by
    rw [show ((h.board hot).deque c sc).nodes = l ++ [x] from hl]
    simp
  have hk := hi.board.known_of_mem hmem
  have hx0 := hi.board.ne_zero hk
  obtain ⟨w,hw⟩ := hi.board.placed x hk
  obtain rfl := (hw.deque c sc).mp hmem
  obtain ⟨k,m,he⟩ := hi.epoch x
  have hm : m = .reusable := by
    have hmark : mark (h.spans x).epoch = .reusable := hw.allowed.2.2.2.1
    rwa [he, mark_encode] at hmark
  subst hm
  have hdrop : (h.deque c sc).nodes.dropLast = (h.deque c sc).nodes.erase x := by
    have hn : (h.deque c sc).nodes.Nodup := hi.board.nodup c sc
    rw [hl] at hn ⊢
    rw [Board.erase_concat hn, List.dropLast_concat]
  have hback := removeBack_some cfg (noNull_of_inv hi.board c sc)
    (show (h.deque c sc).nodes.getLast? = some x by simp [hl])
  rw [hdrop] at hback
  obtain ⟨g,hg⟩ : ∃ g : Heap, g = (h.setDeque c sc { h.deque c sc with
    nodes := (h.deque c sc).nodes.erase x }).setLink x none := ⟨_,rfl⟩
  rw [← hg] at hback
  have hrel : Relabels h g x := hg ▸ relabels_unlink (hi.epoch x) c sc
  have hboard : g.board hot = (h.board hot).unlink c sc x := hg ▸ board_unlink hot c sc
  have hspan : g.spans x = { h.spans x with spanLink := none } := by
    simp [hg, setLink, setSpan, setDeque, setCore]
  obtain ⟨hinv,hat⟩ := hi.board.unlink hk hw
  rw [← hboard] at hinv hat
  have hig := hi.relabel hk hrel hinv (by rw [hg]; rfl) (by rw [hg]; rfl)
  by_cases hf : (h.spans x).nrFreeObjects = classToObjects (h.spans x).sizeClass
  · have hsome : newMarkFull (encode k .reusable) (encode k .reusable) =
        some (encode (k + 1) .full) := newMarkFull_encode.mpr ⟨⟨rfl,rfl⟩,rfl⟩
    have hmark : Relabels g (g.setEpoch x (encode (k + 1) .full)) x :=
      relabels_setSpan rfl rfl rfl ⟨k + 1,.full,rfl⟩
    obtain ⟨g2,hdel,h2,hrel2⟩ := deleteSpan_relabels cfg hot hmark rfl rfl
      (by simp [setEpoch, setSpan]) (by simp [setEpoch, setSpan, hspan])
      (by rw [hrel.threads.backends.1]; exact hlimit)
    have hpool : g2.board hot = (g.board hot).toPool x (SpanPool.slot (g.spans x).sizeClass)
        ((g.spans x).owner.tag.toNat % g.pool.limit) := by
      rw [h2, board_setEpoch]
      rfl
    have hlive : live x = [] := by
      have hnp : ¬ h.pool.Holds x := by
        rintro ⟨a,b,hp⟩
        cases (hw.pool a b).mp hp
      have hcount := hi.free_eq hk hnp
      rw [hf] at hcount
      exact List.length_eq_zero_iff.mp (by omega)
    refine ⟨g2,SpanPool.slot (g.spans x).sizeClass,(g.spans x).owner.tag.toNat % g.pool.limit,
      ?_,?_,hig.toPool (by rw [Known, hrel.arena]; exact hk) hat hrel2 hpool hlive,
      hrel.trans hrel2 (by rw [hg]; rfl)⟩
    · have hnr : (g.spans x).nrFreeObjects = classToObjects (g.spans x).sizeClass := by
        rw [hspan]
        exact hf
      have hepoch : (g.spans x).epoch = encode k .reusable := by rw [hspan]; exact he
      simp only [cleanup, hback, bind, Except.bind, if_neg hx0, if_pos hnr, hepoch, hsome,
        Option.isSome_some, scallocAssert_true cfg _ rfl, Option.getD_some, hdel]
    · rw [hpool, hboard]
      exact (if_pos (show ((h.board hot).card x).free = _ from hf)).symm
  · refine ⟨g,0,0,?_,?_,hig,hrel⟩
    · have hnr : (g.spans x).nrFreeObjects ≠ classToObjects (g.spans x).sizeClass := by
        rw [hspan]
        exact hf
      simp only [cleanup, hback, bind, Except.bind, if_neg hx0, if_neg hnr]
    · rw [hboard]
      exact (if_neg (show ((h.board hot).card x).free ≠ _ from hf)).symm

/-- The whole loop. -/
theorem cleanup_ok (hi : Inv percent h hot live) (hlimit : h.pool.limit ≠ 0) (cfg : Config) {n : ℕ}
    (hn : (h.deque c sc).nodes.length = n) :
    ∃ h', h.cleanup cfg c sc n = .ok h' ∧ (h.board hot).Swept (h'.board hot) c sc ∧
      Inv percent h' hot live ∧ SameThreads h h' ∧ h'.hot = h.hot ∧
      ∀ y, y ∉ (h.deque c sc).nodes → h'.spans y = h.spans y := by
  induction n generalizing h with
  | zero =>
    have hl := List.length_eq_zero_iff.mp hn
    exact ⟨h,rfl,.refl hl,hi,.refl h,rfl,fun _ _ => rfl⟩
  | succ n ih =>
    obtain ⟨l,x,hl⟩ : ∃ l x, (h.deque c sc).nodes = l ++ [x] := by
      rcases List.eq_nil_or_concat (h.deque c sc).nodes with h0 | ⟨l,x,hl⟩
      · simp [h0] at hn
      · exact ⟨l,x,by simpa using hl⟩
    obtain ⟨g,a,b,hstep,hboard,hig,hrel⟩ := cleanup_concat hi hl hlimit cfg n
    have hnodes : (g.deque c sc).nodes = l := by
      have hn := hi.board.nodup c sc
      rw [show ((h.board hot).deque c sc).nodes = l ++ [x] from hl] at hn
      change ((g.board hot).deque c sc).nodes = l
      rw [hboard]
      unfold Board.cleanOne
      split <;> simp [Board.toPool, Board.unlink, Board.setCard, board, hl, Board.erase_concat hn]
    rw [hl, List.length_append] at hn
    obtain ⟨h',hrun,hswept,hi',hthreads,hhot,hspans⟩ := ih hig
      (by rw [hrel.threads.backends.1]; exact hlimit) (by rw [hnodes]; simpa using hn)
    rw [hboard] at hswept
    refine ⟨h',hstep.trans hrun,hi.board.swept_concat hl hswept,hi',hrel.threads.trans hthreads,
      hhot.trans hrel.hot,?_⟩
    intro y hy
    rw [hl, List.mem_append, not_or, List.mem_singleton] at hy
    rw [hspans y (by rw [hnodes]; exact hy.1), hrel.spans y hy.2]

/-- What `GetSpan` gives back in either build. -/
structure Renewed (clean : Bool) (percent : ℕ) (h h' : Heap) (hot : ℕ → ℕ → ℕ)
    (live : ℕ → List ℕ) (c sc s : ℕ) : Prop where
  renews : (h.board hot).Renews clean c sc s (h'.board (update₂ hot c sc s))
  inv : Inv percent h' (update₂ hot c sc s) live
  known : h'.Known s
  at_hot : (h'.board (update₂ hot c sc s)).At percent s (.hot c sc)
  locals : 0 < (h'.spans s).nrLocalObjects
  threads : SameThreads h h'
  hot : h'.hot = h.hot

/-- The second loop does not touch the fetched span. -/
theorem Fetched.cleanup {g : Heap} (hf : Fetched percent h g hot live c sc s)
    (hi : Inv percent h hot live) (hc : (h.board hot).Live c) (hsc : IsObjectClass sc)
    (h0 : hot c sc = 0) (hlimit : h.pool.limit ≠ 0) (cfg : Config) :
    ∃ h', g.cleanup cfg c sc (g.deque c sc).nodes.length = .ok h' ∧
      Renewed false percent h h' hot live c sc s := by
  obtain ⟨_,hk,hat⟩ := hi.board.fetches hc hsc h0 hf.fetches
  have hlimit' : g.pool.limit ≠ 0 := by
    rw [hf.threads.backends.1]
    exact hlimit
  obtain ⟨n,hn⟩ : ∃ n, (g.deque c sc).nodes.length = n := ⟨_,rfl⟩
  rw [hn]
  obtain ⟨h',hrun,hswept,hi',hthreads,hhot,hspans⟩ := cleanup_ok hf.inv hlimit' cfg hn
  have hnot : s ∉ (g.deque c sc).nodes := by
    intro hm
    cases (hat.deque c sc).mp hm
  have hk' : h'.Known s := by
    have : (h'.board (update₂ hot c sc s)).known s := by
      rw [hswept.known]
      exact hk
    exact this
  obtain ⟨w,hw⟩ := hi'.board.placed s hk'
  obtain rfl := (hw.hot c sc).mp (by simp [board])
  refine ⟨h',hrun,.swept rfl hf.fetches hswept,hi',hk',hw,?_,hf.threads.trans hthreads,
    hhot.trans hf.hot⟩
  rw [hspans s hnot]
  exact hf.locals

/-- `Core::GetSpan` for a slot that counts as empty. -/
theorem getSpan_ok (cfg : Config) (hi : Inv percent h hot live)
    (hc : (h.board hot).Live c) (hc0 : c ≠ 0) (hlimit : h.pool.limit ≠ 0) (hsc : IsObjectClass sc)
    (h0 : hot c sc = 0) (rand : ℕ → ℕ) :
    Returns (h.getSpan cfg c sc rand)
      fun r => Renewed cfg.cleanupInFree percent h r.2 hot live c sc r.1 := by
  rw [getSpan_eq]
  refine (fetchSpan_ok cfg hi hc hc0 hlimit hsc h0 rand).bind fun r hf => ?_
  cases hclean : cfg.cleanupInFree with
  | true =>
    obtain ⟨_,hk,hat⟩ := hi.board.fetches hc hsc h0 hf.fetches
    exact .inr ⟨r,rfl,.fetched rfl hf.fetches,hf.inv,hk,hat,hf.locals,hf.threads,hf.hot⟩
  | false =>
    obtain ⟨h',hrun,hren⟩ := hf.cleanup hi hc hsc h0 hlimit cfg
    refine .inr ⟨(r.1,h'),?_,hren⟩
    change (r.2.cleanup cfg c sc (r.2.deque c sc).nodes.length >>= fun h => pure (r.1,h)) = _
    rw [hrun]
    rfl

end Heap
end Scalloc
