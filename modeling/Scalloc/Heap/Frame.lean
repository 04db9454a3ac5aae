import Scalloc.Heap.Invariant

/-! # Which bytes a call may change

Frees and the moves of remote objects write links into free slots, and a discarded span
may lose its contents. No call writes to a block that the program holds before and after it.
-/
namespace Scalloc
open ByteMemory Epoch Linked

namespace Slots
variable {s : ℕ} {m m' : Memory} {x : Span} {live L R T : List ℕ} {j p q : ℕ}

/-- A link written into a slot leaves the bytes of all other slots. -/
theorem storePtr_agreeOn {sc v : ℕ} (hsc : IsObjectClass sc) (hp : p ∈ slots s sc)
    (hq : q ∈ slots s sc) (hne : q ≠ p) :
    AgreeOn m (storePtr m p v) q (q + classToSize sc) := by
  have hz := classToSize_pos hsc
  have ha := slots_apart hq hp hne
  exact store_agreeOn (by omega)

/-- `Span::Free` writes only into the freed slot. -/
theorem free_agreeOn (h : Slots m s x live L R j) (caller : CoreId) (hp : p ∈ live)
    (hq : q ∈ live) (hne : q ≠ p) :
    AgreeOn m (x.free m p caller).2.1 q (q + classToSize x.sizeClass) := by
  have hst := fun v => storePtr_agreeOn (m := m) (v := v) h.objectClass (h.mem_live hp)
    (h.mem_live hq) hne
  unfold Span.free
  split
  · exact hst _
  · exact hst _

/-- The loop of `MoveRemoteToLocalObjects` writes only into the detached slots. -/
theorem moveLoop_agreeOn (hs : IsVirtualSpan s) (T : List ℕ) :
    ∀ {l l' : IncrementalFreeList} {m m' : Memory} {objects fuel count n : ℕ} {L : List ℕ},
      Slots m s { x with localFreeList := l } (T ++ live) L R j →
      Chain 0 (loadPtr m) objects T → q ∈ live →
      Span.moveLoop l m objects count fuel = some (l',m',n) →
      AgreeOn m m' q (q + classToSize x.sizeClass) := by
  induction T with
  | nil =>
    intro l l' m m' objects fuel count n L _ hT _ hr
    obtain rfl : objects = 0 := hT
    cases fuel <;>
    · simp only [Span.moveLoop, if_true] at hr
      cases hr
      exact AgreeOn.refl _ _ _
  | cons a T ih =>
    intro l l' m m' objects fuel count n L h hT hq hr
    obtain ⟨rfl,ha,hT⟩ := hT
    have hslot := h.mem_live (List.mem_cons_self ..)
    have hn := h.nodup
    simp only [List.nodup_append, List.mem_append, List.cons_append, List.nodup_cons] at hn
    have hne : q ≠ objects := by
      rintro rfl
      exact hn.2.1.2.1.2.1.1 (.inr hq)
    have hstore : AgreeOn m (storePtr m objects l.list) q (q + classToSize x.sizeClass) :=
      storePtr_agreeOn h.objectClass hslot (h.mem_live (by simp [hq])) hne
    have hT' : Chain 0 (loadPtr (storePtr m objects l.list)) (loadPtr m objects) T := by
      refine hT.congr fun y hy => loadPtr_storePtr_of_ne h.objectClass hslot ?_ ?_
      · exact h.mem_live (by simp [hy])
      · rintro rfl
        exact hn.2.1.2.1.2.1.1 (.inl hy)
    cases fuel with
    | zero =>
      simp only [Span.moveLoop, if_neg ha] at hr
      cases hr
    | succ fuel =>
      simp only [Span.moveLoop, if_neg ha] at hr
      exact hstore.trans (ih (h.pushLocal hs) hT' hq hr)

theorem moveRemote_agreeOn (h : Slots m s x live L R j) (hs : IsVirtualSpan s) {y : Span}
    {agrees : Bool} (hr : x.moveRemoteToLocalObjects m = some (y,m',agrees)) (hq : q ∈ live) :
    AgreeOn m m' q (q + classToSize x.sizeClass) := by
  simp only [Span.moveRemoteToLocalObjects] at hr
  split at hr
  · split at hr
    · cases hr
      exact AgreeOn.refl _ _ _
    · obtain ⟨r,hloop,hr⟩ := Option.map_eq_some_iff.mp hr
      obtain ⟨l',m'',n⟩ := r
      cases hr
      have hne : x.remoteFreeList.value ≠ 0 := by
        intro h0
        have hnil := h.remotes.nil_iff.mpr h0
        have hz := h.nrRemoteObjects_eq
        rw [hnil] at hz
        contradiction
      have hpop : Stack.popAll x.remoteFreeList =
          (x.remoteFreeList.value,x.remoteFreeList.tag.toNat,Stack.empty) := by
        simp only [Stack.popAll, hne, if_false]
      rw [hpop] at hloop
      exact moveLoop_agreeOn (x := { x with remoteFreeList := Stack.empty }) hs R h.detach
        h.remotes hq hloop
  · cases hr
    exact AgreeOn.refl _ _ _

end Slots

namespace Heap
variable {percent : ℕ} {cfg : Config} {h h' g : Heap} {hot : ℕ → ℕ → ℕ} {live : ℕ → List ℕ}
  {c sc s p : ℕ} {m : Memory}

/-- The bytes of the blocks in the hands of the program. -/
def heldBytes (h : Heap) (live : ℕ → List ℕ) : Set ℕ :=
  { a | ∃ s, ∃ p ∈ live s, p ≤ a ∧ a < p + classToSize (h.spans s).sizeClass }

/-- The bytes of the program, and all bytes outside of the object space. -/
def spared (h : Heap) (live : ℕ → List ℕ) : Set ℕ :=
  h.heldBytes live ∪ { a | a < h.objectSpace.start ∨ h.objectSpace.fin ≤ a }

/-- A call that changes none of these bytes and leaves the object space where it is. -/
structure Spares (h h' : Heap) (live : ℕ → List ℕ) : Prop where
  mem : Set.EqOn h'.mem h.mem (h.spared live)
  space : h'.objectSpace = { h.objectSpace with current := h'.objectSpace.current }

theorem Spares.of_eq {live : ℕ → List ℕ} (hm : h'.mem = h.mem)
    (ha : h'.objectSpace = h.objectSpace) : Spares h h' live :=
  ⟨hm ▸ Set.eqOn_refl _ _,by rw [ha]⟩

theorem Spares.trans {live : ℕ → List ℕ} (h1 : Spares h g live) (h2 : Spares g h' live)
    (hheld : g.heldBytes live = h.heldBytes live) : Spares h h' live := by
  have hs : g.spared live = h.spared live := by
    rw [spared, spared, hheld, h1.space]
  refine ⟨(hs ▸ h2.mem).trans h1.mem,?_⟩
  rw [h2.space, h1.space]

/-- A span with live blocks is in use. -/
theorem Inv.used (hi : Inv percent h hot live) (hp : p ∈ live s) :
    h.Known s ∧ ¬ h.pool.Holds s := by
  constructor
  · by_contra hk
    rw [(hi.fresh s hk).2] at hp
    simp at hp
  · intro hpool
    rw [hi.pooled s hpool] at hp
    simp at hp

/-- Held bytes depend on the heap only through the classes of the spans in use. -/
theorem Inv.heldBytes_congr (hi : Inv percent h hot live)
    (hk : ∀ x, h.Known x → ¬ h.pool.Holds x → (g.spans x).sizeClass = (h.spans x).sizeClass) :
    g.heldBytes live = h.heldBytes live := by
  ext a
  constructor
  · rintro ⟨s,p,hp,h1,h2⟩
    obtain ⟨h3,h4⟩ := hi.used hp
    exact ⟨s,p,hp,h1,by rwa [← hk s h3 h4]⟩
  · rintro ⟨s,p,hp,h1,h2⟩
    obtain ⟨h3,h4⟩ := hi.used hp
    exact ⟨s,p,hp,h1,by rwa [hk s h3 h4]⟩

theorem Relabels.heldBytes_eq (hi : Inv percent h hot live) (hr : Relabels h g s) :
    g.heldBytes live = h.heldBytes live := by
  refine hi.heldBytes_congr fun y _ _ => ?_
  by_cases hy : y = s
  · rw [hy]
    exact hr.sizeClass
  · rw [hr.spans y hy]

/-- A span lies in the object space. -/
theorem ArenaInv.span_le {a : Arena} (ha : ArenaInv a) {s : ℕ}
    (hs : a.start ≤ s ∧ s < a.current ∧ s % kVirtualSpanSize = 0) :
    a.start ≤ s ∧ s + kVirtualSpanSize ≤ a.fin := by
  obtain ⟨h1,h2,h3⟩ := hs
  have hc := ha.current_aligned
  have hf := ha.current_le
  have hv : kVirtualSpanSize = 2097152 := rfl
  rw [hv] at h3 hc ⊢
  omega

/-- A memory that changed in one span only, and there outside of the blocks that are still
held. -/
theorem Inv.keeps {live' : ℕ → List ℕ} (hi : Inv percent h hot live) (hk : h.Known s)
    (hsub : ∀ x, live' x ⊆ live x)
    (hm : SameOutside h.mem m (headerEnd s) (s + kVirtualSpanSize))
    (hs : ∀ p ∈ live' s, AgreeOn h.mem m p (p + classToSize (h.spans s).sizeClass)) :
    Set.EqOn m h.mem (h.spared live') := by
  have hh : ∀ y, y ≤ headerEnd y := fun y => Nat.le_add_right _ _
  have hsh := hh s
  rintro a (⟨x,p,hp,h1,h2⟩ | hout)
  · by_cases hx : x = s
    · subst hx
      exact hs p hp a h1 h2
    · obtain ⟨hkx,hnp⟩ := hi.used (hsub x hp)
      obtain ⟨L,R,j,hsl⟩ := hi.slots x hkx hnp
      have hb := slot_bounds hsl.objectClass (hsl.mem_live (hsub x hp))
      have ha := virtualSpans_apart hkx.2.2 hk.2.2 hx
      have hxh := hh x
      exact hm a (by omega)
  · have hb := hi.arena.span_le hk
    refine hm a ?_
    rcases hout with hout | hout <;> omega

/-- A span in which the program holds no block may change freely. -/
theorem Inv.keeps_of_empty (hi : Inv percent h hot live) (hk : h.Known s)
    (hm : SameOutside h.mem m (headerEnd s) (s + kVirtualSpanSize)) (hs : live s = []) :
    Set.EqOn m h.mem (h.spared live) := by
  refine hi.keeps hk (fun _ => List.Subset.refl _) hm fun p hp => ?_
  rw [hs] at hp
  cases hp

theorem moveRemote_spares (hi : Inv percent h hot live) (hk : h.Known s) (hnp : ¬ h.pool.Holds s)
    (hr : h.moveRemote cfg s = .ok h') : Spares h h' live := by
  obtain ⟨L,R,j,hsl⟩ := hi.slots s hk hnp
  obtain ⟨l,m,L',hmove,_,hmem⟩ := hsl.moveRemoteToLocalObjects (hi.isVirtualSpan hk)
  simp only [moveRemote, hmove] at hr
  obtain ⟨_,_,hr⟩ := bind_ok hr
  obtain rfl := Except.ok.inj hr
  exact ⟨hi.keeps hk (fun _ => List.Subset.refl _) hmem
    fun p hp => hsl.moveRemote_agreeOn (hi.isVirtualSpan hk) hmove hp,rfl⟩

/-- The span that the first loop of `GetSpan` takes, out of its deque and hot. -/
theorem takeReusable_mem {fuel : ℕ} (hr : h.takeReusable cfg c sc fuel = .ok (s,h')) :
    h'.pool = h.pool ∧ h'.objectSpace = h.objectSpace ∧
      ((h'.mem = h.mem ∧ ∀ x, (h'.spans x).sizeClass = (h.spans x).sizeClass) ∨
        s ≠ 0 ∧ ∃ x ∈ (h.deque c sc).nodes, ∃ y : Span,
        y.localFreeList = (h.spans x).localFreeList ∧
        y.remoteFreeList = (h.spans x).remoteFreeList ∧ y.sizeClass = (h.spans x).sizeClass ∧
        (y.moveRemoteToLocalObjects h.mem).map (fun r => r.2.1) = some h'.mem) := by
  induction fuel generalizing h with
  | zero =>
    cases hr
    exact ⟨rfl,rfl,.inl ⟨rfl,fun _ => rfl⟩⟩
  | succ fuel ih =>
    simp only [takeReusable] at hr
    obtain ⟨⟨x,g⟩,hback,hr⟩ := bind_ok hr
    obtain ⟨_,_,hback⟩ := bind_ok hback
    cases hlast : (h.deque c sc).nodes.getLast? with
    | none =>
      rw [hlast] at hback
      obtain ⟨rfl,rfl⟩ := Prod.mk.inj (Except.ok.inj hback)
      rw [if_pos rfl] at hr
      cases hr
      exact ⟨rfl,rfl,.inl ⟨rfl,fun _ => rfl⟩⟩
    | some x' =>
      rw [hlast] at hback
      obtain ⟨rfl,rfl⟩ := Prod.mk.inj (Except.ok.inj hback)
      have hx := List.mem_of_getLast? hlast
      have hsize : ∀ y, (((h.setDeque c sc { h.deque c sc with
          nodes := (h.deque c sc).nodes.dropLast }).setLink x' none).spans y).sizeClass =
            (h.spans y).sizeClass := by
        intro y
        by_cases hy : y = x' <;> simp [setLink, setSpan, setDeque, setCore, hy]
      split at hr
      · cases hr
        exact ⟨rfl,rfl,.inl ⟨rfl,hsize⟩⟩
      · next hx0 =>
        split at hr
        · obtain ⟨_,_,hr⟩ := bind_ok hr
          obtain ⟨g2,hmove,hr⟩ := bind_ok hr
          obtain ⟨rfl,rfl⟩ := Prod.mk.inj (Except.ok.inj hr)
          simp only [moveRemote] at hmove
          split at hmove
          · cases hmove
          · next y m b hy =>
            obtain ⟨_,_,hmove⟩ := bind_ok hmove
            obtain rfl := Except.ok.inj hmove
            refine ⟨rfl,rfl,.inr ⟨hx0,x',hx,_,?_,?_,?_,congrArg (Option.map fun r => r.2.1) hy⟩⟩
            · simp [setEpoch, setLink, setSpan, setDeque, setCore]
            · simp [setEpoch, setLink, setSpan, setDeque, setCore]
            · simp [setEpoch, setLink, setSpan, setDeque, setCore]
        · obtain ⟨hp,ha,⟨hm,hsz⟩ | ⟨hs,z,hz,y,h1,h2,h3,h4⟩⟩ := ih hr
          · exact ⟨hp,ha,.inl ⟨hm,fun y => (hsz y).trans (hsize y)⟩⟩
          · refine ⟨hp,ha,.inr ⟨hs,z,?_,y,?_,?_,?_,h4⟩⟩
            · refine List.mem_of_mem_dropLast ?_
              simpa [setLink, setSpan, setDeque, setCore, deque] using hz
            · rw [h1]
              by_cases hzx : z = x' <;> simp [setLink, setSpan, setDeque, setCore, hzx]
            · rw [h2]
              by_cases hzx : z = x' <;> simp [setLink, setSpan, setDeque, setCore, hzx]
            · rw [h3, hsize z]

theorem takeReusable_spares {fuel : ℕ} (hi : Inv percent h hot live)
    (hr : h.takeReusable cfg c sc fuel = .ok (s,h')) : Spares h h' live := by
  obtain ⟨_,ha,⟨hm,_⟩ | ⟨_,x,hx,y,h1,h2,h3,h4⟩⟩ := takeReusable_mem hr
  · exact .of_eq hm ha
  · have hx' : x ∈ ((h.board hot).deque c sc).nodes := hx
    have hk : h.Known x := hi.board.known_of_mem hx'
    have hnp : ¬ h.pool.Holds x := by
      rintro ⟨a,b,hp⟩
      obtain ⟨w,hw⟩ := hi.board.placed x hk
      obtain rfl := (hw.deque c sc).mp hx
      cases (hw.pool a b).mp hp
    obtain ⟨L,R,j,hsl⟩ := hi.slots x hk hnp
    have hsl' := hsl.relabel h3 h1 h2
    obtain ⟨⟨z,m,b⟩,hz,hm⟩ := Option.map_eq_some_iff.mp h4
    obtain ⟨l,m',L',hmove,_,hmem⟩ := hsl'.moveRemoteToLocalObjects (hi.isVirtualSpan hk)
    rw [hz] at hmove
    cases hmove
    refine ⟨?_,by rw [ha]⟩
    rw [← hm]
    refine hi.keeps hk (fun _ => List.Subset.refl _) hmem fun p hp => ?_
    rw [← h3]
    exact hsl'.moveRemote_agreeOn (hi.isVirtualSpan hk) hz hp

theorem newSpan_spares {owner : CoreId} {rand : ℕ → ℕ}
    (hr : h.newSpan cfg sc owner rand = .ok (s,h')) : Spares h h' live := by
  obtain ⟨⟨x,g⟩,hpool,hr⟩ := bind_ok hr
  obtain ⟨_,_,hr⟩ := bind_ok hr
  obtain ⟨_,_,hr⟩ := bind_ok hr
  obtain ⟨rfl,rfl⟩ := Prod.mk.inj (Except.ok.inj hr)
  obtain ⟨_,_,hpool⟩ := bind_ok hpool
  split at hpool
  · obtain ⟨rfl,rfl⟩ := Prod.mk.inj (Except.ok.inj hpool)
    exact .of_eq rfl rfl
  · split at hpool
    · cases hpool
    · next x' arena halloc =>
      obtain ⟨rfl,rfl⟩ := Prod.mk.inj (Except.ok.inj hpool)
      obtain ⟨_,_,rfl⟩ := Arena.allocate_eq_some halloc
      exact ⟨Set.eqOn_refl _ _,rfl⟩

theorem fetchSpan_spares {rand : ℕ → ℕ} (hi : Inv percent h hot live)
    (hr : h.fetchSpan cfg c sc rand = .ok (s,h')) : Spares h h' live := by
  obtain ⟨⟨x,g⟩,htake,hr⟩ := bind_ok hr
  have hkeep := takeReusable_spares hi htake
  dsimp only at hr
  split at hr
  · next hx =>
    subst hx
    obtain ⟨_,_,⟨_,hsize⟩ | ⟨h0,_⟩⟩ := takeReusable_mem htake
    · exact hkeep.trans (newSpan_spares hr) (hi.heldBytes_congr fun y _ _ => hsize y)
    · exact absurd rfl h0
  · cases hr
    exact hkeep

/-- The second loop of `GetSpan` discards only spans in which the program holds nothing. -/
theorem cleanup_spares {n : ℕ} (hi : Inv percent h hot live) (hlimit : h.pool.limit ≠ 0)
    (hn : (h.deque c sc).nodes.length = n) (hr : h.cleanup cfg c sc n = .ok h') : Spares h h' live := by
  induction n generalizing h with
  | zero =>
    cases hr
    exact .of_eq rfl rfl
  | succ n ih =>
    obtain ⟨l,x,hl⟩ : ∃ l x, (h.deque c sc).nodes = l ++ [x] := by
      rcases List.eq_nil_or_concat (h.deque c sc).nodes with h0 | ⟨l,x,hl⟩
      · simp [h0] at hn
      · exact ⟨l,x,by simpa using hl⟩
    have hmem : x ∈ ((h.board hot).deque c sc).nodes := by
      rw [show ((h.board hot).deque c sc).nodes = l ++ [x] from hl]
      simp
    have hk := hi.board.known_of_mem hmem
    obtain ⟨g,a,b,hstep,hboard,hig,hrel⟩ := cleanup_concat hi hl hlimit cfg n
    have hnodes : (g.deque c sc).nodes = l := by
      have hd := hi.board.nodup c sc
      rw [show ((h.board hot).deque c sc).nodes = l ++ [x] from hl] at hd
      change ((g.board hot).deque c sc).nodes = l
      rw [hboard]
      unfold Board.cleanOne
      split <;> simp [Board.toPool, Board.unlink, Board.setCard, board, hl, Board.erase_concat hd]
    have hfirst : Spares h g live := by
      by_cases hpool : g.pool.Holds x
      · exact ⟨hi.keeps_of_empty hk hrel.mem (hig.pooled x hpool),by rw [hrel.arena]⟩
      · exact .of_eq (hrel.unpooled hpool) hrel.arena
    rw [hl, List.length_append] at hn
    exact hfirst.trans (ih hig (by rw [hrel.threads.backends.1]; exact hlimit)
      (by rw [hnodes]; simpa using hn) (hstep ▸ hr)) (hrel.heldBytes_eq hi)

theorem getSpan_spares {rand : ℕ → ℕ} (hi : Inv percent h hot live) (hc : (h.board hot).Live c)
    (hc0 : c ≠ 0) (hlimit : h.pool.limit ≠ 0) (hsc : IsObjectClass sc) (h0 : hot c sc = 0)
    (hr : h.getSpan cfg c sc rand = .ok (s,h')) : Spares h h' live := by
  rw [getSpan_eq] at hr
  obtain ⟨⟨x,g⟩,hfetch,hr⟩ := bind_ok hr
  have hf := (fetchSpan_ok cfg hi hc hc0 hlimit hsc h0 rand).of_ok hfetch
  have hkeep := fetchSpan_spares hi hfetch
  obtain ⟨g',hclean,hr⟩ := bind_ok hr
  obtain ⟨rfl,rfl⟩ := Prod.mk.inj (Except.ok.inj hr)
  split at hclean
  · cases hclean
    exact hkeep
  · exact hkeep.trans (cleanup_spares hf.inv (by rw [hf.threads.backends.1]; exact hlimit) rfl hclean)
      (hi.heldBytes_congr fun y hk hp => (hf.fetches.keeps hk hp).2)

theorem allocateFrom_frame {r : ℕ × Heap} (hr : h.allocateFrom c sc = r) :
    r.2.mem = h.mem ∧ r.2.objectSpace = h.objectSpace ∧ r.2.pool = h.pool := by
  subst hr
  exact ⟨rfl,rfl,rfl⟩

/-- `Core::Allocate` with a hot span in place. -/
theorem allocateHot_spares {rand : ℕ → ℕ} {r : Allocation} (hi : Inv percent h h.hot live)
    (hc : (h.board h.hot).Live c) (hc0 : c ≠ 0) (hlimit : h.pool.limit ≠ 0)
    (hsc : IsObjectClass sc) (hne : (h.cores c).hotSpan sc ≠ 0)
    (hr : h.allocateHot cfg c sc rand = .ok (r,h')) : Spares h h' live := by
  obtain ⟨hk,hat,hnp⟩ := hi.hot_at hne
  by_cases hlocal : (h.spans ((h.cores c).hotSpan sc)).nrLocalObjects = 0
  · have hempty := allocateFrom_empty hi hk hnp rfl hlocal
    simp only [allocateHot, hempty, ne_eq, not_true, if_false] at hr
    split at hr
    · obtain ⟨g,hmove,hr⟩ := bind_ok hr
      obtain ⟨_,rfl⟩ := Prod.mk.inj (Except.ok.inj hr)
      obtain ⟨h1,h2⟩ := moveRemote_spares hi hk hnp hmove
      exact ⟨h1,h2⟩
    · obtain ⟨g,hg⟩ : ∃ g : Heap, g = h.setEpoch ((h.cores c).hotSpan sc)
        (newMarkFloating (h.spans ((h.cores c).hotSpan sc)).epoch) := ⟨_,rfl⟩
      rw [← hg] at hr
      obtain ⟨hboard,hig,hrel⟩ := retire_ok hi hne hg
      obtain ⟨⟨s,g'⟩,hget,hr⟩ := bind_ok hr
      have hlive : (g.board (update₂ h.hot c sc 0)).Live c := by
        rw [hboard]
        exact hc
      have hkeep : Spares h g' live := .trans (.of_eq (by rw [hg]; rfl) hrel.arena)
        (getSpan_spares hig hlive hc0 (by rw [hrel.threads.backends.1]; exact hlimit) hsc
          (by simp) hget) (hrel.heldBytes_eq hi)
      obtain ⟨h1,h2⟩ := hkeep
      split at hr <;>
      · obtain ⟨_,rfl⟩ := Prod.mk.inj (Except.ok.inj hr)
        exact ⟨h1,h2⟩
  · obtain ⟨p,h2,hfrom,hslot,_⟩ := allocateFrom_ok hi hk hat rfl hlocal
    obtain ⟨hmem,harena,_⟩ := allocateFrom_frame hfrom
    have hp := slot_ne_zero hslot
    simp only [allocateHot, hfrom, ne_eq, hp, not_false_eq_true, if_true] at hr
    obtain ⟨_,rfl⟩ := Prod.mk.inj (Except.ok.inj hr)
    exact .of_eq hmem harena

/-- `Core::Allocate` leaves the blocks of the program alone. -/
theorem allocate_spares {size : ℕ} {rand : ℕ → ℕ → ℕ} {r : Allocation}
    (hi : Inv cfg.reuseThreshold h h.hot live) (hc : (h.board h.hot).Live c) (hc0 : c ≠ 0)
    (hlimit : h.pool.limit ≠ 0) (h1 : 0 < size) (h2 : size ≤ kMaxMediumSize)
    (hr : h.allocate cfg c size rand = .ok (r,h')) : Spares h h' live := by
  have hsc := sizeToClass_isObjectClass h1 h2
  rw [allocate_eq cfg hc hsc] at hr
  split at hr
  · next h0 =>
    obtain ⟨⟨s,g⟩,hget,hr⟩ := bind_ok hr
    have hren := (getSpan_ok cfg hi hc hc0 hlimit hsc h0 (rand 0)).of_ok hget
    have hs0 : s ≠ 0 := hren.inv.board.ne_zero hren.known
    have hhot : (g.setHot c (sizeToClass size) s).hot = update₂ h.hot c (sizeToClass size) s := by
      rw [hot_setHot, hren.hot]
    have hig : Inv cfg.reuseThreshold (g.setHot c (sizeToClass size) s)
        (g.setHot c (sizeToClass size) s).hot live := by
      rw [hhot]
      exact hren.inv.setHot c (sizeToClass size) s
    have hlive : ((g.setHot c (sizeToClass size) s).board
        (g.setHot c (sizeToClass size) s).hot).Live c := by
      rw [board_setHot]
      change (g.cores c).id ≠ kTerminated
      rw [hren.threads.ids]
      exact hc
    have hrest := allocateHot_spares hig hlive hc0
      (by change g.pool.limit ≠ 0; rw [hren.threads.backends.1]; exact hlimit) hsc
      (by simpa [setHot, setCore] using hs0) hr
    have hget' : Spares h (g.setHot c (sizeToClass size) s) live := by
      obtain ⟨h1,h2⟩ := getSpan_spares hi hc hc0 hlimit hsc h0 hget
      exact ⟨h1,h2⟩
    exact hget'.trans hrest (hi.heldBytes_congr fun y hk hp => (hren.renews.keeps hk hp).2)
  · next h0 => exact allocateHot_spares hi hc hc0 hlimit hsc h0 hr

/-- The caller takes over a span in its header only. -/
theorem revive_frame {s : ℕ} {o caller : CoreId} {e : Epoch} {r : CoreId × Heap}
    (hr : h.revive cfg s o e caller = .ok r) :
    r.2.mem = h.mem ∧ r.2.objectSpace = h.objectSpace ∧ r.2.pool = h.pool := by
  unfold revive at hr
  split at hr
  · obtain ⟨_,_,hr⟩ := bind_ok hr
    split at hr <;>
    · cases hr
      exact ⟨rfl,rfl,rfl⟩
  · cases hr
    exact ⟨rfl,rfl,rfl⟩

/-- The pool after a span of the class that its header names was put into it. -/
def Pools (h h' : Heap) (s : ℕ) : Prop := ∃ id, h'.pool =
  h.pool.push (SpanPool.slot (h'.spans s).sizeClass) (id % h.pool.limit) s

theorem Pools.holds (hp : Pools h h' s) : h'.pool.Holds s := by
  obtain ⟨id,he⟩ := hp
  rw [he]
  exact ⟨_,_,mem_push.mpr (.inl ⟨rfl,rfl,rfl⟩)⟩

theorem deleteSpan_frame (hr : h.deleteSpan cfg s = .ok h') :
    Pools h h' s ∧ SameOutside h.mem h'.mem (headerEnd s) (s + kVirtualSpanSize) ∧
      h'.objectSpace = h.objectSpace := by
  obtain ⟨_,_,hr⟩ := bind_ok hr
  obtain ⟨_,_,hr⟩ := bind_ok hr
  obtain rfl := Except.ok.inj hr
  refine ⟨⟨_,rfl⟩,?_,rfl⟩
  dsimp only
  split
  · exact clear_sameOutside h.mem s
  · exact SameOutside.refl _ _ _

theorem remove_frame {c sc : ℕ} {owner : CoreId} {node : ℕ}
    (hr : h.remove cfg c sc owner node = .ok h') :
    h'.mem = h.mem ∧ h'.objectSpace = h.objectSpace ∧ h'.pool = h.pool := by
  unfold remove at hr
  split at hr
  · cases hr
    exact ⟨rfl,rfl,rfl⟩
  · split at hr
    · cases hr
      exact ⟨rfl,rfl,rfl⟩
    · obtain ⟨_,_,hr⟩ := bind_ok hr
      cases hr
      exact ⟨rfl,rfl,rfl⟩

theorem pushFront_frame {c sc : ℕ} {owner : CoreId} {node : ℕ}
    (hr : h.pushFront cfg c sc owner node = .ok h') :
    h'.mem = h.mem ∧ h'.objectSpace = h.objectSpace ∧ h'.pool = h.pool := by
  obtain ⟨_,_,hr⟩ := bind_ok hr
  dsimp only at hr
  split at hr
  · cases hr
    exact ⟨rfl,rfl,rfl⟩
  · obtain ⟨_,_,hr⟩ := bind_ok hr
    cases hr
    exact ⟨rfl,rfl,rfl⟩

/-- The end of `Core::Free` changes bytes only of a span that goes to the pool. -/
theorem settle_frame {s sc : ℕ} {o : CoreId} {e : Epoch} {f : ℤ}
    (hr : h.settle cfg s sc o e f = .ok h') : h'.objectSpace = h.objectSpace ∧
      (h'.mem = h.mem ∧ h'.pool = h.pool ∨
        Pools h h' s ∧ SameOutside h.mem h'.mem (headerEnd s) (s + kVirtualSpanSize)) := by
  unfold settle at hr
  split at hr
  · split at hr
    · cases hr
      exact ⟨rfl,.inl ⟨rfl,rfl⟩⟩
    · dsimp only at hr
      split at hr
      · obtain ⟨g,hg,hr⟩ := bind_ok hr
        obtain ⟨_,_,hr⟩ := bind_ok hr
        obtain ⟨hm,ha,hp⟩ := remove_frame hg
        obtain ⟨h1,h2,h3⟩ := deleteSpan_frame hr
        rw [hm] at h2
        rw [Pools, hp] at h1
        exact ⟨h3.trans ha,.inr ⟨h1,h2⟩⟩
      · obtain ⟨g,hg,hr⟩ := bind_ok hr
        obtain rfl := Except.ok.inj hg
        obtain ⟨_,_,hr⟩ := bind_ok hr
        obtain ⟨h1,h2,h3⟩ := deleteSpan_frame hr
        exact ⟨h3,.inr ⟨h1,h2⟩⟩
  · split at hr
    · split at hr
      · cases hr
        exact ⟨rfl,.inl ⟨rfl,rfl⟩⟩
      · obtain ⟨hm,ha,hp⟩ := pushFront_frame hr
        exact ⟨ha,.inl ⟨hm,hp⟩⟩
    · cases hr
      exact ⟨rfl,.inl ⟨rfl,rfl⟩⟩

/-- `Core::Free` leaves the other blocks of the program alone. -/
theorem free_spares (hi : Inv cfg.reuseThreshold h h.hot live) (hp : p ∈ live s)
    (hi' : Inv cfg.reuseThreshold h' hot (Function.update live s ((live s).erase p)))
    (hr : h.free cfg c p = .ok h') :
    Spares h h' (Function.update live s ((live s).erase p)) := by
  obtain ⟨hk,hnp⟩ := hi.used hp
  obtain ⟨L,R,j,hsl⟩ := hi.slots s hk hnp
  have hslot := hsl.mem_live hp
  have hspan : fromObject p = s := fromObject_of_slot (hi.isVirtualSpan hk) hsl.objectClass hslot
    le_rfl (Nat.lt_add_of_pos_right (by have := classToSize_pos hsl.objectClass; omega))
  obtain ⟨i,_,hstart⟩ := mem_slots.mp hslot
  have haddr : freedAddress kIntFast32Linux h.seenMemalign h.mem s (h.spans s).sizeClass p = p := by
    rw [← hstart]
    exact freedAddress_blockStart _ _ _ _ _ _
  rcases hfree : (h.spans s).free h.mem p (h.cores c).id with ⟨y,mem,f⟩
  obtain ⟨_,hmem,_⟩ := free_spec hsl (hi.isVirtualSpan hk) (h.cores c).id hp hfree
  obtain ⟨_,_,hr⟩ := bind_ok hr
  simp only [hspan, haddr, hfree] at hr
  obtain ⟨⟨o,g⟩,hrev,hr⟩ := bind_ok hr
  obtain ⟨hg,hga,_⟩ := revive_frame hrev
  dsimp only at hg hga
  have hsub : ∀ x, Function.update live s ((live s).erase p) x ⊆ live x := by
    intro x
    by_cases hx : x = s
    · subst hx
      rw [Function.update_self]
      exact List.erase_subset
    · rw [Function.update_of_ne hx]
      exact List.Subset.refl _
  have hnodup : (live s).Nodup := by
    have hn := hsl.nodup
    simp only [List.nodup_append] at hn
    exact hn.2.1.2.1.2.1
  have hother : ∀ q ∈ Function.update live s ((live s).erase p) s,
      AgreeOn h.mem mem q (q + classToSize (h.spans s).sizeClass) := by
    intro q hq
    rw [Function.update_self] at hq
    have hag := hsl.free_agreeOn (h.cores c).id hp (List.mem_of_mem_erase hq)
      fun he => (hnodup.not_mem_erase (he ▸ hq))
    rwa [hfree] at hag
  obtain ⟨ha,hm⟩ := settle_frame hr
  have harena : h'.objectSpace = h.objectSpace := ha.trans hga
  refine ⟨?_,by rw [harena]⟩
  rcases hm with ⟨hm,_⟩ | ⟨hpool,hm⟩
  · rw [hm, hg]
    exact hi.keeps hk hsub hmem hother
  · rw [hg] at hm
    refine hi.keeps hk hsub (hmem.trans hm) fun q hq => ?_
    rw [hi'.pooled s hpool.holds] at hq
    cases hq

end Heap
end Scalloc
