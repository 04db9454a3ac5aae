import Scalloc.Heap.Labels
import Scalloc.Heap.Served

/-! # `Core::Allocate` and the board

An allocation is an allocation on the board, never returns the null pointer, and keeps
the invariant of the heap.
-/
namespace Scalloc
open ByteMemory Epoch

theorem SpanPool.popFirst_eq_some {pool pool' : SpanPool} {probes : List (ℕ × ℕ)} {s : ℕ}
    (h : pool.popFirst probes = some (s,pool')) :
    ∃ a b rest, pool.spans a b = s :: rest ∧ pool' = pool.setStack a b rest := by
  induction probes with
  | nil => cases h
  | cons ab probes ih =>
    obtain ⟨a,b⟩ := ab
    simp only [popFirst, pop] at h
    cases hp : pool.spans a b with
    | nil =>
      rw [hp] at h
      exact ih h
    | cons x rest =>
      rw [hp] at h
      obtain ⟨rfl,rfl⟩ := Prod.mk.inj (Option.some.inj h)
      exact ⟨a,b,rest,hp,rfl⟩

namespace Heap
variable {percent : ℕ} {cfg : Config} {h h' : Heap} {hot : ℕ → ℕ → ℕ} {live : ℕ → List ℕ}
  {c sc s : ℕ}

/-- Nothing but the slots of `s` moved. -/
structure Shifts (h h' : Heap) (hot : ℕ → ℕ → ℕ) : Prop where
  board : h'.board hot = h.board hot
  cores : h'.cores = h.cores
  threads : SameThreads h h'

/-- `MoveRemoteToLocalObjects` ends, and afterwards all free objects are local. -/
theorem moveRemote_ok (cfg : Config) (hi : Inv percent h hot live) (hk : h.Known s)
    (hnp : ¬ h.pool.Holds s) :
    ∃ h', h.moveRemote cfg s = .ok h' ∧ Inv percent h' hot live ∧ Shifts h h' hot ∧
      h'.pool = h.pool ∧ h'.objectSpace = h.objectSpace ∧
      (h'.spans s).nrLocalObjects = (h.spans s).nrFreeObjects := by
  obtain ⟨L,R,j,hsl⟩ := hi.slots s hk hnp
  obtain ⟨l,m,L',hmove,hsl',hmem⟩ := hsl.moveRemoteToLocalObjects (hi.isVirtualSpan hk)
  have hcount := hsl'.nrFreeObjects_eq
  have hlocal : Span.nrLocalObjects { h.spans s with
      localFreeList := l, remoteFreeList := Stack.empty } = (h.spans s).nrFreeObjects := by
    have hr := hsl'.nrRemoteObjects_eq
    rw [hsl.nrFreeObjects_eq, ← hcount, Span.nrFreeObjects, hr]
    simp
  have hcard : Span.card { h.spans s with localFreeList := l, remoteFreeList := Stack.empty } =
      (h.spans s).card := by
    rw [Span.card, hcount, Span.card, hsl.nrFreeObjects_eq]
  have hboard : ({ h.setSpan s { h.spans s with
      localFreeList := l, remoteFreeList := Stack.empty } with mem := m } : Heap).board hot =
      h.board hot := by
    refine .trans (board_setSpan h hot s _) ?_
    rw [hcard]
    simp [Board.setCard, board]
  refine ⟨{ h.setSpan s { h.spans s with
      localFreeList := l, remoteFreeList := Stack.empty } with mem := m },?_,?_,
    ⟨hboard,rfl,⟨fun _ => rfl,rfl,rfl,rfl,⟨rfl,rfl⟩⟩⟩,rfl,rfl,?_⟩
  · simp [moveRemote, hmove, scallocAssert]
  · refine hi.touch (s := s) ?_ hi.arena ?_ ?_ hmem (fun _ _ => Iff.rfl) ?_ ?_ ?_
    · rw [hboard]
      exact hi.board
    · intro x
      exact ⟨.inr,fun hx => hx.elim (fun he => he ▸ hk) id⟩
    · intro x hx
      exact ⟨by simp [setSpan, hx],rfl⟩
    · simpa [setSpan] using hi.epoch s
    · intro hp
      exact absurd hp hnp
    · intro _
      exact ⟨L',[],j,by simpa [setSpan] using hsl'⟩
  · simpa [setSpan] using hlocal

theorem allocate_header (x : Span) (m : Memory) :
    (x.allocate m).2 = { x with localFreeList := (x.allocate m).2.localFreeList } := rfl

/-- An allocation from a hot span that has a local object. -/
theorem allocateFrom_ok (hi : Inv percent h hot live) (hk : h.Known s)
    (hat : (h.board hot).At percent s (.hot c sc)) (hslot : (h.cores c).hotSpan sc = s)
    (hlocal : (h.spans s).nrLocalObjects ≠ 0) :
    ∃ p h', h.allocateFrom c sc = (p,h') ∧ p ∈ slots s sc ∧ p ∉ live s ∧
      h'.board hot = (h.board hot).setFree s (((h.board hot).card s).free - 1) ∧
      Inv percent h' hot (Function.update live s (p :: live s)) ∧ SameThreads h h' ∧
      h'.hot = h.hot := by
  have hnp : ¬ h.pool.Holds s := by
    rintro ⟨a,b,hp⟩
    have := (hat.pool a b).mp hp
    simp at this
  have hclass : (h.spans s).sizeClass = sc := hat.allowed.2.1
  obtain ⟨L,R,j,hsl⟩ := hi.slots s hk hnp
  obtain ⟨L',j',hmem,hfresh,hsl'⟩ | ⟨_,hzero⟩ := hsl.allocate
  · have hfree : (((h.spans s).allocate h.mem).2).nrFreeObjects = (h.spans s).nrFreeObjects - 1 := by
      rw [hsl'.nrFreeObjects_eq, hsl.nrFreeObjects_eq, allocate_header, List.length_cons]
      push_cast
      ring
    have hcard : (((h.spans s).allocate h.mem).2).card =
        { (h.spans s).card with free := (h.spans s).card.free - 1 } := by
      rw [Span.card, hfree]
      rfl
    have hboard : (h.setSpan s ((h.spans s).allocate h.mem).2).board hot =
        (h.board hot).setFree s (((h.board hot).card s).free - 1) := by
      rw [board_setSpan, hcard]
      rfl
    refine ⟨((h.spans s).allocate h.mem).1,h.setSpan s ((h.spans s).allocate h.mem).2,?_,
      hclass ▸ hmem,hfresh,hboard,?_,⟨fun _ => rfl,rfl,rfl,rfl,⟨rfl,rfl⟩⟩,rfl⟩
    · simp only [allocateFrom, hslot]
    · refine hi.touch (s := s) ?_ hi.arena ?_ ?_ (SameOutside.refl _ _ _) (fun _ _ => Iff.rfl)
        ?_ ?_ ?_
      · rw [hboard]
        exact (hi.board.give hk hat _).1
      · intro x
        exact ⟨.inr,fun hx => hx.elim (fun he => he ▸ hk) id⟩
      · intro x hx
        exact ⟨by simp [setSpan, hx],Function.update_of_ne hx _ _⟩
      · simp only [setSpan, Function.update_self]
        exact hi.epoch s
      · intro hp
        exact absurd hp hnp
      · intro _
        rw [Function.update_self]
        exact ⟨L',R,j',by simpa [setSpan] using hsl'⟩
  · exact absurd hzero hlocal

/-- What `GetSpan` gives back: a span that can take the slot, with its free objects local. -/
structure Fetched (percent : ℕ) (h h' : Heap) (hot : ℕ → ℕ → ℕ) (live : ℕ → List ℕ)
    (c sc s : ℕ) : Prop where
  fetches : (h.board hot).Fetches c sc s (h'.board (update₂ hot c sc s))
  inv : Inv percent h' (update₂ hot c sc s) live
  locals : 0 < (h'.spans s).nrLocalObjects
  threads : SameThreads h h'
  hot : h'.hot = h.hot

/-- The constructor marks a floating span hot; it leaves a span from the pool as it is. -/
theorem construct_epoch {x : Span} {k : BitVec 28} {m : Mark} (he : x.epoch = encode k m)
    (s sc : ℕ) (owner : CoreId) :
    (m = .floating → (x.construct s sc owner).epoch = encode (k + 1) .hot) ∧
      (m = .full → (x.construct s sc owner).epoch = encode k .full) := by
  constructor
  · rintro rfl
    have hsome : newMarkHot (encode k .floating) (encode k .floating) =
        some (encode (k + 1) .hot) := newMarkHot_encode.mpr ⟨⟨rfl,rfl⟩,rfl⟩
    simp [Span.construct, he, hsome]
  · rintro rfl
    have hnone : newMarkHot (encode k .full) (encode k .full) = none := by
      refine Option.eq_none_iff_forall_ne_some.mpr fun e hsome => ?_
      obtain ⟨⟨_,hm⟩,_⟩ := newMarkHot_encode.mp hsome
      simp [Mark.keepReuse] at hm
    simp [Span.construct, he, hnone]

/-- The span at `s` is constructed in a heap `g` that differs from `h` in the pool and
the arena. -/
theorem construct_ok (pool : SpanPool) (arena : Arena) {k : BitVec 28} {m : Mark}
    (hi : Inv percent h hot live)
    (hf : (h.board hot).Fetches c sc s ((h.board hot).adopt c sc s m pool.spans))
    (hc : (h.board hot).Live c) (hsc : IsObjectClass sc) (h0 : hot c sc = 0)
    (he : ((h.spans s).construct s sc (h.cores c).id).epoch = encode k m)
    (harena : ArenaInv arena)
    (hknown : ∀ x, (arena.start ≤ x ∧ x < arena.current ∧ x % kVirtualSpanSize = 0) ↔
      x = s ∨ h.Known x)
    (hpool : ∀ x, pool.Holds x ↔ x ≠ s ∧ h.pool.Holds x) (hlive : live s = [])
    (hback : pool.limit = h.pool.limit ∧ pool.currentThreads = h.pool.currentThreads) :
    Fetched percent h ({ h with pool := pool, objectSpace := arena }.setSpan s
      ((h.spans s).construct s sc (h.cores c).id)) hot live c sc s := by
  obtain ⟨g,hg⟩ : ∃ g : Heap, g = { h with pool := pool, objectSpace := arena } := ⟨_,rfl⟩
  have hslots := Slots.construct h.mem (h.spans s) s (h.cores c).id hsc
  have hfree : ((h.spans s).construct s sc (h.cores c).id).nrFreeObjects = classToObjects sc := by
    rw [hslots.nrFreeObjects_eq]
    simp [Span.construct]
  have hcard : ((h.spans s).construct s sc (h.cores c).id).card =
      ⟨m,(h.cores c).id,sc,none,classToObjects sc⟩ := by
    rw [Span.card, he, mark_encode, hfree]
    rfl
  have hk : g.board (update₂ hot c sc s) = { h.board hot with
      known := fun x => x = s ∨ h.Known x
      hot := update₂ hot c sc s
      pool := pool.spans } := by
    have : g.Known = fun x => x = s ∨ h.Known x := by
      funext x
      rw [hg]
      exact propext (hknown x)
    simp only [board, this]
    rw [hg]
    rfl
  have hboard : (g.setSpan s ((h.spans s).construct s sc (h.cores c).id)).board (update₂ hot c sc s) =
      (h.board hot).adopt c sc s m pool.spans := by
    rw [board_setSpan, hcard, hk]
    rfl
  rw [← hg]
  refine ⟨hboard ▸ hf,?_,?_,?_,?_⟩
  · refine hi.touch (s := s) ?_ ?_ ?_ ?_ ?_ ?_ ?_ (fun _ => hlive) ?_
    · rw [hboard]
      exact (hi.board.fetches hc hsc h0 hf).1
    · rw [hg]
      exact harena
    · intro x
      rw [hg]
      exact hknown x
    · intro x hx
      exact ⟨by simp [hg, setSpan, hx],rfl⟩
    · rw [hg]
      exact SameOutside.refl _ _ _
    · intro x hx
      rw [hg]
      exact (hpool x).trans ⟨fun h => h.2,fun h => ⟨hx,h⟩⟩
    · simp only [setSpan, Function.update_self]
      exact ⟨k,m,he⟩
    · intro _
      rw [hlive]
      refine ⟨[],[],0,?_⟩
      simpa [setSpan, hg] using hslots
  · have hpos := classToObjects_pos hsc
    simp [setSpan, Span.nrLocalObjects, Span.construct, IncrementalFreeList.new]
    omega
  · rw [hg]
    exact ⟨fun _ => rfl,rfl,rfl,rfl,hback⟩
  · rw [hg]
    rfl

/-- The assertions of `Span::Span` hold. -/
theorem newSpan_eq (cfg : Config) (hc0 : (h.cores c).id.value ≠ 0) {rand : ℕ → ℕ} {g : Heap}
    (hpool : h.spanPoolAllocate cfg sc (h.cores c).id.tag.toNat rand = .ok (s,g)) :
    h.newSpan cfg sc (h.cores c).id rand =
      .ok (s,g.setSpan s ((g.spans s).construct s sc (h.cores c).id)) := by
  have h1 : (((g.spans s).construct s sc (h.cores c).id).localFreeList.len == classToObjects sc &&
      Stack.length ((g.spans s).construct s sc (h.cores c).id).remoteFreeList == 0) = true := by
    simp [Span.construct, IncrementalFreeList.new, Stack.length, Stack.empty]
  have h2 : ((h.cores c).id.value != 0) = true := bne_iff_ne.mpr hc0
  rw [newSpan, hpool]
  change (scallocAssert cfg _ (_ == _ && _ == _) >>= _) = _
  rw [scallocAssert_true cfg _ h1]
  change (scallocAssert cfg _ (_ != _) >>= _) = _
  rw [scallocAssert_true cfg _ h2]
  rfl

theorem spanPoolAllocate_eq (cfg : Config) (hlimit : h.pool.limit ≠ 0) (sc id : ℕ) (rand : ℕ → ℕ) :
    h.spanPoolAllocate cfg sc id rand =
      match h.pool.popFirst (h.pool.probes sc id rand) with
      | some (s,pool) => .ok (s,{ h with pool := pool })
      | none =>
        match h.objectSpace.allocateVirtualSpan with
        | none => .error .objectSpaceOOM
        | some (s,objectSpace) => .ok (s,{ h with objectSpace := objectSpace }) := by
  rw [spanPoolAllocate, scallocAssert_true cfg _ (bne_iff_ne.mpr hlimit)]
  rfl

/-- `Span::New`. -/
theorem newSpan_ok (cfg : Config) (hi : Inv percent h hot live) (hc : (h.board hot).Live c)
    (hc0 : c ≠ 0) (hlimit : h.pool.limit ≠ 0) (hsc : IsObjectClass sc) (h0 : hot c sc = 0)
    (hl : (h.deque c sc).nodes = []) (rand : ℕ → ℕ) :
    Returns (h.newSpan cfg sc (h.cores c).id rand)
      fun r => Fetched percent h r.2 hot live c sc r.1 := by
  have ha := hi.arena
  have hvalue : (h.cores c).id.value ≠ 0 := by
    rw [show (h.cores c).id.value = c from hi.board.coreId c hc]
    exact hc0
  have hpool := spanPoolAllocate_eq cfg hlimit sc (h.cores c).id.tag.toNat rand
  cases hpop : h.pool.popFirst (h.pool.probes sc (h.cores c).id.tag.toNat rand) with
  | some r =>
    obtain ⟨s,pool⟩ := r
    rw [hpop] at hpool
    refine .inr ⟨_,newSpan_eq cfg hvalue hpool,?_⟩
    obtain ⟨a,b,rest,hrest,rfl⟩ := SpanPool.popFirst_eq_some hpop
    have hheld : h.pool.Holds s := ⟨a,b,by simp [hrest]⟩
    have hk := hi.board.known_of_pooled hheld
    obtain ⟨k,m,he⟩ := hi.epoch s
    have hm : m = .full := by
      obtain ⟨w,hw⟩ := hi.board.placed s hk
      obtain rfl := (hw.pool a b).mp (by exact (by simp [board, hrest] : s ∈ (h.board hot).pool a b))
      have hmark : mark (h.spans s).epoch = .full := hw.allowed
      rwa [he, mark_encode] at hmark
    have hmem := hi.board.mem_pop hrest
    have hspans := SpanPool.spans_setStack h.pool a b rest
    refine construct_ok _ h.objectSpace (k := k) (m := .full) hi ?_ hc hsc h0
      ((construct_epoch he s sc (h.cores c).id).2 hm) ha ?_ ?_ (hi.pooled s hheld)
      ⟨rfl,rfl⟩
    · rw [hspans]
      exact .recycled hl hrest
    · intro x
      exact ⟨.inr,fun hx => hx.elim (fun he => he ▸ hk) id⟩
    · intro x
      simp only [SpanPool.Holds, hspans]
      constructor
      · rintro ⟨a',b',hx⟩
        exact ⟨((hmem x a' b').mp hx).1,a',b',((hmem x a' b').mp hx).2⟩
      · rintro ⟨hx,a',b',hx'⟩
        exact ⟨a',b',(hmem x a' b').mpr ⟨hx,hx'⟩⟩
  | none =>
    rw [hpop] at hpool
    cases halloc : h.objectSpace.allocateVirtualSpan with
    | none =>
      rw [halloc] at hpool
      refine .inl ?_
      rw [newSpan, hpool]
      rfl
    | some r =>
      obtain ⟨s,arena⟩ := r
      rw [halloc] at hpool
      refine .inr ⟨_,newSpan_eq cfg hvalue hpool,?_⟩
      obtain ⟨harena,rfl,hknown⟩ := ha.extend halloc
      have hnk : ¬ h.Known h.objectSpace.current := fun hk => lt_irrefl _ hk.2.1
      obtain ⟨hzero,hlive⟩ := hi.fresh _ hnk
      have habsent := (hi.board.absent _ hnk).pool
      have he : (h.spans h.objectSpace.current).epoch = encode 0 .floating := by
        rw [hzero]
        decide
      refine construct_ok h.pool _ (k := 0 + 1) (m := .hot) hi (.fresh hl ?_ hnk) hc hsc h0
        ((construct_epoch he _ sc (h.cores c).id).1 rfl) harena hknown ?_ hlive ⟨rfl,rfl⟩
      · have h1 := ha.start_pos
        have h2 := ha.start_le
        omega
      · intro x
        refine ⟨fun hx => ⟨?_,hx⟩,fun hx => hx.2⟩
        rintro rfl
        obtain ⟨a,b,hx⟩ := hx
        exact habsent a b hx

/-- The span at the back of the deque, out of the deque and marked hot. -/
theorem relabels_reuse (hv : Valid (h.spans s).epoch) (c sc : ℕ) (k : BitVec 28) (m : Mark) :
    Relabels h (((h.setDeque c sc { h.deque c sc with
      nodes := (h.deque c sc).nodes.dropLast }).setLink s none).setEpoch s (encode k m)) s := by
  have h1 := relabels_setDeque hv c sc { h.deque c sc with nodes := (h.deque c sc).nodes.dropLast }
  have h2 := h1.trans (relabels_setSpan (x := { h.spans s with spanLink := none }) rfl rfl rfl hv) rfl
  exact h2.trans (relabels_setSpan rfl rfl rfl ⟨k,m,rfl⟩) rfl

theorem removeBack_some (cfg : Config) {x : ℕ} (hnull : (h.deque c sc).noNull = true)
    (hlast : (h.deque c sc).nodes.getLast? = some x) :
    h.removeBack cfg c sc = .ok (x,(h.setDeque c sc { h.deque c sc with
      nodes := (h.deque c sc).nodes.dropLast }).setLink x none) := by
  rw [removeBack, scallocAssert_true cfg _ hnull, hlast]
  rfl

/-- The first loop of `GetSpan` takes the span at the back of a deque that is not empty. -/
theorem takeReusable_ok (cfg : Config) (hi : Inv percent h hot live) (hc : (h.board hot).Live c)
    (hsc : IsObjectClass sc) (h0 : hot c sc = 0) {l : List ℕ} {x : ℕ}
    (hl : (h.deque c sc).nodes = l ++ [x]) (fuel : ℕ) :
    ∃ h', h.takeReusable cfg c sc (fuel + 1) = .ok (x,h') ∧ x ≠ 0 ∧
      Fetched percent h h' hot live c sc x := by
  have hmem : x ∈ ((h.board hot).deque c sc).nodes := by
    rw [show ((h.board hot).deque c sc).nodes = l ++ [x] from hl]
    simp
  have hk := hi.board.known_of_mem hmem
  have hx0 := hi.board.ne_zero hk
  obtain ⟨w,hw⟩ := hi.board.placed x hk
  obtain rfl := (hw.deque c sc).mp hmem
  obtain ⟨_,hclass,howner,hmark,hthreshold⟩ := hw.allowed
  obtain ⟨k,m,he⟩ := hi.epoch x
  have hm : m = .reusable := by
    have hmark' : mark (h.spans x).epoch = .reusable := hmark
    rwa [he, mark_encode] at hmark'
  subst hm
  have hlast : (h.deque c sc).nodes.getLast? = some x := by simp [hl]
  have hsome : newMarkHot (encode k .reusable) (encode k .reusable) = some (encode (k + 1) .hot) :=
    newMarkHot_encode.mpr ⟨⟨rfl,rfl⟩,rfl⟩
  obtain ⟨g,hg⟩ : ∃ g : Heap, g = (((h.setDeque c sc { h.deque c sc with
    nodes := (h.deque c sc).nodes.dropLast }).setLink x none).setEpoch x (encode (k + 1) .hot)) :=
    ⟨_,rfl⟩
  have hrel : Relabels h g x := hg ▸ relabels_reuse (hi.epoch x) c sc (k + 1) .hot
  have hboard : g.board (update₂ hot c sc x) = (h.board hot).reuse c sc x := by
    have hb : g.board hot = { (h.board hot).reuse c sc x with hot := hot } := by
      rw [hg, board_setEpoch, board_setLink, board_setDeque]
      simp [Board.reuse, Board.setCard, board]
    calc g.board (update₂ hot c sc x) = { g.board hot with hot := update₂ hot c sc x } := rfl
      _ = (h.board hot).reuse c sc x := by
        rw [hb]
        rfl
  have hfetch : (h.board hot).Fetches c sc x ((h.board hot).reuse c sc x) := .reuse hl
  obtain ⟨hinv,_,hat⟩ := hi.board.fetches hc hsc h0 hfetch
  rw [← hboard] at hinv hat hfetch
  have hig : Inv percent g (update₂ hot c sc x) live := hi.relabel hk hrel hinv (by rw [hg]; rfl)
    (by rw [hg]; rfl)
  have hkg : g.Known x := by
    rw [Known, hrel.arena]
    exact hk
  have hnp : ¬ g.pool.Holds x := by
    rintro ⟨a,b,hp⟩
    have := (hat.pool a b).mp hp
    simp at this
  obtain ⟨h3,hmove,hi3,hshift,_,_,hlocal⟩ := moveRemote_ok cfg hig hkg hnp
  have hspan : ((h.setDeque c sc { h.deque c sc with
      nodes := (h.deque c sc).nodes.dropLast }).setLink x none).spans x =
        { h.spans x with spanLink := none } := by
    simp [setLink, setSpan, setDeque, setCore]
  have hback := removeBack_some cfg (noNull_of_inv hi.board c sc) hlast
  have howned : ((g.spans x).owner == (g.cores c).id) = true := by
    have howner' : (h.spans x).owner = (h.cores c).id := howner
    rw [beq_iff_eq, hrel.threads.ids c, ← howner', hg]
    simp [setEpoch, setLink, setSpan, setDeque, setCore]
  refine ⟨h3,?_,hx0,?_,hi3,?_,hrel.threads.trans hshift.threads,?_⟩
  · simp only [takeReusable, hback, bind, Except.bind, hx0, if_false, hspan, he, hsome, ← hg,
      scallocAssert_true cfg _ howned, hmove]
    rfl
  · rw [hshift.board]
    exact hfetch
  · have hfree : (g.spans x).nrFreeObjects = (h.spans x).nrFreeObjects := by
      rw [Span.nrFreeObjects, Span.nrFreeObjects, Span.nrLocalObjects, Span.nrLocalObjects,
        Span.nrRemoteObjects, Span.nrRemoteObjects, hrel.locals, hrel.remotes]
    have hpos : (classToReuseThreshold percent sc : ℤ) < (h.spans x).nrFreeObjects := hthreshold
    rw [hlocal, hfree]
    omega
  · have hcores : h3.hot = g.hot := by
      unfold Heap.hot
      rw [hshift.cores]
    exact hcores.trans hrel.hot

/-- `Core::GetSpan` up to its second loop. -/
def fetchSpan (cfg : Config) (h : Heap) (c sc : ℕ) (rand : ℕ → ℕ) : Result (ℕ × Heap) := do
  let (s,h) ← h.takeReusable cfg c sc (h.deque c sc).nodes.length
  if s = 0 then h.newSpan cfg sc (h.cores c).id rand else pure (s,h)

theorem getSpan_eq (cfg : Config) (h : Heap) (c sc : ℕ) (rand : ℕ → ℕ) :
    h.getSpan cfg c sc rand = h.fetchSpan cfg c sc rand >>= fun r =>
      (if cfg.cleanupInFree then pure r.2
        else r.2.cleanup cfg c sc (r.2.deque c sc).nodes.length) >>= fun h => pure (r.1,h) := by
  unfold getSpan fetchSpan
  cases h.takeReusable cfg c sc (h.deque c sc).nodes.length with
  | error e => rfl
  | ok r =>
    obtain ⟨s,g⟩ := r
    simp only [bind, Except.bind]
    split
    · cases g.newSpan cfg sc (g.cores c).id rand with
      | error e => rfl
      | ok r =>
        dsimp only
        split <;> rfl
    · dsimp only [pure, Except.pure]
      split <;> rfl

theorem fetchSpan_ok (cfg : Config) (hi : Inv percent h hot live)
    (hc : (h.board hot).Live c) (hc0 : c ≠ 0) (hlimit : h.pool.limit ≠ 0) (hsc : IsObjectClass sc)
    (h0 : hot c sc = 0) (rand : ℕ → ℕ) :
    Returns (h.fetchSpan cfg c sc rand) fun r => Fetched percent h r.2 hot live c sc r.1 := by
  rcases List.eq_nil_or_concat (h.deque c sc).nodes with hl | ⟨l,z,hl⟩
  · have heq : h.fetchSpan cfg c sc rand = h.newSpan cfg sc (h.cores c).id rand := by
      simp only [fetchSpan, hl, List.length_nil, takeReusable]
      rfl
    rw [heq]
    exact newSpan_ok cfg hi hc hc0 hlimit hsc h0 hl rand
  · have hlen : (h.deque c sc).nodes.length = l.length + 1 := by simp [hl]
    obtain ⟨g,ht,hx,hfetch⟩ := takeReusable_ok cfg hi hc hsc h0 (by simpa using hl) l.length
    refine .inr ⟨(z,g),?_,hfetch⟩
    rw [fetchSpan, hlen, ht]
    simp only [bind, Except.bind, if_neg hx]
    rfl

end Heap
end Scalloc
