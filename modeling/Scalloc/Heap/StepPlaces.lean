import Scalloc.Heap.Stepwise
import Scalloc.Heap.View

/-! # Where every span is between two steps

A span is in a hot slot, in a deque, in the pool, in the hands of one thread or nowhere. A
thread has a span in its hands while it deletes it, constructs it or brings it to a slot.
-/
namespace Scalloc.Stepwise
open Epoch Transition

def Then.held (s : ℕ) : Then → Option ℕ
  | again _ => none
  | hot _ => some s

def Then.fetching : Then → Option ℕ
  | again _ => none
  | hot g => some g.sizeClass

/-- The span that the thread alone works on. -/
def Pc.held : Pc → Option ℕ
  | remove f => some f.span
  | deleteSpan f => some f.span
  | poolPush s _ _ => some s
  | moveEmpty s k => k.held s
  | moveLength s k => k.held s
  | popAll s k => k.held s
  | moveTest s _ k => k.held s
  | moveLoop s _ k => k.held s
  | newLink _ s => some s
  | newOwner _ s => some s
  | newClass _ s => some s
  | newLocal _ s => some s
  | newRemote _ s => some s
  | newEpoch _ s => some s
  | newMark _ s _ => some s
  | setHot _ s => some s
  | _ => none

/-- The class of the call of `GetSpan` in which the thread is. -/
def Pc.fetching : Pc → Option ℕ
  | removeBack g => some g.sizeClass
  | takeEpoch g _ => some g.sizeClass
  | markHot g _ _ => some g.sizeClass
  | probe g _ => some g.sizeClass
  | moveEmpty _ k => k.fetching
  | moveLength _ k => k.fetching
  | popAll _ k => k.fetching
  | moveTest _ _ k => k.fetching
  | moveLoop _ _ k => k.fetching
  | newLink g _ => some g.sizeClass
  | newOwner g _ => some g.sizeClass
  | newClass g _ => some g.sizeClass
  | newLocal g _ => some g.sizeClass
  | newRemote g _ => some g.sizeClass
  | newEpoch g _ => some g.sizeClass
  | newMark g _ _ => some g.sizeClass
  | setHot g _ => some g.sizeClass
  | _ => none

/-- The marks that the span in the hands of a thread may have. Only before `Remove` it may
still be in a deque. -/
def Pc.Grip : Pc → Mark → Option (ℕ × ℕ) → Prop
  | remove _, m, _ => m = .full
  | deleteSpan _, m, l => m = .full ∧ l = none
  | poolPush _ _ _, m, l => m = .full ∧ l = none
  | newLink _ _, m, l => (m = .full ∨ m = .floating) ∧ l = none
  | newOwner _ _, m, l => (m = .full ∨ m = .floating) ∧ l = none
  | newClass _ _, m, l => (m = .full ∨ m = .floating) ∧ l = none
  | newLocal _ _, m, l => (m = .full ∨ m = .floating) ∧ l = none
  | newRemote _ _, m, l => (m = .full ∨ m = .floating) ∧ l = none
  | newEpoch _ _, m, l => (m = .full ∨ m = .floating) ∧ l = none
  | newMark _ _ _, m, l => (m = .full ∨ m = .floating) ∧ l = none
  | _, m, l => (m = .hot ∨ m = .full) ∧ l = none

/-- Where a span can be. -/
inductive Place
  | slot (c sc : ℕ)
  | linked (c sc : ℕ)
  | pooled (a b : ℕ)
  | held (c : ℕ) (l : Option (ℕ × ℕ))
  | loose

def Place.link : Place → Option (ℕ × ℕ)
  | linked c sc => some (c,sc)
  | held _ l => l
  | _ => none

namespace State

/-- The hot slots; that of a class in `GetSpan` counts as empty. -/
def slot (st : State) (c sc : ℕ) : ℕ := if (st.pc c).fetching = some sc then 0 else st.hot c sc

def Known (st : State) (s : ℕ) : Prop :=
  st.arena.start ≤ s ∧ s < st.arena.current ∧ s % kVirtualSpanSize = 0

def mark (st : State) (s : ℕ) : Mark := Epoch.mark (st.spans s).epoch

def Allows (st : State) (m : Mark) : Place → Prop
  | .slot _ _ => m = .hot ∨ m = .full
  | .linked _ _ => m = .reusable
  | .pooled _ _ => m = .full
  | .held c l => (st.pc c).Grip m l
  | .loose => m = .floating ∨ m = .reusable

/-- The span is at this place and nowhere else. -/
structure At (st : State) (s : ℕ) (w : Place) : Prop where
  slot : ∀ c sc, st.slot c sc = s ↔ w = .slot c sc
  deque : ∀ c sc, s ∈ st.deque c sc ↔ w.link = some (c,sc)
  pool : ∀ a b, s ∈ st.pool.spans a b ↔ w = .pooled a b
  held : ∀ c, (st.pc c).held = some s ↔ ∃ l, w = .held c l
  link : (st.spans s).link = w.link
  allowed : st.Allows (st.mark s) w

/-- The span was constructed at least once. -/
def Used (st : State) (s : ℕ) : Prop :=
  st.Known s ∧ ∀ c, (st.pc c).held = some s → st.mark s ≠ .floating

end State

/-- The id of a core. -/
def Machine.Owns (m : Machine) (owner : CoreId) : Prop :=
  owner.value ≠ 0 ∧ owner = m.id owner.value

/-- What a call of `Core::Free` on the span of `f` knows. -/
structure FreeCall.Known (m : Machine) (st : State) (f : FreeCall) : Prop where
  used : st.Used f.span
  epoch : Valid f.epoch
  owner : m.Owns f.owner

/-- The span whose remote objects are moved is the hot span, or it is in the hands of the
thread. -/
def Then.Holds (st : State) (c s : ℕ) : Then → Prop
  | again sc => s = st.hot c sc ∧ s ≠ 0
  | hot g => IsObjectClass g.sizeClass

/-- What thread `c` knows at each step. -/
def Pc.Knows (m : Machine) (st : State) (c : ℕ) : Pc → Prop
  | loadEpoch p => st.Used (fromObject p)
  | loadOwner p e => st.Used (fromObject p) ∧ Valid e
  | loadClass p e owner => st.Used (fromObject p) ∧ Valid e ∧ m.Owns owner
  | compareOwner p f => f.Known m st ∧ f.span = fromObject p
  | pushLocal p f => f.Known m st ∧ f.span = fromObject p
  | pushRemote p f => f.Known m st ∧ f.span = fromObject p
  | remoteEmpty _ f => f.Known m st
  | remoteLength _ f => f.Known m st
  | localLength _ f => f.Known m st
  | ownerTerminated _ f => f.Known m st
  | ownerRecycled _ f => f.Known m st
  | tryRevive _ _ => False
  | tryFloating _ _ => False
  | markFull f => f.Known m st ∧ isFloatingOrReusable f.epoch
  | remove f => m.Owns f.owner
  | markReuse f => f.Known m st
  | pushFront f => f.Known m st
  | allocate sc => IsObjectClass sc ∧ st.hot c sc ≠ 0
  | countLocal sc => IsObjectClass sc ∧ st.hot c sc ≠ 0
  | countEmpty sc _ => IsObjectClass sc ∧ st.hot c sc ≠ 0
  | countLength sc _ => IsObjectClass sc ∧ st.hot c sc ≠ 0
  | moveEmpty s k => k.Holds st c s
  | moveLength s k => k.Holds st c s
  | popAll s k => k.Holds st c s
  | moveTest s objects k => k.Holds st c s ∧ ∀ p ∈ objects, fromObject p = s
  | moveLoop s objects k => k.Holds st c s ∧ ∀ p ∈ objects, fromObject p = s
  | allocateLast sc => st.hot c sc ≠ 0
  | floatingLoad sc => IsObjectClass sc ∧ st.hot c sc ≠ 0
  | floatingStore sc _ => IsObjectClass sc ∧ st.hot c sc ≠ 0
  | removeBack g => IsObjectClass g.sizeClass
  | takeEpoch g s => IsObjectClass g.sizeClass ∧ st.Used s
  | markHot g s e => IsObjectClass g.sizeClass ∧ st.Used s ∧ Valid e
  | probe g _ => IsObjectClass g.sizeClass
  | newLink g _ => IsObjectClass g.sizeClass
  | newOwner g _ => IsObjectClass g.sizeClass
  | newClass g s => IsObjectClass g.sizeClass ∧ m.Owns (st.spans s).owner
  | newLocal g s => IsObjectClass g.sizeClass ∧ m.Owns (st.spans s).owner
  | newRemote g s => IsObjectClass g.sizeClass ∧ m.Owns (st.spans s).owner
  | newEpoch g s => IsObjectClass g.sizeClass ∧ m.Owns (st.spans s).owner
  | newMark g s e => IsObjectClass g.sizeClass ∧ m.Owns (st.spans s).owner ∧
      e = (st.spans s).epoch
  | setHot g _ => IsObjectClass g.sizeClass
  | _ => True

/-- The invariant of the threads and the spans. -/
structure Inv (m : Machine) (st : State) : Prop where
  arena : Heap.ArenaInv st.arena
  placed : ∀ s, st.Known s → ∃ w, st.At s w
  absent : ∀ s, ¬ st.Known s → (∀ c sc, st.slot c sc = s → s = 0) ∧ (∀ c sc, s ∉ st.deque c sc) ∧
    (∀ a b, s ∉ st.pool.spans a b) ∧ (∀ c, (st.pc c).held ≠ some s) ∧ st.spans s = Header.zero
  valid : ∀ s, Valid (st.spans s).epoch
  nodup : ∀ c sc, (st.deque c sc).Nodup
  poolNodup : ∀ a b, (st.pool.spans a b).Nodup
  knows : ∀ c, (st.pc c).Knows m st c
  owners : ∀ s, st.Used s → m.Owns (st.spans s).owner
  lists : ∀ s p, p ∈ (st.spans s).locals ∨ p ∈ (st.spans s).remotes → fromObject p = s
  live : ∀ p ∈ st.live, st.Used (fromObject p)

section Frames
variable {m : Machine} {st st' : State} {c s y : ℕ} {w : Place} {pc : Pc}

theorem Inv.ne_zero (hi : Inv m st) (hk : st.Known s) : s ≠ 0 := by
  have h1 := hi.arena.start_pos
  have h2 := hk.1
  omega

theorem State.slot_congr (hpc : st'.pc c = st.pc c) (hhot : ∀ sc, st'.hot c sc = st.hot c sc)
    (sc : ℕ) : st'.slot c sc = st.slot c sc := by
  rw [State.slot, State.slot, hpc, hhot]

/-- A span stays where it is when nothing about it changes. -/
theorem State.At.congr (h : st.At s w) (hslot : ∀ c sc, st'.slot c sc = s ↔ st.slot c sc = s)
    (hdeque : ∀ c sc, s ∈ st'.deque c sc ↔ s ∈ st.deque c sc)
    (hpool : ∀ a b, s ∈ st'.pool.spans a b ↔ s ∈ st.pool.spans a b)
    (hheld : ∀ c, (st'.pc c).held = some s ↔ (st.pc c).held = some s)
    (hgrip : ∀ c m l, (st.pc c).held = some s → (st.pc c).Grip m l → (st'.pc c).Grip m l)
    (hlink : (st'.spans s).link = (st.spans s).link)
    (hepoch : (st'.spans s).epoch = (st.spans s).epoch) : st'.At s w := by
  refine ⟨fun c sc => (hslot c sc).trans (h.slot c sc),
    fun c sc => (hdeque c sc).trans (h.deque c sc),fun a b => (hpool a b).trans (h.pool a b),
    fun c => (hheld c).trans (h.held c),hlink.trans h.link,?_⟩
  have ha := h.allowed
  rw [State.mark, hepoch]
  cases w with
  | held c l => exact hgrip c _ _ ((h.held c).mpr ⟨l,rfl⟩) ha
  | slot c sc => exact ha
  | linked c sc => exact ha
  | pooled a b => exact ha
  | loose => exact ha

/-- What a thread knows stays true when the used spans stay used and nobody touches the span
in its hands. -/
theorem Pc.Knows.congr (h : pc.Knows m st c) (hhot : st'.hot c = st.hot c)
    (hused : ∀ s, st.Used s → st'.Used s)
    (hheld : ∀ s, pc.held = some s → (st'.spans s).owner = (st.spans s).owner ∧
      (st'.spans s).epoch = (st.spans s).epoch) : pc.Knows m st' c := by
  have hcall : ∀ f : FreeCall, f.Known m st → f.Known m st' := fun f hf =>
    ⟨hused _ hf.used,hf.epoch,hf.owner⟩
  have hholds : ∀ (k : Then) (s : ℕ), k.Holds st c s → k.Holds st' c s := by
    intro k s hk
    cases k with
    | again sc =>
      rw [Then.Holds, hhot]
      exact hk
    | hot g => exact hk
  cases pc with
  | allocate sc => rwa [Pc.Knows, hhot]
  | countLocal sc => rwa [Pc.Knows, hhot]
  | countEmpty sc n => rwa [Pc.Knows, hhot]
  | countLength sc n => rwa [Pc.Knows, hhot]
  | allocateLast sc => rwa [Pc.Knows, hhot]
  | floatingLoad sc => rwa [Pc.Knows, hhot]
  | floatingStore sc e => rwa [Pc.Knows, hhot]
  | moveEmpty s k => exact hholds k s h
  | moveLength s k => exact hholds k s h
  | popAll s k => exact hholds k s h
  | moveTest s objects k => exact ⟨hholds k s h.1,h.2⟩
  | moveLoop s objects k => exact ⟨hholds k s h.1,h.2⟩
  | loadEpoch p => exact hused _ h
  | loadOwner p e => exact ⟨hused _ h.1,h.2⟩
  | loadClass p e owner => exact ⟨hused _ h.1,h.2⟩
  | compareOwner p f => exact ⟨hcall f h.1,h.2⟩
  | pushLocal p f => exact ⟨hcall f h.1,h.2⟩
  | pushRemote p f => exact ⟨hcall f h.1,h.2⟩
  | remoteEmpty n f => exact hcall f h
  | remoteLength n f => exact hcall f h
  | localLength n f => exact hcall f h
  | ownerTerminated n f => exact hcall f h
  | ownerRecycled n f => exact hcall f h
  | markFull f => exact ⟨hcall f h.1,h.2⟩
  | markReuse f => exact hcall f h
  | pushFront f => exact hcall f h
  | takeEpoch g s => exact ⟨h.1,hused s h.2⟩
  | markHot g s e => exact ⟨h.1,hused s h.2.1,h.2.2⟩
  | newClass g s =>
    rw [Pc.Knows, (hheld s rfl).1]
    exact h
  | newLocal g s =>
    rw [Pc.Knows, (hheld s rfl).1]
    exact h
  | newRemote g s =>
    rw [Pc.Knows, (hheld s rfl).1]
    exact h
  | newEpoch g s =>
    rw [Pc.Knows, (hheld s rfl).1]
    exact h
  | newMark g s e =>
    rw [Pc.Knows, (hheld s rfl).1, (hheld s rfl).2]
    exact h
  | _ => exact h

/-- A step of thread `c` that moves no span. -/
structure Quiet (m : Machine) (st st' : State) (c : ℕ) : Prop where
  pc : ∀ c', c' ≠ c → st'.pc c' = st.pc c'
  slot : ∀ sc, st'.slot c sc = st.slot c sc
  hot : st'.hot = st.hot
  deque : st'.deque = st.deque
  pool : st'.pool = st.pool
  arena : st'.arena = st.arena
  epoch : ∀ s, (st'.spans s).epoch = (st.spans s).epoch
  link : ∀ s, st.Known s → (st'.spans s).link = (st.spans s).link
  owner : ∀ s, (st'.spans s).owner = (st.spans s).owner ∨
    (st.pc c).held = some s ∧ m.Owns (st'.spans s).owner
  absent : ∀ s, ¬ st.Known s → st'.spans s = st.spans s
  held : (st'.pc c).held = (st.pc c).held
  grip : ∀ m l, (st.pc c).held ≠ none → (st.pc c).Grip m l → (st'.pc c).Grip m l

theorem Quiet.known (hq : Quiet m st st' c) : st'.Known s ↔ st.Known s := by
  rw [State.Known, State.Known, hq.arena]

theorem Quiet.held_eq (hq : Quiet m st st' c) (c' : ℕ) : (st'.pc c').held = (st.pc c').held := by
  by_cases hc : c' = c
  · rw [hc, hq.held]
  · rw [hq.pc c' hc]

theorem Quiet.slot_eq (hq : Quiet m st st' c) (c' sc : ℕ) : st'.slot c' sc = st.slot c' sc := by
  by_cases hc : c' = c
  · rw [hc, hq.slot]
  · exact State.slot_congr (hq.pc c' hc) (fun _ => by rw [hq.hot]) sc

theorem Quiet.used (hq : Quiet m st st' c) : st'.Used s ↔ st.Used s := by
  rw [State.Used, State.Used, hq.known]
  simp only [hq.held_eq, State.mark, hq.epoch]

theorem Inv.quiet (hi : Inv m st) (hq : Quiet m st st' c) (hknows : (st'.pc c).Knows m st' c)
    (hlists : ∀ s p, p ∈ (st'.spans s).locals ∨ p ∈ (st'.spans s).remotes → fromObject p = s)
    (hlive : ∀ p ∈ st'.live, st.Used (fromObject p)) : Inv m st' where
  arena := by
    rw [hq.arena]
    exact hi.arena
  placed := by
    intro s hk
    obtain ⟨w,hw⟩ := hi.placed s (hq.known.mp hk)
    refine ⟨w,hw.congr ?_ ?_ ?_ ?_ ?_ (hq.link s (hq.known.mp hk)) (hq.epoch s)⟩
    · intro c' sc
      rw [hq.slot_eq]
    · intro c' sc
      rw [hq.deque]
    · intro a b
      rw [hq.pool]
    · intro c'
      rw [hq.held_eq]
    · intro c' m l hheld hg
      by_cases hc : c' = c
      · subst hc
        exact hq.grip m l (by rw [hheld]; simp) hg
      · rw [hq.pc c' hc]
        exact hg
  absent := by
    intro s hk
    obtain ⟨h1,h2,h3,h4,h5⟩ := hi.absent s fun hk' => hk (hq.known.mpr hk')
    refine ⟨?_,?_,?_,?_,?_⟩
    · intro c' sc
      rw [hq.slot_eq]
      exact h1 c' sc
    · rw [hq.deque]
      exact h2
    · rw [hq.pool]
      exact h3
    · intro c'
      rw [hq.held_eq]
      exact h4 c'
    · rw [hq.absent s fun hk' => hk (hq.known.mpr hk'), h5]
  valid := by
    intro s
    rw [hq.epoch]
    exact hi.valid s
  nodup := by
    rw [hq.deque]
    exact hi.nodup
  poolNodup := by
    rw [hq.pool]
    exact hi.poolNodup
  knows := by
    intro c'
    by_cases hc : c' = c
    · rw [hc]
      exact hknows
    · rw [hq.pc c' hc]
      refine (hi.knows c').congr (by rw [hq.hot]) (fun s hs => hq.used.mpr hs) fun s hheld =>
        ⟨?_,hq.epoch s⟩
      rcases hq.owner s with ho | ⟨ho,_⟩
      · exact ho
      · by_cases hk : st.Known s
        · obtain ⟨w,hw⟩ := hi.placed s hk
          obtain ⟨l,rfl⟩ := (hw.held c').mp hheld
          obtain ⟨l',he⟩ := (hw.held c).mp ho
          cases he
          exact absurd rfl hc
        · exact absurd hheld ((hi.absent s hk).2.2.2.1 c')
  owners := by
    intro s hs
    rcases hq.owner s with ho | ⟨_,ho⟩
    · rw [ho]
      exact hi.owners s (hq.used.mp hs)
    · exact ho
  lists := hlists
  live := fun p hp => hq.used.mpr (hlive p hp)

/-- A step of thread `c` that moves the span `s` only. -/
structure Touches (st st' : State) (c s : ℕ) : Prop where
  pc : ∀ c', c' ≠ c → st'.pc c' = st.pc c'
  hot : ∀ c', c' ≠ c → st'.hot c' = st.hot c'
  slot : ∀ sc y, y ≠ s → y ≠ 0 → (st'.slot c sc = y ↔ st.slot c sc = y)
  deque : ∀ c' sc y, y ≠ s → (y ∈ st'.deque c' sc ↔ y ∈ st.deque c' sc)
  pool : ∀ a b y, y ≠ s → (y ∈ st'.pool.spans a b ↔ y ∈ st.pool.spans a b)
  span : ∀ y, y ≠ s → st'.spans y = st.spans y
  owner : (st'.spans s).owner = (st.spans s).owner
  lists : (st'.spans s).locals = (st.spans s).locals ∧ (st'.spans s).remotes = (st.spans s).remotes
  before : ∀ y, (st.pc c).held = some y → y = s
  after : ∀ y, (st'.pc c).held = some y → y = s
  others : ∀ c', c' ≠ c → (st.pc c').held = some s → (st'.spans s).epoch = (st.spans s).epoch
  known : ∀ y, st'.Known y ↔ y = s ∨ st.Known y
  live : st'.live = st.live

theorem Touches.held (ht : Touches st st' c s) (hy : y ≠ s) (c' : ℕ) :
    (st'.pc c').held = some y ↔ (st.pc c').held = some y := by
  by_cases hc : c' = c
  · subst hc
    exact ⟨fun h => absurd (ht.after y h) hy,fun h => absurd (ht.before y h) hy⟩
  · rw [ht.pc c' hc]

theorem Touches.slot_iff (ht : Touches st st' c s) (hy : y ≠ s) (hy0 : y ≠ 0) (c' sc : ℕ) :
    st'.slot c' sc = y ↔ st.slot c' sc = y := by
  by_cases hc : c' = c
  · subst hc
    exact ht.slot sc y hy hy0
  · rw [State.slot_congr (ht.pc c' hc) (fun _ => by rw [ht.hot c' hc])]

theorem Touches.used (ht : Touches st st' c s) (hs : st.Used s → st'.Used s) (hy : st.Used y) :
    st'.Used y := by
  by_cases hys : y = s
  · subst hys
    exact hs hy
  · refine ⟨(ht.known y).mpr (.inr hy.1),fun c' hheld => ?_⟩
    rw [State.mark, ht.span y hys]
    exact hy.2 c' ((ht.held hys c').mp hheld)

theorem Touches.at (ht : Touches st st' c s) (hy : y ≠ s) (hy0 : y ≠ 0) (hw : st.At y w) :
    st'.At y w := by
  refine hw.congr (ht.slot_iff hy hy0) (fun c' sc => ht.deque c' sc y hy)
    (fun a b => ht.pool a b y hy) (ht.held hy) ?_ (by rw [ht.span y hy]) (by rw [ht.span y hy])
  intro c' m l hheld hg
  by_cases hc : c' = c
  · subst hc
    exact absurd (ht.before y hheld) hy
  · rw [ht.pc c' hc]
    exact hg

theorem Inv.touch (hi : Inv m st) (ht : Touches st st' c s) (harena : Heap.ArenaInv st'.arena)
    (hw : st'.At s w) (hvalid : Valid (st'.spans s).epoch) (hnodup : ∀ c sc, (st'.deque c sc).Nodup)
    (hpool : ∀ a b, (st'.pool.spans a b).Nodup) (hused : st.Used s → st'.Used s)
    (howner : st'.Used s → m.Owns (st'.spans s).owner) (hknows : (st'.pc c).Knows m st' c) :
    Inv m st' where
  arena := harena
  placed := by
    intro y hk
    by_cases hy : y = s
    · exact hy ▸ ⟨w,hw⟩
    · have hk' := ((ht.known y).mp hk).resolve_left hy
      obtain ⟨w',hw'⟩ := hi.placed y hk'
      exact ⟨w',ht.at hy (hi.ne_zero hk') hw'⟩
  absent := by
    intro y hk
    have hy : y ≠ s := fun he => hk ((ht.known y).mpr (.inl he))
    obtain ⟨h1,h2,h3,h4,h5⟩ := hi.absent y fun hk' => hk ((ht.known y).mpr (.inr hk'))
    refine ⟨?_,?_,?_,?_,by rw [ht.span y hy, h5]⟩
    · intro c' sc he
      by_contra hy0
      exact hy0 (h1 c' sc ((ht.slot_iff hy hy0 c' sc).mp he))
    · intro c' sc hm
      exact h2 c' sc ((ht.deque c' sc y hy).mp hm)
    · intro a b hm
      exact h3 a b ((ht.pool a b y hy).mp hm)
    · intro c' hheld
      exact h4 c' ((ht.held hy c').mp hheld)
  valid := by
    intro y
    by_cases hy : y = s
    · exact hy ▸ hvalid
    · rw [ht.span y hy]
      exact hi.valid y
  nodup := hnodup
  poolNodup := hpool
  knows := by
    intro c'
    by_cases hc : c' = c
    · exact hc ▸ hknows
    · rw [ht.pc c' hc]
      refine (hi.knows c').congr (ht.hot c' hc) (fun y => ht.used hused) fun y hheld => ?_
      by_cases hy : y = s
      · subst hy
        exact ⟨ht.owner,ht.others c' hc hheld⟩
      · rw [ht.span y hy]
        exact ⟨rfl,rfl⟩
  owners := by
    intro y hy
    by_cases hys : y = s
    · exact hys ▸ howner (hys ▸ hy)
    · rw [ht.span y hys]
      refine hi.owners y ⟨((ht.known y).mp hy.1).resolve_left hys,fun c' hheld => ?_⟩
      have hmark := hy.2 c' ((ht.held hys c').mpr hheld)
      rwa [State.mark, ht.span y hys] at hmark
  lists := by
    intro y p hp
    by_cases hy : y = s
    · subst hy
      rw [ht.lists.1, ht.lists.2] at hp
      exact hi.lists y p hp
    · rw [ht.span y hy] at hp
      exact hi.lists y p hp
  live := by
    intro p hp
    rw [ht.live] at hp
    exact ht.used hused (hi.live p hp)

end Frames

end Scalloc.Stepwise
