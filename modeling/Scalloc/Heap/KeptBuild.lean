import Scalloc.Heap.Stranded

/-! # Cleaning up in `GetSpan`

In a build without the cleanup in `Core::Free`, `GetSpan` takes every span out of the deque. The
first becomes hot and those without live objects go to the pool. Each of the others keeps the
mark it had in the deque, and a free never links a span with that mark.
-/
namespace Scalloc
open ByteMemory Epoch Transition

namespace Board
variable {percent : ℕ} {B B' : Board} {c sc s x y a b : ℕ} {id : CoreId} {l : List ℕ}

/-- `GetSpan` on a deque with last span `y`. -/
theorem Renews.of_concat (hr : B.Renews false c sc s B') (hl : (B.deque c sc).nodes = l ++ [y]) :
    s = y ∧ B'.hot c sc = y ∧ B'.ids = B.ids ∧
      ∀ x ∈ l, x ≠ y →
        ((B.card x).free = classToObjects (B.card x).sizeClass → B'.Pooled x) ∧
        ((B.card x).free ≠ classToObjects (B.card x).sizeClass →
          B'.card x = { B.card x with link := none }) := by
  cases hr with
  | fetched hclean _ => cases hclean
  | swept _ hf hs =>
    cases hf with
    | @reuse l' hl' =>
      obtain ⟨rfl,hy⟩ := List.append_inj' (hl'.symm.trans hl) rfl
      obtain rfl := List.singleton_inj.mp hy
      have hnodes : ((B.reuse c sc s).deque c sc).nodes = l' := by
        simp [Board.reuse, hl]
      refine ⟨rfl,?_,hs.ids,fun x hx hxs => ?_⟩
      · rw [hs.hot]
        simp [Board.reuse]
      · have hcard : (B.reuse c sc s).card x = B.card x := by
          simp [Board.reuse, setCard, hxs]
        rw [← hcard]
        rw [← hnodes] at hx
        exact ⟨fun hfull => (hs.full x hx hfull).1,fun hfull => (hs.dropped x hx hfull).1⟩
    | fresh hl' => simp [hl] at hl'
    | recycled hl' => simp [hl] at hl'

/-- A free of an object of a span that is marked reusable and has a live owner. -/
theorem freedIn_reusable (percent : ℕ) (id : CoreId) (a b : ℕ)
    (hm : (B.card x).mark = .reusable) (hg : ¬ B.Gone (B.card x).owner) :
    B.freedIn false percent x id a b = B.setFree x ((B.card x).free + 1) := by
  unfold freedIn
  rw [setFree_revive _ hg, hm]
  simp [settleIn, Board.settleKept]

end Board

/-- A call of `Core::Allocate` for class `sc` comes to `GetSpan`. -/
def Heap.CallsGetSpan (cfg : Config) (h : Heap) (c sc : ℕ) : Prop :=
  (h.cores c).hotSpan sc = 0 ∨ h.Retires cfg c sc

instance (cfg : Config) (h : Heap) (c sc : ℕ) : Decidable (h.CallsGetSpan cfg c sc) :=
  inferInstanceAs (Decidable (_ ∨ _))

/-- What a call of `GetSpan` may make of a span of the deque: it is the hot span, it went to
the pool since all its objects were free, or it can be used again. -/
def NotLost (cfg : Config) (st st' : State) (c sc x : ℕ) : Prop :=
  (st'.heap.cores c).hotSpan sc = x ∨ (st.heap.spans x).AllFree ∧ st'.heap.pool.Holds x ∨
    x ∈ (st'.heap.deque c sc).nodes ∨ st'.Recovers cfg x

namespace State
variable {cfg : Config} {st st' : State} {t size x : ℕ} {rand : ℕ → ℕ → ℕ}

/-- A span outside the deques with the mark of a span in a deque, and a live owner. -/
structure Dropped (st : State) (x : ℕ) : Prop where
  known : st.heap.Known x
  mark : ((st.heap.board st.heap.hot).card x).mark = .reusable
  link : ((st.heap.board st.heap.hot).card x).link = none
  owner : ¬ (st.heap.board st.heap.hot).Gone ((st.heap.board st.heap.hot).card x).owner

theorem Dropped.not_available (hd : Dropped st x) (hi : Inv cfg st) : ¬ st.Available x := by
  obtain ⟨w,hw⟩ := hi.heap.board.placed x hd.known
  have hlink := hw.link.symm.trans hd.link
  have ha := hw.allowed
  rintro (⟨c,sc,hm⟩ | ⟨a,b,hm⟩)
  · obtain rfl := (hw.deque c sc).mp hm
    cases hlink
  · obtain rfl := (hw.pool a b).mp hm
    cases hd.mark.symm.trans ha

/-- The frees of its objects leave a dropped span as it is. -/
theorem Dropped.free (hd : Dropped st x) (hi : Inv cfg st) (hkept : cfg.cleanupInFree = false)
    {b : Block} (hbx : fromObject b.start = x)
    (hs : Scalloc.step cfg st (.free t b) = some st') : Dropped st' x := by
  obtain ⟨_,_,_,⟨i,j,hboard⟩,_⟩ := step_freeIn hi hs
  rw [hbx, hkept, Board.freedIn_reusable _ _ _ _ hd.mark hd.owner] at hboard
  have hk : (st'.heap.board st'.heap.hot).known x := by
    rw [hboard]
    exact hd.known
  refine ⟨hk,?_,?_,?_⟩
  · rw [hboard, Board.card_setFree]
    exact hd.mark
  · rw [hboard, Board.card_setFree]
    exact hd.link
  · rw [hboard, Board.card_setFree]
    exact hd.owner

theorem Dropped.not_recovers (hd : Dropped st x) (hi : Inv cfg st)
    (hkept : cfg.cleanupInFree = false) : ¬ Recovers cfg st x := by
  rintro ⟨st',hrun,ha⟩
  have hboth : Inv cfg st' ∧ Dropped st' x := by
    refine hrun.invariant (P := fun st => Inv cfg st ∧ Dropped st x) ⟨hi,hd⟩ ?_
    rintro st e st' ⟨hi,hd⟩ hok hs
    refine ⟨hi.step hs,?_⟩
    cases e with
    | free t b => exact hd.free hi hkept hok hs
    | start t => exact absurd hok id
    | exit t => exact absurd hok id
    | allocate t size rand => exact absurd hok id
    | write b a v => exact absurd hok id
  exact hboth.2.not_available hboth.1 ha

/-- The board at the call of `GetSpan` and what the call makes of it. -/
theorem Inv.renews_of_calls (hi : Inv cfg st)
    (hcall : st.heap.CallsGetSpan cfg (st.heap.tls t) (sizeToClass size))
    (hs : Scalloc.step cfg st (.allocate t size rand) = some st') :
    ∃ (B B' : Board) (s : ℕ), B.ids = (st.heap.board st.heap.hot).ids ∧
      B.deque = (st.heap.board st.heap.hot).deque ∧
      (∀ x ∈ (st.heap.deque (st.heap.tls t) (sizeToClass size)).nodes,
        B.card x = (st.heap.board st.heap.hot).card x) ∧
      B.Renews cfg.cleanupInFree (st.heap.tls t) (sizeToClass size) s B' ∧
      st'.heap.board st'.heap.hot = B'.setFree s ((B'.card s).free - 1) := by
  obtain ⟨_,_,_,s,_,hall,_⟩ := step_allocate hi hs
  by_cases h0 : (st.heap.cores (st.heap.tls t)).hotSpan (sizeToClass size) = 0
  · have hserves := hall.serves
    generalize hB : st'.heap.board st'.heap.hot = B' at hserves
    cases hserves with
    | direct hne => exact absurd h0 hne
    | first _ hr => exact ⟨_,_,_,rfl,rfl,fun _ _ => rfl,hr,rfl⟩
    | next hne => exact absurd h0 hne
  · obtain ⟨hlocal,hfew⟩ := (hi.heap.retires_iff h0).mp (hcall.resolve_left h0)
    obtain ⟨B',hr,hboard⟩ := hall.given h0 hlocal hfew
    obtain ⟨_,hat,_⟩ := hi.heap.hot_at h0
    refine ⟨(st.heap.board st.heap.hot).retire _ _,B',s,rfl,rfl,fun x hx => ?_,hr,hboard⟩
    have hne : x ≠ (st.heap.cores (st.heap.tls t)).hotSpan (sizeToClass size) := by
      rintro rfl
      cases (hat.deque _ _).mp hx
    exact Function.update_of_ne hne _ _

/-- `GetSpan` takes the last span of the deque, deletes the others without live objects and
drops the rest. -/
theorem Inv.sweeps (hi : Inv cfg st) (hkept : cfg.cleanupInFree = false)
    (hcall : st.heap.CallsGetSpan cfg (st.heap.tls t) (sizeToClass size))
    (hs : Scalloc.step cfg st (.allocate t size rand) = some st') {l : List ℕ} {y : ℕ}
    (hl : (st.heap.deque (st.heap.tls t) (sizeToClass size)).nodes = l ++ [y]) :
    (st'.heap.cores (st.heap.tls t)).hotSpan (sizeToClass size) = y ∧
      ∀ x ∈ l, x ≠ y → ((st.heap.spans x).AllFree → st'.heap.pool.Holds x) ∧
        (¬ (st.heap.spans x).AllFree → Dropped st' x) := by
  obtain ⟨B,B',s,hids,hdeque,hcards,hr,hboard⟩ := hi.renews_of_calls hcall hs
  obtain ⟨_,_,_,_,_,hall,_⟩ := step_allocate hi hs
  rw [hkept] at hr
  obtain ⟨rfl,hhot,hids',hrest⟩ := hr.of_concat
    (show (B.deque (st.heap.tls t) (sizeToClass size)).nodes = l ++ [y] by rw [hdeque]; exact hl)
  have hids'' : (st'.heap.board st'.heap.hot).ids = (st.heap.board st.heap.hot).ids := by
    rw [hboard]
    exact hids'.trans hids
  refine ⟨?_,fun x hxl hxs => ?_⟩
  · change (st'.heap.board st'.heap.hot).hot (st.heap.tls t) (sizeToClass size) = s
    rw [hboard]
    exact hhot
  have hx : x ∈ (st.heap.deque (st.heap.tls t) (sizeToClass size)).nodes := by
    rw [hl]
    exact List.mem_append_left _ hxl
  have hk := hi.heap.board.known_of_mem hx
  obtain ⟨w,hw⟩ := hi.heap.board.placed x hk
  obtain rfl := (hw.deque _ _).mp hx
  obtain ⟨hpool,hdrop⟩ := hrest x hxl hxs
  rw [hcards x hx] at hpool hdrop
  constructor
  · intro hfull
    obtain ⟨a,b,hm⟩ := hpool hfull
    refine ⟨a,b,?_⟩
    change x ∈ (st'.heap.board st'.heap.hot).pool a b
    rw [hboard]
    exact hm
  · intro hfull
    have hcard : (st'.heap.board st'.heap.hot).card x =
        { (st.heap.board st.heap.hot).card x with link := none } := by
      rw [hboard, Board.card_setFree_of_ne hxs, hdrop hfull]
    have hnp : ¬ (st.heap.board st.heap.hot).Pooled x := by
      rintro ⟨a,b,hm⟩
      cases (hw.pool a b).mp hm
    refine ⟨(hall.serves.keeps hk hnp).1,?_,by rw [hcard],?_⟩
    · rw [hcard]
      exact hw.allowed.2.2.2.1
    · rw [hcard, Board.Gone, hids'']
      exact hi.heap.board.not_gone hw.allowed.1 hw.allowed.2.2.1

/-- A call of `GetSpan` loses exactly the spans that it neither takes nor deletes. -/
theorem Inv.notLost_iff (hi : Inv cfg st) (hkept : cfg.cleanupInFree = false)
    (hcall : st.heap.CallsGetSpan cfg (st.heap.tls t) (sizeToClass size))
    (hs : Scalloc.step cfg st (.allocate t size rand) = some st')
    (hx : x ∈ (st.heap.deque (st.heap.tls t) (sizeToClass size)).nodes) :
    NotLost cfg st st' (st.heap.tls t) (sizeToClass size) x ↔
      (st.heap.deque (st.heap.tls t) (sizeToClass size)).nodes.getLast? = some x ∨
        (st.heap.spans x).AllFree := by
  have hi' := hi.step hs
  obtain ⟨l,y,hl⟩ : ∃ l y, (st.heap.deque (st.heap.tls t) (sizeToClass size)).nodes = l ++ [y] := by
    rcases List.eq_nil_or_concat (st.heap.deque (st.heap.tls t) (sizeToClass size)).nodes with
      h0 | ⟨l,y,hl⟩
    · simp [h0] at hx
    · exact ⟨l,y,by simpa using hl⟩
  obtain ⟨hslot,hrest⟩ := hi.sweeps hkept hcall hs hl
  rw [hl, List.getLast?_concat, Option.some_inj]
  by_cases hxy : x = y
  · exact iff_of_true (.inl (hslot.trans hxy.symm)) (.inl hxy.symm)
  · have hxl : x ∈ l := by
      rw [hl, List.mem_append, List.mem_singleton] at hx
      exact hx.resolve_right hxy
    obtain ⟨hpool,hdrop⟩ := hrest x hxl hxy
    constructor
    · intro hfate
      by_contra hnot
      have hd := hdrop fun hfull => hnot (.inr hfull)
      rcases hfate with hhot | ⟨hfull,_⟩ | hmem | hrec
      · exact hxy (hhot.symm.trans hslot)
      · exact hnot (.inr hfull)
      · exact hd.not_available hi' (.inl ⟨_,_,hmem⟩)
      · exact hd.not_recovers hi' hkept hrec
    · intro hcond
      have hfull := hcond.resolve_left fun he => hxy he.symm
      exact .inr (.inl ⟨hfull,hpool hfull⟩)

end State

/-- In a build that cleans up in `GetSpan`, a call loses exactly the spans of the deque that
are not the last one and have a live object. -/
theorem notLost_iff_of_reachable {cfg : Config} (hkept : cfg.cleanupInFree = false) {st st' : State}
    {t size : ℕ} {rand : ℕ → ℕ → ℕ} (hr : Reachable cfg st)
    (hcall : st.heap.CallsGetSpan cfg (st.heap.tls t) (sizeToClass size))
    (hs : step cfg st (.allocate t size rand) = some st') :
    ∀ x ∈ (st.heap.deque (st.heap.tls t) (sizeToClass size)).nodes,
      NotLost cfg st st' (st.heap.tls t) (sizeToClass size) x ↔
        (st.heap.deque (st.heap.tls t) (sizeToClass size)).nodes.getLast? = some x ∨
          (st.heap.spans x).AllFree :=
  fun _ hx => hr.inv.notLost_iff hkept hcall hs hx

instance (x : Span) : Decidable x.AllFree := inferInstanceAs (Decidable (_ = _))

/-- The machine of the examples in a build that cleans up in `GetSpan`. -/
def keptConfig : Config := { sampleConfig with cleanupInFree := false }

/-- Three spans of eight objects are used up, and seven objects of each of the first two are
freed. -/
def keptEvents : List Event :=
  .start 0 :: List.replicate 24 (.allocate 0 131072 fun _ _ => 0) ++
    (List.range 7).map (fun i => .free 0 ⟨kObjectSpaceSize + 128 + i * 131072,25⟩) ++
    (List.range 7).map fun i =>
      .free 0 ⟨kObjectSpaceSize + kVirtualSpanSize + 128 + i * 131072,25⟩

theorem keptEvents_run : ∃ st st', Reachable keptConfig st ∧
    step keptConfig st (.allocate 0 131072 fun _ _ => 0) = some st' ∧
    st.heap.CallsGetSpan keptConfig (st.heap.tls 0) (sizeToClass 131072) ∧
    (st.heap.deque (st.heap.tls 0) (sizeToClass 131072)).nodes =
      [kObjectSpaceSize + kVirtualSpanSize,kObjectSpaceSize] ∧
    ¬ (st.heap.spans (kObjectSpaceSize + kVirtualSpanSize)).AllFree := by
  have hrun : ((exec (step keptConfig) Always (State.init sampleLayout false) keptEvents).bind
      fun st => (step keptConfig st (.allocate 0 131072 fun _ _ => 0)).map fun _ =>
        (decide (st.heap.CallsGetSpan keptConfig (st.heap.tls 0) (sizeToClass 131072)),
          (st.heap.deque (st.heap.tls 0) (sizeToClass 131072)).nodes,
          decide (st.heap.spans (kObjectSpaceSize + kVirtualSpanSize)).AllFree)) =
      some (true,[kObjectSpaceSize + kVirtualSpanSize,kObjectSpaceSize],false) := by decide +kernel
  obtain ⟨st,hst,hmap⟩ := Option.bind_eq_some_iff.mp hrun
  obtain ⟨st',hs,hval⟩ := Option.map_eq_some_iff.mp hmap
  simp only [Prod.mk.injEq, decide_eq_true_eq, decide_eq_false_iff_not] at hval
  exact ⟨st,st',⟨sampleLayout,false,runs_of_exec hst⟩,hs,hval⟩

/-- The span at the back of the deque becomes hot, the one before it is lost. -/
theorem notLost_keptEvents : ∃ st st', Reachable keptConfig st ∧
    step keptConfig st (.allocate 0 131072 fun _ _ => 0) = some st' ∧
    NotLost keptConfig st st' (st.heap.tls 0) 25 kObjectSpaceSize ∧
    ¬ NotLost keptConfig st st' (st.heap.tls 0) 25 (kObjectSpaceSize + kVirtualSpanSize) := by
  obtain ⟨st,st',hr,hs,hcall,hnodes,hlive⟩ := keptEvents_run
  have hclass : sizeToClass 131072 = 25 := by decide
  have hiff := notLost_iff_of_reachable rfl hr hcall hs
  rw [hnodes, hclass] at hiff
  refine ⟨st,st',hr,hs,(hiff _ (by simp)).mpr (.inl rfl),fun hnot => ?_⟩
  rcases (hiff _ (by simp)).mp hnot with hlast | hall
  · exact absurd hlast (by decide)
  · exact hlive hall

theorem not_notLost_keptEvents : ¬ ∀ (cfg : Config), cfg.cleanupInFree = false →
    ∀ (st st' : State) (t size : ℕ) (rand : ℕ → ℕ → ℕ), Reachable cfg st →
      st.heap.CallsGetSpan cfg (st.heap.tls t) (sizeToClass size) →
      step cfg st (.allocate t size rand) = some st' →
      ∀ x ∈ (st.heap.deque (st.heap.tls t) (sizeToClass size)).nodes,
        NotLost cfg st st' (st.heap.tls t) (sizeToClass size) x := by
  intro hall
  obtain ⟨st,st',hr,hs,hcall,hnodes,hlive⟩ := keptEvents_run
  have hx : kObjectSpaceSize + kVirtualSpanSize ∈
      (st.heap.deque (st.heap.tls 0) (sizeToClass 131072)).nodes := by
    rw [hnodes]
    exact List.mem_cons_self
  have hfate := hall keptConfig rfl st st' 0 131072 _ hr hcall hs _ hx
  rcases (hr.inv.notLost_iff rfl hcall hs hx).mp hfate with hlast | hfree
  · rw [hnodes] at hlast
    exact absurd hlast (by decide)
  · exact hlive hfree

end Scalloc
