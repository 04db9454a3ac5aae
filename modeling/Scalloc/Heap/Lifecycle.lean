import Scalloc.Heap.View

/-! # Threads start and exit

`Core::Destroy` and `Core::Init` are loops over the size classes. Their closed forms
show that an exit closes the core on the board and a start opens it.
-/
namespace Scalloc
open ByteMemory Epoch

namespace Heap
variable {percent : ℕ} {cfg : Config} {h h' : Heap} {live : ℕ → List ℕ} {c : ℕ}

/-- The heap after `RemoveAll`. -/
def drained (h : Heap) (c sc : ℕ) (nodes : List ℕ) : Heap :=
  { h.setDeque c sc { h.deque c sc with nodes := [] } with
    spans := fun x => if x ∈ nodes then { h.spans x with spanLink := none } else h.spans x }

theorem removeAll_eq (cfg : Config) {sc : ℕ} {nodes : List ℕ} :
    ∀ {h : Heap} {fuel : ℕ}, (h.deque c sc).nodes = nodes → 0 ∉ nodes → nodes.length ≤ fuel →
      h.removeAll cfg c sc fuel = .ok (h.drained c sc nodes) := by
  induction nodes with
  | nil =>
    intro h fuel hn _ _
    have hself : h.setDeque c sc { h.deque c sc with nodes := [] } = h := by
      rw [← hn]
      simp [setDeque, setCore, deque]
    have hdrained : h.drained c sc [] = h := by
      rw [drained, hself]
      simp
    rw [hdrained]
    cases fuel with
    | zero => rfl
    | succ fuel =>
      have hnull : (h.deque c sc).noNull = true := Deque.noNull_iff.mpr (by simp [hn])
      rw [removeAll, removeFront, scallocAssert_true cfg _ hnull, hn]
      rfl
  | cons x nodes ih =>
    intro h fuel hn h0 hfuel
    obtain ⟨fuel,rfl⟩ : ∃ f, fuel = f + 1 := ⟨fuel - 1,by simp at hfuel; omega⟩
    have hx : x ≠ 0 := fun he => h0 (by simp [he])
    have hnext : (((h.setDeque c sc { h.deque c sc with nodes := nodes }).setLink x none).deque c
        sc).nodes = nodes := by
      simp [setLink, setSpan, setDeque, setCore, deque]
    have hnull : (h.deque c sc).noNull = true := Deque.noNull_iff.mpr (by rw [hn]; exact h0)
    have hfront : h.removeFront cfg c sc =
        .ok (x,(h.setDeque c sc { h.deque c sc with nodes := nodes }).setLink x none) := by
      rw [removeFront, scallocAssert_true cfg _ hnull, hn]
      rfl
    simp only [removeAll, hfront, bind, Except.bind, hx, if_false]
    rw [ih hnext (fun hm => h0 (by simp [hm])) (Nat.le_of_succ_le_succ hfuel)]
    refine congrArg Except.ok ?_
    simp only [drained, setLink, setSpan, setDeque, setCore, deque, Function.update_self,
      Function.update_idem]
    congr 1
    funext y
    by_cases hy : y = x
    · subst hy
      simp
    · simp [hy]

/-- The headers after the first `k` rounds of `Core::Destroy`. -/
def closedSpan (h : Heap) (c k x : ℕ) : Span :=
  { h.spans x with
    epoch := if ∃ sc < k, (h.cores c).hotSpan sc = x ∧ x ≠ 0 then newMarkFloating (h.spans x).epoch
      else (h.spans x).epoch
    spanLink := if ∃ sc < k, x ∈ (h.deque c sc).nodes then none else (h.spans x).spanLink }

/-- The heap after the first `k` rounds of `Core::Destroy`. -/
def closed (h : Heap) (c k : ℕ) : Heap :=
  { h.setCore c { h.cores c with
      hotSpan := fun sc => if sc < k then 0 else (h.cores c).hotSpan sc
      rSpans := fun sc => if sc < k then ⟨kTerminated,[]⟩ else (h.cores c).rSpans sc } with
    spans := h.closedSpan c k }

theorem newMarkFloating_idem (e : Epoch) :
    newMarkFloating (newMarkFloating e) = newMarkFloating e := by
  rw [newMarkFloating, newMarkFloating, BitVec.and_assoc, BitVec.and_self]

theorem closed_zero : h.closed c 0 = h := by
  have hs : h.closedSpan c 0 = h.spans := by
    funext x
    simp [closedSpan]
  simp [closed, hs, setCore]

theorem exists_lt_succ {k : ℕ} {P : ℕ → Prop} :
    (∃ sc < k + 1, P sc) ↔ (∃ sc < k, P sc) ∨ P k := by
  constructor
  · rintro ⟨sc,hsc,hp⟩
    rcases Nat.lt_succ_iff_lt_or_eq.mp hsc with hlt | rfl
    · exact .inl ⟨sc,hlt,hp⟩
    · exact .inr hp
  · rintro (⟨sc,hsc,hp⟩ | hp)
    · exact ⟨sc,hsc.trans (Nat.lt_succ_self k),hp⟩
    · exact ⟨k,Nat.lt_succ_self k,hp⟩

/-- The headers after one more round. -/
theorem closedSpan_succ {k x : ℕ} :
    h.closedSpan c (k + 1) x = { h.closedSpan c k x with
      epoch := if (h.cores c).hotSpan k = x ∧ x ≠ 0 then newMarkFloating (h.closedSpan c k x).epoch
        else (h.closedSpan c k x).epoch
      spanLink := if x ∈ (h.deque c k).nodes then none else (h.closedSpan c k x).spanLink } := by
  simp only [closedSpan, exists_lt_succ, Span.mk.injEq, true_and, and_true]
  constructor
  · by_cases h1 : ∃ sc < k, x ∈ (h.deque c sc).nodes <;> by_cases h2 : x ∈ (h.deque c k).nodes <;>
      simp [h1, h2]
  · by_cases h1 : ∃ sc < k, (h.cores c).hotSpan sc = x ∧ x ≠ 0
    · by_cases h2 : (h.cores c).hotSpan k = x ∧ x ≠ 0
      · rw [if_pos (.inl h1), if_pos h2, if_pos h1, newMarkFloating_idem]
      · rw [if_pos (.inl h1), if_neg h2, if_pos h1]
    · by_cases h2 : (h.cores c).hotSpan k = x ∧ x ≠ 0
      · rw [if_pos (.inr h2), if_pos h2, if_neg h1]
      · rw [if_neg (not_or.mpr ⟨h1,h2⟩), if_neg h2, if_neg h1]

/-- The core after one more round. -/
theorem closedCore_succ {k : ℕ} :
    (h.closed c (k + 1)).cores c = { (h.closed c k).cores c with
      hotSpan := Function.update ((h.closed c k).cores c).hotSpan k 0
      rSpans := Function.update ((h.closed c k).cores c).rSpans k ⟨kTerminated,[]⟩ } := by
  simp only [closed, setCore, Function.update_self, Core.mk.injEq, true_and]
  constructor
  · funext sc
    by_cases hsc : sc = k
    · simp [hsc]
    · have hlt : sc < k + 1 ↔ sc < k := by omega
      simp [hsc, hlt]
  · funext sc
    by_cases hsc : sc = k
    · simp [hsc]
    · have hlt : sc < k + 1 ↔ sc < k := by omega
      simp [hsc, hlt]

/-- One round of `Core::Destroy`. -/
theorem destroyClass_eq (cfg : Config) {k : ℕ} (h0 : 0 ∉ (h.deque c k).nodes) :
    h.destroyClass cfg c k = .ok { h with
      spans := fun x => { h.spans x with
        epoch := if (h.cores c).hotSpan k = x ∧ x ≠ 0 then newMarkFloating (h.spans x).epoch
          else (h.spans x).epoch
        spanLink := if x ∈ (h.deque c k).nodes then none else (h.spans x).spanLink }
      cores := Function.update h.cores c { h.cores c with
        hotSpan := Function.update (h.cores c).hotSpan k 0
        rSpans := Function.update (h.cores c).rSpans k ⟨kTerminated,[]⟩ } } := by
  have hslot : ((h.closeDeque c k).cores c).hotSpan k = (h.cores c).hotSpan k := by
    simp [closeDeque, openDeque, setDeque, setCore]
  simp only [destroyClass, hslot]
  by_cases hs : (h.cores c).hotSpan k = 0
  · have hupdate : Function.update (h.cores c).hotSpan k 0 = (h.cores c).hotSpan := by
      rw [← hs, Function.update_eq_self]
    have hne : ∀ x, ¬ (0 = x ∧ x ≠ 0) := fun x hx => hx.2 hx.1.symm
    rw [hs, if_neg (by simp), removeAll_eq cfg rfl
      (by simpa [closeDeque, openDeque, setDeque, setCore, deque] using h0) (Nat.le_succ _)]
    refine congrArg Except.ok ?_
    simp only [drained, closeDeque, openDeque, setDeque, setCore, deque, Function.update_self,
      Function.update_idem, hupdate, hne, if_false]
    congr 1
    funext x
    by_cases hn : x ∈ ((h.cores c).rSpans k).nodes <;> simp [hn]
  · rw [if_pos hs, removeAll_eq cfg rfl
      (by simpa [closeDeque, openDeque, setDeque, setCore, deque, setEpoch, setSpan, setHot] using h0)
      (Nat.le_succ _)]
    refine congrArg Except.ok ?_
    simp only [drained, closeDeque, openDeque, setDeque, setCore, deque, Function.update_self,
      Function.update_idem, setEpoch, setSpan, setHot]
    congr 1
    funext x
    by_cases hx : x = (h.cores c).hotSpan k
    · subst hx
      by_cases hn : (h.cores c).hotSpan k ∈ ((h.cores c).rSpans k).nodes <;> simp [hn, hs]
    · have hx' : ¬ ((h.cores c).hotSpan k = x ∧ x ≠ 0) := fun he => hx he.1.symm
      by_cases hn : x ∈ ((h.cores c).rSpans k).nodes <;> simp [hn, hx, hx']

theorem destroyClass_closed (cfg : Config) {k : ℕ} (h0 : 0 ∉ (h.deque c k).nodes) :
    (h.closed c k).destroyClass cfg c k = .ok (h.closed c (k + 1)) := by
  have hdeque : (h.closed c k).deque c k = h.deque c k := by simp [closed, setCore, deque]
  have hslot : ((h.closed c k).cores c).hotSpan k = (h.cores c).hotSpan k := by
    simp [closed, setCore]
  have hcores : (h.closed c (k + 1)).cores =
      Function.update (h.closed c k).cores c ((h.closed c (k + 1)).cores c) := by
    simp [closed, setCore]
  have hspans : (h.closed c (k + 1)).spans = fun x => { (h.closed c k).spans x with
      epoch := if (h.cores c).hotSpan k = x ∧ x ≠ 0 then
        newMarkFloating ((h.closed c k).spans x).epoch else ((h.closed c k).spans x).epoch
      spanLink := if x ∈ (h.deque c k).nodes then none else ((h.closed c k).spans x).spanLink } := by
    funext x
    exact closedSpan_succ
  rw [destroyClass_eq cfg (hdeque ▸ h0), hdeque, hslot, ← hspans, ← closedCore_succ, ← hcores]
  rfl

/-- The heap after `Core::Destroy`. -/
def destroyed (h : Heap) (c : ℕ) : Heap :=
  (h.closed c kNumClasses).setCore c
    { (h.closed c kNumClasses).cores c with id := kTerminated }

/-- `Core::Destroy` in closed form. -/
theorem destroy_eq (cfg : Config) (h0 : ∀ sc, 0 ∉ (h.deque c sc).nodes) :
    h.destroy cfg c = .ok (h.destroyed c) := by
  have hloop : ∀ k, (List.range k).foldlM (fun h sc => h.destroyClass cfg c sc) h =
      .ok (h.closed c k) := by
    intro k
    induction k with
    | zero => exact congrArg Except.ok closed_zero.symm
    | succ k ih =>
      rw [List.range_succ, List.foldlM_append, ih]
      simp only [bind, Except.bind, List.foldlM_cons, List.foldlM_nil,
        destroyClass_closed cfg (h0 k)]
      rfl
  rw [destroy, hloop]
  rfl

theorem card_closed (c k x : ℕ) : (h.closedSpan c k x).card = { (h.spans x).card with
    mark := mark (if ∃ sc < k, (h.cores c).hotSpan sc = x ∧ x ≠ 0 then
      newMarkFloating (h.spans x).epoch else (h.spans x).epoch)
    link := if ∃ sc < k, x ∈ (h.deque c sc).nodes then none else (h.spans x).spanLink } := rfl

/-- An exit closes the core on the board. -/
theorem closes_destroy (hi : (h.board h.hot).Inv percent)
    (hvalid : ∀ s, Valid (h.spans s).epoch) :
    (h.board h.hot).Closes c ((h.destroyed c).board (h.destroyed c).hot) := by
  have hclass : ∀ sc, ¬ sc < kNumClasses → (h.cores c).hotSpan sc = 0 ∧ (h.deque c sc).nodes = [] := by
    intro sc hsc
    constructor
    · by_contra hne
      obtain ⟨w,hw⟩ := hi.placed _ (hi.known_of_hot (c := c) hne)
      obtain rfl := (hw.hot c sc).mp rfl
      exact hsc (hw.allowed.2.1 ▸ hw.objectClass.2)
    · refine List.eq_nil_iff_forall_not_mem.mpr fun x hx => ?_
      obtain ⟨w,hw⟩ := hi.placed x (hi.known_of_mem (c := c) hx)
      obtain rfl := (hw.deque c sc).mp hx
      exact hsc (hw.allowed.2.1 ▸ hw.objectClass.2)
  constructor
  · rfl
  · funext c'
    by_cases hc : c' = c <;> simp [board, setCore, closed, destroyed, hc]
  · rfl
  · intro c' sc
    by_cases hc : c' = c
    · by_cases hsc : sc < kNumClasses
      · simp [board, Heap.hot, setCore, closed, destroyed, hc, hsc]
      · simp [board, Heap.hot, setCore, closed, destroyed, hc, hsc, (hclass sc hsc).1]
    · simp [board, Heap.hot, setCore, closed, destroyed, hc]
  · intro c' sc
    by_cases hc : c' = c
    · by_cases hsc : sc < kNumClasses
      · simp [board, deque, setCore, closed, destroyed, hc, hsc]
      · have hnil : ((h.cores c).rSpans sc).nodes = [] := (hclass sc hsc).2
        simp [board, deque, setCore, closed, destroyed, hc, hsc, hnil]
    · simp [board, deque, setCore, closed, destroyed, hc]
  · intro c' sc hc
    simp [board, deque, setCore, closed, destroyed, hc]
  · intro sc hne
    have hne' : (h.cores c).hotSpan sc ≠ 0 := hne
    obtain ⟨w,hw⟩ := hi.placed _ (hi.known_of_hot hne)
    obtain rfl := (hw.hot c sc).mp rfl
    obtain ⟨k,m,he⟩ := hvalid ((h.cores c).hotSpan sc)
    have hhot : ∃ sc' < kNumClasses, (h.cores c).hotSpan sc' = (h.cores c).hotSpan sc ∧
        (h.cores c).hotSpan sc ≠ 0 :=
      ⟨sc,by_contra fun hsc => hne' (hclass sc hsc).1,rfl,hne'⟩
    have hlink : ¬ ∃ sc' < kNumClasses, (h.cores c).hotSpan sc ∈ (h.deque c sc').nodes := by
      rintro ⟨sc',_,hm⟩
      cases (hw.deque c sc').mp hm
    change (h.closedSpan c kNumClasses ((h.cores c).hotSpan sc)).card = _
    rw [card_closed, if_pos hhot, if_neg hlink, he, newMarkFloating_encode, mark_encode]
    rfl
  · intro s sc hs
    obtain ⟨w,hw⟩ := hi.placed s (hi.known_of_mem hs)
    obtain rfl := (hw.deque c sc).mp hs
    have hhot : ¬ ∃ sc' < kNumClasses, (h.cores c).hotSpan sc' = s ∧ s ≠ 0 := by
      rintro ⟨sc',_,hm,_⟩
      cases (hw.hot c sc').mp hm
    have hlink : ∃ sc' < kNumClasses, s ∈ (h.deque c sc').nodes :=
      ⟨sc,by_contra fun hsc => by
        have hnil := (hclass sc hsc).2
        rw [show h.deque c sc = (h.board h.hot).deque c sc from rfl] at hnil
        rw [hnil] at hs
        simp at hs,hs⟩
    refine .trans (card_closed c _ _) ?_
    rw [if_neg hhot, if_pos hlink]
    rfl
  · intro s hk hs
    have hhot : ¬ ∃ sc' < kNumClasses, (h.cores c).hotSpan sc' = s ∧ s ≠ 0 := by
      rintro ⟨sc',_,hm,_⟩
      exact (hs sc').1 hm
    have hlink : ¬ ∃ sc' < kNumClasses, s ∈ (h.deque c sc').nodes := by
      rintro ⟨sc',_,hm⟩
      exact (hs sc').2 hm
    refine .trans (card_closed c _ _) ?_
    rw [if_neg hhot, if_neg hlink]
    rfl

/-- An exit keeps the invariant of the heap. -/
theorem Inv.destroy (hi : Inv percent h h.hot live) :
    Inv percent (h.destroyed c) (h.destroyed c).hot live := by
  have hspans : (h.destroyed c).spans = h.closedSpan c kNumClasses := rfl
  have hknown : (h.destroyed c).Known = h.Known := rfl
  have hpool : (h.destroyed c).pool = h.pool := rfl
  have hmem : (h.destroyed c).mem = h.mem := rfl
  constructor
  · exact hi.board.close (closes_destroy hi.board hi.epoch)
  · exact hi.arena
  · intro s
    obtain ⟨k,m,he⟩ := hi.epoch s
    rw [hspans]
    simp only [closedSpan, he, newMarkFloating_encode]
    split
    · exact ⟨k,.floating,rfl⟩
    · exact ⟨k,m,rfl⟩
  · intro s hs
    rw [hknown] at hs
    have habsent := hi.board.absent s hs
    have hhot : ¬ ∃ sc < kNumClasses, (h.cores c).hotSpan sc = s ∧ s ≠ 0 := by
      rintro ⟨sc,_,hm,hne⟩
      exact hne (habsent.hot c sc hm)
    have hlink : ¬ ∃ sc < kNumClasses, s ∈ (h.deque c sc).nodes := by
      rintro ⟨sc,_,hm⟩
      exact habsent.deque c sc hm
    rw [hspans, closedSpan, if_neg hhot, if_neg hlink]
    exact hi.fresh s hs
  · rw [hpool]
    exact hi.pooled
  · intro s hk hp
    rw [hknown] at hk
    rw [hpool] at hp
    obtain ⟨L,R,j,hsl⟩ := hi.slots s hk hp
    rw [hmem, hspans]
    exact ⟨L,R,j,hsl.relabel rfl rfl rfl⟩

/-- The heap after the first `k` rounds of `Core::Init`. -/
def opened (h : Heap) (c : ℕ) (id : CoreId) (k : ℕ) : Heap :=
  h.setCore c { h.cores c with
    id := id
    rSpans := fun sc => if sc < k then { (h.cores c).rSpans sc with owner := id }
      else (h.cores c).rSpans sc }

theorem initCore_eq (h : Heap) (c : ℕ) (id : CoreId) :
    h.initCore c id = h.opened c id kNumClasses := by
  have hloop : ∀ k, (List.range k).foldl (fun h sc => h.openDeque c sc id)
      (h.setCore c { h.cores c with id := id }) = h.opened c id k := by
    intro k
    induction k with
    | zero => simp [opened]
    | succ k ih =>
      have hrs : Function.update (fun sc => if sc < k then { (h.cores c).rSpans sc with owner := id }
          else (h.cores c).rSpans sc) k { (h.cores c).rSpans k with owner := id } =
          fun sc => if sc < k + 1 then { (h.cores c).rSpans sc with owner := id }
            else (h.cores c).rSpans sc := by
        funext sc
        by_cases hsc : sc = k
        · simp [hsc]
        · have hlt : sc < k + 1 ↔ sc < k := by omega
          simp [hsc, hlt]
      rw [List.range_succ, List.foldl_append, ih]
      simp only [List.foldl_cons, List.foldl_nil, openDeque, setDeque, opened, setCore, deque,
        Function.update_self, Function.update_idem, lt_irrefl, if_false, hrs]
  rw [initCore, hloop]

/-- A start opens a core whose record is empty. -/
theorem opens_initCore {g : Heap} (id : CoreId) (hsame : ∀ c', c' ≠ c → g.cores c' = h.cores c')
    (hknown : g.Known = h.Known) (hspans : g.spans = h.spans) (hpool : g.pool.spans = h.pool.spans)
    (hhot : ∀ sc, (g.cores c).hotSpan sc = 0) (hnodes : ∀ sc, ((g.cores c).rSpans sc).nodes = []) :
    (h.board h.hot).Opens c id ((g.initCore c id).board (g.initCore c id).hot) := by
  rw [initCore_eq]
  constructor
  · exact hknown
  · funext s
    change (g.spans s).card = (h.spans s).card
    rw [hspans]
  · funext c'
    by_cases hc : c' = c
    · simp [board, opened, setCore, hc]
    · simp [board, opened, setCore, hc, hsame c' hc]
  · exact hpool
  · intro c' sc
    by_cases hc : c' = c
    · simp [board, Heap.hot, opened, setCore, hc, hhot]
    · simp [board, Heap.hot, opened, setCore, hc, hsame c' hc]
  · intro c' sc
    by_cases hc : c' = c
    · by_cases hsc : sc < kNumClasses <;>
        simp [board, deque, opened, setCore, hc, hsc, hnodes]
    · simp [board, deque, opened, setCore, hc, hsame c' hc]
  · intro c' sc hc
    simp [board, deque, opened, setCore, hc, hsame c' hc]
  · intro sc hsc
    simp [board, deque, opened, setCore, hsc]

end Heap
end Scalloc
