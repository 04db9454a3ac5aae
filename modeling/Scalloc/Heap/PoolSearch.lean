import Scalloc.Heap.Acquire
import Scalloc.Heap.System

/-! # The search through the span pool

The limit of the backends only grows, so a span stays below it once it is filed. The
search of an allocation visits every slot and every backend below the limit, from whatever
backend it starts: fresh memory is taken only when all stacks are empty.
-/
namespace Scalloc
open Transition

namespace SpanPool
variable {cfg : Config} {pool : SpanPool} {sc id a b : ℕ} {rand : ℕ → ℕ}

/-- The pool after `Init`. -/
def init : SpanPool := ⟨0,0,fun _ _ => []⟩

/-- Every filed span is where the search looks for it, and in one place. -/
structure Filed (pool : SpanPool) : Prop where
  limit_pos : 0 < pool.limit
  bounded : ∀ a b, pool.spans a b ≠ [] → a < kSizeClassSlots ∧ b < pool.limit
  nodup : ∀ a b, (pool.spans a b).Nodup
  once : ∀ s a b a' b', s ∈ pool.spans a b → s ∈ pool.spans a' b' → a = a' ∧ b = b'

theorem slot_lt (hsc : sc < kNumClasses) : slot sc < kSizeClassSlots := by
  have hf : kFineClasses = 17 := rfl
  have hn : kNumClasses = 29 := rfl
  have hk : kSizeClassSlots = 13 := rfl
  unfold slot
  split <;> omega

/-- Going downwards with the wrap below 0 visits every slot. -/
theorem exists_slotAt {s : ℕ} (hs : s < kSizeClassSlots) (ha : a < kSizeClassSlots) :
    ∃ i < kSizeClassSlots, slotAt s i = a := by
  unfold slotAt
  by_cases hle : a ≤ s
  · refine ⟨s - a,by omega,?_⟩
    rw [if_pos (by omega)]
    omega
  · refine ⟨s + kSizeClassSlots - a,by omega,?_⟩
    rw [if_neg (by omega)]
    omega

/-- Going round from any start visits every backend. -/
theorem exists_offset {n r : ℕ} (hr : r < n) (hb : b < n) : ∃ j < n, (r + j) % n = b := by
  by_cases hle : r ≤ b
  · refine ⟨b - r,by omega,?_⟩
    rw [show r + (b - r) = b by omega, Nat.mod_eq_of_lt hb]
  · refine ⟨b + n - r,by omega,?_⟩
    rw [show r + (b + n - r) = b + n by omega, Nat.add_mod_right, Nat.mod_eq_of_lt hb]

theorem mem_probes (hlimit : 0 < pool.limit) (hsc : sc < kNumClasses) (ha : a < kSizeClassSlots)
    (hb : b < pool.limit) : (a,b) ∈ pool.probes sc id rand := by
  obtain ⟨i,hi,hslot⟩ := exists_slotAt (slot_lt hsc) ha
  obtain ⟨j,hj,hoff⟩ := exists_offset (Nat.mod_lt (rand i) hlimit) hb
  apply List.mem_cons_of_mem
  apply List.mem_flatMap.mpr
  refine ⟨i,List.mem_range.mpr hi,List.mem_map.mpr ⟨j,List.mem_range.mpr hj,?_⟩⟩
  rw [hslot, hoff]

theorem popFirst_eq_none {probes : List (ℕ × ℕ)} :
    pool.popFirst probes = none ↔ ∀ a b, (a,b) ∈ probes → pool.spans a b = [] := by
  induction probes with
  | nil => simp [popFirst]
  | cons ab probes ih =>
    obtain ⟨a,b⟩ := ab
    simp only [popFirst, pop]
    cases hp : pool.spans a b with
    | nil =>
      simp only [ih, List.mem_cons, Prod.mk.injEq]
      constructor
      · rintro h a' b' (⟨rfl,rfl⟩ | hm)
        · exact hp
        · exact h a' b' hm
      · intro h a' b' hm
        exact h a' b' (.inr hm)
    | cons x rest =>
      refine iff_of_false (by simp) fun h => ?_
      have he := h a b List.mem_cons_self
      rw [hp] at he
      cases he

/-- The search fails exactly on the empty pool. -/
theorem Filed.popFirst_eq_none_iff (hf : pool.Filed) (hsc : sc < kNumClasses) :
    pool.popFirst (pool.probes sc id rand) = none ↔ ∀ a b, pool.spans a b = [] := by
  rw [popFirst_eq_none]
  constructor
  · intro h a b
    by_contra hne
    obtain ⟨ha,hb⟩ := hf.bounded a b hne
    exact hne (h a b (mem_probes hf.limit_pos hsc ha hb))
  · intro h a b _
    exact h a b

theorem filed_init (cfg : Config) : (init.announceNewThread cfg).Filed := by
  have hlimit : (init.announceNewThread cfg).limit = 1 := announceNewThread_first cfg rfl rfl
  have hempty : ∀ a b, (init.announceNewThread cfg).spans a b = [] := by
    intro a b
    rw [(announceNewThread_spec cfg init).1]
    rfl
  refine ⟨by omega,fun a b hne => absurd (hempty a b) hne,fun a b => ?_,fun s a b a' b' hm => ?_⟩
  · rw [hempty]
    exact List.nodup_nil
  · rw [hempty] at hm
    cases hm

theorem Filed.sublist {pool' : SpanPool} (hf : pool.Filed) (hlimit : pool.limit ≤ pool'.limit)
    (hspans : ∀ a b, (pool'.spans a b).Sublist (pool.spans a b)) : pool'.Filed where
  limit_pos := hf.limit_pos.trans_le hlimit
  bounded := by
    intro a b hne
    have hne' : pool.spans a b ≠ [] := by
      intro he
      exact hne (List.sublist_nil.mp (he ▸ hspans a b))
    exact ⟨(hf.bounded a b hne').1,(hf.bounded a b hne').2.trans_le hlimit⟩
  nodup := fun a b => (hf.nodup a b).sublist (hspans a b)
  once := fun s a b a' b' h h' => hf.once s a b a' b' ((hspans a b).subset h) ((hspans a' b').subset h')

/-- A pop takes the span out of the pool and nothing else. -/
theorem Filed.setStack_eq {s : ℕ} {rest : List ℕ} (hf : pool.Filed)
    (hp : pool.spans a b = s :: rest) :
    pool.setStack a b rest = { pool with spans := fun a b => (pool.spans a b).erase s } := by
  have hs : s ∈ pool.spans a b := by simp [hp]
  have hspans : (pool.setStack a b rest).spans = fun a b => (pool.spans a b).erase s := by
    funext a' b'
    rw [spans_setStack, update₂_apply]
    split
    · next heq =>
      obtain ⟨rfl,rfl⟩ := heq
      rw [hp, List.erase_cons_head]
    · next hne =>
      rw [List.erase_of_not_mem]
      intro hs'
      exact hne (hf.once s _ _ _ _ hs' hs)
  rw [← hspans]
  rfl

theorem Filed.erase {s : ℕ} (hf : pool.Filed) :
    Filed { pool with spans := fun a b => (pool.spans a b).erase s } :=
  hf.sublist le_rfl fun _ _ => List.erase_sublist

theorem Filed.push {s : ℕ} (hf : pool.Filed) (ha : a < kSizeClassSlots) (hs : ¬ pool.Holds s) :
    (pool.push a (id % pool.limit) s).Filed := by
  have hb := Nat.mod_lt id hf.limit_pos
  have hspans : ∀ a' b', (pool.push a (id % pool.limit) s).spans a' b' =
      if a' = a ∧ b' = id % pool.limit then s :: pool.spans a' b' else pool.spans a' b' := by
    intro a' b'
    rw [SpanPool.push, spans_setStack, update₂_apply]
    split
    · next heq =>
      obtain ⟨rfl,rfl⟩ := heq
      rfl
    · rfl
  have hmem : ∀ x a' b', x ∈ (pool.push a (id % pool.limit) s).spans a' b' ↔
      x ∈ pool.spans a' b' ∨ x = s ∧ a' = a ∧ b' = id % pool.limit := by
    intro x a' b'
    rw [hspans]
    split
    · next heq => simp [heq, or_comm]
    · next hne => simp [hne]
  refine ⟨hf.limit_pos,fun a' b' hne => ?_,fun a' b' => ?_,fun x a₁ b₁ a₂ b₂ h1 h2 => ?_⟩
  · by_cases heq : a' = a ∧ b' = id % pool.limit
    · rw [heq.1, heq.2]
      exact ⟨ha,hb⟩
    · rw [hspans, if_neg heq] at hne
      exact hf.bounded a' b' hne
  · rw [hspans]
    split
    · exact (hf.nodup a' b').cons fun hm => hs ⟨a',b',hm⟩
    · exact hf.nodup a' b'
  · rcases (hmem x a₁ b₁).mp h1 with hx | ⟨rfl,rfl,rfl⟩
    · rcases (hmem x a₂ b₂).mp h2 with hy | ⟨rfl,_,_⟩
      · exact hf.once x _ _ _ _ hx hy
      · exact absurd ⟨a₁,b₁,hx⟩ hs
    · rcases (hmem x a₂ b₂).mp h2 with hy | ⟨_,rfl,rfl⟩
      · exact absurd ⟨a₂,b₂,hy⟩ hs
      · exact ⟨rfl,rfl⟩

end SpanPool

/-- A fresh virtual span from the arena. -/
def Heap.freshSpan (h : Heap) : Result (ℕ × Heap) :=
  match h.objectSpace.allocateVirtualSpan with
  | none => .error .objectSpaceOOM
  | some (s,objectSpace) => .ok (s,{ h with objectSpace := objectSpace })

inductive PoolEvent
  | announceNewThread
  | announceLeavingThread
  | allocate (sc id : ℕ) (rand : ℕ → ℕ)
  | free (sc s id : ℕ)

/-- One call of the span pool. -/
def poolStep (cfg : Config) (h : Heap) : PoolEvent → Option Heap
  | .announceNewThread => some { h with pool := h.pool.announceNewThread cfg }
  | .announceLeavingThread => some { h with pool := h.pool.announceLeavingThread }
  | .allocate sc id rand =>
    if sc < kNumClasses then (h.spanPoolAllocate cfg sc id rand).toOption.map Prod.snd else none
  | .free sc s id => if sc < kNumClasses then (h.spanPoolFree cfg sc s id).toOption else none

/-- No span is freed that is in the pool already. -/
def FreesNew (h : Heap) : PoolEvent → Prop
  | .free _ s _ => s ≠ 0 ∧ ¬ h.pool.Holds s
  | _ => True

namespace Heap
variable {cfg : Config} {h h' : Heap} {sc id : ℕ} {rand : ℕ → ℕ}

/-- What `SpanPool::Allocate` does: memory is fresh exactly when the pool is empty, and else
one span leaves the pool with all others in place. -/
structure PoolAllocates (cfg : Config) (h : Heap) (sc id : ℕ) (rand : ℕ → ℕ) : Prop where
  fresh_iff : h.spanPoolAllocate cfg sc id rand = h.freshSpan ↔ ∀ s, ¬ h.pool.Holds s
  pooled : (∃ s, h.pool.Holds s) → ∃ s, h.pool.Holds s ∧
    ¬ SpanPool.Holds { h.pool with spans := fun a b => (h.pool.spans a b).erase s } s ∧
    h.spanPoolAllocate cfg sc id rand = .ok (s,{ h with
      pool := { h.pool with spans := fun a b => (h.pool.spans a b).erase s } })

theorem not_holds_iff (pool : SpanPool) : (∀ s, ¬ pool.Holds s) ↔ ∀ a b, pool.spans a b = [] := by
  constructor
  · intro h a b
    apply List.eq_nil_iff_forall_not_mem.mpr
    intro s hs
    exact h s ⟨a,b,hs⟩
  · rintro h s ⟨a,b,hs⟩
    rw [h] at hs
    cases hs

/-- The two ways `SpanPool::Allocate` goes. -/
theorem spanPoolAllocate_cases (cfg : Config) (id : ℕ) (rand : ℕ → ℕ) (hf : h.pool.Filed) (hsc : sc < kNumClasses) :
    ((∀ s, ¬ h.pool.Holds s) ∧ h.spanPoolAllocate cfg sc id rand = h.freshSpan) ∨
    ∃ s, h.pool.Holds s ∧ h.spanPoolAllocate cfg sc id rand = .ok (s,{ h with
      pool := { h.pool with spans := fun a b => (h.pool.spans a b).erase s } }) := by
  rw [spanPoolAllocate_eq cfg hf.limit_pos.ne' sc id rand]
  cases hpop : h.pool.popFirst (h.pool.probes sc id rand) with
  | none =>
    exact .inl ⟨(not_holds_iff _).mpr ((hf.popFirst_eq_none_iff hsc).mp hpop),rfl⟩
  | some r =>
    obtain ⟨s,pool⟩ := r
    obtain ⟨a,b,rest,hp,rfl⟩ := SpanPool.popFirst_eq_some hpop
    refine .inr ⟨s,⟨a,b,by simp [hp]⟩,?_⟩
    rw [hf.setStack_eq hp]

theorem spanPoolAllocate_filed (hf : h.pool.Filed) (hsc : sc < kNumClasses) {s : ℕ}
    (ha : h.spanPoolAllocate cfg sc id rand = .ok (s,h')) : h'.pool.Filed := by
  rcases spanPoolAllocate_cases cfg id rand hf hsc with ⟨_,heq⟩ | ⟨x,_,heq⟩
  · rw [heq, freshSpan] at ha
    split at ha
    · cases ha
    · obtain ⟨rfl,rfl⟩ := Prod.mk.inj (Except.ok.inj ha)
      exact hf
  · rw [heq] at ha
    obtain ⟨rfl,rfl⟩ := Prod.mk.inj (Except.ok.inj ha)
    exact hf.erase

theorem poolAllocates_of_filed (hf : h.pool.Filed) (hsc : sc < kNumClasses) :
    h.PoolAllocates cfg sc id rand := by
  rcases spanPoolAllocate_cases cfg id rand hf hsc with
    ⟨hempty,heq⟩ | ⟨s,hs,heq⟩
  · exact ⟨iff_of_true heq hempty,fun ⟨s,hs⟩ => absurd hs (hempty s)⟩
  · have hgone : ¬ SpanPool.Holds
        { h.pool with spans := fun a b => (h.pool.spans a b).erase s } s := by
      rintro ⟨a,b,hm⟩
      exact (hf.nodup a b).not_mem_erase hm
    refine ⟨iff_of_false ?_ fun hempty => hempty s hs,fun _ => ⟨s,hs,hgone,heq⟩⟩
    rw [heq, freshSpan]
    intro hfresh
    split at hfresh
    · cases hfresh
    · have hpool := congrArg (fun r : ℕ × Heap => r.2.pool) (Except.ok.inj hfresh)
      dsimp only at hpool
      rw [hpool] at hgone
      exact hgone hs

theorem poolStep_filed {e : PoolEvent} (hf : h.pool.Filed) (hok : FreesNew h e)
    (hs : poolStep cfg h e = some h') : h'.pool.Filed := by
  cases e with
  | announceNewThread =>
    obtain rfl := Option.some.inj hs
    obtain ⟨hspans,hlimit⟩ := SpanPool.announceNewThread_spec cfg h.pool
    refine hf.sublist hlimit fun a b => ?_
    rw [hspans]
  | announceLeavingThread =>
    obtain rfl := Option.some.inj hs
    exact hf.sublist le_rfl fun _ _ => List.Sublist.refl _
  | allocate sc id rand =>
    simp only [poolStep] at hs
    split at hs
    · next hsc =>
      obtain ⟨⟨s,h''⟩,ha,rfl⟩ := Option.map_eq_some_iff.mp hs
      exact spanPoolAllocate_filed hf hsc (toOption_ok ha)
    · cases hs
  | free sc s id =>
    simp only [poolStep] at hs
    split at hs
    · next hsc =>
      obtain ⟨_,_,hfree⟩ := bind_ok (toOption_ok hs)
      obtain rfl := Except.ok.inj hfree
      exact hf.push (SpanPool.slot_lt hsc) hok.2
    · cases hs

end Heap

/-- Over whole runs that start with `AnnounceNewThread`: filed spans stay below the limit,
and every allocation searches the whole pool. -/
theorem poolAllocates_of_runs {cfg : Config} {h₀ h : Heap} (hinit : h₀.pool = SpanPool.init)
    (hr : Runs (poolStep cfg) FreesNew { h₀ with pool := h₀.pool.announceNewThread cfg } h) :
    (∀ s a b, s ∈ h.pool.spans a b → b < h.pool.limit) ∧
      ∀ sc id rand, sc < kNumClasses → h.PoolAllocates cfg sc id rand := by
  have hf : h.pool.Filed := by
    refine hr.invariant (P := fun h => h.pool.Filed) ?_ ?_
    · rw [hinit]
      exact SpanPool.filed_init cfg
    · intro h e h' hf hok hs
      exact Heap.poolStep_filed hf hok hs
  refine ⟨fun s a b hs => ?_,fun sc id rand hsc => Heap.poolAllocates_of_filed hf hsc⟩
  exact (hf.bounded a b (List.ne_nil_of_mem hs)).2

/-- The pool after one thread started and freed a span of class 5. -/
def onePooled : Heap :=
  let h := Heap.init sampleLayout false
  let pool := h.pool.announceNewThread sampleConfig
  { h with pool := pool.push (SpanPool.slot 5) (3 % pool.limit) kObjectSpaceSize }

/-- A second thread asks for the largest class and gets that span. -/
theorem poolAllocates_onePooled :
    onePooled.pool.Holds kObjectSpaceSize ∧
      ∃ s, onePooled.pool.Holds s ∧
        (onePooled.spanPoolAllocate sampleConfig 28 9 fun _ => 7).toOption.map Prod.fst = some s := by
  have hempty : ∀ s, ¬ (SpanPool.init.announceNewThread sampleConfig).Holds s := by
    apply (Heap.not_holds_iff _).mpr
    intro a b
    rw [(SpanPool.announceNewThread_spec sampleConfig SpanPool.init).1]
    rfl
  have hholds : onePooled.pool.Holds kObjectSpaceSize := ⟨0,0,by decide⟩
  have hrun : Runs (poolStep sampleConfig) FreesNew
      { Heap.init sampleLayout false with
        pool := (Heap.init sampleLayout false).pool.announceNewThread sampleConfig } onePooled :=
    .tail (e := .free 5 kObjectSpaceSize 3) .refl ⟨by decide,hempty _⟩ rfl
  obtain ⟨_,hall⟩ := poolAllocates_of_runs rfl hrun
  obtain ⟨s,hs,_,heq⟩ := (hall 28 9 (fun _ => 7) (by decide)).pooled ⟨_,hholds⟩
  refine ⟨hholds,s,hs,?_⟩
  rw [heq]
  rfl

end Scalloc
