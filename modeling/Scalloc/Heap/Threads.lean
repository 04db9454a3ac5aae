import Scalloc.Heap.Lifecycle
import Scalloc.Heap.Release
import Scalloc.Heap.Allocate

/-! # The invariant of the transition system

Threads have live cores of their own, recycled cores have none, and the heap is in order
with the blocks that the program holds.
-/
namespace Scalloc
open ByteMemory Epoch

namespace Heap
variable {percent : ℕ} {cfg : Config} {h h' : Heap} {hot : ℕ → ℕ → ℕ} {live : ℕ → List ℕ}
  {c t : ℕ}

/-- The bookkeeping of threads and cores. -/
structure Threads (h : Heap) : Prop where
  core_pos : 0 < h.coreSpace.current
  fresh : ∀ c, h.coreSpace.current ≤ c → (h.cores c).id = kTerminated
  live : ∀ t, h.tls t ≠ 0 → (h.cores (h.tls t)).id ≠ kTerminated
  inj : ∀ t t', h.tls t ≠ 0 → h.tls t = h.tls t' → t = t'
  free : ∀ c ∈ h.freeAbs, c ≠ 0 ∧ c < h.coreSpace.current ∧ (h.cores c).id = kTerminated
  freeNodup : h.freeAbs.Nodup
  backend : h.pool.limit = 0 → h.pool.currentThreads = 0 ∧ ∀ t, h.tls t = 0

/-- A thread that has a core has opened a backend of the pool. -/
theorem Threads.limit_ne_zero (ht : Threads h) (hne : h.tls t ≠ 0) : h.pool.limit ≠ 0 :=
  fun hzero => hne ((ht.backend hzero).2 t)

theorem Threads.same (ht : Threads h) (hs : SameThreads h h') : Threads h' where
  core_pos := by
    rw [hs.coreSpace]
    exact ht.core_pos
  fresh := by
    intro c hc
    rw [hs.coreSpace] at hc
    rw [hs.ids]
    exact ht.fresh c hc
  live := by
    rw [hs.tls]
    intro t hne
    rw [hs.ids]
    exact ht.live t hne
  inj := by
    rw [hs.tls]
    exact ht.inj
  free := by
    rw [hs.freeAbs, hs.coreSpace]
    intro c hc
    rw [hs.ids]
    exact ht.free c hc
  freeNodup := by
    rw [hs.freeAbs]
    exact ht.freeNodup
  backend := by
    rw [hs.backends.1, hs.backends.2, hs.tls]
    exact ht.backend

theorem ids_destroy (hi : (h.board h.hot).Inv percent) (hv : ∀ s, Valid (h.spans s).epoch) (c c' : ℕ) :
    ((h.destroyed c).cores c').id = if c' = c then kTerminated else (h.cores c').id := by
  have hids := congrFun (closes_destroy (c := c) hi hv).ids c'
  rw [Function.update_apply] at hids
  exact hids

/-- The heap after `ThreadDestructor`. -/
def exited (h : Heap) (t : ℕ) : Heap :=
  let g := h.destroyed (h.tls t)
  { g with
    pool := g.pool.announceLeavingThread
    freeAbs := h.tls t :: g.freeAbs
    tls := Function.update g.tls t 0 }

theorem threadDestructor_ok (cfg : Config) (hi : (h.board h.hot).Inv percent) (t : ℕ) :
    h.threadDestructor cfg t = .ok (h.exited t) := by
  have hzero := hi.absent 0 hi.null
  rw [threadDestructor, destroy_eq cfg fun sc => hzero.deque (h.tls t) sc]
  rfl

/-- A thread exits. -/
theorem Threads.exit (ht : Threads h) (hi : Inv percent h h.hot live) (htls : h.tls t ≠ 0) :
    Threads (h.exited t) := by
  have hids := ids_destroy hi.board hi.epoch (h.tls t)
  have hcoreSpace : (h.destroyed (h.tls t)).coreSpace = h.coreSpace := rfl
  have htls' : (h.destroyed (h.tls t)).tls = h.tls := rfl
  have hfree : (h.destroyed (h.tls t)).freeAbs = h.freeAbs := rfl
  have hnotFree : h.tls t ∉ h.freeAbs := fun hm => ht.live t htls (ht.free _ hm).2.2
  constructor
  · change 0 < (h.destroyed (h.tls t)).coreSpace.current
    rw [hcoreSpace]
    exact ht.core_pos
  · intro c hc
    change (h.destroyed (h.tls t)).coreSpace.current ≤ c at hc
    rw [hcoreSpace] at hc
    change ((h.destroyed (h.tls t)).cores c).id = kTerminated
    rw [hids]
    split
    · rfl
    · exact ht.fresh c hc
  · intro t' hne
    change Function.update (h.destroyed (h.tls t)).tls t 0 t' ≠ 0 at hne
    change ((h.destroyed (h.tls t)).cores (Function.update (h.destroyed (h.tls t)).tls t 0 t')).id ≠ _
    rw [htls'] at hne ⊢
    by_cases htt : t' = t
    · simp [htt] at hne
    · rw [Function.update_of_ne htt] at hne ⊢
      rw [hids, if_neg (fun he => htt (ht.inj t' t hne he))]
      exact ht.live t' hne
  · intro t1 t2 hne heq
    change Function.update (h.destroyed (h.tls t)).tls t 0 t1 ≠ 0 at hne
    change Function.update (h.destroyed (h.tls t)).tls t 0 t1 =
      Function.update (h.destroyed (h.tls t)).tls t 0 t2 at heq
    rw [htls'] at hne heq
    by_cases h1 : t1 = t
    · simp [h1] at hne
    · rw [Function.update_of_ne h1] at hne heq
      by_cases h2 : t2 = t
      · simp [h2] at heq
        exact absurd heq hne
      · rw [Function.update_of_ne h2] at heq
        exact ht.inj t1 t2 hne heq
  · intro c hc
    change c ∈ h.tls t :: (h.destroyed (h.tls t)).freeAbs at hc
    change c ≠ 0 ∧ c < (h.destroyed (h.tls t)).coreSpace.current ∧
      ((h.destroyed (h.tls t)).cores c).id = kTerminated
    rw [hfree] at hc
    rw [hids, hcoreSpace]
    rcases List.mem_cons.mp hc with rfl | hm
    · exact ⟨htls,not_le.mp fun hle => ht.live t htls (ht.fresh _ hle),if_pos rfl⟩
    · have hcf := ht.free c hm
      refine ⟨hcf.1,hcf.2.1,?_⟩
      split
      · rfl
      · exact hcf.2.2
  · change (h.tls t :: (h.destroyed (h.tls t)).freeAbs).Nodup
    rw [hfree]
    exact List.nodup_cons.mpr ⟨hnotFree,ht.freeNodup⟩
  · intro hlimit
    exact absurd ((ht.backend hlimit).2 t) htls

theorem Inv.exit (hi : Inv percent h h.hot live) (t : ℕ) :
    Inv percent (h.exited t) (h.exited t).hot live := by
  obtain ⟨h1,h2,h3,h4,h5,h6⟩ := hi.destroy (c := h.tls t)
  exact ⟨h1,h2,h3,h4,h5,h6⟩

theorem board_exit (h : Heap) (t : ℕ) :
    (h.exited t).board (h.exited t).hot =
      (h.destroyed (h.tls t)).board (h.destroyed (h.tls t)).hot := by
  dsimp only [exited]
  generalize h.destroyed (h.tls t) = g
  rfl

theorem exit_keeps {x : ℕ} (t : ℕ) (hk : h.Known x) :
    (h.exited t).Known x ∧
      ((h.exited t).spans x).sizeClass = (h.spans x).sizeClass := by
  exact ⟨hk,rfl⟩

/-- What `GetMeALAB` does: core `c`, dead before, gets the id `id`. -/
structure Started (h h' : Heap) (t c : ℕ) (id : CoreId) : Prop where
  found : ∃ g, h.findFreeAB = .ok (c,g)
  dead : (h.cores c).id = kTerminated
  newId : id = ⟨c,BitVec.ofNat 16 (h.threadIds + 1)⟩
  opens : (h.board h.hot).Opens c id (h'.board h'.hot)
  mem : h'.mem = h.mem
  spans : h'.spans = h.spans
  arena : h'.objectSpace = h.objectSpace
  threads : Threads h'

/-- A core that no live thread has is empty. -/
theorem dead_core_empty (hi : (h.board h.hot).Inv percent) (hdead : (h.cores c).id = kTerminated)
    (sc : ℕ) : (h.cores c).hotSpan sc = 0 ∧ ((h.cores c).rSpans sc).nodes = [] := by
  constructor
  · by_contra hne
    exact hi.live_of_hot (c := c) hne hdead
  · refine List.eq_nil_iff_forall_not_mem.mpr fun x hx => ?_
    exact hi.live_of_mem (c := c) hx hdead

/-- What `FindFreeAB` returns: a core that no thread has, out of the list of free ones. -/
structure Found (h g : Heap) (c : ℕ) : Prop where
  dead : (h.cores c).id = kTerminated
  ne_zero : c ≠ 0
  same : ∀ c', c' ≠ c → g.cores c' = h.cores c'
  empty : ∀ sc, (g.cores c).hotSpan sc = 0 ∧ ((g.cores c).rSpans sc).nodes = []
  frame : g.objectSpace = h.objectSpace ∧ g.spans = h.spans ∧ g.pool = h.pool ∧ g.mem = h.mem ∧
    g.tls = h.tls ∧ g.threadIds = h.threadIds
  freeNodup : g.freeAbs.Nodup
  free : ∀ c' ∈ g.freeAbs, c' ∈ h.freeAbs ∧ c' ≠ c
  space : h.coreSpace.current ≤ g.coreSpace.current ∧ c < g.coreSpace.current

theorem findFreeAB_ok (hi : Inv percent h h.hot live) (ht : Threads h) {g : Heap}
    (hf : h.findFreeAB = .ok (c,g)) : Found h g c := by
  cases hfree : h.freeAbs with
  | cons c' rest =>
    rw [findFreeAB, hfree] at hf
    obtain ⟨rfl,rfl⟩ := Prod.mk.inj (Except.ok.inj hf)
    have hnodup := ht.freeNodup
    rw [hfree, List.nodup_cons] at hnodup
    obtain ⟨hc0,hlt,hdead⟩ := ht.free c' (by simp [hfree])
    refine ⟨hdead,hc0,fun _ _ => rfl,dead_core_empty hi.board hdead,⟨rfl,rfl,rfl,rfl,rfl,rfl⟩,
      hnodup.2,?_,⟨le_rfl,hlt⟩⟩
    intro x hx
    exact ⟨by simp [hfree, show x ∈ rest from hx],fun he => hnodup.1 (he ▸ hx)⟩
  | nil =>
    rw [findFreeAB, hfree] at hf
    cases halloc : h.coreSpace.allocate kCoreSize with
    | none =>
      rw [halloc] at hf
      cases hf
    | some r =>
      obtain ⟨c',coreSpace⟩ := r
      rw [halloc] at hf
      obtain ⟨rfl,rfl⟩ := Prod.mk.inj (Except.ok.inj hf)
      obtain ⟨rfl,_,rfl⟩ := Arena.allocate_eq_some halloc
      have hsize : kCoreSize = 2344 := rfl
      refine ⟨ht.fresh _ le_rfl,ht.core_pos.ne',?_,?_,⟨rfl,rfl,rfl,rfl,rfl,rfl⟩,List.nodup_nil,?_,
        ⟨Nat.le_add_right _ _,?_⟩⟩
      · intro c' hc'
        simp [setCore, hc']
      · intro sc
        simp [setCore, Core.new]
      · intro x hx
        have hx' : x ∈ ([] : List ℕ) := hx
        simp at hx'
      · change h.coreSpace.current < h.coreSpace.current + kCoreSize
        omega

/-- The found core is initialised and given to the thread. -/
theorem Found.started {g : Heap} (hf : Found h g c) (hfind : h.findFreeAB = .ok (c,g))
    (ht : Threads h) {id : CoreId}
    (hid : id = ⟨c,BitVec.ofNat 16 (h.threadIds + 1)⟩) {n : ℕ} {k : Heap}
    (hk : k = ({ g with threadIds := n } : Heap).initCore c id) :
    Started h { k with
      tls := Function.update k.tls t c, pool := k.pool.announceNewThread cfg } t c id := by
  obtain ⟨hdead,hc0,hsame,hempty,hg,hnodup,hfree,hspace⟩ := hf
  have hopens := opens_initCore (h := h) (c := c) (g := { g with threadIds := n }) id hsame
    (by unfold Known; rw [hg.1]) hg.2.1 (congrArg _ hg.2.2.1) (fun sc => (hempty sc).1)
    (fun sc => (hempty sc).2)
  rw [← hk] at hopens
  rw [initCore_eq] at hk
  obtain ⟨hann,hlimit⟩ := SpanPool.announceNewThread_spec cfg k.pool
  have hkt : k.tls = h.tls ∧ k.freeAbs = g.freeAbs ∧ k.coreSpace = g.coreSpace ∧ k.mem = h.mem ∧
      k.spans = h.spans ∧ k.objectSpace = h.objectSpace ∧ k.pool = h.pool := by
    rw [hk]
    exact ⟨hg.2.2.2.2.1,rfl,rfl,hg.2.2.2.1,hg.2.1,hg.1,hg.2.2.1⟩
  obtain ⟨hkt,hkf,hkc,hkm,hks,hko,hkp⟩ := hkt
  have hids : ∀ c', (k.cores c').id = if c' = c then id else (h.cores c').id := by
    intro c'
    have hcore := congrFun hopens.ids c'
    rw [Function.update_apply] at hcore
    exact hcore
  have hidne : id ≠ kTerminated := by
    rw [hid]
    exact fun he => hc0 (congrArg TaggedValue.value he)
  refine ⟨⟨g,hfind⟩,hdead,hid,?_,hkm,hks,hko,?_⟩
  · obtain ⟨h1,h2,h3,h4,h5,h6,h7,h8⟩ := hopens
    exact ⟨h1,h2,h3,hann.trans h4,h5,h6,h7,h8⟩
  · constructor
    · change 0 < k.coreSpace.current
      rw [hkc]
      exact ht.core_pos.trans_le hspace.1
    · intro c' hc'
      change k.coreSpace.current ≤ c' at hc'
      change (k.cores c').id = _
      rw [hkc] at hc'
      rw [hids, if_neg (by omega)]
      exact ht.fresh c' (hspace.1.trans hc')
    · intro t' hne
      change Function.update k.tls t c t' ≠ 0 at hne
      change (k.cores (Function.update k.tls t c t')).id ≠ _
      rw [hkt] at hne ⊢
      rw [hids]
      by_cases htt : t' = t
      · rw [htt, Function.update_self, if_pos rfl]
        exact hidne
      · rw [Function.update_of_ne htt] at hne ⊢
        have hlive := ht.live t' hne
        have hcc : h.tls t' ≠ c := fun hcc => hlive (hcc ▸ hdead)
        rw [if_neg hcc]
        exact hlive
    · intro t1 t2 hne heq
      change Function.update k.tls t c t1 ≠ 0 at hne
      change Function.update k.tls t c t1 = Function.update k.tls t c t2 at heq
      rw [hkt] at hne heq
      have hother : ∀ t', t' ≠ t → h.tls t' ≠ c := by
        intro t' _ he
        exact ht.live t' (he ▸ hc0) (he ▸ hdead)
      by_cases h1 : t1 = t
      · by_cases h2 : t2 = t
        · rw [h1, h2]
        · rw [h1, Function.update_self, Function.update_of_ne h2] at heq
          exact absurd heq.symm (hother t2 h2)
      · by_cases h2 : t2 = t
        · rw [h2, Function.update_self, Function.update_of_ne h1] at heq
          exact absurd heq (hother t1 h1)
        · rw [Function.update_of_ne h1] at hne heq
          rw [Function.update_of_ne h2] at heq
          exact ht.inj t1 t2 hne heq
    · intro c' hc'
      change c' ∈ k.freeAbs at hc'
      change c' ≠ 0 ∧ c' < k.coreSpace.current ∧ (k.cores c').id = _
      rw [hkf] at hc'
      obtain ⟨hm,hne⟩ := hfree c' hc'
      rw [hids, if_neg hne, hkc]
      exact ⟨(ht.free c' hm).1,(ht.free c' hm).2.1.trans_le hspace.1,(ht.free c' hm).2.2⟩
    · change k.freeAbs.Nodup
      rw [hkf]
      exact hnodup
    · intro hzero
      change (k.pool.announceNewThread cfg).limit = 0 at hzero
      have hk0 : k.pool.limit = 0 := by omega
      rw [hkp] at hk0
      have hone := SpanPool.announceNewThread_first cfg hk0 (ht.backend hk0).1
      rw [hkp, hone] at hzero
      cases hzero

/-- `GetMeALAB` by a thread without a core. -/
theorem getMeALAB_ok (hi : Inv percent h h.hot live) (ht : Threads h)
    (hs : h.getMeALAB cfg t = .ok h') : ∃ c id, Started h h' t c id := by
  obtain ⟨⟨c,g⟩,hfind,hrest⟩ := bind_ok hs
  have hfound := findFreeAB_ok hi ht hfind
  obtain rfl := Except.ok.inj hrest
  refine ⟨c,_,hfound.started hfind ht ?_ rfl⟩
  rw [hfound.frame.2.2.2.2.2]

/-- A start keeps the invariant of the heap. -/
theorem Inv.start (hi : Inv percent h h.hot live) {id : CoreId} (hs : Started h h' t c id) :
    Inv percent h' h'.hot live := by
  have hpool : h'.pool.Holds = h.pool.Holds := by
    funext s
    have hspans : h'.pool.spans = h.pool.spans := hs.opens.pool
    simp only [SpanPool.Holds, hspans]
  have hknown : h'.Known = h.Known := hs.opens.known
  constructor
  · refine hi.board.open hs.opens (fun hl => hl hs.dead) ?_
    rw [hs.newId]
  · rw [hs.arena]
    exact hi.arena
  · rw [hs.spans]
    exact hi.epoch
  · rw [hs.spans, hknown]
    exact hi.fresh
  · rw [hpool]
    exact hi.pooled
  · rw [hpool, hknown, hs.mem, hs.spans]
    exact hi.slots

/-- A write of the program inside a live block. -/
theorem Inv.write {s p a : ℕ} (hi : Inv percent h hot live) (hk : h.Known s) (hp : p ∈ live s)
    (h1 : p ≤ a) (h2 : a < p + classToSize (h.spans s).sizeClass) (v : UInt8) :
    Inv percent { h with mem := Function.update h.mem a v } hot live := by
  have hnp : ¬ h.pool.Holds s := by
    intro hpool
    rw [hi.pooled s hpool] at hp
    simp at hp
  obtain ⟨L,R,j,hsl⟩ := hi.slots s hk hnp
  have hb := slot_bounds hsl.objectClass (hsl.mem_live hp)
  refine hi.touch (s := s) hi.board hi.arena (fun x => ⟨.inr,fun hx => hx.elim (fun he => he ▸ hk) id⟩)
    (fun _ _ => ⟨rfl,rfl⟩) ?_ (fun _ _ => Iff.rfl) (hi.epoch s) (hi.pooled s)
    (fun _ => ⟨L,R,j,hsl.write v hp h1 h2⟩)
  intro x hx
  have hne : x ≠ a := by omega
  simp [hne]

end Heap
end Scalloc
