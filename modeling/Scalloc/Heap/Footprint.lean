import Scalloc.Heap.Frame
import Scalloc.Heap.PoolSearch
import Scalloc.Heap.ThreadExit

/-! # The footprint of the span pool

`SpanPool::Allocate` searches the whole pool before it takes a fresh span from the arena. In the
state after that every span is hot or has a live block, so the arena never grows beyond what the
program needed at one time.
-/
namespace Scalloc
open ByteMemory Transition

/-- A finite set that is covered by the values of `f` on pairs and of `g` on a list is no larger
than the pairs and the list. -/
theorem exists_card_le {α β γ δ : Type*} {S : Finset α} {C : Finset γ} {L : List δ}
    {P : β → Prop} {f : β → γ → α} {g : δ → α}
    (h : ∀ s ∈ S, (∃ b c, P b ∧ c ∈ C ∧ f b c = s) ∨ ∃ x ∈ L, g x = s) :
    ∃ T : Finset β, (∀ b ∈ T, P b) ∧ S.card ≤ T.card * C.card + L.length := by
  classical
  have hpair : ∀ s : {s // s ∈ S.filter fun s => ∃ b c, P b ∧ c ∈ C ∧ f b c = s},
      ∃ b c, P b ∧ c ∈ C ∧ f b c = s := fun s => (Finset.mem_filter.mp s.2).2
  choose b c hb hc hf using hpair
  refine ⟨Finset.univ.image b,?_,?_⟩
  · intro x hx
    obtain ⟨s,_,rfl⟩ := Finset.mem_image.mp hx
    exact hb s
  · have hsub : S ⊆ ((Finset.univ.image b) ×ˢ C).image (fun p => f p.1 p.2) ∪
        (L.map g).toFinset := by
      intro s hs
      rw [Finset.mem_union]
      by_cases hq : ∃ b c, P b ∧ c ∈ C ∧ f b c = s
      · refine .inl (Finset.mem_image.mpr ?_)
        have hm : s ∈ S.filter fun s => ∃ b c, P b ∧ c ∈ C ∧ f b c = s :=
          Finset.mem_filter.mpr ⟨hs,hq⟩
        refine ⟨(b ⟨s,hm⟩,c ⟨s,hm⟩),?_,hf ⟨s,hm⟩⟩
        exact Finset.mem_product.mpr ⟨Finset.mem_image_of_mem b (Finset.mem_univ _),hc ⟨s,hm⟩⟩
      · obtain ⟨x,hx,rfl⟩ := (h s hs).resolve_left hq
        exact .inr (List.mem_toFinset.mpr (List.mem_map_of_mem hx))
    calc S.card ≤ _ := Finset.card_le_card hsub
      _ ≤ _ := Finset.card_union_le _ _
      _ ≤ _ := by
        gcongr
        · exact Finset.card_image_le.trans (Finset.card_product _ _).le
        · exact (List.toFinset_card_le _).trans (List.length_map _).le

namespace Heap
variable {percent : ℕ} {cfg : Config} {h h' g : Heap} {live : ℕ → List ℕ} {c sc s p t : ℕ}

/-- Every span of the pool is where a search looks. -/
def InReach (h : Heap) : Prop :=
  ∀ a b, h.pool.spans a b ≠ [] → a < kSizeClassSlots ∧ b < h.pool.limit

/-- A call that only takes spans from the pool, and memory from the arena only if the pool is empty
then. -/
structure Reuses (h h' : Heap) : Prop where
  filed : h'.pool.Filed
  taken : ∀ s, h'.pool.Holds s → h.pool.Holds s
  space : h'.objectSpace = h.objectSpace ∨ ∀ s, ¬ h'.pool.Holds s

/-- Neither the pool nor the object space changed. -/
structure SameSpans (h h' : Heap) : Prop where
  pool : h'.pool = h.pool
  space : h'.objectSpace = h.objectSpace

theorem SameSpans.reuses (hs : SameSpans h h') (hf : h.pool.Filed) : Reuses h h' := by
  refine ⟨?_,?_,.inl hs.space⟩ <;> rw [hs.pool]
  · exact hf
  · exact fun _ hx => hx

theorem Reuses.trans (h1 : Reuses h g) (h2 : Reuses g h') : Reuses h h' where
  filed := h2.filed
  taken := fun s hs => h1.taken s (h2.taken s hs)
  space := by
    rcases h2.space with he | hempty
    · rw [he]
      exact h1.space.imp_right fun hempty s hs => hempty s (h2.taken s hs)
    · exact .inr hempty

/-- A thread with a core finds the pool in order. -/
theorem Inv.filed {hot : ℕ → ℕ → ℕ} (hi : Inv percent h hot live) (hr : h.InReach)
    (hlimit : h.pool.limit ≠ 0) : h.pool.Filed where
  limit_pos := Nat.pos_of_ne_zero hlimit
  bounded := hr
  nodup := hi.board.poolNodup
  once := by
    intro s a b a' b' hs hs'
    obtain ⟨w,hw⟩ := hi.board.placed s (hi.board.known_of_pooled ⟨a,b,hs⟩)
    have hplace := ((hw.pool a b).mp hs).symm.trans ((hw.pool a' b').mp hs')
    exact Place.pooled.inj hplace

theorem moveRemote_same (hr : h.moveRemote cfg s = .ok h') : SameSpans h h' := by
  unfold moveRemote at hr
  split at hr
  · cases hr
  · obtain ⟨_,_,hr⟩ := bind_ok hr
    cases hr
    exact ⟨rfl,rfl⟩

theorem spanPoolAllocate_reuses {id : ℕ} {rand : ℕ → ℕ} (hf : h.pool.Filed)
    (hsc : sc < kNumClasses) (hr : h.spanPoolAllocate cfg sc id rand = .ok (s,h')) :
    Reuses h h' := by
  have hfiled := spanPoolAllocate_filed hf hsc hr
  rcases spanPoolAllocate_cases cfg id rand hf hsc with ⟨hempty,heq⟩ | ⟨x,_,heq⟩
  · rw [heq, freshSpan] at hr
    split at hr
    · cases hr
    · obtain ⟨rfl,rfl⟩ := Prod.mk.inj (Except.ok.inj hr)
      exact ⟨hfiled,fun _ hs => hs,.inr hempty⟩
  · rw [heq] at hr
    obtain ⟨rfl,rfl⟩ := Prod.mk.inj (Except.ok.inj hr)
    refine ⟨hfiled,?_,.inl rfl⟩
    rintro y ⟨a,b,hy⟩
    exact ⟨a,b,List.mem_of_mem_erase hy⟩

theorem newSpan_reuses {owner : CoreId} {rand : ℕ → ℕ} (hf : h.pool.Filed)
    (hsc : sc < kNumClasses) (hr : h.newSpan cfg sc owner rand = .ok (s,h')) : Reuses h h' := by
  obtain ⟨⟨x,g⟩,hpool,hr⟩ := bind_ok hr
  obtain ⟨_,_,hr⟩ := bind_ok hr
  obtain ⟨_,_,hr⟩ := bind_ok hr
  obtain ⟨rfl,rfl⟩ := Prod.mk.inj (Except.ok.inj hr)
  have hg := spanPoolAllocate_reuses hf hsc hpool
  exact hg.trans (SameSpans.reuses ⟨rfl,rfl⟩ hg.filed)

theorem getSpan_reuses {rand : ℕ → ℕ} (hclean : cfg.cleanupInFree = true) (hf : h.pool.Filed)
    (hsc : sc < kNumClasses) (hr : h.getSpan cfg c sc rand = .ok (s,h')) : Reuses h h' := by
  rw [getSpan_eq, hclean] at hr
  obtain ⟨⟨x,g⟩,hfetch,hr⟩ := bind_ok hr
  obtain ⟨rfl,rfl⟩ := Prod.mk.inj (Except.ok.inj hr)
  obtain ⟨⟨y,k⟩,htake,hfetch⟩ := bind_ok hfetch
  obtain ⟨hp,ha,_⟩ := takeReusable_mem htake
  have hsame : SameSpans h k := ⟨hp,ha⟩
  have hfk : k.pool.Filed := by
    rw [hp]
    exact hf
  dsimp only at hfetch
  split at hfetch
  · exact (hsame.reuses hf).trans (newSpan_reuses hfk hsc hfetch)
  · obtain ⟨rfl,rfl⟩ := Prod.mk.inj (Except.ok.inj hfetch)
    exact hsame.reuses hf

theorem allocateFrom_same (hr : h.allocateFrom c sc = (p,h')) : SameSpans h h' := by
  obtain ⟨_,ha,hp⟩ := allocateFrom_frame hr
  exact ⟨hp,ha⟩

/-- `Core::Allocate` with a hot span in place. -/
theorem allocateHot_reuses {rand : ℕ → ℕ} {r : Allocation} (hclean : cfg.cleanupInFree = true)
    (hf : h.pool.Filed) (hsc : sc < kNumClasses)
    (hr : h.allocateHot cfg c sc rand = .ok (r,h')) : Reuses h h' := by
  rcases hfrom : h.allocateFrom c sc with ⟨p,g⟩
  have hsame := allocateFrom_same hfrom
  have hfg : g.pool.Filed := by
    rw [hsame.pool]
    exact hf
  simp only [allocateHot, hfrom] at hr
  split at hr
  · obtain ⟨_,rfl⟩ := Prod.mk.inj (Except.ok.inj hr)
    exact hsame.reuses hf
  · split at hr
    · obtain ⟨k,hmove,hr⟩ := bind_ok hr
      rcases hagain : k.allocateFrom c sc with ⟨q,k'⟩
      simp only [hagain] at hr
      obtain ⟨_,rfl⟩ := Prod.mk.inj (Except.ok.inj hr)
      have hk := (moveRemote_same hmove).reuses hfg
      exact ((hsame.reuses hf).trans hk).trans ((allocateFrom_same hagain).reuses hk.filed)
    · obtain ⟨⟨x,k⟩,hget,hr⟩ := bind_ok hr
      have hk := getSpan_reuses hclean (h := g.setEpoch _ _) hfg hsc hget
      have hre : Reuses h k := (hsame.reuses hf).trans ⟨hk.filed,hk.taken,hk.space⟩
      dsimp only at hr
      split at hr <;>
      · obtain ⟨_,rfl⟩ := Prod.mk.inj (Except.ok.inj hr)
        exact hre.trans (SameSpans.reuses ⟨rfl,rfl⟩ hk.filed)

theorem allocate_reuses {size : ℕ} {rand : ℕ → ℕ → ℕ} {r : Allocation}
    (hclean : cfg.cleanupInFree = true) (hf : h.pool.Filed)
    (hsc : sizeToClass size < kNumClasses) (hr : h.allocate cfg c size rand = .ok (r,h')) :
    Reuses h h' := by
  obtain ⟨_,_,hr⟩ := bind_ok hr
  dsimp only at hr
  split at hr
  · split at hr
    · split at hr <;>
      · obtain ⟨_,rfl⟩ := Prod.mk.inj (Except.ok.inj hr)
        exact SameSpans.reuses ⟨rfl,rfl⟩ hf
    · obtain ⟨⟨x,g⟩,hget,hr⟩ := bind_ok hr
      have hg := getSpan_reuses hclean hf hsc hget
      have hset : Reuses h (g.setHot c (sizeToClass size) x) := hg.trans (SameSpans.reuses ⟨rfl,rfl⟩ hg.filed)
      exact hset.trans (allocateHot_reuses hclean hset.filed hsc hr)
  · exact allocateHot_reuses hclean hf hsc hr

/-- `Core::Free` takes no memory, and at most its own span goes to the pool. -/
theorem free_pool (hr : h.free cfg c p = .ok h') :
    h'.objectSpace = h.objectSpace ∧ (h'.pool = h.pool ∨ Pools h h' (fromObject p)) := by
  obtain ⟨_,_,hr⟩ := bind_ok hr
  dsimp only at hr
  obtain ⟨⟨o,g⟩,hrev,hr⟩ := bind_ok hr
  obtain ⟨_,hga,hgp⟩ := revive_frame hrev
  dsimp only at hga hgp
  obtain ⟨ha,⟨_,hp⟩ | ⟨hp,_⟩⟩ := settle_frame hr
  · exact ⟨ha.trans hga,.inl (hp.trans hgp)⟩
  · rw [Pools, hgp] at hp
    exact ⟨ha.trans hga,.inr hp⟩

/-- `GetMeALAB` opens a backend or none, and the thread has the only new live core. -/
theorem getMeALAB_tls (hi : Inv percent h h.hot live) (ht : Threads h)
    (hr : h.getMeALAB cfg t = .ok h') :
    h'.pool.spans = h.pool.spans ∧ h.pool.limit ≤ h'.pool.limit ∧
      ∃ c, c ≠ 0 ∧ h'.tls = Function.update h.tls t c ∧
        ∀ x, x ≠ c → (h'.cores x).id = (h.cores x).id := by
  obtain ⟨⟨c,g⟩,hfind,hrest⟩ := bind_ok hr
  have hfound := findFreeAB_ok hi ht hfind
  obtain rfl := Except.ok.inj hrest
  simp only [initCore_eq]
  obtain ⟨hspans,hlimit⟩ := SpanPool.announceNewThread_spec cfg h.pool
  obtain ⟨_,_,hpool,_,htls,_⟩ := hfound.frame
  refine ⟨?_,?_,c,hfound.ne_zero,?_,fun x hx => ?_⟩
  · change (g.pool.announceNewThread cfg).spans = _
    rw [hpool, hspans]
  · change _ ≤ (g.pool.announceNewThread cfg).limit
    rw [hpool]
    exact hlimit
  · change Function.update g.tls t c = _
    rw [htls]
  · simp [opened, setCore, hx, hfound.same x hx]

end Heap

namespace State
variable {cfg : Config} {st st' : State} {e : Event}

/-- Every running core belongs to a thread. -/
def Manned (st : State) : Prop :=
  ∀ c, (st.heap.cores c).id ≠ kTerminated → ∃ t, st.heap.tls t ≠ 0 ∧ st.heap.tls t = c

theorem Manned.same (hm : st.Manned) (hs : st.heap.SameThreads st'.heap) : st'.Manned := by
  intro c hc
  rw [hs.ids] at hc
  rw [hs.tls]
  exact hm c hc

/-- A step takes memory from the arena only if the pool is empty then. -/
structure Grows (st st' : State) : Prop where
  inReach : st'.heap.InReach
  manned : st'.Manned
  space : st'.heap.objectSpace = st.heap.objectSpace ∨ ∀ s, ¬ st'.heap.pool.Holds s

theorem grows_of_same (hr : st.heap.InReach) (hm : st.Manned)
    (hp : st'.heap.pool = st.heap.pool) (ha : st'.heap.objectSpace = st.heap.objectSpace)
    (hs : st.heap.SameThreads st'.heap) : st.Grows st' where
  inReach := by
    rw [Heap.InReach, hp]
    exact hr
  manned := hm.same hs
  space := .inl ha

theorem step_start_grows (hi : Inv cfg st) (hr : st.heap.InReach) (hm : st.Manned) {t : ℕ}
    (hs : step cfg st (.start t) = some st') : st.Grows st' := by
  simp only [step] at hs
  split at hs
  · next ht =>
    obtain ⟨h',hget,rfl⟩ := Option.map_eq_some_iff.mp hs
    have hget' := Heap.toOption_ok hget
    obtain ⟨hspans,hlimit,c,hc,htls,hids⟩ := Heap.getMeALAB_tls hi.heap hi.threads hget'
    obtain ⟨_,_,hst⟩ := Heap.getMeALAB_ok hi.heap hi.threads hget'
    refine ⟨fun a b hne => ?_,fun x hx => ?_,.inl hst.arena⟩
    · change h'.pool.spans a b ≠ [] at hne
      rw [hspans] at hne
      exact ⟨(hr a b hne).1,(hr a b hne).2.trans_le hlimit⟩
    · change ∃ u, h'.tls u ≠ 0 ∧ h'.tls u = x
      rw [htls]
      by_cases hxc : x = c
      · refine ⟨t,?_,?_⟩ <;> rw [Function.update_self]
        · exact hc
        · exact hxc.symm
      · change (h'.cores x).id ≠ kTerminated at hx
        rw [hids x hxc] at hx
        obtain ⟨u,hu,hux⟩ := hm x hx
        have hut : u ≠ t := fun he => hu (he ▸ ht)
        exact ⟨u,by rwa [Function.update_of_ne hut],by rwa [Function.update_of_ne hut]⟩
  · cases hs

theorem step_exit_grows (hi : Inv cfg st) (hr : st.heap.InReach) (hm : st.Manned) {t : ℕ}
    (hs : step cfg st (.exit t) = some st') : st.Grows st' := by
  simp only [step] at hs
  split at hs
  · next ht =>
    rw [Heap.threadDestructor_ok cfg hi.heap.board t] at hs
    obtain rfl := (Option.some.inj hs).symm
    refine ⟨hr,fun x hx => ?_,.inl rfl⟩
    have hids := Heap.ids_destroy hi.heap.board hi.heap.epoch (st.heap.tls t) x
    change ((st.heap.destroyed (st.heap.tls t)).cores x).id ≠ kTerminated at hx
    rw [hids] at hx
    split at hx
    · exact absurd rfl hx
    · next hxt =>
      obtain ⟨u,hu,hux⟩ := hm x hx
      have hut : u ≠ t := fun he => hxt (hux.symm.trans (he ▸ rfl))
      change ∃ u, Function.update st.heap.tls t 0 u ≠ 0 ∧ Function.update st.heap.tls t 0 u = x
      exact ⟨u,by rwa [Function.update_of_ne hut],by rwa [Function.update_of_ne hut]⟩
  · cases hs

theorem step_allocate_grows (hcfg : cfg.Default) (hi : Inv cfg st) (hr : st.heap.InReach)
    (hm : st.Manned) {t size : ℕ} {rand : ℕ → ℕ → ℕ}
    (hs : step cfg st (.allocate t size rand) = some st') : st.Grows st' := by
  obtain ⟨hsc,ht,_,_,_,hall,_⟩ := step_allocate hi hs
  have hf := hi.heap.filed hr (hi.threads.limit_ne_zero ht)
  simp only [step] at hs
  split at hs
  · split at hs
    · next ha =>
      have hre := Heap.allocate_reuses hcfg.cleanupInFree hf hsc.2 ha
      obtain rfl := (Option.some.inj hs).symm
      exact ⟨hre.filed.bounded,hm.same hall.threads,hre.space⟩
    · cases hs
  · cases hs

theorem step_free_grows (hi : Inv cfg st) (hr : st.heap.InReach) (hm : st.Manned) {t : ℕ}
    {b : Block} (hs : step cfg st (.free t b) = some st') : st.Grows st' := by
  obtain ⟨ht,hb,_,_,hi'⟩ := step_freeIn hi hs
  have hf := hi.heap.filed hr (hi.threads.limit_ne_zero ht)
  obtain ⟨h',hfree,_,_,hthreads,_⟩ := hi.free_ok ht hb
  simp only [step, hfree, if_pos (And.intro ht hb)] at hs
  obtain rfl := (Option.some.inj hs).symm
  obtain ⟨ha,hp | hp⟩ := Heap.free_pool hfree
  · exact grows_of_same hr hm hp ha hthreads
  · refine ⟨?_,hm.same hthreads,.inl ha⟩
    obtain ⟨w,hw⟩ := hi'.heap.board.placed _ (hi'.heap.board.known_of_pooled hp.holds)
    obtain ⟨id,hp⟩ := hp
    have hslot := SpanPool.slot_lt hw.objectClass.2
    change h'.InReach
    rw [Heap.InReach, hp]
    exact (hf.push hslot (hi.heap.used (mem_liveIn hb)).2).bounded

/-- One step keeps the pool in reach and the running cores manned. -/
theorem step_grows (hcfg : cfg.Default) (hi : Inv cfg st) (hr : st.heap.InReach)
    (hm : st.Manned) (hs : step cfg st e = some st') : st.Grows st' := by
  cases e with
  | start t => exact step_start_grows hi hr hm hs
  | exit t => exact step_exit_grows hi hr hm hs
  | allocate t size rand => exact step_allocate_grows hcfg hi hr hm hs
  | free t b => exact step_free_grows hi hr hm hs
  | write b a v =>
    simp only [step] at hs
    split at hs
    · obtain rfl := (Option.some.inj hs).symm
      exact grows_of_same hr hm rfl rfl ⟨fun _ => rfl,rfl,rfl,rfl,⟨rfl,rfl⟩⟩
    · cases hs

/-- What holds in every state of a run that loses no span. -/
structure Frugal (cfg : Config) (st : State) : Prop where
  inv : Inv cfg st
  kept : (st.heap.board st.heap.hot).Kept
  inReach : st.heap.InReach
  manned : st.Manned

theorem Frugal.init (cfg : Config) (l : Layout) (seen : Bool) :
    Frugal cfg (State.init l seen) where
  inv := Inv.init cfg l seen
  kept := fun _ hk => absurd hk.2.1 (not_lt.mpr hk.1)
  inReach := fun _ _ hne => absurd rfl hne
  manned := fun _ hc => absurd rfl hc

theorem Frugal.step (hcfg : cfg.Default) (h : Frugal cfg st) (hok : LeavesLive st e)
    (hs : Scalloc.step cfg st e = some st') : Frugal cfg st' := by
  have hg := step_grows hcfg h.inv h.inReach h.manned hs
  exact ⟨h.inv.step hs,kept_step hcfg h.inv h.kept hok hs,hg.inReach,hg.manned⟩

/-- Every span that was ever taken from the arena is hot in the core of a running thread or has
a live block. -/
def Needed (st : State) : Prop := ∀ s, st.heap.Known s →
  (∃ t sc, st.heap.tls t ≠ 0 ∧ IsObjectClass sc ∧
    (st.heap.cores (st.heap.tls t)).hotSpan sc = s) ∨
  ∃ b ∈ st.live, fromObject b.start = s

/-- With an empty pool nothing lies idle. -/
theorem Frugal.needed (h : Frugal cfg st) (hempty : ∀ s, ¬ st.heap.pool.Holds s) :
    st.Needed := by
  intro s hs
  rcases h.kept s hs with hp | ⟨c,sc,hhot⟩ | hf
  · exact absurd hp (hempty s)
  · obtain ⟨w,hw⟩ := h.inv.heap.board.placed s hs
    obtain rfl := (hw.hot c sc).mp hhot
    obtain ⟨t,ht,htc⟩ := h.manned c hw.allowed.1
    have hsc := hw.objectClass
    rw [hw.allowed.2.1] at hsc
    exact .inl ⟨t,sc,ht,hsc,by rw [htc]; exact hhot⟩
  · exact .inr (h.inv.exists_live hs (hempty s) hf)

/-- The bytes taken from the object space. -/
def footprint (st : State) : ℕ := st.heap.objectSpace.current - st.heap.objectSpace.start

/-- The spans that were taken, from the start of the arena on. -/
def takenSpans (st : State) : Finset ℕ := (Finset.range (st.footprint / kVirtualSpanSize)).image
  fun i => st.heap.objectSpace.start + i * kVirtualSpanSize

theorem card_takenSpans (st : State) : st.takenSpans.card = st.footprint / kVirtualSpanSize := by
  have hv : kVirtualSpanSize = 2097152 := rfl
  rw [takenSpans, Finset.card_image_of_injective, Finset.card_range]
  intro i j hij
  dsimp only at hij
  rw [hv] at hij
  omega

theorem Inv.known_of_taken (hi : Inv cfg st) {s : ℕ} (hs : s ∈ st.takenSpans) :
    st.heap.Known s := by
  obtain ⟨i,hi',rfl⟩ := Finset.mem_image.mp hs
  have hlt := Finset.mem_range.mp hi'
  have ha := hi.heap.arena
  have h1 := ha.start_aligned
  have h2 := ha.start_le
  have hv : kVirtualSpanSize = 2097152 := rfl
  rw [footprint, hv] at hlt
  rw [hv] at h1
  refine ⟨Nat.le_add_right _ _,?_,?_⟩ <;> rw [hv] <;> omega

theorem Inv.footprint_eq (hi : Inv cfg st) :
    st.footprint = kVirtualSpanSize * (st.footprint / kVirtualSpanSize) := by
  have ha := hi.heap.arena
  have h1 := ha.start_aligned
  have h2 := ha.current_aligned
  have h3 := ha.start_le
  have hv : kVirtualSpanSize = 2097152 := rfl
  rw [hv] at h1 h2 ⊢
  unfold footprint
  omega

/-- Where all spans are needed, the arena is as large as the hot slots of some running threads
and the live blocks. -/
theorem Needed.footprint_le (hn : st.Needed) (hi : Inv cfg st) :
    ∃ ts : Finset ℕ, (∀ t ∈ ts, st.heap.tls t ≠ 0) ∧ st.footprint ≤
      kVirtualSpanSize * (ts.card * (kNumClasses - 1) + st.live.length) := by
  obtain ⟨ts,hts,hcard⟩ := exists_card_le (S := st.takenSpans) (C := Finset.Ico 1 kNumClasses)
    (L := st.live) (P := fun t => st.heap.tls t ≠ 0)
    (f := fun t sc => (st.heap.cores (st.heap.tls t)).hotSpan sc)
    (g := fun b => fromObject b.start) (by
      intro s hs
      refine (hn s (hi.known_of_taken hs)).imp_left ?_
      rintro ⟨t,sc,ht,hsc,hhot⟩
      exact ⟨t,sc,ht,Finset.mem_Ico.mpr hsc,hhot⟩)
  refine ⟨ts,hts,?_⟩
  rw [card_takenSpans, Nat.card_Ico] at hcard
  rw [hi.footprint_eq]
  exact Nat.mul_le_mul_left _ hcard

end State

/-- In every run that loses no span, the memory taken from the arena was needed at one time: in
some earlier state all spans were hot or had live blocks. -/
theorem footprint_of_run {cfg : Config} (hcfg : cfg.Default) {l : Layout} {seen : Bool}
    {st : State} (hr : Runs (step cfg) LeavesLive (State.init l seen) st) :
    ∃ peak, Runs (step cfg) LeavesLive (State.init l seen) peak ∧
      Runs (step cfg) LeavesLive peak st ∧ peak.footprint = st.footprint ∧ peak.Needed ∧
      ∃ ts : Finset ℕ, (∀ t ∈ ts, peak.heap.tls t ≠ 0) ∧ st.footprint ≤
        kVirtualSpanSize * (ts.card * (kNumClasses - 1) + peak.live.length) := by
  have hall : ∀ {u : State}, Runs (step cfg) LeavesLive (State.init l seen) u →
      State.Frugal cfg u := by
    intro u hu
    exact hu.invariant (State.Frugal.init cfg l seen) fun _ _ _ h hok hs => h.step hcfg hok hs
  have hneeded : (State.init l seen).Needed := fun _ hk => absurd hk.2.1 (not_lt.mpr hk.1)
  obtain ⟨peak,hpeak,hrest,hspace,hn⟩ := hr.exists_last
    (f := fun st => st.heap.objectSpace) hneeded (by
      intro u e v hu hok hs
      have hf := hall hu
      have hg := State.step_grows hcfg hf.inv hf.inReach hf.manned hs
      exact hg.space.imp_right (hf.step hcfg hok hs).needed)
  have hfoot : peak.footprint = st.footprint := by
    rw [State.footprint, State.footprint, show peak.heap.objectSpace = _ from hspace]
  refine ⟨peak,hpeak,hrest,hfoot,hn,?_⟩
  rw [← hfoot]
  exact hn.footprint_le (hall hpeak).inv

/-- Two threads with a block each take two spans. -/
def twoBlocks : List Event :=
  [.start 0, .allocate 0 48 fun _ _ => 0, .start 1, .allocate 1 1000 fun _ _ => 0]

theorem footprint_twoBlocks : ∃ st, st.footprint = 2 * kVirtualSpanSize ∧ ∃ peak,
    Runs (step sampleConfig) LeavesLive peak st ∧ peak.footprint = st.footprint ∧ peak.Needed ∧
      ∃ ts : Finset ℕ, (∀ t ∈ ts, peak.heap.tls t ≠ 0) ∧ st.footprint ≤
        kVirtualSpanSize * (ts.card * (kNumClasses - 1) + peak.live.length) := by
  have hrun : (sampleRun twoBlocks).map State.footprint = some (2 * kVirtualSpanSize) := by
    decide +kernel
  obtain ⟨st,hst,hfoot⟩ := Option.map_eq_some_iff.mp hrun
  obtain ⟨st₁,h1,hst⟩ := exec_cons hst
  obtain ⟨st₂,h2,hst⟩ := exec_cons hst
  obtain ⟨st₃,h3,hst⟩ := exec_cons hst
  obtain ⟨st₄,h4,hst⟩ := exec_cons hst
  obtain rfl := Option.some.inj hst
  have hr : Runs (step sampleConfig) LeavesLive (State.init sampleLayout false) st₄ := by
    refine (((Runs.refl.tail ?_ h1).tail ?_ h2).tail ?_ h3).tail ?_ h4 <;> exact trivial
  obtain ⟨peak,_,hpeak⟩ := footprint_of_run sampleConfig_default hr
  exact ⟨st₄,hfoot,peak,hpeak⟩

end Scalloc
