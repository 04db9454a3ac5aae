import Scalloc.Heap.Threads

/-! # Every step keeps the invariant

One lemma for each event says what the step does to the board and that the invariant of
the state survives it; a run keeps the invariant by induction.
-/
namespace Scalloc
open ByteMemory Epoch Transition

/-- The starts of the live blocks of the span at `s`. -/
def State.liveIn (st : State) (s : ℕ) : List ℕ :=
  (st.live.filter fun b => fromObject b.start = s).map Block.start

/-- The invariant of the transition system. -/
structure State.Inv (cfg : Config) (st : State) : Prop where
  heap : st.heap.Inv cfg.reuseThreshold st.heap.hot st.liveIn
  threads : st.heap.Threads
  live : ∀ b ∈ st.live, st.heap.Known (fromObject b.start) ∧
    b.sizeClass = (st.heap.spans (fromObject b.start)).sizeClass

namespace State
variable {cfg : Config} {st : State} {b : Block}

theorem mem_liveIn (hb : b ∈ st.live) : b.start ∈ st.liveIn (fromObject b.start) := by
  simp only [liveIn, List.mem_map, List.mem_filter, decide_eq_true_eq]
  exact ⟨b,⟨hb,rfl⟩,rfl⟩

/-- A live block is a slot of a span that is not in the pool. -/
theorem Inv.slots (hi : Inv cfg st) (hb : b ∈ st.live) :
    ∃ L R j, Slots st.heap.mem (fromObject b.start) (st.heap.spans (fromObject b.start))
      (st.liveIn (fromObject b.start)) L R j := by
  refine hi.heap.slots _ (hi.live b hb).1 fun hp => ?_
  have hm := mem_liveIn hb
  rw [hi.heap.pooled _ hp] at hm
  simp at hm

theorem Inv.mem_slots (hi : Inv cfg st) (hb : b ∈ st.live) :
    b.start ∈ Scalloc.slots (fromObject b.start) b.sizeClass ∧ IsObjectClass b.sizeClass := by
  obtain ⟨L,R,j,hsl⟩ := hi.slots hb
  rw [(hi.live b hb).2]
  exact ⟨hsl.mem_live (mem_liveIn hb),hsl.objectClass⟩

/-- The spans of the live blocks stay known and keep their classes. -/
theorem live_of_keeps {st : State} (st' : State) (hi : Inv cfg st)
    (hk : ∀ x, st.heap.Known x → ¬ st.heap.pool.Holds x → st'.heap.Known x ∧
      (st'.heap.spans x).sizeClass = (st.heap.spans x).sizeClass) (hb : b ∈ st.live) :
    st'.heap.Known (fromObject b.start) ∧
      b.sizeClass = (st'.heap.spans (fromObject b.start)).sizeClass := by
  have hnp : ¬ st.heap.pool.Holds (fromObject b.start) := by
    intro hp
    have hm := mem_liveIn hb
    rw [hi.heap.pooled _ hp] at hm
    simp at hm
  obtain ⟨h1,h2⟩ := hk _ (hi.live b hb).1 hnp
  exact ⟨h1,(hi.live b hb).2.trans h2.symm⟩

theorem liveIn_cons (h : Heap) (live : List Block) {p s sc : ℕ} (hp : fromObject p = s) :
    liveIn ⟨h,⟨p,sc⟩ :: live⟩ = Function.update (liveIn ⟨h,live⟩) s (p :: liveIn ⟨h,live⟩ s) := by
  funext x
  by_cases hx : x = s
  · subst hx
    simp [liveIn, hp]
  · have hne : ¬ fromObject p = x := fun he => hx (he.symm.trans hp)
    simp [liveIn, hx, hne]

/-- Erasing a block erases its start, since no other block starts there. -/
theorem liveIn_erase (h : Heap) (live : List Block) (b : Block)
    (hinj : ∀ x ∈ live, x.start = b.start → x = b) :
    liveIn ⟨h,live.erase b⟩ = Function.update (liveIn ⟨h,live⟩) (fromObject b.start)
      ((liveIn ⟨h,live⟩ (fromObject b.start)).erase b.start) := by
  funext s
  rw [Function.update_apply]
  simp only [liveIn]
  induction live with
  | nil => simp
  | cons x live ih =>
    have ih' := ih fun y hy => hinj y (List.mem_cons_of_mem _ hy)
    by_cases hxb : x = b
    · subst hxb
      by_cases hs : s = fromObject x.start
      · simp [hs]
      · have hs' : ¬ fromObject x.start = s := fun he => hs he.symm
        simp [hs, hs']
    · have hstart : x.start ≠ b.start := fun he => hxb (hinj x (List.mem_cons_self ..) he)
      rw [List.erase_cons_tail (by simpa using hxb)]
      by_cases hs : s = fromObject b.start
      · subst hs
        by_cases hx : fromObject x.start = fromObject b.start
        · simp_all
        · simp_all
      · by_cases hx : fromObject x.start = s
        · simp_all
        · simp_all

/-- The core of a thread is live, and its id is not gone. -/
theorem Inv.core (hi : Inv cfg st) {t : ℕ} (ht : st.heap.tls t ≠ 0) :
    (st.heap.board st.heap.hot).Live (st.heap.tls t) ∧
      ¬ (st.heap.board st.heap.hot).Gone (st.heap.cores (st.heap.tls t)).id := by
  have hl : (st.heap.board st.heap.hot).Live (st.heap.tls t) := hi.threads.live t ht
  exact ⟨hl,hi.heap.board.not_gone hl rfl⟩

theorem step_allocate (hi : Inv cfg st) {t size : ℕ}
    {rand : ℕ → ℕ → ℕ} {st' : State} (hs : step cfg st (.allocate t size rand) = some st') :
    IsObjectClass (sizeToClass size) ∧ st.heap.tls t ≠ 0 ∧
      ∃ p s, st'.live = ⟨p,sizeToClass size⟩ :: st.live ∧
        st.heap.Allocated cfg.cleanupInFree cfg.reuseThreshold st'.heap st.liveIn (st.heap.tls t)
          (sizeToClass size) p s ∧ Inv cfg st' := by
  simp only [step] at hs
  split at hs
  · next hpre =>
    obtain ⟨ht,h1,h2⟩ := hpre
    have hsc := sizeToClass_isObjectClass h1 h2
    split at hs
    · next p h' ha =>
      obtain ⟨q,s,hq,hq0,hall⟩ := (Heap.allocate_ok hi.heap (hi.core ht).1 ht
        (hi.threads.limit_ne_zero ht) h1 h2 rand).of_ok ha
      obtain rfl := Heap.Allocation.object.inj hq
      rw [if_neg hq0] at hs
      obtain rfl := (Option.some.inj hs).symm
      have hfrom : fromObject p = s := by
        have hz := classToSize_pos hsc
        exact fromObject_of_slot (hall.inv.isVirtualSpan hall.known) hsc hall.slot le_rfl (by omega)
      refine ⟨hsc,ht,p,s,rfl,hall,?_,hi.threads.same hall.threads,?_⟩
      · rw [liveIn_cons h' st.live hfrom]
        exact hall.inv
      · intro b hb
        rcases List.mem_cons.mp hb with rfl | hb
        · rw [hfrom]
          exact ⟨hall.known,hall.sizeClass.symm⟩
        · exact live_of_keeps ⟨h',_⟩ hi (fun x hk hp => hall.serves.keeps hk hp) hb
    · cases hs
  · cases hs

/-- In every build a free of a live block returns. -/
theorem Inv.free_ok (hi : Inv cfg st) {t : ℕ}
    (ht : st.heap.tls t ≠ 0) (hb : b ∈ st.live) :
    ∃ h', st.heap.free cfg (st.heap.tls t) b.start = .ok h' ∧
      (∃ i j, h'.board st.heap.hot = (st.heap.board st.heap.hot).freedIn cfg.cleanupInFree
        cfg.reuseThreshold (fromObject b.start) (st.heap.cores (st.heap.tls t)).id i j) ∧
      Heap.Inv cfg.reuseThreshold h' st.heap.hot (Function.update st.liveIn (fromObject b.start)
        ((st.liveIn (fromObject b.start)).erase b.start)) ∧
      Heap.SameThreads st.heap h' ∧ h'.hot = st.heap.hot :=
  Heap.free_ok hi.heap (hi.live b hb).1 (hi.core ht).2 (hi.core ht).1 ht
    (hi.threads.limit_ne_zero ht) (mem_liveIn hb)

theorem step_freeIn (hi : Inv cfg st) {t : ℕ} {b : Block}
    {st' : State} (hs : step cfg st (.free t b) = some st') :
    st.heap.tls t ≠ 0 ∧ b ∈ st.live ∧ st'.live = st.live.erase b ∧
      (∃ i j, st'.heap.board st'.heap.hot = (st.heap.board st.heap.hot).freedIn cfg.cleanupInFree
        cfg.reuseThreshold (fromObject b.start) (st.heap.cores (st.heap.tls t)).id i j) ∧
      Inv cfg st' := by
  simp only [step] at hs
  split at hs
  · next hpre =>
    obtain ⟨ht,hb⟩ := hpre
    obtain ⟨h',hfree,rfl⟩ := Option.map_eq_some_iff.mp hs
    obtain ⟨g,hf,⟨i,j,hboard⟩,hinv,hthreads,hhot⟩ := hi.free_ok ht hb
    obtain rfl := Except.ok.inj ((Heap.toOption_ok hfree).symm.trans hf)
    rw [← hhot] at hinv
    have hinj : ∀ x ∈ st.live, x.start = b.start → x = b := by
      intro x hx he
      have h1 := (hi.live x hx).2
      rw [he, ← (hi.live b hb).2] at h1
      cases x
      cases b
      simp_all
    refine ⟨ht,hb,rfl,⟨i,j,by rw [hhot, hboard]⟩,?_,hi.threads.same hthreads,?_⟩
    · rw [liveIn_erase h' st.live b hinj]
      exact hinv
    · intro x hx
      refine live_of_keeps ⟨h',_⟩ hi ?_ (List.mem_of_mem_erase hx)
      intro y hk _
      have htouch := Board.touches_freedIn cfg.cleanupInFree cfg.reuseThreshold
        (st.heap.board st.heap.hot) (fromObject b.start) (st.heap.cores (st.heap.tls t)).id i j
      rw [← hboard] at htouch
      have hkn : h'.Known = st.heap.Known := htouch.known
      refine ⟨by rw [hkn]; exact hk,?_⟩
      by_cases hy : y = fromObject b.start
      · subst hy
        exact htouch.sizeClass
      · exact congrArg Card.sizeClass (htouch.card y hy)
  · cases hs

theorem step_free (hclean : cfg.cleanupInFree = true) (hi : Inv cfg st) {t : ℕ} {b : Block}
    {st' : State} (hs : step cfg st (.free t b) = some st') :
    st.heap.tls t ≠ 0 ∧ b ∈ st.live ∧ st'.live = st.live.erase b ∧
      (∃ i j, st'.heap.board st'.heap.hot = (st.heap.board st.heap.hot).freed cfg.reuseThreshold
        (fromObject b.start) (st.heap.cores (st.heap.tls t)).id i j) ∧ Inv cfg st' := by
  have h := step_freeIn hi hs
  rw [hclean] at h
  exact h

theorem step_exit (hi : Inv cfg st) {t : ℕ} {st' : State}
    (hs : step cfg st (.exit t) = some st') :
    st.heap.tls t ≠ 0 ∧ st'.live = st.live ∧
      (st.heap.board st.heap.hot).Closes (st.heap.tls t) (st'.heap.board st'.heap.hot) ∧
      Inv cfg st' := by
  simp only [step] at hs
  split at hs
  · next ht =>
    rw [Heap.threadDestructor_ok cfg hi.heap.board t] at hs
    obtain rfl := (Option.some.inj hs).symm
    refine ⟨ht,rfl,?_,hi.heap.exit t,hi.threads.exit hi.heap ht,?_⟩
    · rw [Heap.board_exit]
      exact Heap.closes_destroy hi.heap.board hi.heap.epoch
    · intro b hb
      exact live_of_keeps ⟨_,_⟩ hi (fun x hk _ => Heap.exit_keeps t hk) hb
  · cases hs

theorem step_start (hi : Inv cfg st) {t : ℕ} {st' : State}
    (hs : step cfg st (.start t) = some st') :
    st'.live = st.live ∧ (∃ c id, st.heap.Started st'.heap t c id) ∧ Inv cfg st' := by
  simp only [step] at hs
  split at hs
  · next ht =>
    obtain ⟨h',hget,rfl⟩ := Option.map_eq_some_iff.mp hs
    obtain ⟨c,id,hst⟩ := Heap.getMeALAB_ok hi.heap hi.threads (Heap.toOption_ok hget)
    refine ⟨rfl,⟨c,id,hst⟩,hi.heap.start hst,hst.threads,?_⟩
    intro b hb
    refine live_of_keeps ⟨h',_⟩ hi ?_ hb
    intro x hk _
    change h'.Known x ∧ (h'.spans x).sizeClass = _
    rw [Heap.Known, hst.arena, hst.spans]
    exact ⟨hk,rfl⟩
  · cases hs

theorem step_write (hi : Inv cfg st) {b : Block} {a : ℕ} {v : UInt8} {st' : State}
    (hs : step cfg st (.write b a v) = some st') :
    st'.live = st.live ∧ st'.heap.board st'.heap.hot = st.heap.board st.heap.hot ∧
      Inv cfg st' := by
  simp only [step] at hs
  split at hs
  · next hpre =>
    obtain ⟨hb,h1,h2⟩ := hpre
    obtain rfl := (Option.some.inj hs).symm
    refine ⟨rfl,rfl,?_,?_,hi.live⟩
    · exact hi.heap.write (hi.live b hb).1 (mem_liveIn hb) h1 (by rw [← (hi.live b hb).2]; exact h2) v
    · obtain ⟨t1,t2,t3,t4,t5,t6,t7⟩ := hi.threads
      exact ⟨t1,t2,t3,t4,t5,t6,t7⟩
  · cases hs

theorem Inv.init (cfg : Config) (l : Layout) (seen : Bool) : Inv cfg (State.init l seen) := by
  have hnone : ∀ s, ¬ (Heap.init l seen).Known s := fun s hs => absurd hs.2.1 (not_lt.mpr hs.1)
  have hlive : ∀ s, (State.init l seen).liveIn s = [] := fun _ => rfl
  refine ⟨⟨?_,?_,?_,?_,?_,?_⟩,?_,?_⟩
  · refine ⟨hnone 0,fun s hs => absurd hs (hnone s),?_,fun _ _ => List.nodup_nil,
      fun _ _ => List.nodup_nil,fun _ hl => absurd rfl hl,fun _ _ hl => absurd rfl hl⟩
    intro s _
    exact ⟨fun _ _ he => he.symm,fun _ _ => List.not_mem_nil,fun _ _ => List.not_mem_nil⟩
  · exact Heap.arenaInv_init l
  · intro s
    exact valid_zero
  · intro s _
    exact ⟨rfl,hlive s⟩
  · intro s _
    exact hlive s
  · intro s hs
    exact absurd hs (hnone s)
  · refine ⟨l.coreStart_pos,fun _ _ => rfl,fun _ hne => absurd rfl hne,
      fun _ _ hne => absurd rfl hne,?_,List.nodup_nil,fun _ => ⟨rfl,fun _ => rfl⟩⟩
    intro c hc
    cases hc
  · intro b hb
    cases hb

theorem Inv.step (hi : Inv cfg st) {e : Event} {st' : State}
    (hs : step cfg st e = some st') : Inv cfg st' := by
  cases e with
  | start t => exact (step_start hi hs).2.2
  | exit t => exact (step_exit hi hs).2.2.2
  | allocate t size rand =>
    obtain ⟨_,_,_,_,_,_,hinv⟩ := step_allocate hi hs
    exact hinv
  | free t b =>
    obtain ⟨_,_,_,_,hinv⟩ := step_freeIn hi hs
    exact hinv
  | write b a v => exact (step_write hi hs).2.2

end State

/-- Every reachable state is in order. -/
theorem ReachableIf.inv {cfg : Config} {ok : State → Event → Prop} {st : State}
    (h : ReachableIf cfg ok st) : st.Inv cfg := by
  obtain ⟨l,seen,hrun⟩ := h
  exact hrun.invariant (State.Inv.init cfg l seen) fun _ _ _ hi _ hs => hi.step hs

end Scalloc
