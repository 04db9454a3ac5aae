import Scalloc.Heap.SweepEnds

/-! # A destroyed core is shut for good

From a core in use, with any contents of its deques and any calls on them, over every
interleaving.
-/
namespace Scalloc.Shutdown
open Function Transition LinkCode LinkedRing

/-- A core in use whose deques are rings that do not meet, with no call under way. Nodes
outside of them may be linked elsewhere. -/
structure Ready (s : Sentinels) (st : State) : Prop where
  live : st.life = .live
  owner : ∀ i, st.owner i = st.id
  unlocked : ∀ i, st.locked i = false
  idle : ∀ t, st.pc t = .idle
  deques : ∃ l : Class → List ℕ,
    (∀ i, IsRing st.links.next st.links.prev (s.addr i) (l i) ∧ 0 ∉ l i) ∧
    ∀ i j x, x ∈ s.addr i :: l i → x ∈ s.addr j :: l j → i = j

/-- The core is as its constructor left it: closed, with null hot slots and empty deques,
and no call is linking anything. A node of its deques, or one that was nowhere linked, has
null links. -/
structure Shut (s : Sentinels) (st₀ st : State) : Prop where
  id : st.id = kTerminated
  hot : ∀ i, st.hotSpan i = 0
  owner : ∀ i, st.owner i = kTerminated
  empty : ∀ i, st.links.next (s.addr i) = s.addr i ∧ st.links.prev (s.addr i) = s.addr i
  calls : ∀ t c g, st.pc t = .inside c g → g ≠ .accepted ∧ g.code = []
  removed : ∀ x, (∀ i, x ≠ s.addr i) → (Unlinked 0 st₀.links x ∨ ∃ i, InDeque s st₀ i x) →
    Unlinked 0 st.links x

/-- Every push that names this owner is refused at its test and links nothing. -/
structure Refuses (s : Sentinels) (st : State) (owner : CoreId) : Prop where
  test : ∀ t c, st.pc t = .inside c .enter → c.method = .pushFront → c.owner = owner →
    step s st (.thread t) = some { st with pc := update st.pc t (.inside c (.links [])) }
  accepted : ∀ t c, st.pc t = .inside c .accepted → c.owner ≠ owner

/-- A step, with a count of those of the thread of the core. -/
def sweepStep (s : Sentinels) (p : State × ℕ) (e : Event) : Option (State × ℕ) :=
  (step s p.1 e).map fun st => (st,p.2 + e.coreSteps)

/-- `RemoveAll` of the class takes boundedly many steps whatever the others do, and it is
held up only by a call in the deque, which can always go on and gives the lock back when
its rank is used up. -/
structure SweepEnds (s : Sentinels) (i : Class) (st : State) : Prop where
  bounded : ∃ N, ∀ p, Runs (sweepStep s)
    (fun p e => Permitted s p.1 e ∧ ∃ f, p.1.life = .removeAll i f) (st,0) p → p.2 ≤ N
  progress : (∃ st', step s st .core = some st') ∨ ∃ t c g, st.pc t = .inside c g ∧ c.cls = i
  leaves : ∀ t c g, st.pc t = .inside c g → ∃ st', step s st (.thread t) = some st' ∧
    (st'.pc t = .idle ∨ ∃ g', st'.pc t = .inside c g' ∧ g'.rank < g.rank)

variable {s : Sentinels} {F : Set ℕ} {st₀ st st' : State} {l l' : Class → List ℕ}
  {code : Class → List (Stmt ℕ)} {foot : Class → Set ℕ} {i : Class} {f : Front}

/-- The nodes that are linked elsewhere. -/
def elsewhere (s : Sentinels) (st : State) (l : Class → List ℕ) : Set ℕ :=
  {x | (∀ i, x ∉ s.addr i :: l i) ∧ ¬ Unlinked 0 st.links x}

theorem Ready.inv (h : Ready s st) : ∃ l,
    (∀ i x, InDeque s st i x → x ∈ l i) ∧
    Inv s (elsewhere s st l) st l (fun _ => []) fun i => {x | x ∈ s.addr i :: l i} := by
  obtain ⟨l,hring,hapart⟩ := h.deques
  have hidle : agents s st = fun _ _ => none := by
    funext a
    cases a with
    | none => rw [agents, h.live]; rfl
    | some t => rw [agents, h.idle t]; rfl
  refine ⟨l,?_,?_,?_,?_,?_⟩
  · rintro i x ⟨k,hk,hx⟩
    exact (hring i).1.unique hk ▸ hx
  · refine ⟨?_,hapart,?_,fun x hx => hx⟩
    · intro i
      refine settles_nil (hring i).1 ?_
      intro h0
      rcases List.mem_cons.mp h0 with h0 | h0
      · exact s.ne_zero i h0.symm
      · exact (hring i).2 h0
    · intro x hx
      by_cases hu : Unlinked 0 st.links x
      · exact .inr hu
      · exact .inl ⟨hx,hu⟩
  · rw [hidle]
    refine ⟨fun _ _ => ⟨rfl,fun _ => rfl⟩,?_,?_,?_⟩
    · intro i hi
      rw [h.unlocked i] at hi
      cases hi
    · intro i a b ca cb ha
      cases ha
    · intro i a c ha
      cases ha
  · refine ⟨?_,?_,?_,?_⟩
    all_goals
      intro t
      simp [h.idle t]
  · rw [h.live]
    exact h.owner

theorem Inv.of_runs (h : Inv s F st₀ l code foot) (hrun : Runs (step s) (Permitted s) st₀ st) :
    ∃ l' code' foot', Inv s F st l' code' foot' := by
  refine hrun.invariant (P := fun st => ∃ l' code' foot', Inv s F st l' code' foot')
    ⟨l,code,foot,h⟩ ?_
  rintro st e st' ⟨l',code',foot',hi⟩ hp he
  obtain ⟨code'',foot'',hi'⟩ := hi.kept hp he
  exact ⟨_,code'',foot'',hi'⟩

/-- The bound on the steps of `RemoveAll`. -/
theorem Inv.sweep_bounded (h : Inv s F st l code foot) {p : State × ℕ} (hrun : Runs (sweepStep s)
      (fun p e => Permitted s p.1 e ∧ ∃ f, p.1.life = .removeAll i f) (st,0) p) :
    p.2 ≤ sweepRank s st l i := by
  have hinv : ∃ l' code' foot', Inv s F p.1 l' code' foot' ∧
      sweepRank s p.1 l' i + p.2 ≤ sweepRank s st l i := by
    refine hrun.invariant (P := fun p => ∃ l' code' foot', Inv s F p.1 l' code' foot' ∧
      sweepRank s p.1 l' i + p.2 ≤ sweepRank s st l i) ⟨l,code,foot,h,le_rfl⟩ ?_
    rintro p e q ⟨l',code',foot',hi,hle⟩ ⟨hp,f',hf'⟩ he
    obtain ⟨st',hs,rfl⟩ := Option.map_eq_some_iff.mp he
    obtain ⟨code'',foot'',hi'⟩ := hi.kept hp hs
    have hr := hi.step_rank hf' hs
    exact ⟨_,code'',foot'',hi',by dsimp only; omega⟩
  obtain ⟨l',code',foot',_,hle⟩ := hinv
  omega

theorem Inv.sweepEnds (h : Inv s F st l code foot) (hlife : st.life = .removeAll i f) :
    SweepEnds s i st where
  bounded := ⟨_,fun p hp => h.sweep_bounded hp⟩
  progress := by
    rcases h.core_progress hlife with hc | hc
    · exact .inl (Option.isSome_iff_exists.mp hc)
    · exact .inr hc
  leaves := fun _ _ _ hpc => h.progress hpc

/-- All classes are swept. -/
theorem Inv.shut (h : Inv s (elsewhere s st₀ l) st l' code foot) (hid : st.id = kTerminated)
    (hsw : ∀ j, Swept st l' code j) (hl : ∀ i x, InDeque s st₀ i x → x ∈ l i) : Shut s st₀ st := by
  have hring : ∀ j, IsRing st.links.next st.links.prev (s.addr j) [] ∧ foot j = {s.addr j} := by
    intro j
    have hs := h.rings.settles j
    rw [(hsw j).quiet, (hsw j).empty] at hs
    refine ⟨hs.ring.1,?_⟩
    rw [hs.ring.2]
    ext x
    simp
  refine ⟨hid,fun i => (hsw i).hot,fun i => (hsw i).owner,fun i => IsRing.nil_iff.mp (hring i).1,
    ?_,?_⟩
  · intro t c g hpc
    refine ⟨?_,?_⟩
    · rintro rfl
      exact (hsw c.cls).refused t c hpc rfl
    · rw [← h.code_eq hpc, (hsw c.cls).quiet]
  · intro x hx hin
    have hout : ∀ i, x ∉ foot i := by
      intro i
      rw [(hring i).2]
      exact hx i
    rcases h.rings.loose x hout with hF | hu
    · rcases hin with hu | ⟨i,hd⟩
      · exact absurd hu hF.2
      · exact absurd (List.mem_cons_of_mem _ (hl i x hd)) (hF.1 i)
    · exact hu

theorem Inv.refuses (h : Inv s F st l code foot) {owner : CoreId} (ho : owner ≠ st.id) :
    Refuses s st owner where
  test := by
    rintro t c hpc hm rfl
    have hcall := h.callers.inside t c _ hpc
    have hne : c.owner ≠ st.owner c.cls := by
      rcases h.phase.owner c.cls with he | he
      · exact he ▸ ho
      · exact he ▸ hcall.1
    rw [step, threadStep_inside hpc (by simp)]
    simp only [callStep, hm, if_neg hcall.2, if_pos hne, Option.map_some]
  accepted := by
    intro t c hpc he
    exact ho (he ▸ h.callers.accepted t c hpc)

/-- Only the last store of `Destroy` and the first of `Init` change the id. -/
theorem coreStep_id (he : coreStep s st = some st') :
    (st'.id = st.id ∨ st'.id = kTerminated ∨ st.life = .init st'.id) ∧ ∀ id, st'.life ≠ .init id := by
  cases hlife : st.life with
  | live => simp [coreStep, hlife] at he
  | dead => simp [coreStep, hlife] at he
  | close i =>
    simp only [coreStep, hlife] at he
    obtain rfl := Option.some.inj he
    exact ⟨.inl rfl,by simp⟩
  | mark i =>
    simp only [coreStep, hlife] at he
    split at he
    all_goals
      obtain rfl := Option.some.inj he
      exact ⟨.inl rfl,by simp⟩
  | unhot i =>
    simp only [coreStep, hlife] at he
    obtain rfl := Option.some.inj he
    exact ⟨.inl rfl,by simp⟩
  | terminate =>
    simp only [coreStep, hlife] at he
    obtain rfl := Option.some.inj he
    exact ⟨.inr (.inl rfl),by simp⟩
  | init id =>
    simp only [coreStep, hlife] at he
    obtain rfl := Option.some.inj he
    exact ⟨.inr (.inr rfl),by simp⟩
  | opening i id =>
    simp only [coreStep, hlife] at he
    obtain rfl := Option.some.inj he
    refine ⟨.inl rfl,fun id' => ?_⟩
    dsimp only
    cases i.next? <;> simp
  | removeAll i f =>
    cases f with
    | lock =>
      simp only [coreStep, hlife, Option.ite_none_left_eq_some] at he
      obtain ⟨_,he⟩ := he
      obtain rfl := Option.some.inj he
      exact ⟨.inl rfl,by simp⟩
    | read =>
      simp only [coreStep, hlife] at he
      obtain rfl := Option.some.inj he
      exact ⟨.inl rfl,by simp⟩
    | last =>
      simp only [coreStep, hlife] at he
      obtain rfl := Option.some.inj he
      refine ⟨.inl rfl,fun id' => ?_⟩
      dsimp only
      cases i.next? <;> simp
    | links node cs =>
      cases cs with
      | nil =>
        simp only [coreStep, hlife] at he
        obtain rfl := Option.some.inj he
        exact ⟨.inl rfl,by simp⟩
      | cons x cs =>
        simp only [coreStep, hlife] at he
        obtain ⟨L',_,rfl⟩ := Option.map_eq_some_iff.mp he
        exact ⟨.inl rfl,by simp⟩
    | clear cs =>
      cases cs with
      | nil =>
        simp only [coreStep, hlife] at he
        obtain rfl := Option.some.inj he
        exact ⟨.inl rfl,by simp⟩
      | cons x cs =>
        simp only [coreStep, hlife] at he
        obtain ⟨L',_,rfl⟩ := Option.map_eq_some_iff.mp he
        exact ⟨.inl rfl,by simp⟩

theorem threadStep_id {t : ℕ} (he : threadStep s st t = some st') : st'.id = st.id := by
  cases hpc : st.pc t with
  | idle => simp [threadStep, hpc] at he
  | waiting c =>
    simp only [threadStep, hpc, Option.ite_none_left_eq_some] at he
    obtain ⟨_,he⟩ := he
    obtain rfl := Option.some.inj he
    rfl
  | inside c g =>
    by_cases hg : g = .links []
    · subst hg
      simp only [threadStep, hpc] at he
      obtain rfl := Option.some.inj he
      rfl
    · rw [threadStep_inside hpc hg] at he
      obtain ⟨r,hr,rfl⟩ := Option.map_eq_some_iff.mp he
      rfl

theorem step_id {id : CoreId} {e : Event} (h1 : st.id = id ∨ st.id = kTerminated)
    (h2 : ∀ id', st.life = .init id' → id' = id) (hne : ∀ id', e ≠ .init id')
    (he : step s st e = some st') :
    (st'.id = id ∨ st'.id = kTerminated) ∧ ∀ id', st'.life = .init id' → id' = id := by
  cases e with
  | init id' => exact absurd rfl (hne id')
  | core =>
    obtain ⟨hid,hlife⟩ := coreStep_id he
    refine ⟨?_,fun id' h => absurd h (hlife id')⟩
    rcases hid with hid | hid | hid
    · rwa [hid]
    · exact .inr hid
    · exact .inl (h2 _ hid)
  | thread t =>
    rw [threadStep_id he, threadStep_life he]
    exact ⟨h1,h2⟩
  | call t c =>
    simp only [step] at he
    split at he
    · obtain rfl := Option.some.inj he
      exact ⟨h1,h2⟩
    · cases he
  | setHot i x =>
    simp only [step] at he
    split at he
    · obtain rfl := Option.some.inj he
      exact ⟨h1,h2⟩
    · cases he
  | destroy =>
    simp only [step] at he
    split at he
    · obtain rfl := Option.some.inj he
      exact ⟨h1,by simp⟩
    · cases he

/-- Until the next `Init` the core has the id that this one was given, or none. -/
theorem id_of_runs {id : CoreId} (hlife : st.life = .init id) (hid : st.id = kTerminated)
    (hrun : Runs (step s) (fun st e => Permitted s st e ∧ ∀ id', e ≠ .init id') st st') :
    (st'.id = id ∨ st'.id = kTerminated) ∧ ∀ id', st'.life = .init id' → id' = id := by
  refine hrun.invariant (P := fun st' => (st'.id = id ∨ st'.id = kTerminated) ∧
    ∀ id', st'.life = .init id' → id' = id) ⟨.inr hid,?_⟩ ?_
  · intro id' h
    rw [hlife] at h
    exact (Life.init.inj h).symm
  · rintro u e v ⟨h1,h2⟩ ⟨_,hne⟩ he
    exact step_id h1 h2 hne he

/-- Over every interleaving from a core in use: `RemoveAll` ends; when `Destroy` has
returned, and until `Init` stores anything, the core is as new; a class that `Init` has not
opened yet is closed and empty; and after `Init` with another id every push that names the
old one is refused. -/
theorem shut_of_runs (h : Ready s st₀) (hrun : Runs (step s) (Permitted s) st₀ st) :
    (∀ i f, st.life = .removeAll i f → SweepEnds s i st) ∧
    (st.life = .dead → Shut s st₀ st) ∧
    (∀ id, st.life = .init id → Shut s st₀ st) ∧
    (∀ i id, st.life = .opening i id → ∀ j, i ≤ j → st.owner j = kTerminated ∧
      st.links.next (s.addr j) = s.addr j ∧ st.links.prev (s.addr j) = s.addr j) ∧
    ∀ id old st', st.life = .init id → old ≠ id → old.value ≠ 0 →
      Runs (step s) (fun st e => Permitted s st e ∧ ∀ id', e ≠ .init id') st st' →
      Refuses s st' old := by
  obtain ⟨l,hl,hinv⟩ := h.inv
  obtain ⟨l',code,foot,hi⟩ := hinv.of_runs hrun
  have hp := hi.phase
  refine ⟨fun i f hlife => hi.sweepEnds hlife,?_,?_,?_,?_⟩
  · intro hlife
    rw [hlife] at hp
    exact hi.shut hp.1 hp.2 hl
  · intro id hlife
    rw [hlife] at hp
    exact hi.shut hp.1 hp.2 hl
  · intro i id hlife j hj
    rw [hlife] at hp
    have hsw := hp.2.2 j hj
    have hs := hi.rings.settles j
    rw [hsw.quiet, hsw.empty] at hs
    exact ⟨hsw.owner,IsRing.nil_iff.mp hs.ring.1⟩
  · intro id old st' hlife hne hold hrun'
    rw [hlife] at hp
    obtain ⟨hid,_⟩ := id_of_runs hlife hp.1 hrun'
    obtain ⟨_,_,_,hi'⟩ := hi.of_runs (hrun'.mono fun _ _ h => h.1)
    refine hi'.refuses fun he => ?_
    rcases hid with hid | hid
    · exact hne (he.trans hid)
    · exact kTerminated_ne hold (he.trans hid)

def sampleSentinels : Sentinels where
  addr := fun i => i.val + 1
  injective := fun _ _ h => Fin.ext (Nat.succ.inj h)
  ne_zero := fun i => Nat.succ_ne_zero i.val

/-- A core in use with empty deques. -/
def sampleCore : State where
  id := ⟨8,1⟩
  hotSpan := fun _ => 0
  owner := fun _ => ⟨8,1⟩
  locked := fun _ => false
  links := ⟨fun x => if x ≤ kNumClasses then x else 0,fun x => if x ≤ kNumClasses then x else 0⟩
  epoch := fun _ => 0
  life := .live
  pc := fun _ => .idle

theorem sampleCore_ready : Ready sampleSentinels sampleCore where
  live := rfl
  owner := fun _ => rfl
  unlocked := fun _ => rfl
  idle := fun _ => rfl
  deques := by
    refine ⟨fun _ => [],?_,?_⟩
    · intro i
      refine ⟨IsRing.nil_iff.mpr ⟨?_,?_⟩,List.not_mem_nil⟩
      all_goals exact if_pos (Nat.succ_le_of_lt i.isLt)
    · intro i j x hi hj
      simp only [List.mem_singleton] at hi hj
      exact sampleSentinels.injective (hi.symm.trans hj)

/-- A push passes its owner test, the core closes the deque, and the push links its node in
while `RemoveAll` waits for the lock. -/
theorem shut_lateLink : ∃ st, Runs (step sampleSentinels) (Permitted sampleSentinels) sampleCore st ∧
    st.life = .removeAll Class.first .lock ∧ st.locked Class.first = true ∧
    st.links.prev 1000 = sampleSentinels.addr Class.first ∧
    SweepEnds sampleSentinels Class.first st := by
  have h0 : Runs (step sampleSentinels) (Permitted sampleSentinels) sampleCore _ := .refl
  have h1 := h0.tail (e := Event.call 0 ⟨.pushFront,Class.first,⟨8,1⟩,1000⟩) ⟨by decide,by decide⟩ rfl
  have h2 := h1.tail (e := Event.thread 0) trivial rfl
  have h3 := h2.tail (e := Event.thread 0) (fun h => nomatch h) rfl
  have h4 := h3.tail (e := Event.destroy) trivial rfl
  have h5 := h4.tail (e := Event.core) trivial rfl
  have h6 := h5.tail (e := Event.core) trivial rfl
  have h7 := h6.tail (e := Event.thread 0) ⟨rfl,rfl⟩ rfl
  exact ⟨_,h7,rfl,rfl,rfl,(shut_of_runs sampleCore_ready h7).1 _ _ rfl⟩

end Scalloc.Shutdown
