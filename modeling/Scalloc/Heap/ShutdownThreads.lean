import Scalloc.Heap.ShutdownInvariant

/-! # The steps of the other threads

A call on a swept class gets the lock, finds the owner changed and gives the lock back.
-/
namespace Scalloc.Shutdown
open Function Transition LinkCode LinkedRing

variable {s : Sentinels} {F : Set ℕ} {st st' : State} {l l' : Class → List ℕ}
  {code : Class → List (Stmt ℕ)} {foot foot' : Class → Set ℕ} {t : ℕ} {c : Call} {g g' : Stage}
  {L' : Links ℕ}

theorem kTerminated_ne {owner : CoreId} (h : owner.value ≠ 0) : owner ≠ kTerminated :=
  fun he => h (he ▸ rfl)

/-- A thread that is nowhere inside a deque moves. -/
theorem Callers.outside (h : Callers st l) {p : Pc} {K : Class → Bool}
    (hw : ∀ d, p = .waiting d → d.owner ≠ kTerminated ∧ d.node ≠ 0)
    (hi : ∀ d g, p = .inside d g → g = .enter ∧ d.owner ≠ kTerminated ∧ d.node ≠ 0) :
    Callers { st with locked := K, pc := update st.pc t p } l := by
  refine ⟨?_,?_,?_,?_⟩
  · intro u d hu
    by_cases hut : u = t
    · subst hut
      exact hw d (by simpa using hu)
    · exact h.waiting u d (by simpa [hut] using hu)
  · intro u d g hu
    by_cases hut : u = t
    · subst hut
      exact (hi d g (by simpa using hu)).2
    · exact h.inside u d g (by simpa [hut] using hu)
  · intro u d hu
    by_cases hut : u = t
    · subst hut
      cases (hi d _ (by simpa using hu)).1
    · exact h.accepted u d (by simpa [hut] using hu)
  · intro u d hu
    by_cases hut : u = t
    · subst hut
      cases (hi d _ (by simpa using hu)).1
    · exact h.owner u d (by simpa [hut] using hu)

theorem Swept.outside {j : Class} (h : Swept st l code j) {p : Pc} {K : Class → Bool}
    (hp : ∀ d, p ≠ .inside d .accepted) :
    Swept { st with locked := K, pc := update st.pc t p } l code j := by
  refine ⟨h.owner,h.hot,h.empty,h.quiet,?_⟩
  intro u d hu
  by_cases hut : u = t
  · subst hut
    exact absurd (by simpa using hu) (hp d)
  · exact h.refused u d (by simpa [hut] using hu)

/-- A thread calls `PushFront` or `Remove`. -/
theorem Inv.call (h : Inv s F st l code foot) (hpc : st.pc t = .idle)
    (hc : c.owner ≠ kTerminated ∧ c.node ≠ 0) :
    Inv s F { st with pc := update st.pc t (.waiting c) } l code foot where
  rings := h.rings
  locks := by
    have ha : (Pc.waiting c).pending = agents s st (some t) := by rw [agents, hpc]; rfl
    rw [agents_thread (.waiting c) _ _, ha, update_eq_self]
    exact h.locks
  callers := h.callers.outside (by simpa using hc) (by simp)
  phase := h.phase.mono rfl rfl rfl rfl (fun _ hj => hj.outside (by simp)) fun _ _ _ => rfl

/-- It takes the lock. -/
theorem Inv.enter (h : Inv s F st l code foot) (hpc : st.pc t = .waiting c)
    (hlock : st.locked c.cls = false) :
    Inv s F { st with
      locked := update st.locked c.cls true
      pc := update st.pc t (.inside c .enter) } l code foot where
  rings := h.rings
  locks := by
    rw [agents_thread (.inside c .enter) _ _]
    refine h.locks.acquire ?_ hlock
    rw [agents, hpc]
    rfl
  callers := by
    refine h.callers.outside (by simp) ?_
    rintro d g hd
    cases hd
    exact ⟨rfl,h.callers.waiting t c hpc⟩
  phase := h.phase.mono rfl rfl rfl rfl (fun _ hj => hj.outside (by simp)) fun _ _ _ => rfl

/-- It gives the lock back. -/
theorem Inv.leave (h : Inv s F st l code foot) (hpc : st.pc t = .inside c (.links [])) :
    Inv s F { st with
      locked := update st.locked c.cls false
      pc := update st.pc t .idle } l code foot where
  rings := h.rings
  locks := by
    rw [agents_thread .idle _ _]
    exact h.locks.release (agents_inside hpc)
  callers := h.callers.outside (by simp) (by simp)
  phase := h.phase.mono rfl rfl rfl rfl (fun _ hj => hj.outside (by simp)) fun _ _ _ => rfl

/-- It goes on with the lock held. -/
theorem Inv.inside (h : Inv s F st l code foot) (hpc : st.pc t = .inside c g)
    (hrings : Rings s F L' l' (update code c.cls g'.code) foot')
    (hl : ∀ j, j ≠ c.cls → l' j = l j) (hacc : g' = .accepted → c.owner = st.id)
    (hown : g' = .owner → c.node ∈ l' c.cls)
    (hswept : Swept st l code c.cls → l' c.cls = [] ∧ g'.code = [] ∧ g' ≠ .accepted) :
    Inv s F { st with links := L', pc := update st.pc t (.inside c g') } l'
      (update code c.cls g'.code) foot' where
  rings := hrings
  locks := by
    rw [agents_thread (.inside c g') _ _]
    exact h.locks.move (agents_inside hpc) g'.code
  callers := by
    refine ⟨?_,?_,?_,?_⟩
    · intro u d hu
      by_cases hut : u = t
      · subst hut
        simp at hu
      · exact h.callers.waiting u d (by simpa [hut] using hu)
    · intro u d k hu
      by_cases hut : u = t
      · subst hut
        obtain ⟨rfl,_⟩ : c = d ∧ g' = k := by simpa using hu
        exact h.callers.inside u c g hpc
      · exact h.callers.inside u d k (by simpa [hut] using hu)
    · intro u d hu
      by_cases hut : u = t
      · subst hut
        obtain ⟨rfl,hg⟩ : c = d ∧ g' = .accepted := by simpa using hu
        exact hacc hg
      · exact h.callers.accepted u d (by simpa [hut] using hu)
    · intro u d hu
      by_cases hut : u = t
      · subst hut
        obtain ⟨rfl,hg⟩ : c = d ∧ g' = .owner := by simpa using hu
        exact hown hg
      · have hu' : st.pc u = .inside d .owner := by simpa [hut] using hu
        have hne : d.cls ≠ c.cls := by
          intro he
          have h1 : agents s st (some u) c.cls = some [] := by
            rw [agents_inside hu', he, only_self]
            rfl
          have h2 : agents s st (some t) c.cls = some g.code := by rw [agents_inside hpc, only_self]
          exact hut (Option.some.inj (h.locks.mutex c.cls _ _ _ _ h1 h2))
        rw [hl d.cls hne]
        exact h.callers.owner u d hu'
  phase := by
    refine h.phase.mono rfl rfl rfl rfl ?_ ?_
    · intro j hj
      by_cases hjc : j = c.cls
      · subst hjc
        obtain ⟨h1,h2,h3⟩ := hswept hj
        refine ⟨hj.owner,hj.hot,h1,by rw [update_self, h2],?_⟩
        intro u d hu
        by_cases hut : u = t
        · subst hut
          obtain ⟨_,hg⟩ : c = d ∧ g' = .accepted := by simpa using hu
          exact absurd hg h3
        · exact hj.refused u d (by simpa [hut] using hu)
      · refine ⟨hj.owner,hj.hot,by rw [hl j hjc, hj.empty],by rw [update_of_ne hjc, hj.quiet],?_⟩
        intro u d hu
        by_cases hut : u = t
        · subst hut
          obtain ⟨rfl,_⟩ : c = d ∧ g' = .accepted := by simpa using hu
          exact fun he => hjc he.symm
        · exact hj.refused u d (by simpa [hut] using hu)
    · intro j cs hj
      refine hl j ?_
      intro he
      rw [he, h.core_free hpc] at hj
      cases hj

/-- Nothing is linked and no list changes, the thread only reads and moves on. -/
theorem Inv.inside_same (h : Inv s F st l code foot) (hpc : st.pc t = .inside c g)
    (hg : g.code = []) (hg' : g'.code = []) (hacc : g' = .accepted → c.owner = st.id ∧
      st.owner c.cls ≠ kTerminated) (hown : g' = .owner → c.node ∈ l c.cls) :
    Inv s F { st with pc := update st.pc t (.inside c g') } l code foot := by
  have hcode : update code c.cls g'.code = code := by
    rw [hg', ← hg, ← h.code_eq hpc, update_eq_self]
  have hi := @Inv.inside s F st l l code foot foot t c g g' st.links h hpc
    (by rw [hcode]; exact h.rings) (fun _ _ => rfl) (fun hg => (hacc hg).1) hown
    (fun hs => ⟨hs.empty,hg',fun hg => (hacc hg).2 hs.owner⟩)
  rwa [hcode] at hi

theorem Inv.mem_of_inDeque (h : Inv s F st l code foot) (hpc : st.pc t = .inside c g)
    (hg : g.code = []) (hd : InDeque s st c.cls c.node) : c.node ∈ l c.cls := by
  obtain ⟨k,hk,hm⟩ := hd
  have hs := h.rings.settles c.cls
  rw [h.code_eq hpc, hg] at hs
  exact hs.ring.1.unique hk ▸ hm

/-- The first test of a call. -/
theorem Inv.test (h : Inv s F st l code foot) (hpc : st.pc t = .inside c .enter)
    (hp : Permitted s st (.thread t)) {r : Stage × Links ℕ}
    (he : callStep s st c .enter = some r) :
    Inv s F { st with links := r.2, pc := update st.pc t (.inside c r.1) } l code foot := by
  have hcall := h.callers.inside t c _ hpc
  simp only [Permitted, hpc] at hp
  cases hm : c.method with
  | pushFront =>
    simp only [callStep, hm, if_neg hcall.2] at he
    obtain rfl := Option.some.inj he
    by_cases ho : c.owner = st.owner c.cls
    · rw [if_neg (by simpa using ho)]
      refine h.inside_same hpc rfl rfl (fun _ => ?_) (by simp)
      have hne : st.owner c.cls ≠ kTerminated := ho ▸ hcall.1
      exact ⟨ho.trans ((h.phase.owner c.cls).resolve_right hne),hne⟩
    · rw [if_pos ho]
      exact h.inside_same hpc rfl rfl (by simp) (by simp)
  | remove =>
    simp only [callStep, hm] at he
    obtain rfl := Option.some.inj he
    by_cases hu : st.links.prev c.node = 0 ∧ st.links.next c.node = 0
    · rw [if_pos hu]
      exact h.inside_same hpc rfl rfl (by simp) (by simp)
    · rw [if_neg hu]
      refine h.inside_same hpc rfl rfl (by simp) (fun _ => ?_)
      rcases hp hm with hun | hd
      · exact absurd ⟨hun.2,hun.1⟩ hu
      · exact h.mem_of_inDeque hpc rfl hd

/-- The owner test of `Remove`. -/
theorem Inv.testOwner (h : Inv s F st l code foot) (hpc : st.pc t = .inside c .owner)
    {r : Stage × Links ℕ} (he : callStep s st c .owner = some r) :
    ∃ code' foot', Inv s F { st with links := r.2, pc := update st.pc t (.inside c r.1) }
      (contents st l (.thread t)) code' foot' := by
  have hmem := h.callers.owner t c hpc
  have hcall := h.callers.inside t c _ hpc
  simp only [contents, hpc]
  by_cases ho : c.owner = st.owner c.cls
  · obtain ⟨hn,hpr,hr⟩ := h.rings.remove (h.code_eq hpc) hmem
    simp only [callStep, ne_eq, ho, not_true, if_false, hn, hpr, or_self] at he
    obtain rfl := Option.some.inj he
    rw [if_pos ho]
    refine ⟨_,_,h.inside hpc hr (fun j hj => update_of_ne hj _ _) (by simp) (by simp) ?_⟩
    intro hs
    exact absurd (ho.trans hs.owner) hcall.1
  · simp only [callStep, ne_eq, ho, not_false_iff, if_true] at he
    obtain rfl := Option.some.inj he
    rw [if_neg ho]
    exact ⟨code,foot,h.inside_same hpc rfl rfl (by simp) (by simp)⟩

/-- The first assignment of an accepted `PushFront`. -/
theorem Inv.linkFirst (h : Inv s F st l code foot) (hpc : st.pc t = .inside c .accepted)
    (hp : Permitted s st (.thread t)) {r : Stage × Links ℕ}
    (he : callStep s st c .accepted = some r) :
    ∃ code' foot', Inv s F { st with links := r.2, pc := update st.pc t (.inside c r.1) }
      (contents st l (.thread t)) code' foot' := by
  have hcall := h.callers.inside t c _ hpc
  simp only [Permitted, hpc] at hp
  simp only [contents, hpc]
  obtain ⟨foot',hr⟩ := h.rings.pushFront (h.code_eq hpc) hcall.2 hp
  simp only [callStep, Links.exec, Ptr.eval, hcall.2, s.ne_zero c.cls, or_self, if_false,
    Option.map_some] at he
  obtain rfl := Option.some.inj he
  refine ⟨_,_,h.inside hpc hr (fun j hj => update_of_ne hj _ _) (by simp) (by simp) ?_⟩
  intro hs
  exact absurd rfl (hs.refused t c hpc)

/-- A later assignment. -/
theorem Inv.linkNext (h : Inv s F st l code foot) {x : Stmt ℕ} {xs : List (Stmt ℕ)}
    (hpc : st.pc t = .inside c (.links (x :: xs))) :
    ∃ L' code' foot', st.links.exec 0 x = some L' ∧
      Inv s F { st with links := L', pc := update st.pc t (.inside c (.links xs)) } l code' foot' := by
  obtain ⟨L',foot',he,hr⟩ := h.rings.exec (h.code_eq hpc)
  refine ⟨L',_,foot',he,h.inside hpc hr (fun _ _ => rfl) (by simp) (by simp) ?_⟩
  intro hs
  have hq := hs.quiet
  rw [h.code_eq hpc] at hq
  cases hq

/-- Every permitted step of another thread keeps the invariant. -/
theorem Inv.thread (h : Inv s F st l code foot) (hp : Permitted s st (.thread t))
    (he : threadStep s st t = some st') :
    ∃ code' foot', Inv s F st' (contents st l (.thread t)) code' foot' := by
  unfold threadStep at he
  cases hpc : st.pc t with
  | idle =>
    rw [hpc] at he
    cases he
  | waiting c =>
    simp only [hpc] at he
    cases hlock : st.locked c.cls with
    | true =>
      rw [hlock] at he
      cases he
    | false =>
      rw [hlock] at he
      obtain rfl := Option.some.inj he
      simp only [contents, hpc]
      exact ⟨code,foot,h.enter hpc hlock⟩
  | inside c g =>
    rw [hpc] at he
    cases g with
    | enter =>
      obtain ⟨r,hr,rfl⟩ := Option.map_eq_some_iff.mp he
      have hi := h.test hpc hp hr
      simp only [contents, hpc]
      exact ⟨code,foot,hi⟩
    | owner =>
      obtain ⟨r,hr,rfl⟩ := Option.map_eq_some_iff.mp he
      exact h.testOwner hpc hr
    | accepted =>
      obtain ⟨r,hr,rfl⟩ := Option.map_eq_some_iff.mp he
      exact h.linkFirst hpc hp hr
    | links cs =>
      simp only [contents, hpc]
      cases cs with
      | nil =>
        obtain rfl := Option.some.inj he
        exact ⟨code,foot,h.leave hpc⟩
      | cons x xs =>
        obtain ⟨L',code',foot',hx,hi⟩ := h.linkNext hpc
        simp only [callStep, hx, Option.map_some] at he
        obtain rfl := Option.some.inj he
        exact ⟨code',foot',hi⟩

end Scalloc.Shutdown
