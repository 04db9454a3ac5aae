import Scalloc.Heap.ShutdownThreads

/-! # The steps of the dying core

`Destroy` closes a class, empties its hot slot and sweeps its deque; when `RemoveFront`
returns null it holds the lock, so that no call is under way in the deque, and every
later call finds it closed.
-/
namespace Scalloc.Shutdown
open Function Transition LinkCode LinkedRing

variable {s : Sentinels} {F : Set ℕ} {st st' : State} {l l' : Class → List ℕ}
  {code code' : Class → List (Stmt ℕ)} {foot foot' : Class → Set ℕ} {i j : Class} {L' : Links ℕ}
  {f f' : Front} {cs cs' : List (Stmt ℕ)}

theorem Swept.of_eq (h : Swept st l code j) (hpc : st'.pc = st.pc) (ho : st'.owner j = st.owner j)
    (hh : st'.hotSpan j = st.hotSpan j) (hl : l' j = l j) (hc : code' j = code j) :
    Swept st' l' code' j where
  owner := ho.trans h.owner
  hot := hh.trans h.hot
  empty := hl.trans h.empty
  quiet := hc.trans h.quiet
  refused := hpc ▸ h.refused

/-- The core stores a word of its own. -/
theorem Inv.core_same (h : Inv s F st l code foot) (hpc : st'.pc = st.pc)
    (hlinks : st'.links = st.links) (hlocked : st'.locked = st.locked)
    (hpend : st'.life.pending s = st.life.pending s)
    (hid : ∀ t c, st.pc t = .inside c .accepted → c.owner = st'.id)
    (hphase : Phase s st' l code st'.life) : Inv s F st' l code foot where
  rings := hlinks ▸ h.rings
  locks := by
    have ha : agents s st' = agents s st := by
      rw [agents_core hpc, hpend]
      exact update_eq_self none (agents s st)
    rw [hlocked, ha]
    exact h.locks
  callers := by
    obtain ⟨h1,h2,_,h4⟩ := h.callers
    rw [← hpc] at h1 h2 h4 hid
    exact ⟨h1,h2,hid,h4⟩
  phase := hphase

/-- `RemoveFront` goes on with the lock held. -/
theorem Inv.core_inside (h : Inv s F st l code foot) (hlife : st.life = .removeAll i f)
    (hf : f.code (s.addr i) = some cs) (hf' : f'.code (s.addr i) = some cs')
    (hrings : Rings s F L' l' (update code i cs') foot') (hl : ∀ j, j ≠ i → l' j = l j)
    (hlast : f' = .last → l' i = []) (hnil : ∀ c, f' = .links (s.addr i) c → l' i = []) :
    Inv s F { st with links := L', life := .removeAll i f' } l' (update code i cs') foot' where
  rings := hrings
  locks := by
    have ha : agents s st none = only i (some cs) := by rw [agents, hlife, Life.pending, hf]
    rw [agents_removeAll, Life.pending, hf']
    exact h.locks.move ha cs'
  callers := by
    obtain ⟨h1,h2,h3,h4⟩ := h.callers
    refine ⟨h1,h2,h3,?_⟩
    intro t c hc
    have hne : c.cls ≠ i := by
      exact h.others_free (by rw [hlife, Life.pending, only_self, hf]) hc
    rw [hl c.cls hne]
    exact h4 t c hc
  phase := by
    have hp := h.phase
    rw [hlife] at hp
    obtain ⟨h1,h2,h3,h4,_⟩ := hp
    refine ⟨fun j hj => ?_,h2,h3,h4,hlast,hnil⟩
    exact (h1 j hj).of_eq rfl rfl rfl (hl j hj.ne) (update_of_ne hj.ne _ _)

/-- The next assignment of `RemoveFront`. -/
theorem Inv.core_exec (h : Inv s F st l code foot) (hlife : st.life = .removeAll i f) {x : Stmt ℕ}
    (hf : f.code (s.addr i) = some (x :: cs)) (hf' : f'.code (s.addr i) = some cs)
    (hlast : f' = .last → l i = []) (hnil : ∀ c, f' = .links (s.addr i) c → l i = []) :
    ∃ L' code' foot', st.links.exec 0 x = some L' ∧
      Inv s F { st with links := L', life := .removeAll i f' } l code' foot' := by
  have hc : code i = x :: cs := by
    refine h.locks.code i none _ ?_
    rw [agents, hlife, Life.pending, only_self, hf]
  obtain ⟨L',foot',he,hr⟩ := h.rings.exec hc
  exact ⟨L',_,foot',he,h.core_inside hlife hf hf' hr (fun _ _ => rfl) hlast hnil⟩

/-- `RemoveFront` takes the lock. -/
theorem Inv.core_lock (h : Inv s F st l code foot) (hlife : st.life = .removeAll i .lock)
    (hlock : st.locked i = false) :
    Inv s F { st with locked := update st.locked i true, life := .removeAll i .read } l code foot where
  rings := h.rings
  locks := by
    rw [agents_removeAll]
    refine h.locks.acquire ?_ hlock
    rw [agents, hlife]
    exact only_none i
  callers := ⟨h.callers.waiting,h.callers.inside,h.callers.accepted,h.callers.owner⟩
  phase := by
    have hp := h.phase
    rw [hlife] at hp
    obtain ⟨h1,h2,h3,h4,_⟩ := hp
    exact ⟨fun j hj => (h1 j hj).of_eq rfl rfl rfl rfl rfl,h2,h3,h4,by simp,by simp⟩

/-- `RemoveFront` gives the lock back with nothing left to assign. -/
theorem Inv.core_unlock (h : Inv s F st l code foot) (hlife : st.life = .removeAll i f)
    (hf : f.code (s.addr i) = some []) {life : Life} (hn : life.pending s = fun _ => none)
    (hphase : Phase s { st with locked := update st.locked i false, life := life } l code life) :
    Inv s F { st with locked := update st.locked i false, life := life } l code foot where
  rings := h.rings
  locks := by
    have ha : agents s st none = only i (some []) := by rw [agents, hlife, Life.pending, hf]
    rw [agents_removeAll, hn]
    exact h.locks.release ha
  callers := ⟨h.callers.waiting,h.callers.inside,h.callers.accepted,h.callers.owner⟩
  phase := hphase

/-- When `RemoveFront` returns null the class is swept. -/
theorem Inv.swept_last (h : Inv s F st l code foot) (hlife : st.life = .removeAll i .last) :
    Swept st l code i := by
  have hp := h.phase
  rw [hlife] at hp
  obtain ⟨_,h2,_,h4,h5,_⟩ := hp
  have hpend : st.life.pending s i = some [] := by rw [hlife, Life.pending, only_self]; rfl
  exact ⟨h2,h4,h5 rfl,h.locks.code i none [] hpend,fun t c hc => h.others_free hpend hc⟩

theorem next_some (h : i.next? = some j) : i < j ∧ ∀ k, k < j → k ≤ i := by
  unfold Class.next? at h
  split at h
  · obtain rfl := Option.some.inj h
    exact ⟨Nat.lt_succ_self _,fun k hk => Nat.le_of_lt_succ hk⟩
  · cases h

theorem next_none (h : i.next? = none) (k : Class) : k ≤ i := by
  unfold Class.next? at h
  split at h
  · cases h
  · exact Nat.le_of_lt_succ (lt_of_lt_of_le k.isLt (by omega))

/-- The stores of one round before the sweep. -/
theorem Inv.core_close (h : Inv s F st l code foot) (hlife : st.life = .close i) :
    Inv s F { st with owner := update st.owner i kTerminated, life := .mark i } l code foot := by
  have hp := h.phase
  rw [hlife] at hp
  refine h.core_same rfl rfl rfl (by rw [hlife]; rfl) h.callers.accepted ⟨?_,?_,?_⟩
  · intro j hj
    exact (hp.1 j hj).of_eq rfl (update_of_ne hj.ne _ _) rfl rfl rfl
  · exact update_self ..
  · intro j hj
    exact (update_of_ne hj.ne' _ _).trans (hp.2 j hj.le)

theorem Inv.core_unhot (h : Inv s F st l code foot) (hlife : st.life = .unhot i) :
    Inv s F { st with hotSpan := update st.hotSpan i 0, life := .removeAll i .lock } l code foot := by
  have hp := h.phase
  rw [hlife] at hp
  refine h.core_same rfl rfl rfl (by rw [hlife]; exact only_none i) h.callers.accepted
    ⟨?_,hp.2.1,hp.2.2,update_self ..,by simp,by simp⟩
  intro j hj
  exact (hp.1 j hj).of_eq rfl rfl (update_of_ne hj.ne _ _) rfl rfl

theorem Inv.core_mark (h : Inv s F st l code foot) (hlife : st.life = .mark i)
    (he : coreStep s st = some st') : Inv s F st' l code foot := by
  have hp := h.phase
  rw [hlife] at hp
  simp only [coreStep, hlife] at he
  by_cases hhot : st.hotSpan i = 0
  · rw [if_pos hhot] at he
    obtain rfl := Option.some.inj he
    refine h.core_same rfl rfl rfl (by rw [hlife]; exact only_none i) h.callers.accepted
      ⟨?_,hp.2.1,hp.2.2,hhot,by simp,by simp⟩
    exact fun j hj => (hp.1 j hj).of_eq rfl rfl rfl rfl rfl
  · rw [if_neg hhot] at he
    obtain rfl := Option.some.inj he
    refine h.core_same rfl rfl rfl (by rw [hlife]; rfl) h.callers.accepted ⟨?_,hp.2⟩
    exact fun j hj => (hp.1 j hj).of_eq rfl rfl rfl rfl rfl

/-- `RemoveFront` reads the first node. -/
theorem Inv.core_read (h : Inv s F st l code foot) (hlife : st.life = .removeAll i .read) :
    ∃ code', Inv s F { st with life := .removeAll i (.links (st.links.next (s.addr i))
      (removeFrontCode (s.addr i) (st.links.next (s.addr i)))) } (update l i (l i).tail) code' foot := by
  have hc : code i = [] := by
    refine h.locks.code i none _ ?_
    rw [agents, hlife, Life.pending, only_self]
    rfl
  obtain ⟨hr,hiff⟩ := h.rings.removeFront hc
  refine ⟨_,h.core_inside hlife rfl rfl hr (fun j hj => update_of_ne hj _ _) (by simp) ?_⟩
  intro c hf
  have hn : st.links.next (s.addr i) = s.addr i := by
    simp only [Front.links.injEq] at hf
    exact hf.1
  rw [update_self, hiff.mp hn]
  rfl

/-- The test for the sentinel after the assignments. -/
theorem Inv.core_test (h : Inv s F st l code foot) {node : ℕ}
    (hlife : st.life = .removeAll i (.links node [])) :
    Inv s F { st with
      life := .removeAll i (if node = s.addr i then .last else .clear (clearCode node)) }
      l code foot := by
  have hp := h.phase
  rw [hlife] at hp
  obtain ⟨h1,h2,h3,h4,_,h6⟩ := hp
  refine h.core_same rfl rfl rfl ?_ h.callers.accepted ?_
  · rw [hlife]
    by_cases hn : node = s.addr i <;> simp [Life.pending, Front.code, hn]
  · refine ⟨fun j hj => (h1 j hj).of_eq rfl rfl rfl rfl rfl,h2,h3,h4,?_,?_⟩
    · intro hf
      by_cases hn : node = s.addr i
      · exact h6 [] (by rw [hn])
      · rw [if_neg hn] at hf
        cases hf
    · intro c hf
      by_cases hn : node = s.addr i
      · rw [if_pos hn] at hf
        cases hf
      · rw [if_neg hn] at hf
        cases hf

/-- `RemoveFront` returned null: the next class, or the end of the loop. -/
theorem Inv.core_last (h : Inv s F st l code foot) (hlife : st.life = .removeAll i .last) :
    Inv s F { st with
      locked := update st.locked i false
      life := match i.next? with | some j => .close j | none => .terminate } l code foot := by
  have hsw := h.swept_last hlife
  have hp := h.phase
  rw [hlife] at hp
  obtain ⟨h1,_,h3,_⟩ := hp
  have hall : ∀ k, k ≤ i → Swept st l code k := by
    intro k hk
    rcases lt_or_eq_of_le hk with hlt | rfl
    · exact h1 k hlt
    · exact hsw
  cases hn : i.next? with
  | some j =>
    obtain ⟨hij,hlt⟩ := next_some hn
    refine h.core_unlock hlife rfl rfl ⟨?_,?_⟩
    · exact fun k hk => (hall k (hlt k hk)).of_eq rfl rfl rfl rfl rfl
    · exact fun k hk => h3 k (lt_of_lt_of_le hij hk)
  | none =>
    refine h.core_unlock hlife rfl rfl ?_
    exact fun k => (hall k (next_none hn k)).of_eq rfl rfl rfl rfl rfl

/-- `Init` opens one class after the other. -/
theorem Inv.core_opening (h : Inv s F st l code foot) {id : CoreId} (hlife : st.life = .opening i id) :
    Inv s F { st with
      owner := update st.owner i id
      life := match i.next? with | some j => .opening j id | none => .live } l code foot := by
  have hp := h.phase
  rw [hlife] at hp
  obtain ⟨h1,h2,h3⟩ := hp
  have hopen : ∀ k, k ≤ i → update st.owner i id k = id := by
    intro k hk
    rcases lt_or_eq_of_le hk with hlt | rfl
    · exact (update_of_ne hlt.ne _ _).trans (h2 k hlt)
    · exact update_self ..
  cases hn : i.next? with
  | some j =>
    obtain ⟨hij,hlt⟩ := next_some hn
    refine h.core_same rfl rfl rfl (by rw [hlife]; rfl) h.callers.accepted ⟨h1,?_,?_⟩
    · exact fun k hk => hopen k (hlt k hk)
    · intro k hk
      have hik : i < k := lt_of_lt_of_le hij hk
      exact (h3 k hik.le).of_eq rfl (update_of_ne hik.ne' _ _) rfl rfl rfl
  | none =>
    refine h.core_same rfl rfl rfl (by rw [hlife]; rfl) h.callers.accepted ?_
    exact fun k => (hopen k (next_none hn k)).trans h1.symm

/-- Every step of the thread of the core keeps the invariant. -/
theorem Inv.core (h : Inv s F st l code foot) (he : coreStep s st = some st') :
    ∃ code' foot', Inv s F st' (contents st l .core) code' foot' := by
  have hmark := fun i hl => @Inv.core_mark s F st st' l code foot i h hl he
  have hp := h.phase
  unfold coreStep at he
  cases hlife : st.life with
  | live =>
    rw [hlife] at he
    cases he
  | dead =>
    rw [hlife] at he
    cases he
  | mark i =>
    simp only [contents, hlife]
    exact ⟨code,foot,hmark i hlife⟩
  | close i =>
    rw [hlife] at he
    obtain rfl := Option.some.inj he
    simp only [contents, hlife]
    exact ⟨code,foot,h.core_close hlife⟩
  | unhot i =>
    rw [hlife] at he
    obtain rfl := Option.some.inj he
    simp only [contents, hlife]
    exact ⟨code,foot,h.core_unhot hlife⟩
  | terminate =>
    rw [hlife] at he hp
    obtain rfl := Option.some.inj he
    simp only [contents, hlife]
    refine ⟨code,foot,h.core_same rfl rfl rfl (by rw [hlife]; rfl) ?_ ⟨rfl,?_⟩⟩
    · exact fun t c hc => absurd rfl ((hp c.cls).refused t c hc)
    · exact fun j => (hp j).of_eq rfl rfl rfl rfl rfl
  | init id =>
    rw [hlife] at he hp
    obtain rfl := Option.some.inj he
    simp only [contents, hlife]
    refine ⟨code,foot,h.core_same rfl rfl rfl (by rw [hlife]; rfl) ?_ ⟨rfl,?_,?_⟩⟩
    · exact fun t c hc => absurd rfl ((hp.2 c.cls).refused t c hc)
    · exact fun j hj => absurd hj (Nat.not_lt_zero _)
    · exact fun j _ => (hp.2 j).of_eq rfl rfl rfl rfl rfl
  | opening i id =>
    rw [hlife] at he
    obtain rfl := Option.some.inj he
    simp only [contents, hlife]
    exact ⟨code,foot,h.core_opening hlife⟩
  | removeAll i f =>
    rw [hlife] at he hp
    simp only [contents, hlife]
    cases f with
    | lock =>
      cases hlock : st.locked i with
      | true =>
        simp only [hlock] at he
        cases he
      | false =>
        simp only [hlock] at he
        obtain rfl := Option.some.inj he
        exact ⟨code,foot,h.core_lock hlife hlock⟩
    | read =>
      obtain rfl := Option.some.inj he
      obtain ⟨code',hi⟩ := h.core_read hlife
      exact ⟨code',foot,hi⟩
    | links node cs =>
      cases cs with
      | nil =>
        obtain rfl := Option.some.inj he
        exact ⟨code,foot,h.core_test hlife⟩
      | cons x cs =>
        obtain ⟨L',code',foot',hx,hi⟩ := h.core_exec hlife rfl rfl
          (by simp : Front.links node cs = .last → l i = []) fun c hf => by
            have hn : node = s.addr i := by
              simp only [Front.links.injEq] at hf
              exact hf.1
            exact hp.2.2.2.2.2 (x :: cs) (by rw [hn])
        simp only [hx, Option.map_some] at he
        obtain rfl := Option.some.inj he
        exact ⟨code',foot',hi⟩
    | clear cs =>
      cases cs with
      | nil =>
        obtain rfl := Option.some.inj he
        refine ⟨code,foot,h.core_unlock hlife rfl (only_none i) ?_⟩
        exact ⟨fun j hj => (hp.1 j hj).of_eq rfl rfl rfl rfl rfl,hp.2.1,hp.2.2.1,hp.2.2.2.1,by simp,
          by simp⟩
      | cons x cs =>
        obtain ⟨L',code',foot',hx,hi⟩ := h.core_exec hlife rfl rfl
          (by simp : Front.clear cs = .last → l i = []) (by simp)
        simp only [hx, Option.map_some] at he
        obtain rfl := Option.some.inj he
        exact ⟨code',foot',hi⟩
    | last =>
      obtain rfl := Option.some.inj he
      exact ⟨code,foot,h.core_last hlife⟩

/-- Every permitted step keeps the invariant. -/
theorem Inv.kept (h : Inv s F st l code foot) {e : Event} (hp : Permitted s st e)
    (he : step s st e = some st') : ∃ code' foot', Inv s F st' (contents st l e) code' foot' := by
  have hph := h.phase
  cases e with
  | core => exact h.core he
  | thread t => exact h.thread hp he
  | call t c =>
    simp only [step] at he
    cases hpc : st.pc t with
    | idle =>
      simp only [hpc] at he
      obtain rfl := Option.some.inj he
      exact ⟨code,foot,h.call hpc ⟨kTerminated_ne hp.1,hp.2⟩⟩
    | _ =>
      simp only [hpc] at he
      cases he
  | setHot i x =>
    unfold step at he
    cases hlife : st.life with
    | live =>
      rw [hlife] at he hph
      obtain rfl := Option.some.inj he
      exact ⟨code,foot,h.core_same rfl rfl rfl (by rw [hlife]) h.callers.accepted hph⟩
    | _ =>
      rw [hlife] at he
      cases he
  | destroy =>
    unfold step at he
    cases hlife : st.life with
    | live =>
      rw [hlife] at he hph
      obtain rfl := Option.some.inj he
      refine ⟨code,foot,h.core_same rfl rfl rfl (by rw [hlife]; rfl) h.callers.accepted ⟨?_,?_⟩⟩
      · exact fun j hj => absurd hj (Nat.not_lt_zero _)
      · exact fun j _ => hph j
    | _ =>
      rw [hlife] at he
      cases he
  | init id =>
    unfold step at he
    cases hlife : st.life with
    | dead =>
      rw [hlife] at he hph
      obtain rfl := Option.some.inj he
      refine ⟨code,foot,h.core_same rfl rfl rfl (by rw [hlife]; rfl) h.callers.accepted ⟨hph.1,?_⟩⟩
      exact fun j => (hph.2 j).of_eq rfl rfl rfl rfl rfl
    | _ =>
      rw [hlife] at he
      cases he

end Scalloc.Shutdown
