import Scalloc.Heap.ShutdownCore

/-! # `RemoveAll` ends

Every step that `RemoveAll` takes brings it closer to its end, and no step of another
thread takes it back: a push that was accepted before the deque was closed is counted from
the start.
-/
namespace Scalloc.Shutdown
open Function Transition LinkCode LinkedRing

variable {s : Sentinels} {F : Set ℕ} {st st' : State} {l l' : Class → List ℕ}
  {code : Class → List (Stmt ℕ)} {foot : Class → Set ℕ} {i : Class} {f : Front} {t : ℕ}
  {c : Call} {g : Stage}

/-- An upper bound on the steps of a call until it gives the lock back. -/
def Stage.rank : Stage → ℕ
  | .enter => 6
  | .owner => 5
  | .accepted => 4
  | .links cs => cs.length

/-- The steps left to `RemoveAll` with `n` nodes to take. -/
def Front.rank (s n : ℕ) : Front → ℕ
  | .lock => 8 * n + 6
  | .read => 8 * n + 5
  | .links node cs => if node = s then cs.length + 2 else 8 * n + cs.length + 10
  | .clear cs => 8 * n + cs.length + 7
  | .last => 1

/-- The steps of the thread of the core. -/
def Event.coreSteps : Event → ℕ
  | .core => 1
  | _ => 0

/-- A push on the class has passed its owner test and has linked nothing yet. -/
def Accepting (st : State) (i : Class) : Prop := ∃ t c, st.pc t = .inside c .accepted ∧ c.cls = i

open Classical in
/-- The nodes of the deque and the one that may still come. -/
noncomputable def awaited (st : State) (l : Class → List ℕ) (i : Class) : ℕ :=
  (l i).length + if Accepting st i then 1 else 0

/-- The steps left to `RemoveAll` of a class. -/
noncomputable def sweepRank (s : Sentinels) (st : State) (l : Class → List ℕ) (i : Class) : ℕ :=
  match st.life with
  | .removeAll j f => if j = i then f.rank (s.addr i) (awaited st l i) else 0
  | _ => 0

theorem sweepRank_eq (hlife : st.life = .removeAll i f) :
    sweepRank s st l i = f.rank (s.addr i) (awaited st l i) := by
  simp [sweepRank, hlife]

theorem awaited_congr (hpc : st'.pc = st.pc) (hl : l' i = l i) : awaited st' l' i = awaited st l i := by
  have ha : Accepting st' i = Accepting st i := by rw [Accepting, Accepting, hpc]
  rw [awaited, awaited, hl, ha]

theorem awaited_lt (hpc : st'.pc = st.pc) (hl : (l' i).length < (l i).length) :
    awaited st' l' i < awaited st l i := by
  have ha : Accepting st' i = Accepting st i := by rw [Accepting, Accepting, hpc]
  rw [awaited, awaited, ha]
  omega

theorem Front.rank_mono {a n m : ℕ} (h : n ≤ m) : f.rank a n ≤ f.rank a m := by
  cases f with
  | links node cs =>
    simp only [rank]
    split
    · exact le_rfl
    · omega
  | _ =>
    simp only [rank]
    omega

/-- A call that holds the lock can go on, and comes closer to giving it back. -/
theorem Inv.callStep_rank (h : Inv s F st l code foot) (hpc : st.pc t = .inside c g)
    (hg : g ≠ .links []) : ∃ r, callStep s st c g = some r ∧ r.1.rank < g.rank := by
  have hcall := h.callers.inside t c g hpc
  cases g with
  | enter =>
    cases hm : c.method with
    | pushFront =>
      simp only [callStep, hm, if_neg hcall.2]
      refine ⟨_,rfl,?_⟩
      dsimp only
      split <;> decide
    | remove =>
      simp only [callStep, hm]
      refine ⟨_,rfl,?_⟩
      dsimp only
      split <;> decide
  | owner =>
    obtain ⟨hn,hpr,_⟩ := h.rings.remove (h.code_eq hpc) (h.callers.owner t c hpc)
    by_cases ho : c.owner = st.owner c.cls
    · simp only [callStep, ne_eq, ho, not_true, if_false, hn, hpr, or_self]
      exact ⟨_,rfl,by simp [Stage.rank, removeCode, clearCode]⟩
    · simp only [callStep, ne_eq, ho, not_false_iff, if_true]
      exact ⟨_,rfl,by simp [Stage.rank]⟩
  | accepted =>
    simp only [callStep, Links.exec, Ptr.eval, hcall.2, s.ne_zero c.cls, or_self, if_false,
      Option.map_some]
    exact ⟨_,rfl,by simp [Stage.rank, pushFrontCode]⟩
  | links cs =>
    cases cs with
    | nil => exact absurd rfl hg
    | cons x xs =>
      obtain ⟨L',_,_,hx,_⟩ := h.linkNext hpc
      simp only [callStep, hx, Option.map_some]
      exact ⟨_,rfl,by simp [Stage.rank]⟩

theorem threadStep_inside (hpc : st.pc t = .inside c g) (hg : g ≠ .links []) :
    threadStep s st t = (callStep s st c g).map fun r =>
      { st with links := r.2, pc := update st.pc t (.inside c r.1) } := by
  cases g with
  | links cs =>
    cases cs with
    | nil => exact absurd rfl hg
    | cons x xs => simp only [threadStep, hpc]
  | _ => simp only [threadStep, hpc]

/-- The step of a call that holds the lock exists. It gives the lock back or brings the
call closer to that. -/
theorem Inv.progress (h : Inv s F st l code foot) (hpc : st.pc t = .inside c g) :
    ∃ st', step s st (.thread t) = some st' ∧
      (st'.pc t = .idle ∨ ∃ g', st'.pc t = .inside c g' ∧ g'.rank < g.rank) := by
  by_cases hg : g = .links []
  · subst hg
    refine ⟨{ st with locked := update st.locked c.cls false, pc := update st.pc t .idle },?_,?_⟩
    · simp only [step, threadStep, hpc]
    · exact .inl (update_self ..)
  · obtain ⟨r,hr,hlt⟩ := h.callStep_rank hpc hg
    refine ⟨{ st with links := r.2, pc := update st.pc t (.inside c r.1) },?_,?_⟩
    · rw [step, threadStep_inside hpc hg, hr]
      rfl
    · exact .inr ⟨r.1,update_self ..,hlt⟩

/-- `RemoveAll` can take its next step unless another thread is in the deque. -/
theorem Inv.core_progress (h : Inv s F st l code foot) (hlife : st.life = .removeAll i f) :
    (coreStep s st).isSome ∨ ∃ t c g, st.pc t = .inside c g ∧ c.cls = i := by
  have hpend : ∀ cs, f.code (s.addr i) = some cs → code i = cs := by
    intro cs hf
    refine h.locks.code i none _ ?_
    rw [agents, hlife, Life.pending, only_self, hf]
  cases f with
  | lock =>
    cases hlock : st.locked i with
    | false => exact .inl (by simp [coreStep, hlife, hlock])
    | true =>
      obtain ⟨a,cs,ha⟩ := h.locks.held i hlock
      cases a with
      | none =>
        rw [agents, hlife, Life.pending, only_self] at ha
        cases ha
      | some t =>
        cases hpc : st.pc t with
        | inside c g =>
          rw [agents, hpc] at ha
          exact .inr ⟨t,c,g,hpc,(only_some ha).1.symm⟩
        | _ =>
          rw [agents, hpc] at ha
          cases ha
  | read => exact .inl (by simp [coreStep, hlife])
  | last => exact .inl (by simp [coreStep, hlife])
  | links node cs =>
    cases cs with
    | nil => exact .inl (by simp [coreStep, hlife])
    | cons x cs =>
      obtain ⟨L',_,hx,_⟩ := h.rings.exec (hpend _ rfl)
      exact .inl (by simp [coreStep, hlife, hx])
  | clear cs =>
    cases cs with
    | nil => exact .inl (by simp [coreStep, hlife])
    | cons x cs =>
      obtain ⟨L',_,hx,_⟩ := h.rings.exec (hpend _ rfl)
      exact .inl (by simp [coreStep, hlife, hx])

theorem coreStep_pc (he : coreStep s st = some st') : st'.pc = st.pc := by
  unfold coreStep at he
  split at he
  any_goals cases he
  any_goals rfl
  · split at he
    any_goals cases he
    all_goals rfl
  · split at he
    any_goals cases he
    rfl
  · obtain ⟨L',_,rfl⟩ := Option.map_eq_some_iff.mp he
    rfl
  · obtain ⟨L',_,rfl⟩ := Option.map_eq_some_iff.mp he
    rfl

theorem contents_core (hlife : st.life = .removeAll i f) (hf : f ≠ .read) :
    contents st l .core = l := by
  cases f with
  | read => exact absurd rfl hf
  | _ => simp only [contents, hlife]

/-- Every step of `RemoveAll` is one less. -/
theorem Inv.core_rank (h : Inv s F st l code foot) (hlife : st.life = .removeAll i f)
    (he : coreStep s st = some st') :
    sweepRank s st' (contents st l .core) i < sweepRank s st l i := by
  have hpc := coreStep_pc he
  have hsame : f ≠ .read → awaited st' (contents st l .core) i = awaited st l i := by
    intro hf
    rw [contents_core hlife hf]
    exact awaited_congr hpc rfl
  rw [sweepRank_eq hlife]
  cases f with
  | lock =>
    cases hlock : st.locked i with
    | true => simp [coreStep, hlife, hlock] at he
    | false =>
      simp only [coreStep, hlife, hlock, Bool.false_eq_true, if_false] at he
      obtain rfl := Option.some.inj he
      rw [sweepRank_eq rfl, hsame (by simp)]
      simp only [Front.rank]
      omega
  | read =>
    simp only [coreStep, hlife] at he
    obtain rfl := Option.some.inj he
    have hc : code i = [] := by
      refine h.locks.code i none _ ?_
      rw [agents, hlife, Life.pending, only_self]
      rfl
    obtain ⟨_,hiff⟩ := h.rings.removeFront hc
    have hl : contents st l .core i = (l i).tail := by simp [contents, hlife]
    rw [sweepRank_eq rfl]
    simp only [Front.rank]
    by_cases hn : st.links.next (s.addr i) = s.addr i
    · rw [if_pos hn]
      simp only [removeFrontCode, List.length_cons, List.length_nil]
      omega
    · rw [if_neg hn]
      have hpos : 0 < (l i).length := List.length_pos_iff.mpr fun hl => hn (hiff.mpr hl)
      have hlt := @awaited_lt st _ l (contents st l .core) i hpc (by rw [hl, List.length_tail]; omega)
      simp only [removeFrontCode, List.length_cons, List.length_nil] at hlt ⊢
      omega
  | links node cs =>
    cases cs with
    | nil =>
      simp only [coreStep, hlife] at he
      obtain rfl := Option.some.inj he
      rw [sweepRank_eq rfl, hsame (by simp)]
      by_cases hn : node = s.addr i
      · simp [hn, Front.rank]
      · simp only [if_neg hn, Front.rank, clearCode, List.length_cons, List.length_nil]
        omega
    | cons x cs =>
      simp only [coreStep, hlife] at he
      obtain ⟨L',hx,rfl⟩ := Option.map_eq_some_iff.mp he
      rw [sweepRank_eq rfl, hsame (by simp)]
      simp only [Front.rank, List.length_cons]
      split <;> omega
  | clear cs =>
    cases cs with
    | nil =>
      simp only [coreStep, hlife] at he
      obtain rfl := Option.some.inj he
      rw [sweepRank_eq rfl, hsame (by simp)]
      simp only [Front.rank]
      omega
    | cons x cs =>
      simp only [coreStep, hlife] at he
      obtain ⟨L',hx,rfl⟩ := Option.map_eq_some_iff.mp he
      rw [sweepRank_eq rfl, hsame (by simp)]
      simp only [Front.rank, List.length_cons]
      omega
  | last =>
    have hz : sweepRank s st' (contents st l .core) i = 0 := by
      simp only [coreStep, hlife] at he
      cases hn : i.next? with
      | none =>
        simp only [hn] at he
        obtain rfl := Option.some.inj he
        rfl
      | some j =>
        simp only [hn] at he
        obtain rfl := Option.some.inj he
        rfl
    rw [hz]
    exact Nat.one_pos

theorem awaited_le (hl : (l' i).length ≤ (l i).length) (ha : Accepting st' i → Accepting st i) :
    awaited st' l' i ≤ awaited st l i := by
  unfold awaited
  by_cases h' : Accepting st' i
  · rw [if_pos h', if_pos (ha h')]
    omega
  · rw [if_neg h']
    omega

theorem accepting_of_update {p : Pc} (hpc : st'.pc = update st.pc t p)
    (hp : ∀ c, p = .inside c .accepted → c.cls ≠ i) (h : Accepting st' i) : Accepting st i := by
  obtain ⟨u,d,hu,hd⟩ := h
  rw [hpc] at hu
  by_cases hut : u = t
  · rw [hut, update_self] at hu
    exact absurd hd (hp d hu)
  · rw [update_of_ne hut] at hu
    exact ⟨u,d,hu,hd⟩

/-- The accepted push links its node in: the node that was to come has come. -/
theorem Inv.accepted_awaited (h : Inv s F st l code foot) (hpc : st.pc t = .inside c .accepted)
    {r : Stage × Links ℕ} (hr : callStep s st c .accepted = some r) :
    awaited { st with links := r.2, pc := update st.pc t (.inside c r.1) }
      (contents st l (.thread t)) c.cls ≤ awaited st l c.cls := by
  have hin : Accepting st c.cls := ⟨t,c,hpc,rfl⟩
  have hout : ¬ Accepting { st with links := r.2, pc := update st.pc t (.inside c r.1) } c.cls := by
    rintro ⟨u,d,hu,hd⟩
    by_cases hut : u = t
    · simp only [hut, update_self, Pc.inside.injEq] at hu
      obtain ⟨L',_,rfl⟩ := Option.map_eq_some_iff.mp hr
      cases hu.2
    · simp only [update_of_ne hut] at hu
      have h1 : agents s st (some u) c.cls = some [] := by
        rw [agents_inside hu, hd, only_self]
        rfl
      have h2 : agents s st (some t) c.cls = some [] := by
        rw [agents_inside hpc, only_self]
        rfl
      exact hut (Option.some.inj (h.locks.mutex c.cls _ _ _ _ h1 h2))
  simp only [contents, hpc, awaited, update_self, List.length_cons, if_pos hin, if_neg hout]
  exact le_rfl

/-- A closed class awaits no new node. -/
theorem Inv.thread_awaited (h : Inv s F st l code foot) (ho : st.owner i = kTerminated)
    (he : threadStep s st t = some st') :
    awaited st' (contents st l (.thread t)) i ≤ awaited st l i := by
  cases hpc : st.pc t with
  | idle => simp [threadStep, hpc] at he
  | waiting c =>
    simp only [threadStep, hpc, Option.ite_none_left_eq_some] at he
    obtain ⟨_,he⟩ := he
    obtain rfl := Option.some.inj he
    simp only [contents, hpc]
    exact awaited_le le_rfl (accepting_of_update rfl (by simp))
  | inside c g =>
    by_cases hg : g = .links []
    · subst hg
      simp only [threadStep, hpc] at he
      obtain rfl := Option.some.inj he
      simp only [contents, hpc]
      exact awaited_le le_rfl (accepting_of_update rfl (by simp))
    · rw [threadStep_inside hpc hg] at he
      obtain ⟨r,hr,rfl⟩ := Option.map_eq_some_iff.mp he
      have hcall := h.callers.inside t c g hpc
      by_cases hc : c.cls = i
      · subst hc
        have hne : c.owner ≠ st.owner c.cls := ho ▸ hcall.1
        cases g with
        | enter =>
          simp only [contents, hpc]
          refine awaited_le le_rfl (accepting_of_update rfl ?_)
          intro d hd
          have hacc : r.1 = .accepted := by
            simp only [Pc.inside.injEq] at hd
            exact hd.2
          cases hm : c.method with
          | pushFront =>
            simp only [callStep, hm, if_neg hcall.2, if_pos hne] at hr
            obtain rfl := Option.some.inj hr
            cases hacc
          | remove =>
            simp only [callStep, hm] at hr
            obtain rfl := Option.some.inj hr
            dsimp only at hacc
            split at hacc <;> cases hacc
        | owner =>
          simp only [callStep, if_pos hne] at hr
          obtain rfl := Option.some.inj hr
          simp only [contents, hpc, if_neg hne]
          exact awaited_le le_rfl (accepting_of_update rfl (by simp))
        | accepted => exact h.accepted_awaited hpc hr
        | links cs =>
          cases cs with
          | nil => exact absurd rfl hg
          | cons x xs =>
            obtain ⟨L',hx,rfl⟩ := Option.map_eq_some_iff.mp hr
            simp only [contents, hpc]
            exact awaited_le le_rfl (accepting_of_update rfl (by simp))
      · have hl : contents st l (.thread t) i = l i := by
          cases g with
          | accepted =>
            simp only [contents, hpc]
            exact update_of_ne (Ne.symm hc) _ _
          | owner =>
            simp only [contents, hpc]
            split
            · exact update_of_ne (Ne.symm hc) _ _
            · rfl
          | _ => simp only [contents, hpc]
        refine awaited_le (by rw [hl]) (accepting_of_update rfl ?_)
        intro d hd
        obtain ⟨rfl,_⟩ := Pc.inside.inj hd
        exact hc

theorem threadStep_life (he : threadStep s st t = some st') : st'.life = st.life := by
  cases hpc : st.pc t with
  | idle => simp [threadStep, hpc] at he
  | waiting c =>
    simp only [threadStep, hpc, Option.ite_none_left_eq_some] at he
    obtain ⟨_,he⟩ := he
    obtain rfl := Option.some.inj he
    rfl
  | inside c g =>
    by_cases hg : g = .links []
    · subst hg
      simp only [threadStep, hpc] at he
      obtain rfl := Option.some.inj he
      rfl
    · rw [threadStep_inside hpc hg] at he
      obtain ⟨r,hr,rfl⟩ := Option.map_eq_some_iff.mp he
      rfl

/-- While `RemoveAll` runs, its own steps bring it closer to its end and the steps of the
other threads do not take it back. -/
theorem Inv.step_rank (h : Inv s F st l code foot) (hlife : st.life = .removeAll i f) {e : Event}
    (he : step s st e = some st') :
    sweepRank s st' (contents st l e) i + e.coreSteps ≤ sweepRank s st l i := by
  cases e with
  | core => exact h.core_rank hlife he
  | thread t =>
    have hl := threadStep_life he
    have hp := h.phase
    rw [hlife] at hl hp
    rw [sweepRank_eq hl, sweepRank_eq hlife]
    exact Front.rank_mono (h.thread_awaited hp.2.1 he)
  | call t c =>
    simp only [step] at he
    cases hpc : st.pc t with
    | idle =>
      simp only [hpc] at he
      obtain rfl := Option.some.inj he
      rw [sweepRank_eq hlife]
      refine Nat.le_trans (Nat.le_of_eq (sweepRank_eq (f := f) hlife)) ?_
      exact Front.rank_mono (awaited_le le_rfl (accepting_of_update rfl (by simp)))
    | _ =>
      simp only [hpc] at he
      cases he
  | setHot j x =>
    simp only [step, hlife] at he
    cases he
  | destroy =>
    simp only [step, hlife] at he
    cases he
  | init id =>
    simp only [step, hlife] at he
    cases he

end Scalloc.Shutdown
