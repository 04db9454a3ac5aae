import Scalloc.Heap.ShutdownLocks

/-! # What holds while a core is destroyed and reopened

The contents of the deques as lists, and what every place in `Destroy` and `Init` says
about the owners, the hot spans and the contents of the classes done and to do.
-/
namespace Scalloc.Shutdown
open Function Transition LinkCode LinkedRing

/-- The contents of the deques after a step. A node is in from the first assignment of its
`PushFront` on, and out from the owner test of `Remove` or the read of `RemoveFront` on. -/
def contents (st : State) (l : Class → List ℕ) : Event → Class → List ℕ
  | .thread t =>
    match st.pc t with
    | .inside c .accepted => update l c.cls (c.node :: l c.cls)
    | .inside c .owner =>
      if c.owner = st.owner c.cls then update l c.cls ((l c.cls).erase c.node) else l
    | _ => l
  | .core =>
    match st.life with
    | .removeAll i .read => update l i (l i).tail
    | _ => l
  | _ => l

/-- What the calls under way have been given and have found out. -/
structure Callers (st : State) (l : Class → List ℕ) : Prop where
  waiting : ∀ t c, st.pc t = .waiting c → c.owner ≠ kTerminated ∧ c.node ≠ 0
  inside : ∀ t c g, st.pc t = .inside c g → c.owner ≠ kTerminated ∧ c.node ≠ 0
  accepted : ∀ t c, st.pc t = .inside c .accepted → c.owner = st.id
  owner : ∀ t c, st.pc t = .inside c .owner → c.node ∈ l c.cls

/-- A class that `Destroy` is done with: nothing is in it and nobody is linking anything
in. -/
structure Swept (st : State) (l : Class → List ℕ) (code : Class → List (Stmt ℕ)) (j : Class) :
    Prop where
  owner : st.owner j = kTerminated
  hot : st.hotSpan j = 0
  empty : l j = []
  quiet : code j = []
  refused : ∀ t c, st.pc t = .inside c .accepted → c.cls ≠ j

/-- The owners and the swept classes at each place of `Destroy` and `Init`. -/
def Phase (s : Sentinels) (st : State) (l : Class → List ℕ) (code : Class → List (Stmt ℕ)) :
    Life → Prop
  | .live => ∀ j, st.owner j = st.id
  | .close i => (∀ j < i, Swept st l code j) ∧ ∀ j, i ≤ j → st.owner j = st.id
  | .mark i => (∀ j < i, Swept st l code j) ∧ st.owner i = kTerminated ∧
      ∀ j, i < j → st.owner j = st.id
  | .unhot i => (∀ j < i, Swept st l code j) ∧ st.owner i = kTerminated ∧
      ∀ j, i < j → st.owner j = st.id
  | .removeAll i f => (∀ j < i, Swept st l code j) ∧ st.owner i = kTerminated ∧
      (∀ j, i < j → st.owner j = st.id) ∧ st.hotSpan i = 0 ∧
      (f = .last → l i = []) ∧ ∀ c, f = .links (s.addr i) c → l i = []
  | .terminate => ∀ j, Swept st l code j
  | .dead => st.id = kTerminated ∧ ∀ j, Swept st l code j
  | .init _ => st.id = kTerminated ∧ ∀ j, Swept st l code j
  | .opening i id => st.id = id ∧ (∀ j < i, st.owner j = id) ∧ ∀ j, i ≤ j → Swept st l code j

structure Inv (s : Sentinels) (F : Set ℕ) (st : State) (l : Class → List ℕ)
    (code : Class → List (Stmt ℕ)) (foot : Class → Set ℕ) : Prop where
  rings : Rings s F st.links l code foot
  locks : Locks st.locked (agents s st) code
  callers : Callers st l
  phase : Phase s st l code st.life

variable {s : Sentinels} {F : Set ℕ} {st st' : State} {l l' : Class → List ℕ}
  {code code' : Class → List (Stmt ℕ)} {foot : Class → Set ℕ} {t : ℕ} {c : Call} {g : Stage}

/-- Every owner is the id of the core or the id of no core. -/
theorem Phase.owner (h : Phase s st l code st.life) (j : Class) :
    st.owner j = st.id ∨ st.owner j = kTerminated := by
  cases hl : st.life with
  | live =>
    rw [hl] at h
    exact .inl (h j)
  | close i =>
    rw [hl] at h
    rcases lt_or_ge j i with hj | hj
    · exact .inr (h.1 j hj).owner
    · exact .inl (h.2 j hj)
  | mark i =>
    rw [hl] at h
    rcases lt_trichotomy j i with hj | hj | hj
    · exact .inr (h.1 j hj).owner
    · exact .inr (hj ▸ h.2.1)
    · exact .inl (h.2.2 j hj)
  | unhot i =>
    rw [hl] at h
    rcases lt_trichotomy j i with hj | hj | hj
    · exact .inr (h.1 j hj).owner
    · exact .inr (hj ▸ h.2.1)
    · exact .inl (h.2.2 j hj)
  | removeAll i f =>
    rw [hl] at h
    rcases lt_trichotomy j i with hj | hj | hj
    · exact .inr (h.1 j hj).owner
    · exact .inr (hj ▸ h.2.1)
    · exact .inl (h.2.2.1 j hj)
  | terminate =>
    rw [hl] at h
    exact .inr (h j).owner
  | dead =>
    rw [hl] at h
    exact .inr (h.2 j).owner
  | init id =>
    rw [hl] at h
    exact .inr (h.2 j).owner
  | opening i id =>
    rw [hl] at h
    rcases lt_or_ge j i with hj | hj
    · exact .inl ((h.2.1 j hj).trans h.1.symm)
    · exact .inr (h.2.2 j hj).owner

/-- What another thread may do: it leaves the words of the core as they are, the swept
classes swept, and the contents of a deque whose lock the core holds. -/
theorem Phase.mono (h : Phase s st l code st.life) (hlife : st'.life = st.life)
    (hid : st'.id = st.id) (howner : st'.owner = st.owner) (hhot : st'.hotSpan = st.hotSpan)
    (hswept : ∀ j, Swept st l code j → Swept st' l' code' j)
    (hheld : ∀ j cs, st.life.pending s j = some cs → l' j = l j) :
    Phase s st' l' code' st'.life := by
  rw [hlife]
  cases hl : st.life with
  | live =>
    rw [hl] at h
    simpa only [Phase, howner, hid] using h
  | close i =>
    rw [hl] at h
    refine ⟨fun j hj => hswept j (h.1 j hj),?_⟩
    simpa only [howner, hid] using h.2
  | mark i =>
    rw [hl] at h
    refine ⟨fun j hj => hswept j (h.1 j hj),?_⟩
    simpa only [howner, hid] using h.2
  | unhot i =>
    rw [hl] at h
    refine ⟨fun j hj => hswept j (h.1 j hj),?_⟩
    simpa only [howner, hid] using h.2
  | removeAll i f =>
    rw [hl] at h hheld
    obtain ⟨h1,h2,h3,h4,h5,h6⟩ := h
    refine ⟨fun j hj => hswept j (h1 j hj),howner ▸ h2,by simpa only [howner, hid] using h3,
      hhot ▸ h4,?_,?_⟩
    · intro hf
      rw [hheld i [] (by rw [Life.pending, only_self, hf]; rfl)]
      exact h5 hf
    · intro cs hf
      rw [hheld i _ (by rw [Life.pending, only_self, hf]; rfl)]
      exact h6 cs hf
  | terminate =>
    rw [hl] at h
    exact fun j => hswept j (h j)
  | dead =>
    rw [hl] at h
    exact ⟨hid.trans h.1,fun j => hswept j (h.2 j)⟩
  | init id =>
    rw [hl] at h
    exact ⟨hid.trans h.1,fun j => hswept j (h.2 j)⟩
  | opening i id =>
    rw [hl] at h
    exact ⟨hid.trans h.1,by simpa only [howner] using h.2.1,fun j hj => hswept j (h.2.2 j hj)⟩

theorem agents_thread (p : Pc) (K : Class → Bool) (L : Links ℕ) :
    agents s { st with locked := K, links := L, pc := update st.pc t p } =
      update (agents s st) (some t) p.pending := by
  funext a
  cases a with
  | none =>
    rw [update_of_ne (by simp)]
    rfl
  | some u =>
    by_cases hu : u = t
    · subst hu
      simp [agents]
    · rw [update_of_ne (by simpa using hu)]
      simp only [agents, update_of_ne hu]

theorem agents_core (hpc : st'.pc = st.pc) :
    agents s st' = update (agents s st) none (st'.life.pending s) := by
  funext a
  cases a with
  | none => simp [agents]
  | some u =>
    rw [update_of_ne (by simp)]
    simp only [agents, hpc]

theorem agents_removeAll (x : Life) (K : Class → Bool) (L : Links ℕ) :
    agents s { st with locked := K, links := L, life := x } =
      update (agents s st) none (x.pending s) := agents_core rfl

theorem agents_inside (hpc : st.pc t = .inside c g) :
    agents s st (some t) = only c.cls (some g.code) := by
  rw [agents, hpc]
  rfl

/-- What a call that holds the lock knows. -/
theorem Inv.code_eq (h : Inv s F st l code foot) (hpc : st.pc t = .inside c g) :
    code c.cls = g.code := by
  refine h.locks.code c.cls (some t) g.code ?_
  rw [agents_inside hpc, only_self]

/-- The core does not hold the lock of a class that another thread is in. -/
theorem Inv.core_free (h : Inv s F st l code foot) (hpc : st.pc t = .inside c g) :
    st.life.pending s c.cls = none := by
  cases hp : st.life.pending s c.cls with
  | none => rfl
  | some cs =>
    have ht : agents s st (some t) c.cls = some g.code := by rw [agents_inside hpc, only_self]
    cases h.locks.mutex c.cls none (some t) _ _ hp ht

/-- While the core holds the lock of a class no other thread is in it. -/
theorem Inv.others_free (h : Inv s F st l code foot) {i : Class} {cs : List (Stmt ℕ)}
    (hp : st.life.pending s i = some cs) (hpc : st.pc t = .inside c g) : c.cls ≠ i := by
  intro he
  have hn := h.core_free hpc
  rw [he, hp] at hn
  cases hn

end Scalloc.Shutdown
