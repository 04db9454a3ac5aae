import Scalloc.Heap.ShutdownRing

/-! # The deques of a core side by side

Which call holds which lock, what it has left to assign, and that the rings of the
different classes do not meet.
-/
namespace Scalloc.Shutdown
open Function LinkCode LinkedRing

/-- The assignments left at a stage of a call that holds the lock. -/
def Stage.code : Stage → List (Stmt ℕ)
  | .links code => code
  | _ => []

/-- The assignments left to `RemoveFront`, if it holds the lock. -/
def Front.code (s : ℕ) : Front → Option (List (Stmt ℕ))
  | .lock => none
  | .read => some []
  | .links node code => some (code ++ if node = s then [] else clearCode node)
  | .clear code => some code
  | .last => some []

/-- The assignments left in this class, if there are any, and none in any other. -/
def only (i : Class) (x : Option (List (Stmt ℕ))) : Class → Option (List (Stmt ℕ)) :=
  fun j => if j = i then x else none

def Pc.pending : Pc → Class → Option (List (Stmt ℕ))
  | .inside c g => only c.cls (some g.code)
  | _ => fun _ => none

def Life.pending (s : Sentinels) : Life → Class → Option (List (Stmt ℕ))
  | .removeAll i f => only i (f.code (s.addr i))
  | _ => fun _ => none

/-- What every thread has left in every class. The thread of the core is `none`. -/
def agents (s : Sentinels) (st : State) : Option ℕ → Class → Option (List (Stmt ℕ))
  | none => st.life.pending s
  | some t => (st.pc t).pending

/-- A lock has at most one holder, and `code` is what the holder has left. -/
structure Locks (locked : Class → Bool) (P : Option ℕ → Class → Option (List (Stmt ℕ)))
    (code : Class → List (Stmt ℕ)) : Prop where
  free : ∀ i, locked i = false → code i = [] ∧ ∀ a, P a i = none
  held : ∀ i, locked i = true → ∃ a c, P a i = some c
  mutex : ∀ i a b ca cb, P a i = some ca → P b i = some cb → a = b
  code : ∀ i a c, P a i = some c → code i = c

variable {locked : Class → Bool} {P : Option ℕ → Class → Option (List (Stmt ℕ))}
  {code : Class → List (Stmt ℕ)} {a : Option ℕ} {i : Class} {c : List (Stmt ℕ)}

theorem only_self (i : Class) (x : Option (List (Stmt ℕ))) : only i x i = x := if_pos rfl

theorem only_ne {i j : Class} (h : j ≠ i) (x : Option (List (Stmt ℕ))) : only i x j = none := if_neg h

theorem only_none (i : Class) : only i none = fun _ => none := by
  funext j
  by_cases h : j = i <;> simp [only, h]

theorem only_some {i j : Class} {x : Option (List (Stmt ℕ))} (h : only i x j = some c) :
    j = i ∧ x = some c := by
  by_cases hj : j = i
  · exact ⟨hj,by rwa [hj, only_self] at h⟩
  · rw [only_ne hj] at h
    cases h

/-- The holder does something. -/
theorem Locks.move (h : Locks locked P code) (ha : P a = only i (some c))
    (c' : List (Stmt ℕ)) : Locks locked (update P a (only i (some c'))) (update code i c') := by
  have hP : ∀ b j cb, update P a (only i (some c')) b j = some cb → ∃ cb', P b j = some cb' := by
    intro b j cb hb
    by_cases hba : b = a
    · rw [hba, update_self] at hb
      obtain ⟨rfl,_⟩ := only_some hb
      exact ⟨c,by rw [hba, ha, only_self]⟩
    · rw [update_of_ne hba] at hb
      exact ⟨cb,hb⟩
  refine ⟨?_,?_,?_,?_⟩
  · intro j hj
    obtain ⟨h1,h2⟩ := h.free j hj
    have hji : j ≠ i := by
      intro he
      have hn := h2 a
      rw [ha, he, only_self] at hn
      cases hn
    refine ⟨by rw [update_of_ne hji, h1],fun b => ?_⟩
    cases hb : update P a (only i (some c')) b j with
    | none => rfl
    | some cb =>
      obtain ⟨cb',hb'⟩ := hP b j cb hb
      rw [h2 b] at hb'
      cases hb'
  · intro j hj
    obtain ⟨b,cb,hb⟩ := h.held j hj
    by_cases hba : b = a
    · subst hba
      rw [ha] at hb
      obtain ⟨rfl,_⟩ := only_some hb
      exact ⟨b,c',by rw [update_self, only_self]⟩
    · exact ⟨b,cb,by rw [update_of_ne hba, hb]⟩
  · intro j b d cb cd hb hd
    obtain ⟨_,hb'⟩ := hP b j cb hb
    obtain ⟨_,hd'⟩ := hP d j cd hd
    exact h.mutex j b d _ _ hb' hd'
  · intro j b cb hb
    by_cases hba : b = a
    · rw [hba, update_self] at hb
      obtain ⟨rfl,hc⟩ := only_some hb
      rw [update_self]
      exact Option.some.inj hc
    · rw [update_of_ne hba] at hb
      have hji : j ≠ i := by
        intro he
        have hac : P a j = some c := by rw [ha, he, only_self]
        exact hba (h.mutex j b a _ _ hb hac)
      rw [update_of_ne hji]
      exact h.code j b cb hb

/-- A free lock is taken. -/
theorem Locks.acquire (h : Locks locked P code) (ha : P a = fun _ => none)
    (hi : locked i = false) :
    Locks (update locked i true) (update P a (only i (some []))) code := by
  obtain ⟨hcode,hnone⟩ := h.free i hi
  have hP : ∀ b j cb, update P a (only i (some [])) b j = some cb →
      (b = a ∧ j = i ∧ cb = []) ∨ (j ≠ i ∧ P b j = some cb) := by
    intro b j cb hb
    by_cases hba : b = a
    · rw [hba, update_self] at hb
      obtain ⟨hj,hc⟩ := only_some hb
      exact .inl ⟨hba,hj,(Option.some.inj hc).symm⟩
    · rw [update_of_ne hba] at hb
      refine .inr ⟨?_,hb⟩
      intro he
      rw [he, hnone b] at hb
      cases hb
  refine ⟨?_,?_,?_,?_⟩
  · intro j hj
    have hji : j ≠ i := by
      intro he
      rw [he, update_self] at hj
      cases hj
    rw [update_of_ne hji] at hj
    refine ⟨(h.free j hj).1,fun b => ?_⟩
    by_cases hba : b = a
    · rw [hba, update_self, only_ne hji]
    · rw [update_of_ne hba]
      exact (h.free j hj).2 b
  · intro j hj
    by_cases hji : j = i
    · exact ⟨a,[],by rw [update_self, hji, only_self]⟩
    · rw [update_of_ne hji] at hj
      obtain ⟨b,cb,hb⟩ := h.held j hj
      have hba : b ≠ a := by
        intro he
        rw [he, ha] at hb
        cases hb
      exact ⟨b,cb,by rw [update_of_ne hba, hb]⟩
  · intro j b d cb cd hb hd
    rcases hP b j cb hb with ⟨h1,h2,_⟩ | ⟨h1,h2⟩
    · rcases hP d j cd hd with ⟨h3,_,_⟩ | ⟨h3,_⟩
      · exact h1.trans h3.symm
      · exact absurd h2 h3
    · rcases hP d j cd hd with ⟨_,h3,_⟩ | ⟨_,h3⟩
      · exact absurd h3 h1
      · exact h.mutex j b d _ _ h2 h3
  · intro j b cb hb
    rcases hP b j cb hb with ⟨_,h2,h3⟩ | ⟨_,h2⟩
    · rw [h2, h3, hcode]
    · exact h.code j b cb h2

/-- A holder with nothing left gives the lock back. -/
theorem Locks.release (h : Locks locked P code) (ha : P a = only i (some [])) :
    Locks (update locked i false) (update P a fun _ => none) code := by
  have hai : P a i = some [] := by rw [ha, only_self]
  have hP : ∀ b j cb, update P a (fun _ => none) b j = some cb → b ≠ a ∧ P b j = some cb := by
    intro b j cb hb
    have hba : b ≠ a := by
      intro he
      rw [he, update_self] at hb
      cases hb
    rw [update_of_ne hba] at hb
    exact ⟨hba,hb⟩
  refine ⟨?_,?_,?_,?_⟩
  · intro j hj
    by_cases hji : j = i
    · refine ⟨hji ▸ h.code i a [] hai,fun b => ?_⟩
      cases hb : update P a (fun _ => none) b j with
      | none => rfl
      | some cb =>
        obtain ⟨hba,hb'⟩ := hP b j cb hb
        exact absurd (h.mutex j b a _ _ hb' (hji ▸ hai)) hba
    · rw [update_of_ne hji] at hj
      refine ⟨(h.free j hj).1,fun b => ?_⟩
      cases hb : update P a (fun _ => none) b j with
      | none => rfl
      | some cb =>
        have hb' := (hP b j cb hb).2
        rw [(h.free j hj).2 b] at hb'
        cases hb'
  · intro j hj
    have hji : j ≠ i := by
      intro he
      rw [he, update_self] at hj
      cases hj
    rw [update_of_ne hji] at hj
    obtain ⟨b,cb,hb⟩ := h.held j hj
    have hba : b ≠ a := by
      intro he
      rw [he, ha] at hb
      exact hji (only_some hb).1
    exact ⟨b,cb,by rw [update_of_ne hba, hb]⟩
  · intro j b d cb cd hb hd
    exact h.mutex j b d _ _ (hP b j cb hb).2 (hP d j cd hd).2
  · intro j b cb hb
    exact h.code j b cb (hP b j cb hb).2

/-- The rings of all classes. Apart from nodes that are linked elsewhere, a node outside
of them is unlinked. -/
structure Rings (s : Sentinels) (F : Set ℕ) (L : Links ℕ) (l : Class → List ℕ)
    (code : Class → List (Stmt ℕ)) (foot : Class → Set ℕ) : Prop where
  settles : ∀ i, Settles (s.addr i) L (l i) (code i) (foot i)
  apart : ∀ i j x, x ∈ foot i → x ∈ foot j → i = j
  loose : ∀ x, (∀ i, x ∉ foot i) → x ∈ F ∨ Unlinked 0 L x
  foreign : ∀ x ∈ F, (∀ i, x ∉ foot i) ∧ ¬ Unlinked 0 L x

variable {s : Sentinels} {F : Set ℕ} {L L' : Links ℕ} {l : Class → List ℕ} {foot : Class → Set ℕ}

/-- One ring changes. New nodes come unlinked and old ones leave unlinked. -/
theorem Rings.replace (h : Rings s F L l code foot) {l' : List ℕ} {M' : Set ℕ}
    (hs : Settles (s.addr i) L' l' c M')
    (hnew : ∀ x ∈ M', x ∉ foot i → Unlinked 0 L x)
    (hout : ∀ x, x ∉ foot i → x ∉ M' → L'.next x = L.next x ∧ L'.prev x = L.prev x)
    (hold : ∀ x ∈ foot i, x ∉ M' → Unlinked 0 L' x) :
    Rings s F L' (update l i l') (update code i c) (update foot i M') := by
  have hother : ∀ j x, j ≠ i → x ∈ foot j → x ∉ foot i ∧ x ∉ M' := by
    intro j x hj hx
    have hxi : x ∉ foot i := fun hx' => hj (h.apart j i x hx hx')
    exact ⟨hxi,fun hx' => (h.settles j).not_unlinked hx (hnew x hx' hxi)⟩
  refine ⟨?_,?_,?_,?_⟩
  · intro j
    by_cases hj : j = i
    · subst hj
      simpa only [update_self] using hs
    · simp only [update_of_ne hj]
      refine (h.settles j).frame fun x hx => ?_
      obtain ⟨h1,h2⟩ := hother j x hj hx
      exact hout x h1 h2
  · intro j k x hxj hxk
    by_cases hj : j = i
    · by_cases hk : k = i
      · exact hj.trans hk.symm
      · rw [hj, update_self] at hxj
        rw [update_of_ne hk] at hxk
        exact absurd hxj (hother k x hk hxk).2
    · rw [update_of_ne hj] at hxj
      by_cases hk : k = i
      · rw [hk, update_self] at hxk
        exact absurd hxk (hother j x hj hxj).2
      · rw [update_of_ne hk] at hxk
        exact h.apart j k x hxj hxk
  · intro x hx
    have hxM : x ∉ M' := by simpa only [update_self] using hx i
    by_cases hxi : x ∈ foot i
    · exact .inr (hold x hxi hxM)
    · obtain ⟨h1,h2⟩ := hout x hxi hxM
      rw [Unlinked, h1, h2]
      refine h.loose x fun j => ?_
      by_cases hj : j = i
      · exact hj ▸ hxi
      · simpa only [update_of_ne hj] using hx j
  · intro x hx
    obtain ⟨h1,h2⟩ := h.foreign x hx
    have hxM : x ∉ M' := fun hx' => h2 (hnew x hx' (h1 i))
    obtain ⟨h3,h4⟩ := hout x (h1 i) hxM
    refine ⟨?_,by rwa [Unlinked, h3, h4]⟩
    intro j
    by_cases hj : j = i
    · rw [hj, update_self]
      exact hxM
    · rw [update_of_ne hj]
      exact h1 j

/-- The holder runs its next assignment. -/
theorem Rings.exec (h : Rings s F L l code foot) {x : Stmt ℕ} (hc : code i = x :: c) :
    ∃ L' foot', L.exec 0 x = some L' ∧ Rings s F L' l (update code i c) foot' := by
  obtain ⟨L',M',he,hout,hs,hsub,hold⟩ := (hc ▸ h.settles i).exec
  refine ⟨L',update foot i M',he,?_⟩
  have hr := h.replace hs (fun y hy hn => absurd (hsub hy) hn) (fun y hy _ => hout y hy) hold
  rwa [update_eq_self] at hr

/-- The first assignment of an accepted `PushFront`. -/
theorem Rings.pushFront (h : Rings s F L l code foot) {node : ℕ} (hc : code i = []) (hn : node ≠ 0)
    (hu : Unlinked 0 L node) :
    ∃ foot', Rings s F (L.setPrev node (s.addr i)) (update l i (node :: l i))
      (update code i (pushFrontCode (s.addr i) node)) foot' := by
  have hm : node ∉ foot i := fun hm => (h.settles i).not_unlinked hm hu
  have hs := (hc ▸ h.settles i).pushFront hn hm hu
  refine ⟨_,h.replace hs ?_ ?_ ?_⟩
  · rintro x (rfl | hx) hxf
    · exact hu
    · exact absurd hx hxf
  · intro x hx hx'
    have hxn : x ≠ node := fun he => hx' (.inl he)
    simp [Links.setPrev, hxn]
  · exact fun x hx hx' => absurd (.inr hx) hx'

/-- An accepted `Remove`, before its first assignment. -/
theorem Rings.remove (h : Rings s F L l code foot) {node : ℕ} (hc : code i = [])
    (hx : node ∈ l i) :
    L.next node ≠ 0 ∧ L.prev node ≠ 0 ∧
      Rings s F L (update l i ((l i).erase node)) (update code i (removeCode node)) foot := by
  obtain ⟨h1,h2,hs⟩ := (hc ▸ h.settles i).remove hx
  refine ⟨h1,h2,?_⟩
  have hr := h.replace hs (fun y hy hn => absurd hy hn) (fun _ _ _ => ⟨rfl,rfl⟩)
    (fun y hy hn => absurd hy hn)
  rwa [update_eq_self] at hr

/-- `RemoveFront` that has read the first node. -/
theorem Rings.removeFront (h : Rings s F L l code foot) (hc : code i = []) :
    Rings s F L (update l i (l i).tail) (update code i (removeFrontCode (s.addr i)
      (L.next (s.addr i)) ++ if L.next (s.addr i) = s.addr i then [] else
        clearCode (L.next (s.addr i)))) foot ∧ (L.next (s.addr i) = s.addr i ↔ l i = []) := by
  obtain ⟨hs,hiff⟩ := (hc ▸ h.settles i).removeFront
  refine ⟨?_,hiff⟩
  have hr := h.replace hs (fun y hy hn => absurd hy hn) (fun _ _ _ => ⟨rfl,rfl⟩)
    (fun y hy hn => absurd hy hn)
  rwa [update_eq_self i foot] at hr

end Scalloc.Shutdown
