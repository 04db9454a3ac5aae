import Scalloc.Heap.RingDeque
import Scalloc.Heap.System

/-! # The ring refines the list

Every call on the ring of a constructed deque, on nodes that are in this deque or in
none, returns what the list says and leaves the ring of the list that it leaves.
-/
namespace Scalloc
open Function Transition LinkedRing

namespace RingDeque
variable {cfg : Config} {d : RingDeque} {a : Deque} {node fuel : ℕ} {owner : CoreId}

/-- A pushed node is unlinked; a removed one is unlinked or in this deque. -/
def Valid (d : RingDeque) : DequeOp → Prop
  | .pushFront _ node => node ≠ 0 ∧ d.Unlinked node
  | .pushBack _ node => node ≠ 0 ∧ d.Unlinked node
  | .remove _ node => node ≠ 0 ∧ (d.Unlinked node ∨ d.Contains node)
  | _ => True

/-- The ring holds the nodes of the list in their order, and no other node is linked. -/
structure Represents (d : RingDeque) (a : Deque) : Prop where
  owner : d.owner = a.owner
  ring : IsRing d.next d.prev d.sentinel a.nodes
  nonnull : 0 ∉ a.nodes
  loose : ∀ x, x ∉ d.sentinel :: a.nodes → d.Unlinked x

namespace Represents

theorem ne_zero (hr : d.Represents a) {x : ℕ} (hx : x ∈ d.sentinel :: a.nodes) : x ≠ 0 := by
  rcases List.mem_cons.mp hx with rfl | hx
  · exact d.sentinel_ne
  · exact fun h => hr.nonnull (h ▸ hx)

theorem next_ne_zero (hr : d.Represents a) {x : ℕ} (hx : x ∈ d.sentinel :: a.nodes) :
    d.next x ≠ 0 := hr.ne_zero (hr.ring.links hx).1

theorem prev_ne_zero (hr : d.Represents a) {x : ℕ} (hx : x ∈ d.sentinel :: a.nodes) :
    d.prev x ≠ 0 := hr.ne_zero (hr.ring.links hx).2.1

theorem notMem (hr : d.Represents a) (hu : d.Unlinked node) : node ∉ d.sentinel :: a.nodes :=
  fun hm => hr.next_ne_zero hm hu.1

theorem contains_iff (hr : d.Represents a) : d.Contains node ↔ node ∈ a.nodes :=
  ⟨fun ⟨_,hl,hm⟩ => hr.ring.unique hl ▸ hm,fun hm => ⟨a.nodes,hr.ring,hm⟩⟩


end Represents

/-- The call returns what the list says and leaves the ring of the list it leaves. -/
def Refines (r : Result (ℕ × RingDeque)) (b : ℕ × Deque) : Prop :=
  ∃ d', r = .ok (b.1,d') ∧ d'.Represents b.2

theorem refines_of_ok {r : Result RingDeque} {d' : RingDeque} {b : Deque} (h : r = .ok d')
    (hr : d'.Represents b) : Refines ((0,·) <$> r) (0,b) := ⟨d',by rw [h]; rfl,hr⟩

/-- A ring that holds one node more and links only nodes of the deque. -/
theorem Represents.link (hr : d.Represents a) (hn : node ≠ 0) {n p : ℕ → ℕ} {l : List ℕ}
    (hring : IsRing n p d.sentinel l) (hl : ∀ y, y ∈ l ↔ y = node ∨ y ∈ a.nodes)
    (hsame : ∀ y, y ≠ node → y ∉ d.sentinel :: a.nodes → n y = d.next y ∧ p y = d.prev y) :
    Represents { d with next := n, prev := p } { a with nodes := l } where
  owner := hr.owner
  ring := hring
  nonnull := by
    rw [hl]
    exact fun h => h.elim (fun h => hn h.symm) hr.nonnull
  loose := by
    intro y hy
    simp only [List.mem_cons, hl, not_or] at hy
    obtain ⟨h1,h2,h3⟩ := hy
    have hy : y ∉ d.sentinel :: a.nodes := by simp [h1, h3]
    obtain ⟨h4,h5⟩ := hsame y h2 hy
    exact ⟨h4.trans (hr.loose y hy).1,h5.trans (hr.loose y hy).2⟩

theorem Represents.pushFront (hr : d.Represents a) (hn : node ≠ 0) (hu : d.Unlinked node) :
    Refines (d.apply cfg fuel (.pushFront owner node)) (a.apply (.pushFront owner node)) := by
  by_cases ho : owner = d.owner
  · subst ho
    have hx := hr.notMem hu
    have hs : node ≠ d.sentinel := fun h => hx (h ▸ List.mem_cons_self ..)
    have hf : d.next d.sentinel ∈ d.sentinel :: a.nodes := hr.ring.sentinel_links.1
    rw [Deque.apply, if_pos hr.owner]
    refine refines_of_ok (pushFront_eq hn hs (hr.ne_zero hf)) ?_
    refine hr.link hn (hr.ring.insert hx) (by simp) ?_
    intro y hyn hy
    have h1 : y ≠ d.sentinel := fun h => hy (h ▸ List.mem_cons_self ..)
    have h2 : y ≠ d.next d.sentinel := fun h => hy (h ▸ hf)
    simp [h1, h2, hyn]
  · have ho' : owner ≠ a.owner := fun h => ho (h.trans hr.owner.symm)
    rw [Deque.apply, if_neg ho']
    refine refines_of_ok ?_ hr
    simp [RingDeque.pushFront, scallocAssert, hn, ho]

theorem Represents.pushBack (hr : d.Represents a) (hn : node ≠ 0) (hu : d.Unlinked node) :
    Refines (d.apply cfg fuel (.pushBack owner node)) (a.apply (.pushBack owner node)) := by
  by_cases ho : owner = d.owner
  · subst ho
    have hx := hr.notMem hu
    have hs : node ≠ d.sentinel := fun h => hx (h ▸ List.mem_cons_self ..)
    have hf : d.prev d.sentinel ∈ d.sentinel :: a.nodes := hr.ring.sentinel_links.2.1
    rw [Deque.apply, if_pos hr.owner]
    refine refines_of_ok (pushBack_eq hn hs (hr.ne_zero hf)) ?_
    refine hr.link hn ?_ (by simp [or_comm]) ?_
    · simpa using (hr.ring.reverse.insert (by simpa using hx)).reverse
    · intro y hyn hy
      have h1 : y ≠ d.sentinel := fun h => hy (h ▸ List.mem_cons_self ..)
      have h2 : y ≠ d.prev d.sentinel := fun h => hy (h ▸ hf)
      simp [h1, h2, hyn]
  · have ho' : owner ≠ a.owner := fun h => ho (h.trans hr.owner.symm)
    rw [Deque.apply, if_neg ho']
    refine refines_of_ok ?_ hr
    simp [RingDeque.pushBack, scallocAssert, hn, ho]

/-- Joining the neighbours of a node of the deque and clearing its links. -/
theorem Represents.unlink (hr : d.Represents a) (hx : node ∈ a.nodes) :
    Represents (clear { d with
      next := update d.next (d.prev node) (d.next node)
      prev := update d.prev (d.next node) (d.prev node) } node)
      { a with nodes := a.nodes.erase node } := by
  have hnd := (List.nodup_cons.mp hr.ring.nodup).2
  have hring := hr.ring.erase hx
  have hmem : ∀ y, y ∈ d.sentinel :: a.nodes.erase node → y ≠ node := by
    intro y hy
    rcases List.mem_cons.mp hy with rfl | hy
    · exact fun h => hr.ring.notMem (h ▸ hx)
    · exact (hnd.mem_erase_iff.mp hy).1
  refine ⟨hr.owner,?_,fun h => hr.nonnull (List.mem_of_mem_erase h),?_⟩
  · refine hring.congr ?_ ?_
    · intro y hy
      exact update_of_ne (hmem y hy) _ _
    · intro y hy
      exact update_of_ne (hmem y hy) _ _
  · intro y hy
    by_cases hyn : y = node
    · simp [Unlinked, clear, hyn]
    · have hy' : y ∉ d.sentinel :: a.nodes := by
        simp only [clear, List.mem_cons, hnd.mem_erase_iff, not_or] at hy ⊢
        exact ⟨hy.1,fun h => hy.2 ⟨hyn,h⟩⟩
      have hl := hr.ring.links (List.mem_cons_of_mem _ hx)
      have h1 : y ≠ d.next node := fun h => hy' (h ▸ hl.1)
      have h2 : y ≠ d.prev node := fun h => hy' (h ▸ hl.2.1)
      simpa [Unlinked, clear, hyn, h1, h2] using hr.loose y hy'

theorem Represents.remove (hr : d.Represents a) (hn : node ≠ 0)
    (hu : d.Unlinked node ∨ d.Contains node) :
    Refines (d.apply cfg fuel (.remove owner node)) (a.apply (.remove owner node)) := by
  rw [Deque.apply]
  rcases hu with hu | hc
  · have hx : node ∉ a.nodes := fun h => hr.notMem hu (List.mem_cons_of_mem _ h)
    rw [if_neg fun h => hx h.1]
    refine refines_of_ok ?_ hr
    simp [RingDeque.remove, nextOf_ok, prevOf_ok, hn, ok_bind, hu.1, hu.2]
    rfl
  · have hx := hr.contains_iff.mp hc
    have hm : node ∈ d.sentinel :: a.nodes := List.mem_cons_of_mem _ hx
    have h1 := hr.next_ne_zero hm
    have h2 := hr.prev_ne_zero hm
    by_cases ho : owner = d.owner
    · subst ho
      have hne : d.next node ≠ node := hr.ring.next_ne hx
      rw [if_pos ⟨hx,hr.owner⟩]
      exact refines_of_ok (remove_eq hn h1 h2 hne) (hr.unlink hx)
    · have ho' : owner ≠ a.owner := fun h => ho (h.trans hr.owner.symm)
      rw [if_neg fun h => ho' h.2]
      refine refines_of_ok ?_ hr
      simp [RingDeque.remove, nextOf_ok, prevOf_ok, hn, ok_bind, ho]

theorem Represents.removeFront (hr : d.Represents a) :
    Refines (d.apply cfg fuel .removeFront) (a.apply .removeFront) := by
  obtain ⟨o,l⟩ := a
  cases l with
  | nil =>
    obtain ⟨h1,h2⟩ := IsRing.nil_iff.mp hr.ring
    exact ⟨d,removeFront_nil h1 h2,hr⟩
  | cons x l =>
    have hx : x ∈ x :: l := List.mem_cons_self ..
    have hxs : x ≠ d.sentinel := fun h => hr.ring.notMem (h ▸ hx)
    have heq := @removeFront_eq cfg d (by rwa [hr.ring.next_eq])
      (hr.next_ne_zero (List.mem_cons_self ..))
      (by rw [hr.ring.next_eq]; exact hr.next_ne_zero (List.mem_cons_of_mem _ hx))
    have hu := hr.unlink hx
    rw [hr.ring.next_eq] at heq
    rw [hr.ring.prev_eq, List.erase_cons_head] at hu
    exact ⟨_,heq,hu⟩

theorem Represents.removeBack (hr : d.Represents a) :
    Refines (d.apply cfg fuel .removeBack) (a.apply .removeBack) := by
  obtain ⟨o,l⟩ := a
  rcases List.eq_nil_or_concat l with rfl | ⟨l,x,rfl⟩
  · obtain ⟨h1,h2⟩ := IsRing.nil_iff.mp hr.ring
    exact ⟨d,removeBack_nil h1 h2,hr⟩
  · rw [List.concat_eq_append] at hr ⊢
    have hring : IsRing d.prev d.next d.sentinel (x :: l.reverse) := by simpa using hr.ring.reverse
    have hx : x ∈ l ++ [x] := by simp
    have hxl : x ∉ l := by simpa using (List.nodup_cons.mp (List.nodup_cons.mp hring.nodup).2).1
    have hxs : x ≠ d.sentinel := fun h => hr.ring.notMem (h ▸ hx)
    have heq := @removeBack_eq cfg d (by rwa [hring.next_eq])
      (hr.prev_ne_zero (List.mem_cons_self ..))
      (by rw [hring.next_eq]; exact hr.prev_ne_zero (List.mem_cons_of_mem _ hx))
    have hu := hr.unlink hx
    rw [hring.next_eq] at heq
    rw [hring.prev_eq, List.erase_append_right _ hxl] at hu
    have happly : Deque.apply ⟨o,l ++ [x]⟩ .removeBack = (x,⟨o,l⟩) := by simp [Deque.apply]
    rw [happly]
    exact ⟨_,heq,by simpa using hu⟩

/-- Each iteration takes the first node, so one iteration more than there are nodes is
enough. -/
theorem Represents.removeAll (hr : d.Represents a) (hf : a.nodes.length < fuel) :
    Refines (d.apply cfg fuel .removeAll) (a.apply .removeAll) := by
  obtain ⟨o,l⟩ := a
  induction l generalizing d fuel with
  | nil =>
    obtain ⟨fuel,rfl⟩ := Nat.exists_eq_succ_of_ne_zero (Nat.ne_zero_of_lt hf)
    obtain ⟨d',hd,hr'⟩ := @Represents.removeFront cfg d _ fuel hr
    refine refines_of_ok ?_ hr'
    rw [RingDeque.removeAll, show d.removeFront cfg = .ok (0,d') from hd]
    rfl
  | cons x l ih =>
    obtain ⟨fuel,rfl⟩ := Nat.exists_eq_succ_of_ne_zero (Nat.ne_zero_of_lt hf)
    obtain ⟨d',hd,hr'⟩ := @Represents.removeFront cfg d _ fuel hr
    have hx : x ≠ 0 := fun h => hr.nonnull (h ▸ List.mem_cons_self ..)
    have hall := ih hr' (Nat.lt_of_succ_lt_succ hf)
    rw [RingDeque.apply, RingDeque.removeAll, show d.removeFront cfg = .ok (x,d') from hd, ok_bind]
    simp only [if_neg hx]
    exact hall

/-- Every valid call on a ring that represents a list does what it does on the list.
Only `RemoveAll` needs iterations, one more than there are nodes. -/
theorem Represents.apply (hr : d.Represents a) {op : DequeOp} (hv : d.Valid op)
    (hf : a.nodes.length < fuel) : Refines (d.apply cfg fuel op) (a.apply op) := by
  cases op with
  | openOwner owner => exact ⟨_,rfl,rfl,hr.ring,hr.nonnull,hr.loose⟩
  | close => exact ⟨_,rfl,rfl,hr.ring,hr.nonnull,hr.loose⟩
  | pushFront owner node => exact hr.pushFront hv.1 hv.2
  | pushBack owner node => exact hr.pushBack hv.1 hv.2
  | remove owner node => exact hr.remove hv.1 hv.2
  | removeFront => exact hr.removeFront
  | removeBack => exact hr.removeBack
  | removeAll => exact hr.removeAll hf

/-- The number of iterations matters to `RemoveAll` only up to the first null. -/
theorem removeAll_mono {d' : RingDeque} {fuel' : ℕ} (h : d.removeAll cfg fuel = .ok d')
    (hle : fuel ≤ fuel') : d.removeAll cfg fuel' = .ok d' := by
  induction fuel generalizing d fuel' with
  | zero => cases h
  | succ fuel ih =>
    obtain ⟨fuel',rfl⟩ := Nat.exists_eq_succ_of_ne_zero (Nat.ne_zero_of_lt hle)
    rw [removeAll] at h ⊢
    obtain ⟨⟨x,d₁⟩,h1,h2⟩ := Heap.bind_ok h
    rw [h1, ok_bind]
    by_cases hx : x = 0
    · simpa [hx] using h2
    · simp only [if_neg hx] at h2 ⊢
      exact ih h2 (Nat.le_of_succ_le_succ hle)

theorem apply_mono {fuel' : ℕ} {op : DequeOp} {r : ℕ × RingDeque}
    (h : d.apply cfg fuel op = .ok r) (hle : fuel ≤ fuel') : d.apply cfg fuel' op = .ok r := by
  cases op with
  | removeAll =>
    cases ha : d.removeAll cfg fuel with
    | error e =>
      simp only [RingDeque.apply, ha] at h
      cases h
    | ok d' =>
      simp only [RingDeque.apply, ha, removeAll_mono ha hle] at h ⊢
      exact h
  | _ => exact h

/-- A call, with a bound on the iterations of `RemoveAll`, on the ring and on the list. -/
def step (cfg : Config) (p : RingDeque × Deque) (e : DequeOp × ℕ) : Option (RingDeque × Deque) :=
  (p.1.apply cfg e.2 e.1).toOption.map fun r => (r.2,(p.2.apply e.1).2)

/-- A constructed deque is an empty ring. -/
theorem represents_new (owner : CoreId) (s : ℕ) (hs : s ≠ 0) :
    (new owner s hs).Represents ⟨owner,[]⟩ where
  owner := rfl
  ring := IsRing.nil_iff.mpr ⟨by simp [new],by simp [new]⟩
  nonnull := List.not_mem_nil
  loose := by
    intro x hx
    have hxs : x ≠ s := by simpa [new] using hx
    simp [Unlinked, new, hxs]

theorem Represents.step {p q : RingDeque × Deque} {e : DequeOp × ℕ} (hr : p.1.Represents p.2)
    (hv : p.1.Valid e.1) (he : step cfg p e = some q) : q.1.Represents q.2 := by
  obtain ⟨⟨x,d'⟩,hx,hq⟩ := Option.map_eq_some_iff.mp he
  obtain rfl := hq
  have hmore := apply_mono (Heap.toOption_ok hx) (Nat.le_max_left e.2 (p.2.nodes.length + 1))
  obtain ⟨d₁,h1,hr'⟩ := @Represents.apply cfg _ _ _ hr _ hv
    (lt_of_lt_of_le (Nat.lt_succ_self _) (Nat.le_max_right e.2 (p.2.nodes.length + 1)))
  rw [hmore] at h1
  cases h1
  exact hr'

/-- Along every sequence of valid calls on a constructed deque the ring is circular and
holds the abstract list, and every valid call returns, as the list says. -/
theorem represents_of_runs {s : ℕ} {hs : s ≠ 0} {p : RingDeque × Deque}
    (h : Runs (step cfg) (fun p e => p.1.Valid e.1) (new owner s hs,⟨owner,[]⟩) p) :
    p.1.Represents p.2 ∧
    (∀ x ∈ p.1.sentinel :: p.2.nodes, p.1.prev (p.1.next x) = x ∧ p.1.next (p.1.prev x) = x) ∧
    ∀ op, p.1.Valid op → ∀ fuel, p.2.nodes.length < fuel →
      Refines (p.1.apply cfg fuel op) (p.2.apply op) := by
  have hr : p.1.Represents p.2 :=
    h.invariant (P := fun p => p.1.Represents p.2) (represents_new owner s hs)
      fun _ _ _ hr hv he => hr.step hv he
  refine ⟨hr,?_,?_⟩
  · intro x hx
    exact (hr.ring.links hx).2.2
  · intro op hv fuel hf
    exact hr.apply hv hf

/-- Two nodes pushed at the two ends of a deque, the second removed. -/
theorem represents_twoPushed :
    ∃ p, Runs (step sampleConfig) (fun p e => p.1.Valid e.1)
      (new kTerminated 8 (by decide),⟨kTerminated,[]⟩) p ∧ p.2.nodes = [16] ∧
      p.1.Represents p.2 ∧ Refines (p.1.apply sampleConfig 2 .removeFront) (16,⟨⟨8,1⟩,[]⟩) := by
  have h0 : Runs (step sampleConfig) (fun p e => p.1.Valid e.1)
    (new kTerminated 8 (by decide),⟨kTerminated,[]⟩) _ := .refl
  have h1 := h0.tail (e := (DequeOp.openOwner ⟨8,1⟩,0)) trivial rfl
  have h2 := h1.tail (e := (DequeOp.pushFront ⟨8,1⟩ 16,0)) ⟨by decide,rfl,rfl⟩ rfl
  have h3 := h2.tail (e := (DequeOp.pushBack ⟨8,1⟩ 24,0)) ⟨by decide,rfl,rfl⟩ rfl
  have h4 := h3.tail (e := (DequeOp.removeBack,0)) trivial rfl
  obtain ⟨hr,_,hop⟩ := represents_of_runs h4
  exact ⟨_,h4,rfl,hr,hop .removeFront trivial 2 (by decide)⟩

end RingDeque

namespace Heap
variable {cfg : Config} {h h' : Heap} {c sc node : ℕ} {owner : CoreId}

/-! The deques of the heap are the lists of these rings. -/

theorem deque_setLink (h : Heap) (x : ℕ) (l : Option (ℕ × ℕ)) :
    (h.setLink x l).deque c sc = h.deque c sc := rfl

theorem deque_setDeque_self (h : Heap) (d : Deque) : (h.setDeque c sc d).deque c sc = d := by
  simp [deque, setDeque, setCore]

theorem deque_pushFront (hok : h.pushFront cfg c sc owner node = .ok h') :
    h'.deque c sc = ((h.deque c sc).apply (.pushFront owner node)).2 := by
  obtain ⟨_,_,hok⟩ := bind_ok hok
  rw [Deque.apply]
  by_cases ho : owner = (h.deque c sc).owner
  · simp only [ho, ne_eq, not_true, if_false] at hok
    obtain ⟨_,_,hok⟩ := bind_ok hok
    cases hok
    rw [deque_setLink, deque_setDeque_self, if_pos ho]
  · simp only [ne_eq, ho, not_false_iff, if_true] at hok
    cases hok
    rw [if_neg ho]

theorem deque_removeBack (hok : h.removeBack cfg c sc = .ok (node,h')) :
    (node,h'.deque c sc) = (h.deque c sc).apply .removeBack := by
  obtain ⟨_,_,hok⟩ := bind_ok hok
  rw [Deque.apply]
  cases hl : (h.deque c sc).nodes.getLast? with
  | none =>
    simp only [hl] at hok
    cases hok
    have hnil := List.getLast?_eq_none_iff.mp hl
    cases hd : h.deque c sc with
    | mk o l => simp_all
  | some x =>
    simp only [hl] at hok
    cases hok
    rw [deque_setLink, deque_setDeque_self, List.getLastD_eq_getLast?, hl]
    rfl

theorem deque_removeFront (hok : h.removeFront cfg c sc = .ok (node,h')) :
    (node,h'.deque c sc) = (h.deque c sc).apply .removeFront := by
  obtain ⟨_,_,hok⟩ := bind_ok hok
  rw [Deque.apply]
  cases hl : (h.deque c sc).nodes with
  | nil =>
    simp only [hl] at hok
    cases hok
    cases hd : h.deque c sc with
    | mk o l => simp_all
  | cons x l =>
    simp only [hl] at hok
    cases hok
    rw [deque_setLink, deque_setDeque_self]
    rfl

/-- A span whose links point into this deque or nowhere. -/
theorem deque_remove (hok : h.remove cfg c sc owner node = .ok h')
    (hlink : (h.spans node).spanLink = if node ∈ (h.deque c sc).nodes then some (c,sc) else none) :
    h'.deque c sc = ((h.deque c sc).apply (.remove owner node)).2 := by
  rw [Deque.apply]
  unfold remove at hok
  by_cases hm : node ∈ (h.deque c sc).nodes
  · rw [if_pos hm] at hlink
    simp only [hlink] at hok
    by_cases ho : owner = (h.deque c sc).owner
    · simp only [ho, ne_eq, not_true, if_false] at hok
      obtain ⟨_,_,hok⟩ := bind_ok hok
      cases hok
      rw [deque_setLink, deque_setDeque_self, if_pos ⟨hm,ho⟩]
    · simp only [ne_eq, ho, not_false_iff, if_true] at hok
      cases hok
      rw [if_neg fun h => ho h.2]
  · rw [if_neg hm] at hlink
    simp only [hlink] at hok
    cases hok
    rw [if_neg fun h => hm h.1]

end Heap
end Scalloc
