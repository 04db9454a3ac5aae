import Scalloc.Heap.View

/-! # Relabelling a span

Most steps of the allocator only change the labels of one span (its epoch, owner and
link) and its place; its slots stay where they are.
-/
namespace Scalloc
open ByteMemory Epoch

theorem SpanPool.spans_setStack (pool : SpanPool) (a b : ℕ) (l : List ℕ) :
    (pool.setStack a b l).spans = update₂ pool.spans a b l := by
  funext a' b'
  by_cases ha : a' = a
  · subst ha
    by_cases hb : b' = b <;> simp [setStack, update₂, hb]
  · simp [setStack, update₂, ha]

namespace Heap
variable {percent : ℕ} {cfg : Config} {h h' : Heap} {hot hot' : ℕ → ℕ → ℕ} {live : ℕ → List ℕ} {s : ℕ}

theorem bind_ok {α β : Type} {x : Result α} {f : α → Result β} {r : β} (h : (x >>= f) = .ok r) :
    ∃ a, x = .ok a ∧ f a = .ok r := by
  cases x with
  | error e => cases h
  | ok a => exact ⟨a,rfl,h⟩

theorem toOption_ok {α : Type} {x : Result α} {r : α} (h : x.toOption = some r) : x = .ok r := by
  cases x with
  | error e => cases h
  | ok a =>
    obtain rfl := Option.some.inj h
    rfl

/-- The call returns a value with this property, unless the arena has no memory left. In
particular no assertion fails. -/
def Returns {α : Type} (r : Result α) (P : α → Prop) : Prop :=
  r = .error .objectSpaceOOM ∨ ∃ a, r = .ok a ∧ P a

theorem Returns.bind {α β : Type} {x : Result α} {f : α → Result β} {P : α → Prop}
    {Q : β → Prop} (hx : Returns x P) (hf : ∀ a, P a → Returns (f a) Q) : Returns (x >>= f) Q := by
  rcases hx with hx | ⟨a,hx,ha⟩
  · rw [hx]
    exact .inl rfl
  · rw [hx]
    exact hf a ha

theorem Returns.of_ok {α : Type} {r : Result α} {P : α → Prop} {a : α} (h : Returns r P)
    (hr : r = .ok a) : P a := by
  rcases h with h | ⟨b,h,hb⟩
  · rw [h] at hr
    cases hr
  · obtain rfl := Except.ok.inj (h.symm.trans hr)
    exact hb

/-- `h'` differs from `h` in the epoch, the owner, the link and the place of `s` and, if
`s` went to the pool, in the memory behind its header. -/
structure Relabels (h h' : Heap) (s : ℕ) : Prop where
  spans : ∀ x, x ≠ s → h'.spans x = h.spans x
  sizeClass : (h'.spans s).sizeClass = (h.spans s).sizeClass
  locals : (h'.spans s).localFreeList = (h.spans s).localFreeList
  remotes : (h'.spans s).remoteFreeList = (h.spans s).remoteFreeList
  epoch : Valid (h'.spans s).epoch
  mem : SameOutside h.mem h'.mem (headerEnd s) (s + kVirtualSpanSize)
  unpooled : ¬ h'.pool.Holds s → h'.mem = h.mem
  pool : ∀ x, x ≠ s → (h'.pool.Holds x ↔ h.pool.Holds x)
  arena : h'.objectSpace = h.objectSpace
  threads : SameThreads h h'
  hot : h'.hot = h.hot

theorem Relabels.refl (h : Heap) (hv : Valid (h.spans s).epoch) : Relabels h h s where
  spans := fun _ _ => rfl
  sizeClass := rfl
  locals := rfl
  remotes := rfl
  epoch := hv
  mem := SameOutside.refl _ _ _
  unpooled := fun _ => rfl
  pool := fun _ _ => Iff.rfl
  arena := rfl
  threads := SameThreads.refl h
  hot := rfl

theorem Relabels.trans {g : Heap} (h1 : Relabels h g s) (h2 : Relabels g h' s)
    (hm : g.mem = h.mem) : Relabels h h' s where
  spans := fun x hx => (h2.spans x hx).trans (h1.spans x hx)
  sizeClass := h2.sizeClass.trans h1.sizeClass
  locals := h2.locals.trans h1.locals
  remotes := h2.remotes.trans h1.remotes
  epoch := h2.epoch
  mem := h1.mem.trans h2.mem
  unpooled := fun hp => (h2.unpooled hp).trans hm
  pool := fun x hx => (h2.pool x hx).trans (h1.pool x hx)
  arena := h2.arena.trans h1.arena
  threads := h1.threads.trans h2.threads
  hot := h2.hot.trans h1.hot

theorem relabels_setSpan {x : Span} (hsc : x.sizeClass = (h.spans s).sizeClass)
    (hl : x.localFreeList = (h.spans s).localFreeList)
    (hr : x.remoteFreeList = (h.spans s).remoteFreeList) (hv : Valid x.epoch) :
    Relabels h (h.setSpan s x) s where
  spans := fun y hy => by simp [setSpan, hy]
  sizeClass := by simpa [setSpan] using hsc
  locals := by simpa [setSpan] using hl
  remotes := by simpa [setSpan] using hr
  epoch := by simpa [setSpan] using hv
  mem := SameOutside.refl _ _ _
  unpooled := fun _ => rfl
  pool := fun _ _ => Iff.rfl
  arena := rfl
  threads := ⟨fun _ => rfl,rfl,rfl,rfl,⟨rfl,rfl⟩⟩
  hot := rfl

theorem relabels_setDeque (hv : Valid (h.spans s).epoch) (c sc : ℕ) (d : Deque) :
    Relabels h (h.setDeque c sc d) s where
  spans := fun _ _ => rfl
  sizeClass := rfl
  locals := rfl
  remotes := rfl
  epoch := hv
  mem := SameOutside.refl _ _ _
  unpooled := fun _ => rfl
  pool := fun _ _ => Iff.rfl
  arena := rfl
  threads := sameThreads_setDeque h c sc d
  hot := by
    funext c' sc'
    by_cases hc : c' = c <;> simp [Heap.hot, setDeque, setCore, hc]

/-- A span that gets new labels keeps its slots. -/
theorem Inv.relabel (hi : Inv percent h hot live) (hk : h.Known s) (hr : Relabels h h' s)
    (hb : (h'.board hot').Inv percent) (hm : h'.mem = h.mem) (hp : h'.pool = h.pool) :
    Inv percent h' hot' live := by
  refine hi.touch hb ?_ ?_ (fun x hx => ⟨hr.spans x hx,rfl⟩) hr.mem hr.pool hr.epoch ?_ ?_
  · rw [hr.arena]
    exact hi.arena
  · intro x
    rw [Known, hr.arena]
    exact ⟨.inr,fun hx => hx.elim (fun he => he ▸ hk) id⟩
  · rw [hp]
    exact hi.pooled s
  · rw [hp, hm]
    intro hnp
    obtain ⟨L,R,j,hsl⟩ := hi.slots s hk hnp
    exact ⟨L,R,j,hsl.relabel hr.sizeClass hr.locals hr.remotes⟩

end Heap
end Scalloc
