import Scalloc.Span.Places

/-! # The last free of a span is noticed

While nobody allocates from a span its two lists only grow. A free first adds to one list
and then reads the length of the other, so the thread whose push completed the span, or a
later reader, sees the whole sum. Whether a thread is the owner is a word that no free
writes: the test at the beginning of `Span::Free` is the choice between the events `free`
and `otherFree`.
-/
namespace Scalloc
open ByteMemory Linked Transition

/-- The owner is not in a free, or is about to read the remote length. -/
def OwnerPc.Counts (len : ℤ) : OwnerPc → Prop
  | idle => True
  | freeEmpty l => l = len
  | freeLength l => l = len
  | _ => False

namespace Shared
variable {s n : ℕ} {st st' : Shared} {L R F : List ℕ} {j p t : ℕ} {before new : List ℤ}

/-- Calls of `Span::Free` and their steps; the program may write to what it still holds. -/
def OnlyFrees (_ : Shared) : Event → Prop
  | .allocate => False
  | .move => False
  | _ => True

/-- What holds while the span is only freed to. When the span is complete and no call has
returned its number of objects yet, some thread is about to read the whole sum. -/
structure Watched (s n : ℕ) (before : List ℤ) (st : Shared) (L R F : List ℕ) (j : ℕ)
    (new : List ℤ) : Prop where
  held : Held s st L R F [] j
  objects : classToObjects st.span.sizeClass = n
  returned : st.returned = new ++ before
  le : ∀ r ∈ new, r ≤ n
  owner : st.owner.Counts st.span.nrLocalObjects
  tag : ∀ t tag, st.other t = .count tag → tag ≤ R.length
  noticed : F = [] → st.live = [] →
    (n : ℤ) ∈ new ∨ st.owner ≠ .idle ∨ ∃ t, st.other t = .count R.length

namespace Watched

/-- The lengths of the two lists and the objects that are not on them. -/
theorem sum_eq (h : Watched s n before st L R F j new) :
    st.span.nrLocalObjects + R.length + F.length + st.live.length = n := by
  have hlen := h.held.slots.len
  have hsum := h.held.slots.length_eq
  have hle := h.held.slots.bump_le
  rw [List.nil_append, List.length_append, h.objects] at hsum
  rw [h.objects] at hlen hle
  unfold Span.nrLocalObjects
  omega

theorem write (h : Watched s n before st L R F j new) {a : ℕ} (v : UInt8) (hp : p ∈ st.live)
    (h1 : p ≤ a) (h2 : a < p + classToSize st.span.sizeClass) :
    Watched s n before { st with mem := Function.update st.mem a v } L R F j new :=
  ⟨h.held.write v hp h1 h2,h.objects,h.returned,h.le,h.owner,h.tag,h.noticed⟩

/-- The owner pushes: it will read the remote length. -/
theorem free (h : Watched s n before st L R F j new) (hs : IsVirtualSpan s)
    (hidle : st.owner = .idle) (hp : p ∈ st.live) : Watched s n before { st with
      mem := (st.span.localFreeList.push st.mem p).2
      span := { st.span with localFreeList := (st.span.localFreeList.push st.mem p).1 }
      live := st.live.erase p
      owner := .freeEmpty (st.span.localFreeList.push st.mem p).1.len } (p :: L) R F j new where
  held := h.held.free hs hidle hp
  objects := h.objects
  returned := h.returned
  le := h.le
  owner := rfl
  tag := h.tag
  noticed := fun _ _ => .inr (.inl (by simp))

/-- The owner returns what it read. -/
theorem ownerReturn (h : Watched s n before st L R F j new) {len : ℤ}
    (hlen : len = st.span.nrLocalObjects) {r : ℤ} (hr : r = len + R.length) :
    Watched s n before { st with owner := .idle, returned := r :: st.returned } L R F j
      (r :: new) where
  held := h.held.setOwner .idle rfl _
  objects := h.objects
  returned := by
    rw [h.returned]
    rfl
  le := by
    intro x hx
    have hsum := h.sum_eq
    rcases List.mem_cons.mp hx with rfl | hx
    · omega
    · exact h.le x hx
  owner := trivial
  tag := h.tag
  noticed := by
    intro hF hlive
    have hsum := h.sum_eq
    dsimp only at hlive
    rw [hF, hlive, List.length_nil] at hsum
    have heq : r = n := by
      push_cast at hsum
      omega
    rw [heq]
    exact .inl List.mem_cons_self

theorem ownerStep (h : Watched s n before st L R F j new) (hstep : st.ownerStep = some st') :
    ∃ new', Watched s n before st' L R F j new' := by
  have ho := h.owner
  unfold Shared.ownerStep at hstep
  cases hpc : st.owner with
  | idle =>
    rw [hpc] at hstep
    cases hstep
  | freeEmpty len =>
    rw [hpc] at hstep ho
    dsimp only at hstep
    split at hstep
    · next hempty =>
      obtain rfl := Option.some.inj hstep
      have htag := h.held.slots.tag
      rw [hempty] at htag
      refine ⟨_,h.ownerReturn ho ?_⟩
      rw [← htag]
      simp [Stack.empty]
    · obtain rfl := Option.some.inj hstep
      exact ⟨new,h.held.setOwner (.freeLength len) rfl _,h.objects,h.returned,h.le,ho,h.tag,
        fun _ _ => .inr (.inl (by simp))⟩
  | freeLength len =>
    rw [hpc] at hstep ho
    obtain rfl := Option.some.inj hstep
    exact ⟨_,h.ownerReturn ho (by rw [Stack.length, h.held.slots.tag])⟩
  | _ =>
    rw [hpc] at ho
    exact ho.elim

/-- Another thread takes an object to free. -/
theorem otherFree (h : Watched s n before st L R F j new) (hidle : st.other t = .idle)
    (hp : p ∈ st.live) :
    Watched s n before { st.setOther t (.load p) with live := st.live.erase p } L R (p :: F) j
      new where
  held := h.held.otherFree hidle hp
  objects := h.objects
  returned := h.returned
  le := h.le
  owner := h.owner
  tag := by
    intro t' tag he
    by_cases ht : t' = t
    · simp [Shared.setOther, ht] at he
    · exact h.tag t' tag (by simpa [Shared.setOther, ht] using he)
  noticed := fun hF => by cases hF

/-- A step of a thread that still has its object in hand. -/
theorem setOther (h : Watched s n before st L R F j new) {pc : OtherPc}
    (hheld : Held s (st.setOther t pc) L R F [] j) (hobj : pc.object = some p) :
    Watched s n before (st.setOther t pc) L R F j new where
  held := hheld
  objects := h.objects
  returned := h.returned
  le := h.le
  owner := h.owner
  tag := by
    intro t' tag he
    by_cases ht : t' = t
    · simp only [Shared.setOther, ht, Function.update_self] at he
      rw [he] at hobj
      cases hobj
    · exact h.tag t' tag (by simpa [Shared.setOther, ht] using he)
  noticed := by
    intro hF
    have hp : p ∈ F := (hheld.freeing p).mpr ⟨t,by simpa [Shared.setOther] using hobj⟩
    rw [hF] at hp
    cases hp

/-- The exchange of thread `t` succeeds: it will read the local length. -/
theorem swap (h : Watched s n before st L R F j new) {old : TaggedValue}
    (hpc : st.other t = .swap p old) (htop : st.span.remoteFreeList = old) :
    Watched s n before { st.setOther t (.count (old.tag.toNat + 1)) with
      span := { st.span with remoteFreeList := ⟨p,old.tag + 1⟩ } } L (p :: R) (F.erase p) j new := by
  have hlen : old.tag.toNat + 1 = (p :: R).length := by
    rw [← htop, h.held.slots.tag, List.length_cons]
  refine ⟨h.held.swap hpc htop,h.objects,h.returned,h.le,h.owner,?_,fun _ _ => .inr (.inr ⟨t,?_⟩)⟩
  · intro t' tag he
    by_cases ht : t' = t
    · have hcount : OtherPc.count (old.tag.toNat + 1) = .count tag := by
        simpa [Shared.setOther, ht] using he
      obtain rfl := OtherPc.count.inj hcount
      exact hlen.le
    · have hle := h.tag t' tag (by simpa [Shared.setOther, ht] using he)
      exact hle.trans (Nat.le_succ _)
  · rw [← hlen]
    simp [Shared.setOther]

/-- Thread `t` returns what it read. -/
theorem otherReturn (h : Watched s n before st L R F j new) {tag : ℕ}
    (hpc : st.other t = .count tag) :
    Watched s n before { st.setOther t .idle with
      returned := (tag + st.span.nrLocalObjects) :: st.returned } L R F j
        ((tag + st.span.nrLocalObjects) :: new) := by
  have hsum := h.sum_eq
  have htag := h.tag t tag hpc
  refine ⟨h.held.setOther (by rw [hpc]; rfl) (by simp) (by simp) _,h.objects,?_,?_,h.owner,?_,?_⟩
  · rw [h.returned]
    rfl
  · intro r hr
    rcases List.mem_cons.mp hr with rfl | hr
    · omega
    · exact h.le r hr
  · intro t' tag' he
    by_cases ht : t' = t
    · simp [Shared.setOther, ht] at he
    · exact h.tag t' tag' (by simpa [Shared.setOther, ht] using he)
  · intro hF hlive
    rcases h.noticed hF hlive with hn | howner | ⟨t',ht'⟩
    · exact .inl (List.mem_cons_of_mem _ hn)
    · exact .inr (.inl howner)
    · by_cases ht : t' = t
      · subst ht
        obtain rfl := OtherPc.count.inj (hpc.symm.trans ht')
        dsimp only [Shared.setOther] at hlive
        rw [hF, hlive] at hsum
        have heq : (R.length : ℤ) + st.span.nrLocalObjects = n := by
          simp only [List.length_nil] at hsum
          omega
        rw [heq]
        exact .inl List.mem_cons_self
      · exact .inr (.inr ⟨t',by simpa [Shared.setOther, ht] using ht'⟩)

theorem otherStep (h : Watched s n before st L R F j new) (hs : IsVirtualSpan s)
    (hstep : st.otherStep t = some st') : ∃ R F new, Watched s n before st' L R F j new := by
  unfold Shared.otherStep at hstep
  split at hstep
  · cases hstep
  · next p hpc =>
    obtain rfl := Option.some.inj hstep
    have hbound : st.span.remoteFreeList.value < kWord := h.held.slots.remotes.head_lt kWord_pos
      fun q hq => slot_lt_word hs h.held.slots.objectClass (h.held.slots.mem_remote hq)
    refine ⟨R,F,new,h.setOther (h.held.setOther (by rw [hpc]; rfl) ?_ (by simp) _) rfl⟩
    rintro q old ⟨rfl,rfl⟩
    exact hbound
  · next p old hpc =>
    obtain rfl := Option.some.inj hstep
    obtain ⟨hw,hlink⟩ := h.held.writeLink hpc
    have hwatched : Watched s n before { st with mem := storePtr st.mem p old.value } L R F j new :=
      ⟨hw,h.objects,h.returned,h.le,h.owner,h.tag,h.noticed⟩
    refine ⟨R,F,new,hwatched.setOther (hw.setOther (by rw [hpc]; rfl) (by simp) ?_ _) rfl⟩
    rintro q old' ⟨rfl,rfl⟩
    exact hlink
  · next p old hpc =>
    split at hstep
    · next htop =>
      obtain rfl := Option.some.inj hstep
      exact ⟨_,_,new,h.swap hpc htop⟩
    · obtain rfl := Option.some.inj hstep
      exact ⟨R,F,new,h.setOther (h.held.setOther (by rw [hpc]; rfl) (by simp) (by simp) _) rfl⟩
  · next tag hpc =>
    obtain rfl := Option.some.inj hstep
    exact ⟨R,F,_,h.otherReturn hpc⟩

theorem step (h : Watched s n before st L R F j new) (hs : IsVirtualSpan s) {e : Event}
    (hok : OnlyFrees st e) (hstep : st.step e = some st') :
    ∃ L R F j new, Watched s n before st' L R F j new := by
  cases e with
  | allocate => exact hok.elim
  | move => exact hok.elim
  | free p =>
    simp only [Shared.step] at hstep
    split at hstep
    · next hpre =>
      obtain rfl := Option.some.inj hstep
      exact ⟨_,R,F,j,new,h.free hs hpre.1 hpre.2⟩
    · cases hstep
  | owner =>
    obtain ⟨new',h'⟩ := h.ownerStep hstep
    exact ⟨L,R,F,j,new',h'⟩
  | otherFree t p =>
    simp only [Shared.step] at hstep
    split at hstep
    · next hpre =>
      obtain rfl := Option.some.inj hstep
      exact ⟨L,R,_,j,new,h.otherFree hpre.1 hpre.2⟩
    · cases hstep
  | other t =>
    obtain ⟨R',F',new',h'⟩ := h.otherStep hs hstep
    exact ⟨L,R',F',j,new',h'⟩
  | write p a v =>
    simp only [Shared.step] at hstep
    split at hstep
    · next hpre =>
      obtain rfl := Option.some.inj hstep
      exact ⟨L,R,F,j,new,h.write v hpre.1 hpre.2.1 hpre.2.2⟩
    · cases hstep

end Watched

/-- The other thread whose step it is. -/
def Event.thread : Event → Option ℕ
  | .otherFree t _ => some t
  | .other t => some t
  | _ => none

end Shared

instance : ∀ st e, Decidable (Shared.OnlyFrees st e)
  | _, .allocate => .isFalse id
  | _, .move => .isFalse id
  | _, .free _ => .isTrue trivial
  | _, .owner => .isTrue trivial
  | _, .otherFree _ _ => .isTrue trivial
  | _, .other _ => .isTrue trivial
  | _, .write _ _ _ => .isTrue trivial

end Scalloc
