import Scalloc.Span.Slots

/-! # The span operations conserve the slots

Each operation moves slots between the places, one link or one compare-exchange at a
time. `Allocate`, `Free`, `MoveRemoteToLocalObjects` and the constructor are sequences
of such moves.
-/
namespace Scalloc
open ByteMemory Linked

namespace Slots
variable {s : ℕ} {m : Memory} {x : Span} {live L R T : List ℕ} {j p : ℕ}

theorem perm_live {live' : List ℕ} (h : Slots m s x live L R j) (hp : live'.Perm live) :
    Slots m s x live' L R j :=
  { h with
    perm := .trans (.append_left _ (.append_left _ (.append_left _ hp))) h.perm }

/-- A link word is written into a slot that is on no list. -/
theorem store (h : Slots m s x live L R j) (hp : p ∈ live) (v : ℕ) :
    Slots (storePtr m p v) s x live L R j := by
  obtain ⟨hL,hR⟩ := h.not_listed hp
  refine h.congr fun q hq => ?_
  refine loadPtr_storePtr_of_ne h.objectClass (h.mem_live hp) (hq.elim h.mem_local h.mem_remote) ?_
  rintro rfl
  exact hq.elim hL hR

/-- `IncrementalFreeList::Push`. -/
theorem pushLocal (h : Slots m s x (p :: live) L R j) (hs : IsVirtualSpan s) :
    Slots (storePtr m p x.localFreeList.list) s { x with localFreeList :=
      { x.localFreeList with list := p, len := x.localFreeList.len + 1 } } live (p :: L) R j := by
  have hslot := h.mem_live (List.mem_cons_self ..)
  have hbound : x.localFreeList.list < kWord :=
    h.locals.head_lt kWord_pos fun q hq => slot_lt_word hs h.objectClass (h.mem_local hq)
  have h' := h.store (List.mem_cons_self ..) x.localFreeList.list
  refine { h' with
    locals := ⟨rfl,slot_ne_zero hslot,?_⟩
    len := ?_
    perm := ?_ }
  · rw [loadPtr_storePtr_self hbound]
    exact h'.locals
  · have hlen := h.len
    simp only [List.length_cons]
    push_cast
    omega
  · refine .trans ?_ h.perm
    have hp : (L ++ (R ++ untouched s x.sizeClass j) ++ p :: live).Perm
        (p :: (L ++ (R ++ untouched s x.sizeClass j) ++ live)) := List.perm_middle
    simpa [List.append_assoc] using hp.symm

/-- The tag has room for every object of a span. -/
theorem tag_succ (h : Slots m s x (p :: live) L R j) :
    (x.remoteFreeList.tag + 1).toNat = R.length + 1 := by
  have hl := h.length_eq
  have hle := classToObjects_le h.objectClass
  simp only [List.length_cons] at hl
  rw [BitVec.toNat_add, h.tag]
  exact Nat.mod_eq_of_lt (by simp; omega)

/-- The successful compare-exchange of `PushReturnTag`. -/
theorem swapRemote (h : Slots m s x (p :: live) L R j)
    (hlink : loadPtr m p = x.remoteFreeList.value) :
    Slots m s { x with remoteFreeList := ⟨p,x.remoteFreeList.tag + 1⟩ } live L (p :: R) j := by
  refine { h with
    remotes := ⟨rfl,slot_ne_zero (h.mem_live (List.mem_cons_self ..)),?_⟩
    tag := h.tag_succ
    perm := ?_ }
  · rw [hlink]
    exact h.remotes
  · refine .trans (.append_left L ?_) h.perm
    have hp : (R ++ untouched s x.sizeClass j ++ p :: live).Perm
        (p :: (R ++ untouched s x.sizeClass j ++ live)) := List.perm_middle
    simpa [List.append_assoc] using hp.symm

/-- The successful compare-exchange of `PopAll`. -/
theorem detach (h : Slots m s x live L R j) :
    Slots m s { x with remoteFreeList := Stack.empty } (R ++ live) L [] j :=
  { h with
    remotes := rfl
    tag := rfl
    perm := by
      refine .trans (.append_left L ?_) h.perm
      rw [List.nil_append, ← List.append_assoc, ← List.append_assoc]
      exact List.perm_append_comm.append_right live }

/-- `SetList` on a span without local objects. -/
theorem setList (h : Slots m s x (T ++ live) L R j) {objects : ℕ}
    (hT : Chain 0 (loadPtr m) objects T) (h0 : x.nrLocalObjects = 0) :
    Slots m s { x with localFreeList := x.localFreeList.setList objects T.length } live T R j := by
  have hlen : x.localFreeList.len = 0 := h0
  rw [h.len] at hlen
  obtain rfl : L = [] := List.length_eq_zero_iff.mp (by omega)
  refine { h with
    locals := hT
    len := ?_
    perm := ?_ }
  · simp only [IncrementalFreeList.setList]
    omega
  · refine .trans ?_ h.perm
    have hu : untouched s x.sizeClass j = [] := by
      refine List.length_eq_zero_iff.mp ?_
      rw [untouched_length]
      omega
    simp only [hu, List.nil_append]
    rw [← List.append_assoc, ← List.append_assoc]
    exact List.perm_append_comm.append_right live

/-- An empty remote stack is the word `(NULL, 0)`. -/
theorem remote_eq_empty (h : Slots m s x live L [] j) : x.remoteFreeList = Stack.empty := by
  have hv : x.remoteFreeList.value = 0 := h.remotes
  have ht : x.remoteFreeList.tag = 0 := BitVec.eq_of_toNat_eq h.tag
  cases hx : x.remoteFreeList
  simp_all [Stack.empty]

/-- The loop that moves a chain of detached objects to the local list. -/
theorem moveLoop (hs : IsVirtualSpan s) (T : List ℕ) :
    ∀ {l : IncrementalFreeList} {m : Memory} {objects fuel : ℕ} {L : List ℕ} (count : ℕ),
      Slots m s { x with localFreeList := l } (T ++ live) L R j →
      Chain 0 (loadPtr m) objects T → T.length ≤ fuel →
      ∃ l' m', Span.moveLoop l m objects count fuel = some (l',m',count + T.length) ∧
        Slots m' s { x with localFreeList := l' } live (T.reverse ++ L) R j ∧
        SameOutside m m' (headerEnd s) (s + kVirtualSpanSize) := by
  induction T with
  | nil =>
    intro l m objects fuel L count h hT _
    obtain rfl : objects = 0 := hT
    refine ⟨l,m,?_,h,SameOutside.refl _ _ _⟩
    cases fuel <;> simp [Span.moveLoop]
  | cons a T ih =>
    intro l m objects fuel L count h hT hfuel
    obtain ⟨rfl,ha,hT⟩ := hT
    obtain ⟨fuel,rfl⟩ : ∃ f, fuel = f + 1 := ⟨fuel - 1,by simp at hfuel; omega⟩
    have hslot := h.mem_live (List.mem_cons_self ..)
    have hn := h.nodup
    simp only [List.nodup_append, List.mem_append, List.cons_append, List.nodup_cons] at hn
    have hT' : Chain 0 (loadPtr (storePtr m objects l.list)) (loadPtr m objects) T := by
      refine hT.congr fun q hq => loadPtr_storePtr_of_ne h.objectClass hslot ?_ ?_
      · exact h.mem_live (by simp [hq])
      · rintro rfl
        exact hn.2.1.2.1.2.1.1 (.inl hq)
    obtain ⟨l',m',hloop,hsl,hm'⟩ := ih (count + 1) (h.pushLocal hs) hT'
      (Nat.le_of_succ_le_succ hfuel)
    refine ⟨l',m',?_,by simpa using hsl,(storePtr_sameOutside h.objectClass hslot).trans hm'⟩
    simp only [Span.moveLoop, ha, if_false, IncrementalFreeList.push, List.length_cons]
    rw [hloop]
    congr 3
    omega

/-- `Span::Allocate` hands out the head of the local list, else the next untouched
slot; it fails only when the span has no local object. -/
theorem allocate (h : Slots m s x live L R j) :
    (∃ L' j', (x.allocate m).1 ∈ slots s x.sizeClass ∧ (x.allocate m).1 ∉ live ∧
      Slots m s (x.allocate m).2 ((x.allocate m).1 :: live) L' R j') ∨
    ((x.allocate m) = (0,x) ∧ x.nrLocalObjects = 0) := by
  have hn := h.nodup
  simp only [List.nodup_append, List.mem_append] at hn
  cases L with
  | cons a L =>
    obtain ⟨hl,ha,hr⟩ := h.locals
    have hpop : x.allocate m = (a,{ x with localFreeList :=
        { x.localFreeList with list := loadPtr m a, len := x.localFreeList.len - 1 } }) := by
      simp [Span.allocate, IncrementalFreeList.pop, hl, ha]
    rw [hpop]
    refine .inl ⟨L,j,h.mem_local (by simp),by grind,{ h with
      locals := hr
      len := ?_
      perm := ?_ }⟩
    · have hlen := h.len
      simp only [List.length_cons] at hlen
      push_cast at hlen
      simp only
      omega
    · refine .trans ?_ h.perm
      have hp : (L ++ (R ++ untouched s x.sizeClass j) ++ a :: live).Perm
          (a :: (L ++ (R ++ untouched s x.sizeClass j) ++ live)) := List.perm_middle
      simpa [List.append_assoc] using hp
  | nil =>
    have hl : x.localFreeList.list = 0 := h.locals
    by_cases hj : j < classToObjects x.sizeClass
    · have hlen := h.len
      have hpop : x.allocate m = (blockStart s x.sizeClass j,{ x with localFreeList :=
          { x.localFreeList with
            bumpPointer := x.localFreeList.bumpPointer + x.localFreeList.increment
            len := x.localFreeList.len - 1 } }) := by
        have hne : x.localFreeList.len ≠ 0 := by
          rw [hlen, List.length_nil]
          omega
        simp [Span.allocate, IncrementalFreeList.pop, hl, hne, h.bumpPointer]
      have hu := untouched_cons (s := s) hj
      rw [hpop]
      refine .inl ⟨[],j + 1,h.mem_untouched (by simp [hu]),?_,{ h with
        bumpPointer := ?_
        bump_le := hj
        len := ?_
        perm := ?_ }⟩
      · rw [hu] at hn
        grind
      · simp only
        rw [h.bumpPointer, h.increment, blockStart, blockStart, Nat.add_mul, one_mul, Nat.add_assoc]
      · simp only [List.length_nil] at hlen ⊢
        omega
      · refine .trans ?_ h.perm
        have hp : (R ++ untouched s x.sizeClass (j + 1) ++ blockStart s x.sizeClass j :: live).Perm
            (blockStart s x.sizeClass j :: (R ++ untouched s x.sizeClass (j + 1) ++ live)) :=
          List.perm_middle
        rw [hu]
        simp only [List.nil_append, List.cons_append]
        refine .trans ?_ (List.perm_middle.symm)
        simpa [List.append_assoc] using hp
    · have hlen : x.localFreeList.len = 0 := by
        rw [h.len, List.length_nil]
        omega
      refine .inr ⟨?_,hlen⟩
      simp [Span.allocate, IncrementalFreeList.pop, hl, hlen]

/-- `Span::Free` of a slot of the program puts it on the local list or the remote
stack and returns the number of free objects. -/
theorem free (h : Slots m s x live L R j) (hs : IsVirtualSpan s) (caller : CoreId)
    (hp : p ∈ live) :
    (∃ L' R', Slots (x.free m p caller).2.1 s (x.free m p caller).1 (live.erase p) L' R' j) ∧
      SameOutside m (x.free m p caller).2.1 (headerEnd s) (s + kVirtualSpanSize) ∧
      (x.free m p caller).2.2 = (x.free m p caller).1.nrFreeObjects := by
  have hslot := h.mem_live hp
  have h' := h.perm_live (List.perm_cons_erase hp).symm
  by_cases hc : x.owner = caller
  · have hfree : x.free m p caller = ({ x with localFreeList :=
        { x.localFreeList with list := p, len := x.localFreeList.len + 1 } },
        storePtr m p x.localFreeList.list,
        x.localFreeList.len + 1 + x.nrRemoteObjects) := by
      simp [Span.free, hc, IncrementalFreeList.push, Span.nrRemoteObjects]
    rw [hfree]
    exact ⟨⟨p :: L,R,h'.pushLocal hs⟩,storePtr_sameOutside h.objectClass hslot,rfl⟩
  · have hfree : x.free m p caller = ({ x with
        remoteFreeList := ⟨p,x.remoteFreeList.tag + 1⟩ },
        storePtr m p x.remoteFreeList.value,
        ((x.remoteFreeList.tag.toNat + 1 : ℕ) : ℤ) + x.nrLocalObjects) := by
      simp [Span.free, hc, Stack.pushReturnTag, Span.nrLocalObjects]
    have hbound : x.remoteFreeList.value < kWord :=
      h.remotes.head_lt kWord_pos fun q hq => slot_lt_word hs h.objectClass (h.mem_remote hq)
    have hslots := (h'.store (List.mem_cons_self ..) x.remoteFreeList.value).swapRemote
      (loadPtr_storePtr_self hbound)
    rw [hfree]
    refine ⟨⟨L,p :: R,hslots⟩,storePtr_sameOutside h.objectClass hslot,?_⟩
    rw [Span.nrFreeObjects, hslots.nrRemoteObjects_eq, h.tag]
    simp only [Span.nrLocalObjects, List.length_cons]
    omega

/-- `MoveRemoteToLocalObjects` ends, moves every remote slot to the local list and
finds as many as the tag says. -/
theorem moveRemoteToLocalObjects (h : Slots m s x live L R j) (hs : IsVirtualSpan s) :
    ∃ l m' L', x.moveRemoteToLocalObjects m =
        some ({ x with localFreeList := l, remoteFreeList := Stack.empty },m',true) ∧
      Slots m' s { x with localFreeList := l, remoteFreeList := Stack.empty } live L' [] j ∧
      SameOutside m m' (headerEnd s) (s + kVirtualSpanSize) := by
  by_cases hR : R = []
  · subst hR
    have hempty := h.remote_eq_empty
    refine ⟨x.localFreeList,m,L,?_,?_,SameOutside.refl _ _ _⟩
    · simp only [Span.moveRemoteToLocalObjects, h.nrRemoteObjects_eq]
      rw [← hempty]
      simp
    · rw [← hempty]
      exact h
  · have hne : x.remoteFreeList.value ≠ 0 := fun he => hR (h.remotes.nil_iff.mpr he)
    have hpop : Stack.popAll x.remoteFreeList =
        (x.remoteFreeList.value,R.length,Stack.empty) := by
      simp only [Stack.popAll, hne, if_false, h.tag]
    have hnr : x.nrRemoteObjects ≠ 0 := by
      rw [h.nrRemoteObjects_eq]
      have := List.length_pos_iff.mpr hR
      omega
    have hd := h.detach
    by_cases hl : x.localFreeList.len = 0
    · refine ⟨x.localFreeList.setList x.remoteFreeList.value R.length,m,R,?_,
        hd.setList h.remotes hl,SameOutside.refl _ _ _⟩
      simp [Span.moveRemoteToLocalObjects, hnr, hpop, Span.nrLocalObjects, hl]
    · have hfuel : R.length ≤ kVirtualSpanSize := by
        have hlen := h.length_eq
        have hle := classToObjects_le h.objectClass
        have hk : 2040 ≤ kVirtualSpanSize := by decide
        omega
      obtain ⟨l,m',hloop,hsl,hm'⟩ := moveLoop (x := { x with remoteFreeList := Stack.empty }) hs R
        (l := x.localFreeList) 0 hd h.remotes hfuel
      refine ⟨l,m',R.reverse ++ L,?_,hsl,hm'⟩
      simp only [Span.moveRemoteToLocalObjects, hnr, hpop, Span.nrLocalObjects, hl, ne_eq,
        not_false_eq_true, if_true, if_false]
      rw [hloop]
      simp

/-- A constructed span has only untouched slots. -/
theorem construct (m : Memory) (old : Span) (s : ℕ) {sc : ℕ} (owner : CoreId)
    (hsc : IsObjectClass sc) : Slots m s (old.construct s sc owner) [] [] [] 0 where
  objectClass := hsc
  locals := rfl
  remotes := rfl
  bumpPointer := by simp [Span.construct, IncrementalFreeList.new, blockStart]
  bump_le := Nat.zero_le _
  len := by simp [Span.construct, IncrementalFreeList.new]
  increment := rfl
  tag := rfl
  perm := by simp [untouched_zero]

end Slots
end Scalloc
