import Scalloc.Span.Shared

/-! # No slot is lost or duplicated under interleaved frees

Whatever the schedule, the tag of the remote stack is its length, so a compare-exchange
that succeeds against a reused top word still adds to, or detaches, the chain that is
there now.
-/
namespace Scalloc
open ByteMemory Linked Transition

/-- The slots `T` that the owner carries from the remote stack to its local list. -/
def OwnerPc.Carries (next : ℕ → ℕ) (T : List ℕ) : OwnerPc → Prop
  | moveTest objects len => Chain 0 next objects T ∧ len = T.length
  | moveLoop objects count len => Chain 0 next objects T ∧ count + T.length = len
  | _ => T = []

theorem OwnerPc.Carries.congr {next next' : ℕ → ℕ} {T : List ℕ} {pc : OwnerPc}
    (h : pc.Carries next T) (hn : ∀ q ∈ T, next' q = next q) : pc.Carries next' T := by
  cases pc with
  | moveTest objects len => exact ⟨h.1.congr hn,h.2⟩
  | moveLoop objects count len => exact ⟨h.1.congr hn,h.2⟩
  | _ => exact h

namespace Shared
variable {s : ℕ} {st st' : Shared} {L R F T : List ℕ} {j p t : ℕ}

/-- Where the slots are: besides the places of `Slots`, `F` are being freed by other threads
and `T` are in transit. -/
structure Held (s : ℕ) (st : Shared) (L R F T : List ℕ) (j : ℕ) : Prop where
  slots : Slots st.mem s st.span (T ++ (F ++ st.live)) L R j
  freeing : ∀ p, p ∈ F ↔ ∃ t, (st.other t).object = some p
  single : ∀ t t' p, (st.other t).object = some p → (st.other t').object = some p → t = t'
  bounded : ∀ t p old, st.other t = .link p old → old.value < kWord
  linked : ∀ t p old, st.other t = .swap p old → loadPtr st.mem p = old.value
  transit : st.owner.Carries (loadPtr st.mem) T

namespace Held

theorem mem_live (h : Held s st L R F T j) (hp : p ∈ st.live) : p ∉ F ∧ p ∉ T := by
  have hn := h.slots.nodup
  simp only [List.nodup_append, List.mem_append] at hn
  exact ⟨fun hF => hn.2.1.2.1.2.1.2.1.2.2 p hF p hp rfl,
    fun hT => hn.2.1.2.1.2.1.2.2 p hT p (.inr hp) rfl⟩

theorem disjoint (h : Held s st L R F T j) (hp : p ∈ F) : p ∉ T := by
  have hn := h.slots.nodup
  simp only [List.nodup_append, List.mem_append] at hn
  exact fun hT => hn.2.1.2.1.2.1.2.2 p hT p (.inl hp) rfl

theorem mem_slots (h : Held s st L R F T j) (hp : p ∈ T ∨ p ∈ F ∨ p ∈ st.live) :
    p ∈ Scalloc.slots s st.span.sizeClass :=
  h.slots.mem_live (by simpa [List.mem_append] using hp)

/-- The object of a thread in `swap` is being freed. -/
theorem mem_of_swap (h : Held s st L R F T j) {old : TaggedValue} (ht : st.other t = .swap p old) :
    p ∈ F :=
  (h.freeing p).mpr ⟨t,by rw [ht]; rfl⟩

/-- A write into slot `p` keeps the links of the threads that free other slots. -/
theorem linked_of_ne (h : Held s st L R F T j) {m : Memory}
    (hm : ∀ q ∈ F, q ≠ p → loadPtr m q = loadPtr st.mem q) {t q : ℕ} {old : TaggedValue}
    (ht : st.other t = .swap q old) (hne : q ≠ p) : loadPtr m q = old.value := by
  rw [hm q (h.mem_of_swap ht) hne]
  exact h.linked t q old ht

/-- A step of the owner that touches neither memory nor lists. -/
theorem setOwner (h : Held s st L R F T j) (pc : OwnerPc) (hpc : pc.Carries (loadPtr st.mem) T)
    (l : List ℤ) : Held s { st with owner := pc, returned := l } L R F T j :=
  ⟨h.slots,h.freeing,h.single,h.bounded,h.linked,hpc⟩

/-- A step of thread `t` that keeps its object. -/
theorem setOther (h : Held s st L R F T j) {pc : OtherPc}
    (hobj : pc.object = (st.other t).object)
    (hb : ∀ p old, pc = .link p old → old.value < kWord)
    (hl : ∀ p old, pc = .swap p old → loadPtr st.mem p = old.value) (l : List ℤ) :
    Held s { st.setOther t pc with returned := l } L R F T j := by
  have hobject : ∀ t', ((st.setOther t pc).other t').object = (st.other t').object := by
    intro t'
    by_cases ht : t' = t
    · subst ht
      simpa [Shared.setOther] using hobj
    · simp [Shared.setOther, ht]
  refine ⟨h.slots,?_,?_,?_,?_,h.transit⟩
  · intro p
    simp only [hobject]
    exact h.freeing p
  · intro t1 t2 p
    simp only [hobject]
    exact h.single t1 t2 p
  · intro t' p old he
    by_cases ht : t' = t
    · subst ht
      exact hb p old (by simpa [Shared.setOther] using he)
    · exact h.bounded t' p old (by simpa [Shared.setOther, ht] using he)
  · intro t' p old he
    by_cases ht : t' = t
    · subst ht
      exact hl p old (by simpa [Shared.setOther] using he)
    · exact h.linked t' p old (by simpa [Shared.setOther, ht] using he)

theorem allocate (h : Held s st L R F T j) (hidle : st.owner = .idle) :
    ∃ L' j', Held s { st with
      span := (st.span.allocate st.mem).2
      live := if (st.span.allocate st.mem).1 = 0 then st.live
        else (st.span.allocate st.mem).1 :: st.live } L' R F T j' := by
  have hT : T = [] := by
    have hc := h.transit
    rw [hidle] at hc
    exact hc
  subst hT
  rcases h.slots.allocate with ⟨L',j',hmem,_,hsl⟩ | ⟨heq,_⟩
  · rw [if_neg (slot_ne_zero hmem)]
    refine ⟨L',j',⟨hsl.perm_live ?_,h.freeing,h.single,h.bounded,h.linked,h.transit⟩⟩
    exact List.perm_middle
  · rw [heq]
    exact ⟨L,j,h⟩

/-- `Push` of a slot of the owner: one of the program, or one in transit. -/
theorem push (h : Held s st L R F T j) (hs : IsVirtualSpan s) {T' live' : List ℕ} {pc : OwnerPc}
    (hperm : (T ++ (F ++ st.live)).Perm (p :: (T' ++ (F ++ live')))) (hF : p ∉ F)
    (hpc : pc.Carries (loadPtr (storePtr st.mem p st.span.localFreeList.list)) T') :
    Held s { st with
      mem := (st.span.localFreeList.push st.mem p).2
      span := { st.span with localFreeList := (st.span.localFreeList.push st.mem p).1 }
      live := live'
      owner := pc } (p :: L) R F T' j := by
  have hsl := h.slots.perm_live hperm.symm
  have hp := hsl.mem_live (List.mem_cons_self ..)
  refine ⟨hsl.pushLocal hs,h.freeing,h.single,h.bounded,?_,hpc⟩
  intro t q old ht
  refine h.linked_of_ne (p := p) (fun q hq hne => ?_) ht ?_
  · exact loadPtr_storePtr_of_ne h.slots.objectClass hp (h.mem_slots (.inr (.inl hq))) hne
  · rintro rfl
    exact hF (h.mem_of_swap ht)

theorem free (h : Held s st L R F T j) (hs : IsVirtualSpan s) (hidle : st.owner = .idle)
    (hp : p ∈ st.live) : Held s { st with
      mem := (st.span.localFreeList.push st.mem p).2
      span := { st.span with localFreeList := (st.span.localFreeList.push st.mem p).1 }
      live := st.live.erase p
      owner := .freeEmpty (st.span.localFreeList.push st.mem p).1.len } (p :: L) R F T j := by
  have hT : T = [] := by
    have hc := h.transit
    rw [hidle] at hc
    exact hc
  subst hT
  refine h.push hs ?_ (h.mem_live hp).1 rfl
  exact ((List.perm_cons_erase hp).append_left F).trans List.perm_middle

/-- The next slot in transit is pushed onto the local list. -/
theorem moveOne (h : Held s st L R F T j) (hs : IsVirtualSpan s) {objects count len : ℕ}
    (hpc : st.owner = .moveLoop objects count len) (hne : objects ≠ 0) :
    ∃ T', Held s { st with
      mem := (st.span.localFreeList.push st.mem objects).2
      span := { st.span with localFreeList := (st.span.localFreeList.push st.mem objects).1 }
      owner := .moveLoop (loadPtr st.mem objects) (count + 1) len } (objects :: L) R F T' j := by
  have hc := h.transit
  rw [hpc] at hc
  obtain ⟨hchain,hlen⟩ := hc
  cases T with
  | nil => exact absurd hchain hne
  | cons a T =>
    obtain ⟨rfl,_,hrest⟩ := hchain
    have hn := h.slots.nodup
    simp only [List.nodup_append, List.mem_append, List.nodup_cons] at hn
    have hF : objects ∉ F := fun hF => h.disjoint hF (List.mem_cons_self ..)
    refine ⟨T,h.push hs (by rfl) hF ⟨hrest.congr fun q hq => ?_,?_⟩⟩
    · refine loadPtr_storePtr_of_ne h.slots.objectClass (h.mem_slots (.inl (List.mem_cons_self ..)))
        (h.mem_slots (.inl (List.mem_cons_of_mem _ hq))) ?_
      rintro rfl
      exact hn.2.1.2.1.2.1.1.1 hq
    · simp only [List.length_cons] at hlen
      omega

theorem ownerStep (h : Held s st L R F T j) (hs : IsVirtualSpan s)
    (hstep : st.ownerStep = some st') : ∃ L R T, Held s st' L R F T j := by
  have hc := h.transit
  unfold Shared.ownerStep at hstep
  split at hstep
  · cases hstep
  · next len hpc =>
    rw [hpc] at hc
    split at hstep
    · obtain rfl := Option.some.inj hstep
      exact ⟨L,R,T,h.setOwner .idle hc _⟩
    · obtain rfl := Option.some.inj hstep
      exact ⟨L,R,T,h.setOwner (.freeLength len) hc _⟩
  · next len hpc =>
    rw [hpc] at hc
    obtain rfl := Option.some.inj hstep
    exact ⟨L,R,T,h.setOwner .idle hc _⟩
  · next hpc =>
    rw [hpc] at hc
    split at hstep
    · obtain rfl := Option.some.inj hstep
      exact ⟨L,R,T,h.setOwner .idle hc _⟩
    · obtain rfl := Option.some.inj hstep
      exact ⟨L,R,T,h.setOwner .moveLength hc _⟩
  · next hpc =>
    rw [hpc] at hc
    split at hstep
    · obtain rfl := Option.some.inj hstep
      exact ⟨L,R,T,h.setOwner .idle hc _⟩
    · obtain rfl := Option.some.inj hstep
      exact ⟨L,R,T,h.setOwner .popLoad hc _⟩
  · next hpc =>
    rw [hpc] at hc
    dsimp only at hstep
    split at hstep
    · next hzero =>
      obtain rfl := Option.some.inj hstep
      have hR := h.slots.remotes.nil_iff.mpr hzero
      have hT : T = [] := hc
      have htag := h.slots.tag
      rw [hR] at htag
      refine ⟨L,R,T,h.setOwner (.moveTest _ _) ?_ _⟩
      rw [hT]
      exact ⟨hzero,htag⟩
    · obtain rfl := Option.some.inj hstep
      exact ⟨L,R,T,h.setOwner (.popSwap _) hc _⟩
  · next old hpc =>
    rw [hpc] at hc
    split at hstep
    · next htop =>
      obtain rfl := Option.some.inj hstep
      have hT : T = [] := hc
      subst hT
      refine ⟨L,[],R,h.slots.detach,h.freeing,h.single,h.bounded,h.linked,?_⟩
      rw [← htop]
      exact ⟨h.slots.remotes,h.slots.tag⟩
    · obtain rfl := Option.some.inj hstep
      exact ⟨L,R,T,h.setOwner .popLoad hc _⟩
  · next objects len hpc =>
    rw [hpc] at hc
    obtain ⟨hchain,rfl⟩ := hc
    split at hstep
    · next hzero =>
      obtain rfl := Option.some.inj hstep
      exact ⟨T,R,[],h.slots.setList hchain hzero,h.freeing,h.single,h.bounded,h.linked,rfl⟩
    · obtain rfl := Option.some.inj hstep
      exact ⟨L,R,T,h.setOwner (.moveLoop _ _ _) ⟨hchain,Nat.zero_add _⟩ _⟩
  · next objects count len hpc =>
    split at hstep
    · next hzero =>
      obtain rfl := Option.some.inj hstep
      rw [hpc] at hc
      have hT := hc.1.nil_iff.mpr hzero
      exact ⟨L,R,T,h.setOwner .idle hT _⟩
    · next hne =>
      obtain rfl := Option.some.inj hstep
      obtain ⟨T',hT'⟩ := h.moveOne hs hpc hne
      exact ⟨_,R,T',hT'⟩

theorem otherFree (h : Held s st L R F T j) (hidle : st.other t = .idle) (hp : p ∈ st.live) :
    Held s { st.setOther t (.load p) with live := st.live.erase p } L R (p :: F) T j := by
  have hF := (h.mem_live hp).1
  have hother : ∀ t', ((st.setOther t (.load p)).other t').object =
      if t' = t then some p else (st.other t').object := by
    intro t'
    by_cases ht : t' = t <;> simp [Shared.setOther, ht, OtherPc.object]
  have hnew : ∀ t', (st.other t').object ≠ some p := fun t' he => hF ((h.freeing p).mpr ⟨t',he⟩)
  refine ⟨h.slots.perm_live (.append_left T ?_),?_,?_,?_,?_,h.transit⟩
  · exact (List.perm_cons_erase hp).append_left F |>.trans List.perm_middle |>.symm
  · intro q
    rw [List.mem_cons, h.freeing]
    simp only [hother]
    constructor
    · rintro (rfl | ⟨t',ht'⟩)
      · exact ⟨t,if_pos rfl⟩
      · refine ⟨t',?_⟩
        rw [if_neg]
        · exact ht'
        · rintro rfl
          rw [hidle] at ht'
          cases ht'
    · rintro ⟨t',ht'⟩
      split at ht'
      · exact .inl (Option.some.inj ht').symm
      · exact .inr ⟨t',ht'⟩
  · intro t1 t2 q
    simp only [hother]
    intro h1 h2
    split at h1
    · next ht1 =>
      split at h2
      · next ht2 => exact ht1.trans ht2.symm
      · rw [← Option.some.inj h1] at h2
        exact absurd h2 (hnew t2)
    · split at h2
      · rw [← Option.some.inj h2] at h1
        exact absurd h1 (hnew t1)
      · exact h.single t1 t2 q h1 h2
  · intro t' q old he
    by_cases ht : t' = t
    · simp [Shared.setOther, ht] at he
    · exact h.bounded t' q old (by simpa [Shared.setOther, ht] using he)
  · intro t' q old he
    by_cases ht : t' = t
    · simp [Shared.setOther, ht] at he
    · exact h.linked t' q old (by simpa [Shared.setOther, ht] using he)

/-- Thread `t` writes the link of its object. -/
theorem writeLink (h : Held s st L R F T j) {old : TaggedValue} (hpc : st.other t = .link p old) :
    Held s { st with mem := storePtr st.mem p old.value } L R F T j ∧
      loadPtr (storePtr st.mem p old.value) p = old.value := by
  have hobj : (st.other t).object = some p := by rw [hpc]; rfl
  have hF : p ∈ F := (h.freeing p).mpr ⟨t,hobj⟩
  have hslot := h.mem_slots (.inr (.inl hF))
  refine ⟨⟨h.slots.store (by simp [hF]) _,h.freeing,h.single,h.bounded,?_,?_⟩,
    loadPtr_storePtr_self (h.bounded t p old hpc)⟩
  · intro t' q old' ht'
    refine h.linked_of_ne (p := p) (fun q hq hne => ?_) ht' ?_
    · exact loadPtr_storePtr_of_ne h.slots.objectClass hslot (h.mem_slots (.inr (.inl hq))) hne
    · rintro rfl
      have heq := h.single t t' q hobj (by rw [ht']; rfl)
      subst heq
      rw [hpc] at ht'
      cases ht'
  · refine h.transit.congr fun q hq => ?_
    refine loadPtr_storePtr_of_ne h.slots.objectClass hslot (h.mem_slots (.inl hq)) ?_
    rintro rfl
    exact h.disjoint hF hq

/-- The compare-exchange of thread `t` succeeds. -/
theorem swap (h : Held s st L R F T j) {old : TaggedValue} (hpc : st.other t = .swap p old)
    (htop : st.span.remoteFreeList = old) :
    Held s { st.setOther t (.count (old.tag.toNat + 1)) with
      span := { st.span with remoteFreeList := ⟨p,old.tag + 1⟩ } } L (p :: R) (F.erase p) T j := by
  have hobj : (st.other t).object = some p := by rw [hpc]; rfl
  have hF : p ∈ F := (h.freeing p).mpr ⟨t,hobj⟩
  have hn : F.Nodup := by
    have hn := h.slots.nodup
    simp only [List.nodup_append] at hn
    exact hn.2.1.2.1.2.1.2.1.1
  have hperm : (T ++ (F ++ st.live)).Perm (p :: (T ++ (F.erase p ++ st.live))) :=
    (((List.perm_cons_erase hF).append_right st.live).append_left T).trans List.perm_middle
  have hlink := h.linked t p old hpc
  subst htop
  have hother : ∀ t', ((st.setOther t (.count (st.span.remoteFreeList.tag.toNat + 1))).other
      t').object = if t' = t then none else (st.other t').object := by
    intro t'
    by_cases ht : t' = t <;> simp [Shared.setOther, ht, OtherPc.object]
  refine ⟨(h.slots.perm_live hperm.symm).swapRemote hlink,?_,?_,?_,?_,h.transit⟩
  · intro q
    rw [hn.mem_erase_iff, h.freeing]
    simp only [hother]
    constructor
    · rintro ⟨hne,t',ht'⟩
      refine ⟨t',?_⟩
      rw [if_neg]
      · exact ht'
      · rintro rfl
        exact hne (Option.some.inj (ht'.symm.trans hobj))
    · rintro ⟨t',ht'⟩
      split at ht'
      · cases ht'
      · next hne =>
        refine ⟨?_,t',ht'⟩
        rintro rfl
        exact hne (h.single t' t q ht' hobj)
  · intro t1 t2 q
    simp only [hother]
    intro h1 h2
    split at h1
    · cases h1
    · split at h2
      · cases h2
      · exact h.single t1 t2 q h1 h2
  · intro t' q old he
    by_cases ht : t' = t
    · simp [Shared.setOther, ht] at he
    · exact h.bounded t' q old (by simpa [Shared.setOther, ht] using he)
  · intro t' q old he
    by_cases ht : t' = t
    · simp [Shared.setOther, ht] at he
    · exact h.linked t' q old (by simpa [Shared.setOther, ht] using he)

theorem otherStep (h : Held s st L R F T j) (hs : IsVirtualSpan s)
    (hstep : st.otherStep t = some st') : ∃ R F, Held s st' L R F T j := by
  unfold Shared.otherStep at hstep
  split at hstep
  · cases hstep
  · next p hpc =>
    obtain rfl := Option.some.inj hstep
    have hbound : st.span.remoteFreeList.value < kWord := h.slots.remotes.head_lt kWord_pos
      fun q hq => slot_lt_word hs h.slots.objectClass (h.slots.mem_remote hq)
    refine ⟨R,F,h.setOther (by rw [hpc]; rfl) ?_ (by simp) st.returned⟩
    rintro q old ⟨rfl,rfl⟩
    exact hbound
  · next p old hpc =>
    obtain rfl := Option.some.inj hstep
    obtain ⟨hw,hlink⟩ := h.writeLink hpc
    refine ⟨R,F,hw.setOther (t := t) (by rw [hpc]; rfl) (by simp) ?_ st.returned⟩
    rintro q old' ⟨rfl,rfl⟩
    exact hlink
  · next p old hpc =>
    split at hstep
    · next htop =>
      obtain rfl := Option.some.inj hstep
      exact ⟨_,_,h.swap hpc htop⟩
    · obtain rfl := Option.some.inj hstep
      exact ⟨R,F,h.setOther (by rw [hpc]; rfl) (by simp) (by simp) st.returned⟩
  · next tag hpc =>
    obtain rfl := Option.some.inj hstep
    exact ⟨R,F,h.setOther (by rw [hpc]; rfl) (by simp) (by simp) _⟩

/-- The program writes to a slot it holds. -/
theorem write (h : Held s st L R F T j) {a : ℕ} (v : UInt8) (hp : p ∈ st.live) (h1 : p ≤ a)
    (h2 : a < p + classToSize st.span.sizeClass) :
    Held s { st with mem := Function.update st.mem a v } L R F T j := by
  obtain ⟨hF,hT⟩ := h.mem_live hp
  have hslot := h.mem_slots (.inr (.inr hp))
  refine ⟨h.slots.write v (by simp [hp]) h1 h2,h.freeing,h.single,h.bounded,?_,?_⟩
  · intro t q old ht
    refine h.linked_of_ne (p := p) (fun q hq hne => ?_) ht ?_
    · exact loadPtr_update_of_ne v h.slots.objectClass hslot (h.mem_slots (.inr (.inl hq))) hne h1 h2
    · rintro rfl
      exact hF (h.mem_of_swap ht)
  · refine h.transit.congr fun q hq => ?_
    refine loadPtr_update_of_ne v h.slots.objectClass hslot (h.mem_slots (.inl hq)) ?_ h1 h2
    rintro rfl
    exact hT hq

theorem step (h : Held s st L R F T j) (hs : IsVirtualSpan s) {e : Event}
    (hstep : st.step e = some st') : ∃ L R F T j, Held s st' L R F T j := by
  cases e with
  | allocate =>
    simp only [Shared.step] at hstep
    split at hstep
    · next hidle =>
      obtain rfl := Option.some.inj hstep
      obtain ⟨L',j',h'⟩ := h.allocate hidle
      exact ⟨L',R,F,T,j',h'⟩
    · cases hstep
  | free p =>
    simp only [Shared.step] at hstep
    split at hstep
    · next hpre =>
      obtain rfl := Option.some.inj hstep
      exact ⟨_,R,F,T,j,h.free hs hpre.1 hpre.2⟩
    · cases hstep
  | move =>
    simp only [Shared.step] at hstep
    split at hstep
    · next hidle =>
      obtain rfl := Option.some.inj hstep
      have hc := h.transit
      rw [hidle] at hc
      exact ⟨L,R,F,T,j,h.setOwner .moveEmpty hc _⟩
    · cases hstep
  | owner =>
    obtain ⟨L',R',T',h'⟩ := h.ownerStep hs hstep
    exact ⟨L',R',F,T',j,h'⟩
  | otherFree t p =>
    simp only [Shared.step] at hstep
    split at hstep
    · next hpre =>
      obtain rfl := Option.some.inj hstep
      exact ⟨L,R,_,T,j,h.otherFree hpre.1 hpre.2⟩
    · cases hstep
  | other t =>
    obtain ⟨R',F',h'⟩ := h.otherStep hs hstep
    exact ⟨L,R',F',T,j,h'⟩
  | write p a v =>
    simp only [Shared.step] at hstep
    split at hstep
    · next hpre =>
      obtain rfl := Option.some.inj hstep
      exact ⟨L,R,F,T,j,h.write v hpre.1 hpre.2.1 hpre.2.2⟩
    · cases hstep

end Held

theorem held_init {sc : ℕ} (hsc : IsObjectClass sc) (m : Memory) (old : Span) (id : CoreId) :
    Held s (init m old s sc id) [] [] [] [] 0 where
  slots := Slots.construct m old s id hsc
  freeing := fun p => by simp [init, OtherPc.object]
  single := fun t t' p ht => by simp [init, OtherPc.object] at ht
  bounded := fun t p old ht => by simp [init] at ht
  linked := fun t p old ht => by simp [init] at ht
  transit := rfl

end Shared
end Scalloc
