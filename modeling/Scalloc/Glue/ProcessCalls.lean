import Scalloc.Glue.ProcessInvariant

/-! # What the calls of a process do

`malloc` takes a block apart from all held ones with room for the request, `free` gives
exactly the block of its pointer back, and bytes inside a block are written one by one.
-/
namespace Scalloc.Process
open ByteMemory Transition Allocator

variable {cfg : Config} {st st' : State} {x : Held} {t size : ℕ} {rand : ℕ → ℕ → ℕ}
  {map : Option ℕ} {r : ℕ × Machine}

/-- A request was served: the pointer it got is the start of a new block. -/
structure Served (cfg : Config) (st : State) (size : ℕ) (r : ℕ × Machine) : Prop where
  start : (Held.of r.1 size).start = r.1
  room : size ≤ (Held.of r.1 size).size
  inv : State.Inv cfg ⟨r.2,Held.of r.1 size :: st.live⟩
  keeps : Keeps Held.foot { x | x ∈ st.live } st.machine.heap.mem r.2.heap.mem
  tls : r.2.heap.tls = st.machine.heap.tls
  space : r.2.heap.objectSpace =
    { st.machine.heap.objectSpace with current := r.2.heap.objectSpace.current }

theorem Served.ne_zero (h : Served cfg st size r) : r.1 ≠ 0 := by
  have hpos := h.inv.start_pos (List.mem_cons_self ..)
  rw [h.start] at hpos
  exact hpos.ne'

theorem Served.not_mem (h : Served cfg st size r) : Held.of r.1 size ∉ st.live :=
  (List.nodup_cons.mp h.inv.nodup).1

theorem Served.take (h : Served cfg st size r) :
    Step Held.foot st.store (.take (Held.of r.1 size))
      (State.store ⟨r.2,Held.of r.1 size :: st.live⟩) := by
  have hset : { x | x ∈ Held.of r.1 size :: st.live } =
      insert (Held.of r.1 size) { x | x ∈ st.live } := by
    ext x
    simp
  have hnew : Held.of r.1 size ∈ (⟨r.2,Held.of r.1 size :: st.live⟩ : State).live :=
    List.mem_cons_self ..
  rw [State.store, State.store, hset]
  refine step_take (h.inv.foot_nonempty hnew) (fun y hy => ?_) h.keeps
  exact h.inv.disjoint (List.mem_cons_of_mem _ hy) hnew fun he => h.not_mem (he ▸ hy)

/-- A step of the heap that spares the blocks in spans keeps all held bytes. -/
theorem State.Inv.keeps (hi : State.Inv cfg st) {h : Heap} {live : ℕ → List ℕ} {held : Set Held}
    (hs : st.machine.heap.Spares h live) (hsub : ∀ x ∈ held, x ∈ st.live)
    (hb : ∀ b : Block, .small b ∈ held → b.foot ⊆ st.machine.heap.heldBytes live) :
    Keeps Held.foot held st.machine.heap.mem h.mem := by
  intro x hx a ha
  cases x with
  | small b => exact hs.mem (.inl (hb b hx ha))
  | large base len =>
    have hp := (hi.mapped _ _ (hsub _ hx)).payload
    obtain ⟨h1,h2⟩ := ha
    exact hs.mem (.inr (hi.large_outside (hsub _ hx) (by omega) (by omega)))

/-- The part of `malloc` that spans serve. -/
theorem malloc_small (hi : State.Inv cfg st) (ht : st.machine.heap.tls t ≠ 0) (h1 : 0 < size)
    (h2 : size ≤ kMaxMediumSize) (h : malloc cfg st.machine t size rand map = some r) :
    ∃ g, r.2 = { st.machine with heap := g } ∧ Scalloc.step cfg st.small (.allocate t size rand) =
      some ⟨g,⟨r.1,sizeToClass size⟩ :: st.smalls⟩ := by
  have hret := Heap.allocate_ok hi.heap.heap (hi.heap.core ht).1 ht
    (hi.heap.threads.limit_ne_zero ht) h1 h2 rand
  cases hall : st.machine.heap.allocate cfg (st.machine.heap.tls t) size rand with
  | error f =>
    simp only [malloc, hall] at h
    cases h
  | ok a =>
    obtain ⟨a,g⟩ := a
    obtain ⟨p,s,rfl,hp,_⟩ := hret.of_ok hall
    simp only [malloc, hall] at h
    obtain rfl := (Option.some.inj h).symm
    refine ⟨g,rfl,?_⟩
    have hall' : st.small.heap.allocate cfg (st.small.heap.tls t) size rand =
        .ok (.object p,g) := hall
    have ht' : st.small.heap.tls t ≠ 0 := ht
    rw [Scalloc.step, if_pos ⟨ht',h1,h2⟩, hall']
    simp only [if_neg hp]
    rfl

theorem malloc_small_served (hi : State.Inv cfg st) (ht : st.machine.heap.tls t ≠ 0)
    (h1 : 0 < size) (h2 : size ≤ kMaxMediumSize)
    (h : malloc cfg st.machine t size rand map = some r) : Served cfg st size r := by
  obtain ⟨g,hg,hstep⟩ := malloc_small hi ht h1 h2 h
  obtain ⟨p,mc⟩ := r
  dsimp only at hg hstep
  subst hg
  have hsc := (sizeToClass_isObjectClass h1 h2).1
  have hof : Held.of p size = .small ⟨p,sizeToClass size⟩ := if_neg (by omega)
  obtain ⟨_,hspares⟩ := Scalloc.State.allocate_frame hi.heap hstep
  obtain ⟨_,_,_,_,_,hall,_⟩ := Scalloc.State.step_allocate hi.heap hstep
  have hi' := hi.heap.step hstep
  have hnew : Held.small ⟨p,sizeToClass size⟩ ∉ st.live := by
    have hn := hi'.nodup
    rw [List.nodup_cons] at hn
    exact fun hx => hn.1 (mem_smalls.mpr hx)
  have hstart : g.objectSpace.start = st.machine.heap.objectSpace.start := by
    rw [hspares.space]
    rfl
  have hfin : g.objectSpace.fin = st.machine.heap.objectSpace.fin := by
    rw [hspares.space]
    rfl
  refine ⟨by rw [hof]; rfl,?_,?_,?_,hall.threads.tls,hspares.space⟩
  · rw [hof]
    exact le_classToSize_sizeToClass h2
  · rw [hof]
    refine hi.of_heap hi' (List.nodup_cons.mpr ⟨hnew,hi.nodup⟩) ?_ hstart hfin fun a ha => ?_
    · intro base len
      simp
    · exact hspares.mem (.inr ha)
  · exact hi.keeps hspares (fun _ hx => hx) fun b hb => hi.heap.foot_subset (mem_smalls.mpr hb)

/-- What `mmap` returned is apart from all that is mapped. -/
theorem mayMap_iff {mc : Machine} {len base : ℕ} : mc.mayMap len base = true ↔
    (0 < len ∧ 0 < base ∧ base % kPageSize = 0 ∧ base + len ≤ kWord ∧
      (base + len ≤ mc.heap.objectSpace.start ∨ mc.heap.objectSpace.fin ≤ base)) ∧
    ∀ r ∈ mc.maps, base + len ≤ r.1 ∨ r.1 + r.2 ≤ base := by
  simp only [Machine.mayMap, Bool.and_eq_true, decide_eq_true_eq, List.all_eq_true]

/-- `LargeObject::Allocate` writes into its mapping only. -/
theorem allocate_sameOutside {base : ℕ} (m : Memory) (h : 16 ≤ LargeObject.actualSize size) :
    SameOutside m (LargeObject.allocate base size m).2 base
      (base + LargeObject.actualSize size) := by
  intro a ha
  change store (store (clear m base _) base 8 _) (base + 8) 8 _ a = m a
  rw [store_sameOutside _ _ _ _ a (by omega), store_sameOutside _ _ _ _ a (by omega)]
  exact if_neg (by omega)

theorem large_served (hi : State.Inv cfg st) {base : ℕ} (hsc : sizeToClass size = 0)
    (hfit : size + 15 < kWord)
    (hmap : st.machine.mayMap (LargeObject.actualSize size) base = true)
    (h : largeAllocate st.machine size (some base) = some r) : Served cfg st size r := by
  obtain ⟨⟨hlen,hpos,hpage,hword,hout⟩,happ⟩ := mayMap_iff.mp hmap
  simp only [largeAllocate, Option.map_some, Option.some.injEq] at h
  subst h
  have hk : kPageSize = 4096 := rfl
  have hh : LargeObject.kHeaderSize = 16 := rfl
  have hb : size + LargeObject.kHeaderSize ≤ LargeObject.actualSize size ∧
      LargeObject.actualSize size % kPageSize = 0 := by
    rcases Glue.actualSize_cases (show size < kWord by omega) with ⟨hc | hc,_⟩ | ⟨_,hc⟩
    · exact ⟨(LargeObject.actualSize_bounds hc).1,(LargeObject.actualSize_bounds hc).2.2⟩
    · omega
    · omega
  have hof : Held.of (LargeObject.allocate base size st.machine.heap.mem).1 size =
      .large base (LargeObject.actualSize size) := by
    rw [Held.of, if_pos hsc]
    exact congrArg (Held.large · _) (Nat.add_sub_cancel ..)
  have hmem : SameOutside st.machine.heap.mem (LargeObject.allocate base size
      st.machine.heap.mem).2 base (base + LargeObject.actualSize size) :=
    allocate_sameOutside _ (by omega)
  have hroom : kPageSize ≤ LargeObject.actualSize size := by
    rw [hk] at hb ⊢
    omega
  have hnew : Held.large base (LargeObject.actualSize size) ∉ st.live := by
    intro hx
    have ha := happ _ ((hi.maps _ _).mpr hx)
    dsimp only at ha
    omega
  have hold : ∀ base' len', Held.large base' len' ∈ st.live →
      Apart base' len' base (LargeObject.actualSize size) := by
    intro base' len' hx
    exact (happ _ ((hi.maps _ _).mpr hx)).symm
  have hagree : ∀ base' len', Held.large base' len' ∈ st.live →
      ∀ a, base' ≤ a → a < base' + len' → (LargeObject.allocate base size
        st.machine.heap.mem).2 a = st.machine.heap.mem a := by
    intro base' len' hx a h1 h2
    have ha := hold _ _ hx
    unfold Apart at ha
    exact hmem a (by omega)
  refine ⟨?_,?_,?_,?_,rfl,rfl⟩
  · simp only [hof]
    rfl
  · simp only [hof]
    change size ≤ LargeObject.actualSize size - LargeObject.kHeaderSize
    omega
  · simp only [hof]
    refine ⟨?_,List.nodup_cons.mpr ⟨hnew,hi.nodup⟩,?_,?_,?_,?_⟩
    · refine hi.heap.outside fun a h1 h2 => hmem a ?_
      change st.machine.heap.objectSpace.start ≤ a at h1
      change a < st.machine.heap.objectSpace.fin at h2
      omega
    · intro base' len'
      simp only [List.mem_cons, hi.maps, Held.large.injEq, Prod.mk.injEq]
    · refine List.nodup_cons.mpr ⟨fun hx => hnew ((hi.maps _ _).mp hx),hi.mapsNodup⟩
    · intro base' len' hx
      rcases List.mem_cons.mp hx with hx | hx
      · cases hx
        exact ⟨hpage,hpos,hroom,hword,hout,Glue.hasHeader_large size base _⟩
      · have hr := (hi.mapped _ _ hx).room
        refine (hi.mapped _ _ hx).congr rfl rfl fun a h1 h2 => hagree _ _ hx a h1 (by omega)
    · intro r1 h1 r2 h2 hne
      rcases List.mem_cons.mp h1 with rfl | h1
      · rcases List.mem_cons.mp h2 with rfl | h2
        · exact absurd rfl hne
        · exact happ _ h2
      · rcases List.mem_cons.mp h2 with rfl | h2
        · exact (happ _ h1).symm
        · exact hi.mapsApart _ h1 _ h2 hne
  · intro x hx a ha
    cases x with
    | small b =>
      have hs : _ ≤ b.start ∧ b.start + b.size ≤ _ := hi.heap.in_space (mem_smalls.mpr hx)
      have ha' : b.start ≤ a ∧ a < b.start + b.size := ha
      refine hmem a ?_
      change st.machine.heap.objectSpace.start ≤ b.start ∧
        b.start + b.size ≤ st.machine.heap.objectSpace.fin at hs
      omega
    | large base' len' =>
      have hp := (hi.mapped _ _ hx).payload
      obtain ⟨h1,h2⟩ := ha
      exact hagree _ _ hx a (by omega) (by omega)

/-- `malloc` returns null for size 0 only; every other request that it returns from is
served. -/
theorem malloc_spec (hi : State.Inv cfg st) (ht : st.machine.heap.tls t ≠ 0)
    (hfit : size + 15 < kWord)
    (hmap : st.machine.grants (LargeObject.actualSize size) map = true)
    (h : malloc cfg st.machine t size rand map = some r) :
    size = 0 ∧ r = (0,st.machine) ∨ 0 < size ∧ Served cfg st size r := by
  by_cases hsc : sizeToClass size = 0
  · have hall := Heap.allocate_zero hi.heap.heap (hi.heap.core ht).1 hsc rand
    simp only [malloc] at h
    rw [show st.machine.heap.allocate cfg (st.machine.heap.tls t) size rand = _ from hall] at h
    by_cases h0 : size = 0
    · simp only [if_pos h0] at h
      exact .inl ⟨h0,(Option.some.inj h).symm⟩
    · simp only [if_neg h0] at h
      cases map with
      | none => cases h
      | some base => exact .inr ⟨by omega,large_served hi hsc hfit hmap h⟩
  · have hpos : 0 < size := by
      refine Nat.pos_of_ne_zero ?_
      rintro rfl
      exact hsc rfl
    have hle : size ≤ kMaxMediumSize := by
      by_contra hlt
      refine hsc ?_
      have hs : ¬ size ≤ kMaxSmallSize := by
        have hle : kMaxSmallSize ≤ kMaxMediumSize := by decide
        omega
      rw [sizeToClass, if_neg hs, if_neg hlt]
    exact .inr ⟨hpos,malloc_small_served hi ht hpos hle h⟩

/-- A byte written into a block. -/
def State.put (st : State) (a : ℕ) (v : UInt8) : State :=
  { st with machine := st.machine.setMem (Function.update st.machine.heap.mem a v) }

/-- Bytes written one after the other. -/
def State.fill (st : State) (a : ℕ) (vs : List UInt8) : State :=
  { st with machine := st.machine.setMem (ByteMemory.fill st.machine.heap.mem a vs) }

/-- What the program sees of bytes written one after the other. -/
def puts (a : ℕ) : List UInt8 → List (Action Held ℕ UInt8)
  | [] => []
  | v :: vs => .put a v :: puts (a + 1) vs

theorem State.Inv.put (hi : State.Inv cfg st) (hx : x ∈ st.live) {a : ℕ} (ha : a ∈ x.foot)
    (v : UInt8) : State.Inv cfg (st.put a v) := by
  cases x with
  | small b =>
    have hw : Scalloc.step cfg st.small (.write b a v) = some (st.put a v).small :=
      if_pos ⟨mem_smalls.mpr hx,ha⟩
    have hs : _ ≤ b.start ∧ b.start + b.size ≤ _ := hi.heap.in_space (mem_smalls.mpr hx)
    have ha' : b.start ≤ a ∧ a < b.start + b.size := ha
    refine hi.of_heap (hi.heap.step hw) hi.nodup (fun _ _ => Iff.rfl) rfl rfl fun y hy => ?_
    refine Function.update_of_ne ?_ _ _
    rintro rfl
    change st.machine.heap.objectSpace.start ≤ b.start ∧
      b.start + b.size ≤ st.machine.heap.objectSpace.fin at hs
    omega
  | large base len =>
    have hp := (hi.mapped _ _ hx).payload
    have hh : LargeObject.kHeaderSize = 16 := rfl
    have hstart : (Held.large base len).start = base + LargeObject.kHeaderSize := rfl
    obtain ⟨h1,h2⟩ := ha
    refine ⟨hi.heap.outside fun y hy1 hy2 => ?_,hi.nodup,hi.maps,hi.mapsNodup,?_,hi.mapsApart⟩
    · refine Function.update_of_ne ?_ _ _
      rintro rfl
      have hout := hi.large_outside hx (a := y) (by omega) (by omega)
      change st.machine.heap.objectSpace.start ≤ y at hy1
      change y < st.machine.heap.objectSpace.fin at hy2
      omega
    · intro base' len' hx'
      refine (hi.mapped _ _ hx').congr rfl rfl fun y hy1 hy2 => Function.update_of_ne ?_ _ _
      rintro rfl
      have hr := (hi.mapped _ _ hx').room
      have hk : kPageSize = 4096 := rfl
      by_cases he : (base,len) = (base',len')
      · cases he
        omega
      · have hap := hi.mapsApart _ ((hi.maps _ _).mpr hx) _ ((hi.maps _ _).mpr hx') he
        unfold Apart at hap
        dsimp only at hap
        omega

theorem State.put_step (hx : x ∈ st.live) {a : ℕ} (ha : a ∈ x.foot) (v : UInt8) :
    Step Held.foot st.store (.put a v) (st.put a v).store :=
  step_put (show x ∈ { x | x ∈ st.live } from hx) ha v

/-- A range of a held block is written byte by byte. -/
theorem State.Inv.fill (hi : State.Inv cfg st) (hx : x ∈ st.live) {a : ℕ} {vs : List UInt8}
    (h1 : x.start ≤ a) (h2 : a + vs.length ≤ x.start + x.size) :
    State.Inv cfg (st.fill a vs) ∧ Trace (Step Held.foot) st.store (puts a vs)
      (st.fill a vs).store := by
  induction vs generalizing st a with
  | nil => exact ⟨hi,.nil⟩
  | cons v vs ih =>
    rw [List.length_cons] at h2
    have ha : a ∈ x.foot := ⟨h1,by omega⟩
    obtain ⟨hi',ht⟩ := ih (hi.put hx ha v) hx (a := a + 1) (by omega) (by omega)
    exact ⟨hi',.cons (State.put_step hx ha v) ht⟩

theorem smalls_erase_small (live : List Held) (b : Block) :
    (live.erase (.small b)).filterMap Held.block? = (live.filterMap Held.block?).erase b := by
  induction live with
  | nil => rfl
  | cons x live ih =>
    by_cases hx : x = .small b
    · subst hx
      simp [Held.block?]
    · rw [List.erase_cons_tail (by simpa using hx)]
      cases x with
      | small c =>
        have hc : c ≠ b := fun he => hx (he ▸ rfl)
        simp [Held.block?, List.erase_cons_tail, hc, ih]
      | large base len => simp [List.filterMap_cons, Held.block?, ih]

theorem smalls_erase_large (live : List Held) (base len : ℕ) :
    (live.erase (.large base len)).filterMap Held.block? = live.filterMap Held.block? := by
  induction live with
  | nil => rfl
  | cons x live ih =>
    by_cases hx : x = .large base len
    · subst hx
      simp [List.filterMap_cons, Held.block?]
    · rw [List.erase_cons_tail (by simpa using hx)]
      cases x with
      | small c => simp [Held.block?, ih]
      | large base' len' => simp [List.filterMap_cons, Held.block?, ih]

/-- The program loses exactly the block of the pointer. -/
theorem State.Inv.filter_start (hi : State.Inv cfg st) (hx : x ∈ st.live) :
    st.live.filter (fun y => y.start ≠ x.start) = st.live.erase x := by
  rw [hi.nodup.erase_eq_filter]
  refine List.filter_congr fun y hy => ?_
  by_cases he : y = x
  · simp [he]
  · have hne : y.start ≠ x.start := fun hs => he (hi.start_inj hy hx hs)
    simp [he, hne]

/-- The mappings without that of a large object. -/
def Held.unmap (maps : List (ℕ × ℕ)) : Held → List (ℕ × ℕ)
  | small _ => maps
  | large base len => maps.erase (base,len)

/-- A block was given back, and with a large object its mapping. -/
structure Freed (cfg : Config) (st : State) (x : Held) (mc : Machine) : Prop where
  inv : State.Inv cfg ⟨mc,st.live.erase x⟩
  maps : mc.maps = x.unmap st.machine.maps
  keeps : Keeps Held.foot { y | y ∈ st.live.erase x } st.machine.heap.mem mc.heap.mem
  space : mc.heap.objectSpace =
    { st.machine.heap.objectSpace with current := mc.heap.objectSpace.current }

theorem Freed.give {mc : Machine} (hi : State.Inv cfg st) (hx : x ∈ st.live)
    (h : Freed cfg st x mc) :
    Step Held.foot st.store (.give x) (State.store ⟨mc,st.live.erase x⟩) := by
  have hset : { y | y ∈ st.live.erase x } = { y | y ∈ st.live } \ {x} := by
    ext y
    rw [Set.mem_ofPred_eq, hi.nodup.mem_erase_iff, and_comm]
    rfl
  have hk := h.keeps
  rw [hset] at hk
  rw [State.store, State.store, hset]
  exact step_give hx (fun y hy hne => hi.disjoint hy hx hne) hk

theorem free_small (hi : State.Inv cfg st) (ht : st.machine.heap.tls t ≠ 0) {b : Block}
    (hx : .small b ∈ st.live) (hr : st.machine.heap.objectSpace.contains b.start = true) :
    ∃ mc, free cfg st.machine t b.start = some mc ∧ Freed cfg st (.small b) mc := by
  have hb := mem_smalls.mpr hx
  obtain ⟨h,hf,_⟩ := hi.heap.free_ok ht hb
  have hf' : st.machine.heap.free cfg (st.machine.heap.tls t) b.start = .ok h := hf
  have hstep : Scalloc.step cfg st.small (.free t b) = some ⟨h,st.smalls.erase b⟩ := by
    have ht' : st.small.heap.tls t ≠ 0 := ht
    rw [Scalloc.step, if_pos ⟨ht',hb⟩, hf]
    rfl
  have hspares := Scalloc.State.free_frame hi.heap hstep
  have hi' := hi.heap.step hstep
  rw [State.smalls, ← smalls_erase_small] at hi'
  have hstart : h.objectSpace.start = st.machine.heap.objectSpace.start := by
    rw [hspares.space]
    rfl
  have hfin : h.objectSpace.fin = st.machine.heap.objectSpace.fin := by
    rw [hspares.space]
    rfl
  refine ⟨{ st.machine with heap := h },?_,?_,rfl,?_,hspares.space⟩
  · rw [free, if_pos hr, hf']
    rfl
  · refine hi.of_heap hi' (hi.nodup.erase _) ?_ hstart hfin fun a ha => hspares.mem (.inr ha)
    intro base len
    rw [hi.nodup.mem_erase_iff]
    simp
  · refine hi.keeps hspares (fun y hy => List.mem_of_mem_erase hy) fun c hc => ?_
    obtain ⟨hne,hc⟩ := hi.nodup.mem_erase_iff.mp hc
    refine hi.heap.foot_subset_erase hb (mem_smalls.mpr hc) fun he => hne (he ▸ rfl)

/-- The pointer of a large object leads back to its mapping. -/
theorem Mapped.finds {mc : Machine} {base len : ℕ} (h : Mapped mc base len) :
    LargeObject.FindsMapping mc.heap.mem (LargeObject.objectStart base) base len := by
  have hk : kPageSize = 4096 := rfl
  have hh : LargeObject.kHeaderSize = 16 := rfl
  have hroom := h.room
  have hbound := h.bounded
  have hpos := h.pos
  refine h.header.findsMapping h.page (Nat.le_add_right _ _) ?_ ?_ (by omega) (by omega)
  · unfold LargeObject.objectStart
    omega
  · unfold LargeObject.objectStart
    omega

theorem free_large (hi : State.Inv cfg st) {base len : ℕ} (hx : .large base len ∈ st.live)
    (hr : st.machine.heap.objectSpace.contains (LargeObject.objectStart base) = false) :
    ∃ mc, free cfg st.machine t (LargeObject.objectStart base) = some mc ∧
      Freed cfg st (.large base len) mc := by
  have hfind := (hi.mapped _ _ hx).finds
  have hne : LargeObject.objectStart base ≠ 0 := (hi.start_pos hx).ne'
  refine ⟨{ st.machine with maps := st.machine.maps.erase (base,len) },?_,?_,rfl,
    fun _ _ _ _ => rfl,rfl⟩
  · rw [free, if_neg (by rw [hr]; decide), if_neg hne, hfind.2.1]
    rfl
  · have hsub : ∀ {y}, y ∈ st.live.erase (.large base len) → y ∈ st.live := List.mem_of_mem_erase
    refine ⟨?_,hi.nodup.erase _,?_,hi.mapsNodup.erase _,?_,?_⟩
    · have heq : State.small ⟨{ st.machine with maps := st.machine.maps.erase (base,len) },
          st.live.erase (.large base len)⟩ = st.small := by
        rw [State.small, State.small, State.smalls, State.smalls, smalls_erase_large]
      rw [heq]
      exact hi.heap
    · intro base' len'
      rw [hi.mapsNodup.mem_erase_iff, hi.nodup.mem_erase_iff, hi.maps]
      simp
    · intro base' len' hx'
      have hm' := hi.mapped _ _ (hsub hx')
      exact ⟨hm'.page,hm'.pos,hm'.room,hm'.bounded,hm'.outside,hm'.header⟩
    · intro r1 h1 r2 h2
      exact hi.mapsApart _ (List.mem_of_mem_erase h1) _ (List.mem_of_mem_erase h2)

/-- A live pointer is freed without an error, and nothing but its block is lost. -/
theorem free_spec (hi : State.Inv cfg st) (ht : st.machine.heap.tls t ≠ 0) (hx : x ∈ st.live)
    (hr : x.Routed st.machine.heap.objectSpace = true) :
    ∃ mc, free cfg st.machine t x.start = some mc ∧ Freed cfg st x mc := by
  cases x with
  | small b => exact free_small hi ht hx hr
  | large base len => exact free_large hi hx (by simpa [Held.Routed] using hr)

/-- `realloc` finds the size of the old block. -/
theorem oldSize_eq (hi : State.Inv cfg st) (hx : x ∈ st.live)
    (hr : x.Routed st.machine.heap.objectSpace = true) :
    oldSize st.machine x.start = some x.size := by
  cases x with
  | small b =>
    have hr' : st.machine.heap.objectSpace.contains (Held.small b).start = true := hr
    have hsc := (hi.heap.live b (mem_smalls.mpr hx)).2
    change b.sizeClass = (st.machine.heap.spans (fromObject b.start)).sizeClass at hsc
    rw [oldSize, if_pos hr']
    change some (classToSize (st.machine.heap.spans (fromObject b.start)).sizeClass) = _
    rw [← hsc]
    rfl
  | large base len =>
    have hr' : st.machine.heap.objectSpace.contains (Held.large base len).start = false :=
      Bool.not_eq_true' _ ▸ hr
    rw [oldSize, if_neg (by rw [hr']; decide)]
    exact (hi.mapped _ _ hx).finds.2.2

end Scalloc.Process
