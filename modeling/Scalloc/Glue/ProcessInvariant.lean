import Scalloc.Glue.Process

/-! # The blocks of a process

The invariant of the heap for the blocks in spans, and for large objects: the mappings are
exactly those of the live ones, each with its header in place and apart from the object
space and from each other.
-/
namespace Scalloc
open ByteMemory Transition Allocator

namespace Heap
variable {percent : ℕ} {h : Heap} {hot : ℕ → ℕ → ℕ} {live : ℕ → List ℕ} {m : Memory}

/-- Bytes outside of the object space do not matter. -/
theorem Inv.outside (hi : Inv percent h hot live)
    (hm : ∀ a, h.objectSpace.start ≤ a → a < h.objectSpace.fin → m a = h.mem a) :
    Inv percent { h with mem := m } hot live where
  board := hi.board
  arena := hi.arena
  epoch := hi.epoch
  fresh := hi.fresh
  pooled := hi.pooled
  slots := by
    intro s hk hp
    obtain ⟨L,R,j,hsl⟩ := hi.slots s hk hp
    have hb := hi.arena.span_le hk
    have hh : s ≤ headerEnd s := Nat.le_add_right _ _
    exact ⟨L,R,j,hsl.frame fun a h1 h2 => hm a (by omega) (by omega)⟩

theorem Threads.setMem (ht : Threads h) (m : Memory) : Threads { h with mem := m } :=
  ht.same ⟨fun _ => rfl,rfl,rfl,rfl,⟨rfl,rfl⟩⟩

end Heap

theorem State.Inv.outside {cfg : Config} {st : State} (hi : State.Inv cfg st) {m : Memory}
    (hm : ∀ a, st.heap.objectSpace.start ≤ a → a < st.heap.objectSpace.fin → m a = st.heap.mem a) :
    State.Inv cfg ⟨{ st.heap with mem := m },st.live⟩ :=
  ⟨hi.heap.outside hm,hi.threads.setMem m,hi.live⟩

/-- A live block lies in the object space. -/
theorem State.Inv.in_space {cfg : Config} {st : State} (hi : State.Inv cfg st) {b : Block}
    (hb : b ∈ st.live) :
    st.heap.objectSpace.start ≤ b.start ∧ b.start + b.size ≤ st.heap.objectSpace.fin := by
  have h1 := hi.bounds hb
  have h2 := hi.heap.arena.span_le (hi.live b hb).1
  have hh : fromObject b.start ≤ headerEnd (fromObject b.start) := Nat.le_add_right _ _
  omega

/-- A core never has a hot span for class 0. -/
theorem Heap.Inv.no_hot_zero {percent : ℕ} {h : Heap} {live : ℕ → List ℕ}
    (hi : Heap.Inv percent h h.hot live) (c : ℕ) : (h.cores c).hotSpan 0 = 0 := by
  by_contra hne
  obtain ⟨_,hat,_⟩ := hi.hot_at hne
  have hclass : ((h.board h.hot).card ((h.cores c).hotSpan 0)).sizeClass = 0 := hat.allowed.2.1
  have hobj := hat.objectClass.1
  omega

/-- `Core::Allocate` passes an empty or large request on. -/
theorem Heap.allocate_zero {cfg : Config} {h : Heap} {live : ℕ → List ℕ} {c size : ℕ}
    (hi : Heap.Inv cfg.reuseThreshold h h.hot live) (hc : (h.cores c).id ≠ kTerminated)
    (hsc : sizeToClass size = 0) (rand : ℕ → ℕ → ℕ) :
    h.allocate cfg c size rand = .ok (if size = 0 then .object 0 else .large size,h) := by
  have hlive : ((h.cores c).id != kTerminated) = true := bne_iff_ne.mpr hc
  rw [allocate, scallocAssert_true cfg _ hlive]
  simp only [bind, Except.bind, hsc, hi.no_hot_zero c, if_true]
  split <;> rfl

theorem sizeToClass_eq_zero {size : ℕ} (h : sizeToClass size = 0) :
    size = 0 ∨ kMaxMediumSize < size := by
  by_contra hne
  obtain ⟨h0,hle⟩ := not_or.mp hne
  have hobj := (sizeToClass_isObjectClass (Nat.pos_of_ne_zero h0) (not_lt.mp hle)).1
  omega

namespace Process

def Held.block? : Held → Option Block
  | small b => some b
  | large _ _ => none

namespace State

/-- The blocks in spans. -/
def smalls (st : State) : List Block := st.live.filterMap Held.block?

/-- The heap with the blocks in spans. -/
def small (st : State) : Scalloc.State := ⟨st.machine.heap,st.smalls⟩

/-- The blocks of the program and their contents. -/
noncomputable def store (st : State) : Store Held ℕ UInt8 :=
  Store.ofMemory Held.foot { x | x ∈ st.live } st.machine.heap.mem

end State

/-- A mapping of a large object: whole pages with the header in front. -/
structure Mapped (mc : Machine) (base len : ℕ) : Prop where
  page : base % kPageSize = 0
  pos : 0 < base
  room : kPageSize ≤ len
  bounded : base + len ≤ kWord
  outside : base + len ≤ mc.heap.objectSpace.start ∨ mc.heap.objectSpace.fin ≤ base
  header : LargeObject.HasHeader mc.heap.mem base len

structure State.Inv (cfg : Config) (st : State) : Prop where
  heap : Scalloc.State.Inv cfg st.small
  nodup : st.live.Nodup
  maps : ∀ base len, (base,len) ∈ st.machine.maps ↔ .large base len ∈ st.live
  mapsNodup : st.machine.maps.Nodup
  mapped : ∀ base len, .large base len ∈ st.live → Mapped st.machine base len
  mapsApart : ∀ r ∈ st.machine.maps, ∀ r' ∈ st.machine.maps, r ≠ r' → Apart r.1 r.2 r'.1 r'.2

variable {cfg : Config} {st st' : State} {x y : Held} {b : Block} {base len : ℕ}

theorem mem_smalls : b ∈ st.smalls ↔ .small b ∈ st.live := by
  rw [State.smalls, List.mem_filterMap]
  constructor
  · rintro ⟨x,hx,hb⟩
    cases x with
    | small c =>
      obtain rfl := Option.some.inj hb
      exact hx
    | large => cases hb
  · exact fun hb => ⟨_,hb,rfl⟩

/-- The payload of a mapping. -/
theorem Mapped.payload {mc : Machine} (h : Mapped mc base len) :
    base < (Held.large base len).start ∧
      (Held.large base len).start + (Held.large base len).size = base + len ∧
      0 < (Held.large base len).size := by
  have hk : kPageSize = 4096 := rfl
  have hr := h.room
  have hstart : (Held.large base len).start = base + 16 := rfl
  have hsize : (Held.large base len).size = len - 16 := rfl
  rw [hstart, hsize]
  omega

namespace State.Inv

/-- Two blocks of the program do not overlap. -/
theorem apart (hi : Inv cfg st) (hx : x ∈ st.live) (hy : y ∈ st.live) (hne : x ≠ y) :
    Apart x.start x.size y.start y.size := by
  cases x with
  | small b =>
    have hb : b ∈ st.small.live := mem_smalls.mpr hx
    cases y with
    | small c =>
      exact hi.heap.apart_live hb (mem_smalls.mpr hy) fun he => hne (he ▸ rfl)
    | large base len =>
      have hm := hi.mapped _ _ hy
      have hp := hm.payload
      have hs : _ ∧ b.start + b.size ≤ _ := hi.heap.in_space hb
      rcases hm.outside with ho | ho
      · exact .inr ((hp.2.1.le.trans ho).trans hs.1)
      · exact .inl ((hs.2.trans ho).trans hp.1.le)
  | large base len =>
    have hm := hi.mapped _ _ hx
    have hp := hm.payload
    cases y with
    | small c =>
      have hs : _ ∧ c.start + c.size ≤ _ := hi.heap.in_space (mem_smalls.mpr hy)
      rcases hm.outside with ho | ho
      · exact .inl ((hp.2.1.le.trans ho).trans hs.1)
      · exact .inr ((hs.2.trans ho).trans hp.1.le)
    | large base' len' =>
      have hp' := (hi.mapped _ _ hy).payload
      rcases hi.mapsApart _ ((hi.maps _ _).mpr hx) _ ((hi.maps _ _).mpr hy) (by
        intro he
        obtain ⟨rfl,rfl⟩ := Prod.mk.inj he
        exact hne rfl) with ha | ha
      · exact .inl ((hp.2.1.le.trans ha).trans hp'.1.le)
      · exact .inr ((hp'.2.1.le.trans ha).trans hp.1.le)

theorem size_pos (hi : Inv cfg st) (hx : x ∈ st.live) : 0 < x.size := by
  cases x with
  | small b =>
    have hz := classToSize_pos (hi.heap.mem_slots (mem_smalls.mpr hx)).2
    change 0 < classToSize b.sizeClass
    omega
  | large base len => exact (hi.mapped _ _ hx).payload.2.2

theorem start_pos (hi : Inv cfg st) (hx : x ∈ st.live) : 0 < x.start := by
  cases x with
  | small b => exact Nat.pos_of_ne_zero (slot_ne_zero (hi.heap.mem_slots (mem_smalls.mpr hx)).1)
  | large base len => exact (Nat.zero_le _).trans_lt (hi.mapped _ _ hx).payload.1

/-- A pointer of the program tells its block. -/
theorem start_inj (hi : Inv cfg st) (hx : x ∈ st.live) (hy : y ∈ st.live)
    (he : x.start = y.start) : x = y := by
  by_contra hne
  have ha := hi.apart hx hy hne
  have h1 := hi.size_pos hx
  have h2 := hi.size_pos hy
  unfold Apart at ha
  omega

theorem disjoint (hi : Inv cfg st) (hx : x ∈ st.live) (hy : y ∈ st.live) (hne : x ≠ y) :
    Disjoint x.foot y.foot := by
  refine Set.disjoint_left.mpr fun a ha ha' => ?_
  have hap := hi.apart hx hy hne
  obtain ⟨h1,h2⟩ := ha
  obtain ⟨h3,h4⟩ := ha'
  rcases hap with hap | hap <;> omega

theorem foot_nonempty (hi : Inv cfg st) (hx : x ∈ st.live) : x.foot.Nonempty :=
  ⟨x.start,le_rfl,Nat.lt_add_of_pos_right (hi.size_pos hx)⟩

theorem wellFormed (hi : Inv cfg st) : WellFormed Held.foot st.store where
  apart := fun _ hx _ hy hne => hi.disjoint hx hy hne
  nonempty := fun _ hx => hi.foot_nonempty hx
  byte := by
    intro a
    unfold store Store.ofMemory
    dsimp only
    split <;> simp_all

/-- The payloads of large objects lie outside of the object space. -/
theorem large_outside (hi : Inv cfg st) (hx : .large base len ∈ st.live) {a : ℕ}
    (h1 : base ≤ a) (h2 : a < base + len) :
    a < st.machine.heap.objectSpace.start ∨ st.machine.heap.objectSpace.fin ≤ a := by
  rcases (hi.mapped _ _ hx).outside with ho | ho <;> omega

end State.Inv

/-- What a step of the heap leaves alone keeps the large objects in order. -/
theorem Mapped.congr {mc mc' : Machine} (h : Mapped mc base len)
    (hs : mc'.heap.objectSpace.start = mc.heap.objectSpace.start)
    (hf : mc'.heap.objectSpace.fin = mc.heap.objectSpace.fin)
    (hm : AgreeOn mc.heap.mem mc'.heap.mem base (base + LargeObject.kHeaderSize)) :
    Mapped mc' base len where
  page := h.page
  pos := h.pos
  room := h.room
  bounded := h.bounded
  outside := by
    rw [hs, hf]
    exact h.outside
  header := h.header.congr hm

/-- The heap took a step that spares the bytes outside of the object space, and the
large objects are the same. -/
theorem State.Inv.of_heap (hi : State.Inv cfg st) {h : Heap} {live : List Held}
    (hh : Scalloc.State.Inv cfg (State.small ⟨⟨h,st.machine.maps⟩,live⟩)) (hn : live.Nodup)
    (hl : ∀ base len, .large base len ∈ live ↔ .large base len ∈ st.live)
    (hs : h.objectSpace.start = st.machine.heap.objectSpace.start)
    (hf : h.objectSpace.fin = st.machine.heap.objectSpace.fin)
    (hm : ∀ a, a < st.machine.heap.objectSpace.start ∨ st.machine.heap.objectSpace.fin ≤ a →
      h.mem a = st.machine.heap.mem a) :
    State.Inv cfg ⟨⟨h,st.machine.maps⟩,live⟩ where
  heap := hh
  nodup := hn
  maps := fun base len => (hi.maps base len).trans (hl base len).symm
  mapsNodup := hi.mapsNodup
  mapped := by
    intro base len hx
    have hx' := (hl base len).mp hx
    have hr := (hi.mapped _ _ hx').room
    have hk : LargeObject.kHeaderSize ≤ kPageSize := by decide
    exact (hi.mapped _ _ hx').congr hs hf fun a h1 h2 =>
      hm a (hi.large_outside hx' h1 (by omega))
  mapsApart := hi.mapsApart

end Process
end Scalloc
