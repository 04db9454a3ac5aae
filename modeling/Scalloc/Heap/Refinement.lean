import Scalloc.Heap.Frame
import Scalloc.Heap.Integrity
import Scalloc.Lib.Allocator

/-! # The heap refines the abstract allocator

What the program sees of a run is a run of the abstract allocator: an allocation takes a
block apart from all held ones with room for the request, a free gives it back, a thread
start or exit is invisible, and no call changes a byte that the program holds.
-/
namespace Scalloc
open ByteMemory Transition Allocator

/-- The bytes of a block. -/
def Block.foot (b : Block) : Set ℕ := Set.Ico b.start (b.start + b.size)

/-- The blocks of the program and their contents. -/
noncomputable def State.store (st : State) : Store Block ℕ UInt8 :=
  Store.ofMemory Block.foot { b | b ∈ st.live } st.heap.mem

/-- What the program sees of an event. -/
inductive Event.Shows : Event → Action Block ℕ UInt8 → Prop
  | start {t : ℕ} : Shows (.start t) .skip
  | exit {t : ℕ} : Shows (.exit t) .skip
  | allocate {t size : ℕ} {rand : ℕ → ℕ → ℕ} {b : Block} (hroom : size ≤ b.size) :
    Shows (.allocate t size rand) (.take b)
  | free {t : ℕ} {b : Block} : Shows (.free t b) (.give b)
  | write {b : Block} {a : ℕ} {v : UInt8} : Shows (.write b a v) (.put a v)

theorem Apart.disjoint {b c : Block} (h : Apart b.start b.size c.start c.size) :
    Disjoint b.foot c.foot := by
  refine Set.disjoint_left.mpr fun a hb hc => ?_
  obtain ⟨h1,h2⟩ := hb
  obtain ⟨h3,h4⟩ := hc
  rcases h with h | h <;> omega

namespace State
variable {cfg : Config} {st st' : State} {b : Block}

/-- The bytes of the live blocks are held in the heap. -/
theorem Inv.foot_subset (hi : Inv cfg st) (hb : b ∈ st.live) :
    b.foot ⊆ st.heap.heldBytes st.liveIn := by
  rintro a ⟨h1,h2⟩
  refine ⟨fromObject b.start,b.start,mem_liveIn hb,h1,?_⟩
  rw [← (hi.live b hb).2]
  exact h2

theorem Inv.keeps (hi : Inv cfg st) {m : Memory}
    (h : Set.EqOn m st.heap.mem (st.heap.spared st.liveIn)) :
    Keeps Block.foot { b | b ∈ st.live } st.heap.mem m :=
  fun _ hb _ ha => h (.inl (hi.foot_subset hb ha))

theorem Inv.foot_nonempty (hi : Inv cfg st) (hb : b ∈ st.live) : b.foot.Nonempty := by
  have hz := classToSize_pos (hi.mem_slots hb).2
  exact ⟨b.start,le_rfl,by unfold Block.size; omega⟩

/-- What a step leaves of the memory and the object space. -/
theorem start_frame (hi : Inv cfg st) {t : ℕ} (hs : step cfg st (.start t) = some st') :
    st'.heap.mem = st.heap.mem ∧ st'.heap.objectSpace = st.heap.objectSpace := by
  obtain ⟨_,⟨c,id,hst⟩,_⟩ := step_start hi hs
  exact ⟨hst.mem,hst.arena⟩

theorem exit_frame (hi : Inv cfg st) {t : ℕ} (hs : step cfg st (.exit t) = some st') :
    st'.heap.mem = st.heap.mem ∧ st'.heap.objectSpace = st.heap.objectSpace := by
  simp only [step] at hs
  split at hs
  · rw [Heap.threadDestructor_ok cfg hi.heap.board t] at hs
    obtain rfl := (Option.some.inj hs).symm
    exact ⟨rfl,rfl⟩
  · cases hs

theorem allocate_frame (hi : Inv cfg st) {t size : ℕ} {rand : ℕ → ℕ → ℕ}
    (hs : step cfg st (.allocate t size rand) = some st') :
    size ≤ kMaxMediumSize ∧ st.heap.Spares st'.heap st.liveIn := by
  simp only [step] at hs
  split at hs
  · next hpre =>
    refine ⟨hpre.2.2,?_⟩
    split at hs
    · next q h' ha =>
      obtain rfl := (Option.some.inj hs).symm
      exact Heap.allocate_spares hi.heap (hi.core hpre.1).1 hpre.1
        (hi.threads.limit_ne_zero hpre.1) hpre.2.1 hpre.2.2 ha
    · cases hs
  · cases hs

theorem free_frame (hi : Inv cfg st) {t : ℕ} (hs : step cfg st (.free t b) = some st') :
    st.heap.Spares st'.heap (Function.update st.liveIn (fromObject b.start)
      ((st.liveIn (fromObject b.start)).erase b.start)) := by
  obtain ⟨ht,hb,_⟩ := step_freeIn hi hs
  obtain ⟨g,hf,_,hinv,_,_⟩ := hi.free_ok ht hb
  simp only [step, if_pos (And.intro ht hb), hf] at hs
  obtain rfl := (Option.some.inj hs).symm
  exact Heap.free_spares hi.heap (mem_liveIn hb) hinv hf

/-- No two live blocks start at the same address. -/
theorem Inv.start_inj (hi : Inv cfg st) {x : Block} (hx : x ∈ st.live) (hb : b ∈ st.live)
    (he : x.start = b.start) : x = b := by
  by_contra hne
  have ha := hi.apart_live hx hb hne
  have h1 := classToSize_pos (hi.mem_slots hx).2
  have h2 := classToSize_pos (hi.mem_slots hb).2
  unfold Apart Block.size at ha
  omega

/-- The bytes of the blocks that stay live when one is freed. -/
theorem Inv.foot_subset_erase (hi : Inv cfg st) (hb : b ∈ st.live) {x : Block}
    (hx : x ∈ st.live) (hne : x ≠ b) :
    x.foot ⊆ st.heap.heldBytes (Function.update st.liveIn (fromObject b.start)
      ((st.liveIn (fromObject b.start)).erase b.start)) := by
  rintro a ⟨h1,h2⟩
  refine ⟨fromObject x.start,x.start,?_,h1,?_⟩
  · have herase := congrFun (liveIn_erase st.heap st.live b fun y hy => hi.start_inj hy hb)
      (fromObject x.start)
    rw [← herase]
    have hx' : x ∈ (⟨st.heap,st.live.erase b⟩ : State).live := (List.mem_erase_of_ne hne).mpr hx
    exact mem_liveIn hx'
  · rw [← (hi.live x hx).2]
    exact h2

theorem Inv.mem_erase (hi : Inv cfg st) {x : Block} :
    x ∈ st.live.erase b ↔ x ∈ st.live ∧ x ≠ b := by
  rw [hi.nodup.mem_erase_iff, and_comm]

theorem shows_start (hi : Inv cfg st) {t : ℕ} (hs : step cfg st (.start t) = some st') :
    st'.store = st.store := by
  rw [store, store, (step_start hi hs).1, (start_frame hi hs).1]

theorem shows_exit (hi : Inv cfg st) {t : ℕ} (hs : step cfg st (.exit t) = some st') :
    st'.store = st.store := by
  rw [store, store, (step_exit hi hs).2.1, (exit_frame hi hs).1]

theorem shows_allocate (hi : Inv cfg st) {t size : ℕ} {rand : ℕ → ℕ → ℕ}
    (hs : step cfg st (.allocate t size rand) = some st') :
    ∃ b : Block, size ≤ b.size ∧ Step Block.foot st.store (.take b) st'.store := by
  obtain ⟨hsc,ht,p,s,hlive,hall,hi'⟩ := step_allocate hi hs
  obtain ⟨hsize,hspares⟩ := allocate_frame hi hs
  have hset : { b | b ∈ st'.live } = insert ⟨p,sizeToClass size⟩ { b | b ∈ st.live } := by
    rw [hlive]
    ext b
    simp
  refine ⟨⟨p,sizeToClass size⟩,le_classToSize_sizeToClass hsize,?_⟩
  rw [store, store, hset]
  have hb : (⟨p,sizeToClass size⟩ : Block) ∈ st'.live := by simp [hlive]
  have hnodup := hi'.nodup
  rw [hlive, List.nodup_cons] at hnodup
  refine step_take (hi'.foot_nonempty hb) (fun c hc => Apart.disjoint ?_) (hi.keeps hspares.mem)
  have hc' : c ∈ st'.live := by
    rw [hlive]
    exact List.mem_cons_of_mem _ hc
  exact hi'.apart_live hc' hb fun he => hnodup.1 (he ▸ hc)

theorem shows_free (hi : Inv cfg st) {t : ℕ} (hs : step cfg st (.free t b) = some st') :
    Step Block.foot st.store (.give b) st'.store := by
  obtain ⟨ht,hb,hlive,_,hi'⟩ := step_freeIn hi hs
  have hset : { x | x ∈ st'.live } = { x | x ∈ st.live } \ {b} := by
    rw [hlive]
    ext x
    exact hi.mem_erase
  rw [store, store, hset]
  refine step_give hb (fun c hc hne => (hi.apart_live hc hb hne).disjoint) ?_
  rintro x ⟨hx,hxb⟩ a ha
  exact (free_frame hi hs).mem (.inl (hi.foot_subset_erase hb hx hxb ha))

theorem shows_write {a : ℕ} {v : UInt8} (hs : step cfg st (.write b a v) = some st') :
    Step Block.foot st.store (.put a v) st'.store := by
  simp only [step] at hs
  split at hs
  · next hpre =>
    obtain rfl := (Option.some.inj hs).symm
    have ha : a ∈ b.foot := hpre.2
    exact step_put (show b ∈ { x | x ∈ st.live } from hpre.1) ha v
  · cases hs

/-- Every step is a step of the abstract allocator. -/
theorem Inv.shows (hi : Inv cfg st) {e : Event} (hs : Scalloc.step cfg st e = some st') :
    ∃ l, e.Shows l ∧ Step Block.foot st.store l st'.store := by
  cases e with
  | start t => exact ⟨.skip,.start,shows_start hi hs ▸ .skip⟩
  | exit t => exact ⟨.skip,.exit,shows_exit hi hs ▸ .skip⟩
  | allocate t size rand =>
    obtain ⟨b,hroom,hstep⟩ := shows_allocate hi hs
    exact ⟨.take b,.allocate hroom,hstep⟩
  | free t b => exact ⟨.give b,.free,shows_free hi hs⟩
  | write b a v => exact ⟨.put a v,.write,shows_write hs⟩

theorem Inv.trace (hi : Inv cfg st) {es : List Event}
    (h : exec (Scalloc.step cfg) Always st es = some st') :
    ∃ ls, List.Forall₂ Event.Shows es ls ∧ Trace (Step Block.foot) st.store ls st'.store :=
  (trace_of_exec (fun _ _ _ hi _ hs => ⟨hi.step hs,hi.shows hs⟩) h hi).2

theorem Inv.wellFormed (hi : Inv cfg st) : WellFormed Block.foot st.store where
  apart := fun _ hb _ hc hne => (hi.apart_live hb hc hne).disjoint
  nonempty := fun _ hb => hi.foot_nonempty hb
  byte := by
    intro a
    unfold store Store.ofMemory
    dsimp only
    split <;> simp_all

theorem store_init (l : Layout) (seen : Bool) : (State.init l seen).store = Store.empty := by
  refine Store.ext ?_ ?_
  · ext b
    simp [store, Store.ofMemory, State.init, Store.empty]
  · funext a
    simp [store, Store.ofMemory, State.init, Store.empty]

end State

/-- The visible part of every run, from the first thread on, is a run of the abstract
allocator that starts with no blocks. -/
theorem refines_allocator {cfg : Config} {l : Layout} {seen : Bool} {es : List Event} {st : State}
    (h : exec (step cfg) Always (State.init l seen) es = some st) :
    ∃ ls, List.Forall₂ Event.Shows es ls ∧ Trace (Step Block.foot) Store.empty ls st.store := by
  obtain ⟨ls,hls,htr⟩ := (State.Inv.init cfg l seen).trace h
  rw [State.store_init] at htr
  exact ⟨ls,hls,htr⟩

theorem refines_allocator_sampleEvents : ∃ st ls, sampleRun sampleEvents = some st ∧
    List.Forall₂ Event.Shows sampleEvents ls ∧ Trace (Step Block.foot) Store.empty ls st.store := by
  have hrun : (sampleRun sampleEvents).isSome = true := by decide +kernel
  obtain ⟨st,hst⟩ := Option.isSome_iff_exists.mp hrun
  obtain ⟨ls,hls,htr⟩ := refines_allocator hst
  exact ⟨st,ls,hst,hls,htr⟩

/-- The byte at `a` after the events, if only the program changes it. -/
def lastWrite (a : ℕ) (old : UInt8) : List Event → UInt8
  | [] => old
  | .write _ x v :: es => lastWrite a (if x = a then v else old) es
  | _ :: es => lastWrite a old es

theorem written_eq_lastWrite {a : ℕ} {old : UInt8} {es : List Event}
    {ls : List (Action Block ℕ UInt8)} (h : List.Forall₂ Event.Shows es ls) :
    written a (some old) ls = some (lastWrite a old es) := by
  induction h generalizing old with
  | nil => rfl
  | cons hs _ ih =>
    cases hs with
    | @write b x v =>
      rw [lastWrite, ← ih, written]
      congr 1
      split <;> rfl
    | _ => exact ih

theorem not_mem_give {b : Block} {es : List Event} {ls : List (Action Block ℕ UInt8)}
    (h : List.Forall₂ Event.Shows es ls) (hfree : ∀ t, .free t b ∉ es) : .give b ∉ ls := by
  induction h with
  | nil => exact List.not_mem_nil
  | cons hs _ ih =>
    rw [List.mem_cons, not_or]
    refine ⟨?_,ih fun t ht => hfree t (List.mem_cons_of_mem _ ht)⟩
    rintro rfl
    cases hs
    exact hfree _ (List.mem_cons_self ..)

/-- A block that is not freed stays with the program, and each of its bytes is what the
program wrote to it last, whatever all threads do in the meantime. -/
theorem contents_of_run {cfg : Config} {st st' : State} {es : List Event} {b : Block}
    (hst : Reachable cfg st) (h : exec (step cfg) Always st es = some st') (hb : b ∈ st.live)
    (hfree : ∀ t, .free t b ∉ es) :
    b ∈ st'.live ∧ ∀ a, b.start ≤ a → a < b.start + b.size →
      st'.heap.mem a = lastWrite a (st.heap.mem a) es := by
  have hi := hst.inv
  obtain ⟨ls,hls,htr⟩ := hi.trace h
  have hgive := not_mem_give hls hfree
  have hz := classToSize_pos (hi.mem_slots hb).2
  have hheld : b ∈ st'.live :=
    (byte_eq_of_trace hi.wellFormed htr hb ⟨le_rfl,by unfold Block.size; omega⟩ hgive).1
  refine ⟨hheld,fun a h1 h2 => ?_⟩
  have ha : a ∈ b.foot := ⟨h1,h2⟩
  obtain ⟨_,hbyte⟩ := byte_eq_of_trace hi.wellFormed htr hb ha hgive
  rw [State.store, State.store, ofMemory_byte (show b ∈ { x | x ∈ st.live } from hb) ha,
    ofMemory_byte (show b ∈ { x | x ∈ st'.live } from hheld) ha, written_eq_lastWrite hls] at hbyte
  exact Option.some.inj hbyte

/-- A block of thread 0. -/
def sampleHeld : Block := ⟨kObjectSpaceSize + 128,3⟩

/-- What happens while thread 0 and then its successor hold the block. -/
def sampleHolding : List Event :=
  [.allocate 1 48 fun _ _ => 0, .write sampleHeld (kObjectSpaceSize + 130) 255,
    .free 1 ⟨kObjectSpaceSize + 2097152 + 128,3⟩, .exit 0, .start 0, .allocate 0 48 fun _ _ => 0]

theorem contents_of_sampleHolding : ∃ st st',
    sampleRun [.start 0, .start 1, .allocate 0 48 fun _ _ => 0] = some st ∧
    exec (step sampleConfig) Always st sampleHolding = some st' ∧
    sampleHeld ∈ st'.live ∧ st'.heap.mem (kObjectSpaceSize + 130) = 255 := by
  have hrun : ((sampleRun [.start 0, .start 1, .allocate 0 48 fun _ _ => 0]).bind fun st =>
      (exec (step sampleConfig) Always st sampleHolding).map fun _ => st.live) =
        some [sampleHeld] := by decide +kernel
  obtain ⟨st,hst,hrest⟩ := Option.bind_eq_some_iff.mp hrun
  obtain ⟨st',hst',hlive⟩ := Option.map_eq_some_iff.mp hrest
  have hne : sampleHeld ≠ ⟨kObjectSpaceSize + 2097152 + 128,3⟩ := by decide
  obtain ⟨h1,h2⟩ := contents_of_run (b := sampleHeld) (reachable_sampleRun hst) hst'
    (by simp [hlive]) (by simp [sampleHolding, hne])
  exact ⟨st,st',hst,hst',h1,h2 _ (by decide) (by decide)⟩

end Scalloc
