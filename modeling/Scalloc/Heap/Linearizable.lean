import Scalloc.Heap.Refinement
import Scalloc.Heap.StepClasses
import Scalloc.Lib.Atomic

/-! # `Core::Allocate` and `Core::Free` are linearizable

Whatever steps of other calls come in between, an allocation takes its block at one moment, when
it pops an object of its hot span, and a free gives its block back when it is called.
-/
namespace Scalloc.Stepwise
open Epoch Transition Allocator Atomic

/-- The operations of the program. -/
inductive Request
  | allocate (size : ℕ)
  | free (p : ℕ)

inductive Reply
  | pointer (p : ℕ)
  | void

/-- The allocator as a sequential object: an allocation takes a block with room for the request
that is apart from all held blocks, or it returns null, and a free gives a held block back. -/
inductive Serves : Store Block ℕ Unit → Request → Reply → Store Block ℕ Unit → Prop
  | allocate {σ τ : Store Block ℕ Unit} {b : Block} {size : ℕ} (hroom : size ≤ b.size)
    (htake : Step Block.foot σ (.take b) τ) : Serves σ (.allocate size) (.pointer b.start) τ
  | null {σ : Store Block ℕ Unit} {size : ℕ} : Serves σ (.allocate size) (.pointer 0) σ
  | free {σ τ : Store Block ℕ Unit} {b : Block} (hgive : Step Block.foot σ (.give b) τ) :
    Serves σ (.free b.start) .void τ

/-- What the program sees of a step. A step of a call that ends it is its return. -/
def shows (_ : State) (e : Event) (st' : State) : List (Visible ℕ Request Reply) :=
  match e with
  | .allocate c size => [.call c (.allocate size)]
  | .free c p => [.call c (.free p)]
  | .next c _ =>
    match st'.pc c with
    | .idle => [.ret c .void]
    | .done p => [.ret c (.pointer p)]
    | _ => []

/-- The class that a call of `Core::Allocate` looks for. -/
def Then.request : Then → ℕ
  | again sc => sc
  | hot g => g.sizeClass

def Pc.request : Pc → Option ℕ
  | allocate sc => some sc
  | countLocal sc => some sc
  | countEmpty sc _ => some sc
  | countLength sc _ => some sc
  | moveEmpty _ k => some k.request
  | moveLength _ k => some k.request
  | popAll _ k => some k.request
  | moveTest _ _ k => some k.request
  | moveLoop _ _ k => some k.request
  | allocateLast sc => some sc
  | floatingLoad sc => some sc
  | floatingStore sc _ => some sc
  | removeBack g => some g.sizeClass
  | takeEpoch g _ => some g.sizeClass
  | markHot g _ _ => some g.sizeClass
  | probe g _ => some g.sizeClass
  | newLink g _ => some g.sizeClass
  | newOwner g _ => some g.sizeClass
  | newClass g _ => some g.sizeClass
  | newLocal g _ => some g.sizeClass
  | newRemote g _ => some g.sizeClass
  | newEpoch g _ => some g.sizeClass
  | newMark g _ _ => some g.sizeClass
  | setHot g _ => some g.sizeClass
  | _ => none

/-- The phase of a call in the atomic object: `Core::Allocate` is not served before it returns,
and `Core::Free` is served at once. -/
def Pc.Shows (pc : Pc) (x : Phase Request Reply) : Prop :=
  match pc.request with
  | some sc => ∃ size, size ≤ kMaxMediumSize ∧ sizeToClass size = sc ∧ x = .called (.allocate size)
  | none => x = if pc.rests then .ready else .served .void

namespace State

/-- The blocks of the program. -/
def blocks (st : State) : Set Block :=
  { b | b.start ∈ st.live ∧ b.sizeClass = (st.spans (fromObject b.start)).sizeClass }

noncomputable def store (st : State) : Store Block ℕ Unit :=
  Store.ofMemory Block.foot st.blocks fun _ => ()

/-- The state of the atomic object. -/
structure Abstracts (st : State) (o : Object (Store Block ℕ Unit) ℕ Request Reply) : Prop where
  store : o.store = st.store
  phase : ∀ c, (st.pc c).Shows (o.phase c)

end State

/-- No step is disturbed, no epoch wraps, and spans are linked and taken for their class. -/
def Steady (st : State) (e : Event) : Prop := Sane st e ∧ Classed st e

instance (st : State) (e : Event) : Decidable (Steady st e) := inferInstanceAs (Decidable (_ ∧ _))

structure LinearInv (m : Machine) (st : State) : Prop where
  safe : SafeInv m st
  classes : ClassInv st

section Steps
variable {m : Machine} {st st' X : State} {c p s sc : ℕ} {pc : Pc}
  {o : Object (Store Block ℕ Unit) ℕ Request Reply} {vs : List (Visible ℕ Request Reply)}

theorem LinearInv.step {e : Event} (h : LinearInv m st) (hok : Steady st e)
    (hs : Stepwise.step m st e = some st') : LinearInv m st' where
  safe := h.safe.step hok.1 hs
  classes := h.classes.step h.safe.inv hok.2 hs

theorem linear_init (m : Machine) (l : Layout) : LinearInv m (init m l) where
  safe := safe_init m l
  classes := by
    refine ⟨?_,?_,?_⟩
    · intro c sc hne
      exact absurd rfl hne
    · intro c sc s hs
      exact absurd hs List.not_mem_nil
    · intro c s sc h
      cases h

/-- The block of an object of the program. -/
theorem State.mem_blocks (hp : p ∈ st.live) : ⟨p,(st.spans (fromObject p)).sizeClass⟩ ∈ st.blocks :=
  ⟨hp,rfl⟩

theorem LinearInv.apart (h : LinearInv m st) {b b' : Block} (hb : b ∈ st.blocks)
    (hp : st.IsObject b'.start) (hclass : b'.sizeClass = (st.spans (fromObject b'.start)).sizeClass)
    (hne : b.start ≠ b'.start) : Disjoint b.foot b'.foot := by
  refine Scalloc.Apart.disjoint ?_
  have ha := h.safe.apart (h.safe.isObject_live hb.1) hp hne
  rwa [State.sizeAt, State.sizeAt, ← hb.2, ← hclass] at ha

theorem LinearInv.foot_nonempty (h : LinearInv m st) {b : Block} (hp : st.IsObject b.start)
    (hclass : b.sizeClass = (st.spans (fromObject b.start)).sizeClass) : b.foot.Nonempty := by
  have hz := classToSize_pos (h.safe.objectClass hp)
  refine ⟨b.start,le_rfl,?_⟩
  rw [Block.size, hclass]
  omega

/-- The span of a live object keeps its class. -/
theorem LinearInv.class_eq (h : LinearInv m st) (hst : Sorts st st' c) (hp : p ∈ st.live) :
    (st'.spans (fromObject p)).sizeClass = (st.spans (fromObject p)).sizeClass := by
  refine (hst.sizeClass _).resolve_right ?_
  rintro ⟨g,hpc⟩
  exact h.safe.spots.closed p .live trivial hp (.inr ⟨c,by rw [hpc]; rfl⟩)

theorem LinearInv.blocks_eq (h : LinearInv m st) (hst : Sorts st st' c)
    (hlive : st'.live = st.live) : st'.blocks = st.blocks := by
  ext b
  unfold State.blocks
  rw [Set.mem_ofPred_eq, Set.mem_ofPred_eq, hlive]
  exact and_congr_right fun hb => by rw [h.class_eq hst hb]

/-- A call of `Core::Free` gives the block back. -/
theorem LinearInv.give (h : LinearInv m st) (hp : p ∈ st.live)
    (hspans : X.spans = st.spans) (hlive : X.live = st.live.erase p) :
    Serves st.store (.free p) .void X.store := by
  obtain ⟨b,hb⟩ : ∃ b, b = (⟨p,(st.spans (fromObject p)).sizeClass⟩ : Block) := ⟨_,rfl⟩
  have hmem : b ∈ st.blocks := hb ▸ State.mem_blocks hp
  have hset : X.blocks = st.blocks \ {b} := by
    ext x
    unfold State.blocks
    rw [Set.mem_sdiff, Set.mem_singleton_iff, Set.mem_ofPred_eq, Set.mem_ofPred_eq, hspans, hlive,
      h.safe.spots.live.mem_erase_iff]
    constructor
    · rintro ⟨⟨hne,hx⟩,hclass⟩
      exact ⟨⟨hx,hclass⟩,fun he => hne (by rw [he, hb])⟩
    · rintro ⟨⟨hx,hclass⟩,hne⟩
      refine ⟨⟨fun he => hne ?_,hx⟩,hclass⟩
      rw [hb, ← he, ← hclass]
  have hgive : Step Block.foot st.store (.give b) X.store := by
    rw [State.store, State.store, hset]
    refine step_give hmem (fun x hx hne => ?_) fun _ _ _ _ => rfl
    refine h.apart hx (h.safe.isObject_live hmem.1) hmem.2 fun he => hne ?_
    have hclass := hx.2
    rw [he, ← hmem.2] at hclass
    cases x
    cases b
    simp_all
  have hstart : b.start = p := by rw [hb]
  rw [← hstart]
  exact .free hgive

/-- A call of `Core::Allocate` pops an object of a span of its class. -/
theorem LinearInv.take {l : List ℕ} {size : ℕ} (h : LinearInv m st) (hst : Sorts st X c)
    (hk : st.Known s) (hc : ¬ st.Closed s) (hclass : (st.spans s).sizeClass = sc)
    (hl : (st.spans s).locals = p :: l) (hlive : X.live = p :: st.live)
    (hspans : (X.spans s).sizeClass = sc) (hroom : size ≤ classToSize sc) :
    Serves st.store (.allocate size) (.pointer p) X.store := by
  have hb : ¬ st.Building s := fun hb => hc hb.closed
  have hfrom : fromObject p = s :=
    h.safe.inv.lists s p (.inl (by rw [hl]; exact List.mem_cons_self))
  have hlies : st.Lies p .listed := by
    rw [State.Lies, hfrom, hl]
    exact List.mem_cons_self
  have hobj : st.IsObject p := h.safe.isObject (hfrom.symm ▸ hk) (hfrom.symm ▸ hb) hlies
  have hnot : p ∉ st.live := fun hm => by
    have he := h.safe.spots.unique_out h.safe.inv (w := .live) trivial hm hlies
    cases he
  obtain ⟨b,hbp⟩ : ∃ b, b = (⟨p,sc⟩ : Block) := ⟨_,rfl⟩
  have hstart : b.start = p := by rw [hbp]
  have hbclass : b.sizeClass = (st.spans (fromObject b.start)).sizeClass := by
    rw [hstart, hfrom, hclass, hbp]
  have hset : X.blocks = insert b st.blocks := by
    ext x
    unfold State.blocks
    rw [Set.mem_insert_iff, Set.mem_ofPred_eq, Set.mem_ofPred_eq, hlive, List.mem_cons]
    constructor
    · rintro ⟨hx | hx,hxc⟩
      · refine .inl ?_
        rw [hx, hfrom, hspans] at hxc
        rw [hbp, ← hx, ← hxc]
      · exact .inr ⟨hx,hxc.trans (h.class_eq hst hx)⟩
    · rintro (rfl | ⟨hx,hxc⟩)
      · refine ⟨.inl hstart,?_⟩
        rw [hstart, hfrom, hspans, hbp]
      · exact ⟨.inr hx,hxc.trans (h.class_eq hst hx).symm⟩
  have htake : Step Block.foot st.store (.take b) X.store := by
    rw [State.store, State.store, hset]
    refine step_take (h.foot_nonempty (hstart.symm ▸ hobj) hbclass) ?_ fun _ _ _ _ => rfl
    intro x hx
    refine h.apart hx (hstart.symm ▸ hobj) hbclass ?_
    rintro he
    exact hnot (hstart ▸ he ▸ hx.1)
  rw [← hstart]
  refine .allocate ?_ htake
  rw [Block.size, hbp]
  exact hroom

theorem Pc.shows_of_request (h : pc.request = (st.pc c).request) (hrests : pc.rests = (st.pc c).rests)
    {x : Phase Request Reply} (hx : (st.pc c).Shows x) : pc.Shows x := by
  unfold Pc.Shows at hx ⊢
  rw [h, hrests]
  exact hx

namespace State.Abstracts

/-- A step that the program does not see. -/
theorem silent (ha : st.Abstracts o) (hpc : ∀ c', c' ≠ c → st'.pc c' = st.pc c')
    (hstore : st'.store = st.store) (hshows : ∀ x, (st.pc c).Shows x → (st'.pc c).Shows x) :
    st'.Abstracts o where
  store := ha.store.trans hstore.symm
  phase := by
    intro c'
    by_cases hc : c' = c
    · rw [hc]
      exact hshows _ (ha.phase c)
    · rw [hpc c' hc]
      exact ha.phase c'

/-- The step after which a client is in the phase `x`. -/
theorem goto {x : Phase Request Reply} (ha : st.Abstracts o)
    (hpc : ∀ c', c' ≠ c → st'.pc c' = st.pc c') (hx : (st'.pc c).Shows x) :
    st'.Abstracts ({ o with store := st'.store }.goto c x) where
  store := rfl
  phase := by
    intro c'
    by_cases hc : c' = c
    · rw [hc, Object.goto_self]
      exact hx
    · rw [Object.goto_of_ne hc, hpc c' hc]
      exact ha.phase c'

/-- `Core::Free` returns. -/
theorem ret (ha : st.Abstracts o) (hpc : ∀ c', c' ≠ c → st'.pc c' = st.pc c')
    (hstore : st'.store = st.store) (hrequest : (st.pc c).request = none)
    (hrests : (st.pc c).rests = false) (hidle : st'.pc c = .idle) :
    ∃ o', History Serves o [.ret c .void] o' ∧ st'.Abstracts o' := by
  have hphase := ha.phase c
  rw [Pc.Shows, hrequest, hrests] at hphase
  refine ⟨_,.ret hphase .nil,?_⟩
  have hg := ha.goto (x := .ready) hpc (by rw [hidle]; rfl)
  rwa [hstore, ← ha.store] at hg

/-- `Core::Allocate` is served and returns. -/
theorem served (ha : st.Abstracts o) (hpc : ∀ c', c' ≠ c → st'.pc c' = st.pc c')
    (hrequest : (st.pc c).request = some sc) (hdone : st'.pc c = .done p)
    (hserves : ∀ size, size ≤ classToSize sc →
      Serves st.store (.allocate size) (.pointer p) st'.store) :
    ∃ o', History Serves o [.ret c (.pointer p)] o' ∧ st'.Abstracts o' := by
  have hphase := ha.phase c
  rw [Pc.Shows, hrequest] at hphase
  obtain ⟨size,hsize,hclass,hphase⟩ := hphase
  have hserve := hserves size (hclass ▸ le_classToSize_sizeToClass hsize)
  rw [← ha.store] at hserve
  refine ⟨_,.serve hphase hserve (.ret Object.goto_self .nil),?_⟩
  have hg := ha.goto (x := .ready) hpc (by rw [hdone]; rfl)
  simpa only [Object.goto, Function.update_idem] using hg

end State.Abstracts

/-- A step of `Core::Free` changes no block, and the call goes on or returns. -/
theorem freeStep_shows (hs : freeStep m st c = some st') :
    (st.pc c).request = none ∧ (st.pc c).rests = false ∧ st'.live = st.live ∧
      ((st'.pc c).request = none ∧ (st'.pc c).rests = false ∨ st'.pc c = .idle) := by
  have hsettle : ∀ n f, (m.settle n f).request = none ∧ (m.settle n f).rests = false ∨
      m.settle n f = .idle := by
    intro n f
    rcases settle_cases m n f with ⟨h,_⟩ | h | h
    · exact .inl (by rw [h]; exact ⟨rfl,rfl⟩)
    · exact .inl (by rw [h]; exact ⟨rfl,rfl⟩)
    · exact .inr h
  cases hpc : st.pc c <;> simp only [freeStep, hpc, reduceCtorEq] at hs <;>
    refine ⟨rfl,rfl,?_⟩ <;> repeat' split at hs
  all_goals
    cases hs
    rw [State.goto_pc_self]
    refine ⟨rfl,?_⟩
    first
      | exact .inl ⟨rfl,rfl⟩
      | exact .inr rfl
      | exact hsettle _ _

/-- How a step of `Core::Allocate` ends: the call goes on, it returns null, or it returns an
object that it pops from its hot span. -/
inductive Goes (st st' : State) (c sc : ℕ) : Prop
  | on (hrequest : (st'.pc c).request = some sc) (hlive : st'.live = st.live)
  | null (hdone : st'.pc c = .done 0) (hlive : st'.live = st.live)
  | pops {p : ℕ} {l : List ℕ} (hfetch : (st.pc c).fetching = none) (hne : st.hot c sc ≠ 0)
    (hclosing : (st.pc c).closing = none) (hlocals : (st.spans (st.hot c sc)).locals = p :: l)
    (hdone : st'.pc c = .done p) (hlive : st'.live = p :: st.live)

theorem goes_popLocal {empty : Pc} (hfetch : (st.pc c).fetching = none) (hne : st.hot c sc ≠ 0)
    (hclosing : (st.pc c).closing = none) (hempty : empty.request = some sc ∨ empty = .done 0) :
    Goes st (popLocal st c sc empty) c sc := by
  unfold popLocal
  split
  · rcases hempty with h | h
    · exact .on (by rw [State.goto_pc_self, h]) rfl
    · exact .null (by rw [State.goto_pc_self, h]) rfl
  · next p l hl => exact .pops hfetch hne hclosing hl (State.goto_pc_self ..) rfl

theorem Then.pc_request (s : ℕ) (k : Then) : (k.pc s).request = some k.request := by
  cases k <;> rfl

theorem allocateStep_goes (hi : Inv m st) (hs : allocateStep m st c = some st') :
    ∃ sc, (st.pc c).request = some sc ∧ Goes st st' c sc := by
  have hknows := hi.knows c
  cases hpc : st.pc c <;> simp only [allocateStep, hpc, reduceCtorEq] at hs
  case allocate sc =>
    rw [hpc] at hknows
    cases hs
    exact ⟨sc,rfl,goes_popLocal (by rw [hpc]; rfl) hknows.2 (by rw [hpc]; rfl) (.inl rfl)⟩
  case allocateLast sc =>
    rw [hpc] at hknows
    cases hs
    exact ⟨sc,rfl,goes_popLocal (by rw [hpc]; rfl) hknows (by rw [hpc]; rfl) (.inr rfl)⟩
  all_goals
    refine ⟨_,rfl,?_⟩
    repeat' split at hs
    all_goals
      cases hs
      refine .on ?_ rfl
      rw [State.goto_pc_self]
      first
        | rfl
        | exact Then.pc_request _ _
        | (unfold Machine.retire; split <;> rfl)

theorem fetchStep_goes {rand : ℕ → ℕ} (hs : fetchStep m st c rand = some st') :
    ∃ sc, (st.pc c).request = some sc ∧ Goes st st' c sc := by
  have hon : ∀ {X : State} {pc : Pc} {sc : ℕ}, pc.request = some sc → X.live = st.live →
      Goes st (X.goto c pc) c sc := fun hrequest hlive =>
    .on (by rw [State.goto_pc_self, hrequest]) hlive
  cases hpc : st.pc c
  case probe g rest =>
    refine ⟨g.sizeClass,rfl,?_⟩
    cases rest with
    | nil =>
      simp only [fetchStep, hpc] at hs
      split at hs
      · cases hs
        exact hon rfl rfl
      · cases hs
    | cons q rest =>
      obtain ⟨a,b⟩ := q
      simp only [fetchStep, hpc] at hs
      split at hs <;>
      · cases hs
        exact hon rfl rfl
  case setHot g s =>
    refine ⟨g.sizeClass,rfl,?_⟩
    simp only [fetchStep, hpc] at hs
    split at hs
    · cases hs
      exact hon rfl rfl
    · split at hs
      · cases hs
        exact .null (State.goto_pc_self ..) rfl
      · cases hs
        exact hon rfl rfl
  all_goals simp only [fetchStep, hpc, reduceCtorEq] at hs
  all_goals
    refine ⟨_,rfl,?_⟩
    repeat' split at hs
    all_goals
      cases hs
      exact hon rfl rfl

/-- The atomic object follows every step. -/
theorem LinearInv.follows {e : Event} (h : LinearInv m st) (ha : st.Abstracts o)
    (hs : Stepwise.step m st e = some st') :
    ∃ o', History Serves o (shows st e st') o' ∧ st'.Abstracts o' := by
  have hi := h.safe.inv
  cases e with
  | allocate c size =>
    rw [Stepwise.step] at hs
    split at hs
    · next hcall =>
      cases hs
      have hphase := ha.phase c
      have hready : o.phase c = .ready := by
        cases hpc : st.pc c <;> rw [hpc] at hphase hcall <;> first
          | exact hphase
          | cases hcall.2.1
      generalize hpc : (if st.hot c (sizeToClass size) = 0 then Pc.removeBack ⟨sizeToClass size,true⟩
        else .allocate (sizeToClass size)) = pc
      refine ⟨_,.call hready .nil,?_⟩
      have hg : (st.goto c pc).Abstracts
          ({ o with store := st.store }.goto c (.called (.allocate size))) := by
        refine ha.goto (fun c' hc => State.goto_pc_of_ne hc) ?_
        rw [State.goto_pc_self, ← hpc]
        split <;> exact ⟨size,hcall.2.2.2,rfl,rfl⟩
      rwa [← ha.store] at hg
    · cases hs
  | free c p =>
    rw [Stepwise.step] at hs
    split at hs
    · next hcall =>
      cases hs
      have hphase := ha.phase c
      have hready : o.phase c = .ready := by
        cases hpc : st.pc c <;> rw [hpc] at hphase hcall <;> first
          | exact hphase
          | cases hcall.2.1
      have hgive : Serves st.store (.free p) .void
          ({ st with live := st.live.erase p }.goto c (.loadEpoch p)).store :=
        h.give hcall.2.2 rfl rfl
      rw [← ha.store] at hgive
      refine ⟨_,.call hready (.serve Object.goto_self hgive .nil),?_⟩
      have hg : ({ st with live := st.live.erase p }.goto c (.loadEpoch p)).Abstracts
          ({ o with store := ({ st with live := st.live.erase p }.goto c (.loadEpoch p)).store }.goto c
            (.served .void)) :=
        ha.goto (fun c' hc => State.goto_pc_of_ne hc) (by rw [State.goto_pc_self]; rfl)
      simpa only [Object.goto, Function.update_idem] using hg
    · cases hs
  | next c rand =>
    have hsorts : Sorts st st' c := by
      rcases step_next hs with hs | hs | hs
      · exact .freeStep hs
      · exact .allocateStep hs
      · exact .fetchStep hs
    have hstore : st'.live = st.live → st'.store = st.store := fun hlive => by
      rw [State.store, State.store, h.blocks_eq hsorts hlive]
    have hquiet : (∀ p, st'.pc c ≠ .done p) → st'.pc c ≠ .idle →
        shows st (.next c rand) st' = [] := by
      intro hdone hidle
      rw [shows]
      split
      · next h => exact absurd h hidle
      · next p h => exact absurd h (hdone p)
      · rfl
    rcases step_next hs with hs | hs
    · obtain ⟨hreq,hrests,hlive,hend | hend⟩ := freeStep_shows hs
      · rw [hquiet (fun p hp => by rw [hp] at hend; cases hend.2)
          fun hp => by rw [hp] at hend; cases hend.2]
        refine ⟨o,.nil,ha.silent hsorts.pc (hstore hlive) fun x hx => ?_⟩
        exact Pc.shows_of_request (hend.1.trans hreq.symm) (hend.2.trans hrests.symm) hx
      · rw [shows, hend]
        exact ha.ret hsorts.pc (hstore hlive) hreq hrests hend
    · obtain ⟨sc,hreq,hgoes⟩ : ∃ sc, (st.pc c).request = some sc ∧ Goes st st' c sc := by
        rcases hs with hs | hs
        · exact allocateStep_goes hi hs
        · exact fetchStep_goes hs
      cases hgoes with
      | on hrequest hlive =>
        rw [hquiet (fun p hp => by rw [hp] at hrequest; cases hrequest)
          fun hp => by rw [hp] at hrequest; cases hrequest]
        refine ⟨o,.nil,ha.silent hsorts.pc (hstore hlive) fun x hx => ?_⟩
        unfold Pc.Shows at hx ⊢
        rw [hreq] at hx
        rw [hrequest]
        exact hx
      | null hdone hlive =>
        rw [shows, hdone]
        refine ha.served hsorts.pc hreq hdone fun size _ => ?_
        rw [hstore hlive]
        exact .null
      | @pops p l hfetch hne hclosing hlocals hdone hlive =>
        rw [shows, hdone]
        refine ha.served hsorts.pc hreq hdone fun size hroom => ?_
        have hslot : st.slot c sc = st.hot c sc := by
          rw [State.slot, hfetch]
          rfl
        have hclass := h.classes.slot c sc (hslot.symm ▸ hne)
        rw [hslot] at hclass
        have hk := (hi.at_slot hfetch hne).1
        have hc := hi.not_closed hk (has_hot hfetch) hclosing
        refine h.take hsorts hk hc hclass hlocals hlive ?_ hroom
        rcases hsorts.sizeClass (st.hot c sc) with hsame | ⟨g,hpc⟩
        · exact hsame.trans hclass
        · rw [hpc] at hclosing
          cases hclosing

end Steps

/-- The atomic object of a program that has no blocks. -/
def start : Object (Store Block ℕ Unit) ℕ Request Reply := ⟨Store.empty,fun _ => .ready⟩

theorem abstracts_init (m : Machine) (l : Layout) : (init m l).Abstracts start where
  store := by
    refine Store.ext ?_ (funext fun a => ?_)
    · ext b
      simp [start, State.store, State.blocks, Store.ofMemory, Store.empty, init]
    · simp [start, State.store, State.blocks, Store.ofMemory, Store.empty, init]
  phase := fun _ => rfl

/-- Every run in which no step is disturbed, no epoch wraps and spans are linked and taken for
their class is linearizable: what the program sees of it is a history of the atomic allocator. -/
theorem linearizable_of_run {m : Machine} {l : Layout} {es : List Event} {st : State}
    (h : Run (step m) Steady (init m l) es st) :
    ∃ o, History Serves start (visible (step m) shows (init m l) es) o ∧ o.store = st.store := by
  have hstep : ∀ s e t o, LinearInv m s ∧ s.Abstracts o → Steady s e → step m s e = some t →
      ∃ o', History Serves o (shows s e t) o' ∧ LinearInv m t ∧ t.Abstracts o' := by
    rintro s e t o ⟨hi,ha⟩ hok hs
    obtain ⟨o',hist,ha'⟩ := hi.follows ha hs
    exact ⟨o',hist,hi.step hok hs,ha'⟩
  obtain ⟨o,hist,_,ha⟩ := history_of_run hstep h ⟨linear_init m l,abstracts_init m l⟩
  exact ⟨o,hist,ha.store⟩

/-- Three threads share a span that is linked, deleted and taken from the pool again. -/
theorem linearizable_reusedEvents : ∃ st o,
    Run (step sampleMachine) Steady (init sampleMachine sampleLayout) reusedEvents st ∧
    History Serves start
      (visible (step sampleMachine) shows (init sampleMachine sampleLayout) reusedEvents) o ∧
    o.store = st.store := by
  have hrun : (exec (step sampleMachine) Steady (init sampleMachine sampleLayout)
      reusedEvents).isSome = true := by decide +kernel
  obtain ⟨st,hst⟩ := Option.isSome_iff_exists.mp hrun
  have hr := run_of_exec hst
  obtain ⟨o,hist,ho⟩ := linearizable_of_run hr
  exact ⟨st,o,hr,hist,ho⟩

end Scalloc.Stepwise
