import Scalloc.Heap.StepCounts

/-! # Where every object is between two steps

An object of a span is with the program, in a call of `Core::Free` that has not listed it yet,
in a call that moves remote objects, on the local list or on the remote list. While a span is
deleted or constructed all its objects are on its lists.
-/
namespace Scalloc.Stepwise
open Epoch Transition

/-- The objects between `PopAll` and the local list. -/
def Pc.objects : Pc → List ℕ
  | moveTest _ objects _ => objects
  | moveLoop _ objects _ => objects
  | _ => []

/-- The span under construction, until its lists are filled. -/
def Pc.building : Pc → Option ℕ
  | newLink _ s => some s
  | newOwner _ s => some s
  | newClass _ s => some s
  | newLocal _ s => some s
  | newRemote _ s => some s
  | _ => none

/-- The span that is being deleted or constructed. -/
def Pc.closing : Pc → Option ℕ
  | remove f => some f.span
  | deleteSpan f => some f.span
  | poolPush s _ _ => some s
  | pc => pc.building

/-- Where an object can be. -/
inductive Spot
  | live
  | freeing (c : ℕ)
  | moving (c : ℕ)
  | listed
  | remote

/-- The places outside of the lists of the span. -/
def Spot.Out : Spot → Prop
  | listed => False
  | remote => False
  | _ => True

namespace State
variable (st : State)

def Building (s : ℕ) : Prop := ∃ c, (st.pc c).building = some s

def Closed (s : ℕ) : Prop := (∃ a b, s ∈ st.pool.spans a b) ∨ ∃ c, (st.pc c).closing = some s

def Lies (p : ℕ) : Spot → Prop
  | .live => p ∈ st.live
  | .freeing c => (st.pc c).freed = some p
  | .moving c => p ∈ (st.pc c).objects
  | .listed => p ∈ (st.spans (fromObject p)).locals
  | .remote => p ∈ (st.spans (fromObject p)).remotes

/-- The objects of the span. -/
def slots (s : ℕ) : List ℕ := Scalloc.slots s (st.spans s).sizeClass

end State

/-- Every object of a span is at exactly one place. -/
structure SpotInv (st : State) : Prop where
  objectClass : ∀ s, st.Known s → ¬ st.Building s → IsObjectClass (st.spans s).sizeClass
  placed : ∀ s, st.Known s → ¬ st.Building s → ∀ p ∈ st.slots s, ∃! w, st.Lies p w
  slot : ∀ p w, st.Known (fromObject p) → ¬ st.Building (fromObject p) → st.Lies p w →
    p ∈ st.slots (fromObject p)
  closed : ∀ p w, w.Out → st.Lies p w → ¬ st.Closed (fromObject p)
  live : st.live.Nodup
  lists : ∀ s, ¬ st.Building s → (st.spans s).locals.Nodup ∧ (st.spans s).remotes.Nodup
  objects : ∀ c, (st.pc c).objects.Nodup

section Frames
variable {m : Machine} {st st' X : State} {c c' s y p q sc : ℕ} {pc : Pc} {w z : Spot} {x : Header}

theorem Pc.building_closing (h : pc.building = some s) : pc.closing = some s := by
  cases pc <;> first | exact h | cases h

theorem Pc.closing_held (h : pc.closing = some s) : pc.held = some s := by
  cases pc <;> first | exact h | cases h

theorem Pc.building_held (h : pc.building = some s) : pc.held = some s :=
  Pc.closing_held (Pc.building_closing h)

theorem State.Building.closed (h : st.Building s) : st.Closed s := by
  obtain ⟨c,hc⟩ := h
  exact .inr ⟨c,Pc.building_closing hc⟩

theorem SpotInv.not_building (h : SpotInv st) (ho : w.Out) (hl : st.Lies p w) :
    ¬ st.Building (fromObject p) :=
  fun hb => h.closed p w ho hl hb.closed

theorem SpotInv.unique (h : SpotInv st) (hk : st.Known (fromObject p))
    (hb : ¬ st.Building (fromObject p)) (hl : st.Lies p w) (hl' : st.Lies p z) : w = z :=
  (h.placed _ hk hb p (h.slot p w hk hb hl)).unique hl hl'

/-- The objects of a span lead back to it. -/
theorem SpotInv.fromObject_slot (h : SpotInv st) (hi : Inv m st) (hk : st.Known s)
    (hb : ¬ st.Building s) (hp : p ∈ st.slots s) : fromObject p = s := by
  have hsc := h.objectClass s hk hb
  have hz := classToSize_pos hsc
  exact fromObject_of_slot (hi.arena.isVirtualSpan hk) hsc hp le_rfl (by omega)

/-- A step that brings the objects of a set from one place to another. -/
structure Relocates (st st' : State) (P : ℕ → Prop) (w z : Spot) : Prop where
  before : ∀ p, P p → st.Lies p w
  after : ∀ p, ¬ st'.Building (fromObject p) → ∀ v,
    st'.Lies p v ↔ P p ∧ v = z ∨ ¬ P p ∧ st.Lies p v
  known : ∀ s, st'.Known s → ¬ st'.Building s → st.Known s ∧ ¬ st.Building s ∧
    (st'.spans s).sizeClass = (st.spans s).sizeClass

theorem SpotInv.relocate {P : ℕ → Prop} (h : SpotInv st) (hi : Inv m st)
    (hr : Relocates st st' P w z)
    (hclosed : ∀ p w, w.Out → st'.Lies p w → ¬ st'.Closed (fromObject p)) (hlive : st'.live.Nodup)
    (hlists : ∀ s, ¬ st'.Building s → (st'.spans s).locals.Nodup ∧ (st'.spans s).remotes.Nodup)
    (hobjects : ∀ c, (st'.pc c).objects.Nodup) : SpotInv st' where
  objectClass := by
    intro s hk hb
    obtain ⟨hk0,hb0,hclass⟩ := hr.known s hk hb
    rw [hclass]
    exact h.objectClass s hk0 hb0
  placed := by
    intro s hk hb p hp
    obtain ⟨hk0,hb0,hclass⟩ := hr.known s hk hb
    rw [State.slots, hclass] at hp
    have hiff := hr.after p (h.fromObject_slot hi hk0 hb0 hp ▸ hb)
    by_cases hP : P p
    · refine ⟨z,(hiff z).mpr (.inl ⟨hP,rfl⟩),fun v hv => ?_⟩
      rcases (hiff v).mp hv with ⟨_,rfl⟩ | ⟨hno,_⟩
      · rfl
      · exact absurd hP hno
    · obtain ⟨v,hv,huniq⟩ := h.placed s hk0 hb0 p hp
      refine ⟨v,(hiff v).mpr (.inr ⟨hP,hv⟩),fun u hu => ?_⟩
      rcases (hiff u).mp hu with ⟨hyes,_⟩ | ⟨_,hu⟩
      · exact absurd hyes hP
      · exact huniq u hu
  slot := by
    intro p v hk hb hl
    obtain ⟨hk0,hb0,hclass⟩ := hr.known _ hk hb
    rw [State.slots, hclass]
    rcases (hr.after p hb v).mp hl with ⟨hP,_⟩ | ⟨_,hl⟩
    · exact h.slot p w hk0 hb0 (hr.before p hP)
    · exact h.slot p v hk0 hb0 hl
  closed := hclosed
  live := hlive
  lists := hlists
  objects := hobjects

theorem goto_pc_eq (hpc : X.pc = st.pc) (c' : ℕ) :
    (X.goto c pc).pc c' = if c' = c then pc else st.pc c' := by
  by_cases hc : c' = c
  · rw [hc, State.goto_pc_self, if_pos rfl]
  · rw [State.goto_pc_of_ne hc, hpc, if_neg hc]

theorem closed_goto (hpc : X.pc = st.pc) (h : (X.goto c pc).Closed s) :
    (∃ a b, s ∈ X.pool.spans a b) ∨ pc.closing = some s ∨ st.Closed s := by
  rcases h with h | ⟨c',h⟩
  · exact .inl h
  · rw [goto_pc_eq hpc] at h
    split at h
    · exact .inr (.inl h)
    · exact .inr (.inr (.inr ⟨c',h⟩))

theorem building_goto (hpc : X.pc = st.pc)
    (hbuild : ∀ s, (st.pc c).building = some s → pc.building = some s)
    (hb : ¬ (X.goto c pc).Building s) : ¬ st.Building s ∧ pc.building ≠ some s := by
  constructor
  · rintro ⟨c',h⟩
    refine hb ⟨c',?_⟩
    rw [goto_pc_eq hpc]
    split
    · next hc => exact hbuild s (hc ▸ h)
    · exact h
  · intro h
    refine hb ⟨c,?_⟩
    rw [State.goto_pc_self]
    exact h

/-- The objects outside of the lists do not depend on the headers. -/
theorem lies_goto_out (hpc : X.pc = st.pc) (hlive : X.live = st.live)
    (hfreed : pc.freed = (st.pc c).freed) (hobjects : pc.objects = (st.pc c).objects)
    (hw : w.Out) : (X.goto c pc).Lies p w ↔ st.Lies p w := by
  cases w with
  | live =>
    change p ∈ X.live ↔ p ∈ st.live
    rw [hlive]
  | freeing c' =>
    change ((X.goto c pc).pc c').freed = some p ↔ (st.pc c').freed = some p
    rw [goto_pc_eq hpc]
    split
    · next hc => rw [hfreed, hc]
    · rfl
  | moving c' =>
    change p ∈ ((X.goto c pc).pc c').objects ↔ p ∈ (st.pc c').objects
    rw [goto_pc_eq hpc]
    split
    · next hc => rw [hobjects, hc]
    · rfl
  | listed => exact hw.elim
  | remote => exact hw.elim

/-- A header as far as the objects are concerned. -/
def Header.Alike (x y : Header) : Prop :=
  y.locals = x.locals ∧ y.remotes = x.remotes ∧ y.sizeClass = x.sizeClass

/-- A step that moves no object. A span may come under construction, and one that is deleted
has no object outside of its lists. -/
theorem SpotInv.calm (h : SpotInv st) (hi : Inv m st) (hpc : X.pc = st.pc)
    (hlive : X.live = st.live) (hfreed : pc.freed = (st.pc c).freed)
    (hobjects : pc.objects = (st.pc c).objects)
    (hbuild : ∀ s, (st.pc c).building = some s → pc.building = some s)
    (hspan : ∀ s, pc.building ≠ some s → (st.spans s).Alike (X.spans s))
    (hknown : ∀ s, X.Known s → pc.building ≠ some s → st.Known s)
    (hclosed : ∀ s, (∃ a b, s ∈ X.pool.spans a b) ∨ pc.closing = some s →
      st.Closed s ∨ ∀ p w, fromObject p = s → w.Out → ¬ st.Lies p w) : SpotInv (X.goto c pc) := by
  have hout : ∀ p w, w.Out → ((X.goto c pc).Lies p w ↔ st.Lies p w) := fun p w =>
    lies_goto_out hpc hlive hfreed hobjects
  have hlies : ∀ p, ¬ (X.goto c pc).Building (fromObject p) → ∀ v,
      (X.goto c pc).Lies p v ↔ st.Lies p v := by
    intro p hb v
    obtain ⟨h1,h2,_⟩ := hspan _ (building_goto hpc hbuild hb).2
    cases v with
    | listed =>
      change p ∈ (X.spans (fromObject p)).locals ↔ _
      rw [h1]
      rfl
    | remote =>
      change p ∈ (X.spans (fromObject p)).remotes ↔ _
      rw [h2]
      rfl
    | _ => exact hout p _ trivial
  refine h.relocate hi (P := fun _ => False) (w := .live) (z := .live) ⟨fun _ => False.elim,?_,?_⟩
    ?_ ?_ ?_ ?_
  · intro p hb v
    rw [hlies p hb]
    simp
  · intro s hk hb
    obtain ⟨hb0,hne⟩ := building_goto hpc hbuild hb
    exact ⟨hknown s hk hne,hb0,(hspan s hne).2.2⟩
  · intro p v hv hl hc
    rw [hout p v hv] at hl
    have hnew : (∃ a b, fromObject p ∈ X.pool.spans a b) ∨ pc.closing = some (fromObject p) →
        False := by
      intro hc
      rcases hclosed _ hc with hc | hno
      · exact h.closed p v hv hl hc
      · exact hno p v rfl hv hl
    rcases closed_goto hpc hc with hc | hc | hc
    · exact hnew (.inl hc)
    · exact hnew (.inr hc)
    · exact h.closed p v hv hl hc
  · change X.live.Nodup
    rw [hlive]
    exact h.live
  · intro s hb
    obtain ⟨hb0,hne⟩ := building_goto hpc hbuild hb
    obtain ⟨h1,h2,_⟩ := hspan s hne
    rw [State.goto_spans, h1, h2]
    exact h.lists s hb0
  · intro c'
    rw [goto_pc_eq hpc]
    split
    · rw [hobjects]
      exact h.objects c
    · exact h.objects c'

/-- The thread has the same objects and works on the same span, or has finished its deletion. -/
structure Pc.Like (pc pc' : Pc) : Prop where
  freed : pc'.freed = pc.freed
  objects : pc'.objects = pc.objects
  building : pc'.building = pc.building
  closing : pc'.closing = none ∨ pc'.closing = pc.closing

/-- A step that changes at most epochs, owners and links. -/
theorem SpotInv.quiet (h : SpotInv st) (hi : Inv m st) (hpc : X.pc = st.pc)
    (hlive : X.live = st.live) (hpool : X.pool = st.pool) (harena : X.arena = st.arena)
    (hspan : ∀ s, (st.spans s).Alike (X.spans s)) (hlike : (st.pc c).Like pc) :
    SpotInv (X.goto c pc) := by
  refine h.calm hi hpc hlive hlike.freed hlike.objects (fun s hs => hlike.building.trans hs)
    (fun s _ => hspan s) ?_ ?_
  · intro s hk _
    rwa [State.Known, harena] at hk
  · rintro s (hs | hs)
    · rw [hpool] at hs
      exact .inl (.inl hs)
    · rcases hlike.closing with hc | hc
      · rw [hc] at hs
        cases hs
      · exact .inl (.inr ⟨c,hc.symm.trans hs⟩)

/-- A step that only reads. -/
theorem SpotInv.read (h : SpotInv st) (hi : Inv m st) (hlike : (st.pc c).Like pc) :
    SpotInv (st.goto c pc) :=
  h.quiet hi rfl rfl rfl rfl (fun _ => ⟨rfl,rfl,rfl⟩) hlike

/-- A thread outside of deletions and constructions brings objects from one place to another. -/
theorem SpotInv.shift {P : ℕ → Prop} (h : SpotInv st) (hi : Inv m st) (hpc : X.pc = st.pc)
    (hpool : X.pool = st.pool) (harena : X.arena = st.arena)
    (hclass : ∀ s, (X.spans s).sizeClass = (st.spans s).sizeClass)
    (hbuild : (st.pc c).building = none) (hclosing : pc.closing = none)
    (hbefore : ∀ p, P p → st.Lies p w)
    (hmoved : ∀ p, P p → ∀ v, (X.goto c pc).Lies p v ↔ v = z)
    (hstay : ∀ p, ¬ P p → ∀ v, (X.goto c pc).Lies p v ↔ st.Lies p v)
    (hout : z.Out → ∀ p, P p → ¬ st.Closed (fromObject p)) (hlive : X.live.Nodup)
    (hlists : ∀ s, ¬ st.Building s → (X.spans s).locals.Nodup ∧ (X.spans s).remotes.Nodup)
    (hobjects : pc.objects.Nodup) : SpotInv (X.goto c pc) := by
  have hb : ∀ s, ¬ (X.goto c pc).Building s → ¬ st.Building s := fun s hs =>
    (building_goto hpc (by simp [hbuild]) hs).1
  have hafter : ∀ p v, (X.goto c pc).Lies p v ↔ P p ∧ v = z ∨ ¬ P p ∧ st.Lies p v := by
    intro p v
    by_cases hP : P p
    · simp [hmoved p hP, hP]
    · simp [hstay p hP, hP]
  refine h.relocate hi ⟨hbefore,fun p _ v => hafter p v,?_⟩ ?_ hlive (fun s hs => hlists s (hb s hs)) ?_
  · intro s hk hs
    refine ⟨?_,hb s hs,hclass s⟩
    change X.Known s at hk
    rwa [State.Known, harena] at hk
  · intro p v hv hl hc
    have hc' : st.Closed (fromObject p) := by
      rcases closed_goto hpc hc with hc | hc | hc
      · rw [hpool] at hc
        exact .inl hc
      · rw [hclosing] at hc
        cases hc
      · exact hc
    rcases (hafter p v).mp hl with ⟨hP,rfl⟩ | ⟨_,hl⟩
    · exact hout hv p hP hc'
    · exact h.closed p v hv hl hc'
  · intro c'
    rw [goto_pc_eq hpc]
    split
    · exact hobjects
    · exact h.objects c'

theorem lies_goto_freeing (hpc : X.pc = st.pc) (c' : ℕ) : (X.goto c pc).Lies p (.freeing c') ↔
    if c' = c then pc.freed = some p else st.Lies p (.freeing c') := by
  change ((X.goto c pc).pc c').freed = some p ↔ _
  rw [goto_pc_eq hpc]
  split <;> rfl

theorem lies_goto_moving (hpc : X.pc = st.pc) (c' : ℕ) : (X.goto c pc).Lies p (.moving c') ↔
    if c' = c then p ∈ pc.objects else st.Lies p (.moving c') := by
  change p ∈ ((X.goto c pc).pc c').objects ↔ _
  rw [goto_pc_eq hpc]
  split <;> rfl

theorem Pc.Knows.freed_known (hk : pc.Knows m st c) (h : pc.freed = some p) :
    st.Known (fromObject p) := by
  cases pc <;> cases h
  · exact hk.1
  · exact hk.1.1
  · exact hk.1.1
  · exact hk.2 ▸ hk.1.used.1
  · exact hk.2 ▸ hk.1.used.1
  · exact hk.2 ▸ hk.1.used.1

theorem Pc.objects_eq (h : p ∈ pc.objects) : ∃ s objects k, p ∈ objects ∧
    (pc = .moveTest s objects k ∨ pc = .moveLoop s objects k) := by
  cases pc with
  | moveTest s objects k => exact ⟨s,objects,k,h,.inl rfl⟩
  | moveLoop s objects k => exact ⟨s,objects,k,h,.inr rfl⟩
  | _ => cases h

/-- The span of an object outside of the lists. -/
theorem Inv.known_out (hi : Inv m st) (ho : w.Out) (hl : st.Lies p w) :
    st.Known (fromObject p) := by
  cases w with
  | live => exact (hi.live p hl).1
  | freeing c => exact (hi.knows c).freed_known hl
  | moving c =>
    have hk := hi.knows c
    obtain ⟨s,objects,k,hp,hpc | hpc⟩ := Pc.objects_eq hl
    · rw [hpc] at hk
      rw [hk.2 p hp]
      exact hi.move_known (by rw [hpc]; rfl) (by rw [hpc]; rfl) hk.1
    · rw [hpc] at hk
      rw [hk.2 p hp]
      exact hi.move_known (by rw [hpc]; rfl) (by rw [hpc]; rfl) hk.1
  | listed => exact ho.elim
  | remote => exact ho.elim

/-- An object outside of the lists is at one place only. -/
theorem SpotInv.unique_out (h : SpotInv st) (hi : Inv m st) (ho : w.Out) (hl : st.Lies p w)
    (hl' : st.Lies p z) : z = w :=
  h.unique (hi.known_out ho hl) (h.not_building ho hl) hl' hl

end Frames

end Scalloc.Stepwise
