import Scalloc.Base.Arena
import Scalloc.Glue.Memalign
import Scalloc.Lib.Transition

/-! # Initialisation before use

The globals are zero until `ScallocInit` has run. Only `scalloc_malloc` and the constructor of
`StartupExitHook` look at the reference count; every other entry point goes straight to the
thread's core, which is null before the initialisation. A process that dereferences null, or
divides by zero, makes no further call.
-/
namespace Scalloc.Startup
open Transition

/-- What the calls find: the object space that `Init` maps, the core that the first thread gets,
and the size that the header of a live block tells. -/
structure Env where
  objectSpace : Arena
  core : ℕ
  oldSize : ℕ → ℕ
  core_ne : core ≠ 0

/-- The globals of the allocator, the blocks of the program, and what went wrong. -/
structure State where
  scallocGuardRefcount : ℕ
  objectSpace : Arena
  ab : ℕ
  seenMemalign : ℕ
  inits : ℕ
  constructed : Bool
  live : List ℕ
  early : Bool
  halted : Bool
deriving DecidableEq, Repr

/-- Zeroed globals. -/
def new : State := ⟨0,⟨0,0,0,0⟩,0,0,0,false,[],false,false⟩

def scallocInit (env : Env) (st : State) : State :=
  { st with
    objectSpace := env.objectSpace
    ab := if st.ab = 0 then env.core else st.ab
    inits := st.inits + 1 }

/-- `ScallocGuard::ScallocGuard`. -/
def scallocGuard (env : Env) (st : State) : State :=
  let refcount := st.scallocGuardRefcount
  let st := { st with scallocGuardRefcount := refcount + 1, constructed := true }
  if refcount = 0 then scallocInit env st else st

/-- A use of the core or of the arenas, noted if it comes too early. -/
def State.use (st : State) : State := { st with early := st.early || st.inits == 0 }

/-- `GetAB`, and the access to what it returns. -/
def State.getAB (st : State) : State := { st.use with halted := st.halted || st.ab == 0 }

def State.seeMemalign (st : State) : State :=
  if st.seenMemalign = 0 then { st with seenMemalign := 1 } else st

/-- The state and a returned pointer; 0 is `NULL`. -/
abbrev Returned := State × ℕ

section Glue
variable (env : Env) (block : ℕ)

/-- `scalloc::malloc`, where `Core::Allocate` serves a request other than 0 with `block`. -/
def malloc (size : ℕ) (st : State) : Returned :=
  let st := st.getAB
  if st.halted then (st,0) else if size = 0 then (st,0) else (st.use,block)

def free (p : ℕ) (st : State) : State :=
  if st.objectSpace.contains p then { st.getAB with live := st.live.erase p }
  else if p = 0 then st
  else { st with live := st.live.erase p }

def calloc (nmemb size : ℕ) (st : State) : Returned :=
  let mallocSize := nmemb * size % kWord
  if size ≠ 0 ∧ mallocSize / size ≠ nmemb then (st,0) else malloc block mallocSize st

def realloc (ptr size : ℕ) (st : State) : Returned :=
  if ptr = 0 then malloc block size st
  else if size ≤ env.oldSize ptr then (st,ptr)
  else
    let r := malloc block size st
    if r.2 = 0 then r else (free ptr r.1,r.2)

/-- `posix_memalign`; no pointer is the error `ENOMEM`. -/
def posixMemalign (align size : ℕ) (st : State) : State × Option ℕ :=
  let st := st.seeMemalign
  if size = 0 then (st,some 0)
  else
    let r := malloc block ((align + size) % kWord) st
    if r.2 = 0 then (r.1,none)
    else if align = 0 then ({ r.1 with halted := true },none)
    else (r.1,some (Glue.newStart r.2 align))

def memalign (align size : ℕ) (st : State) : Returned :=
  let r := posixMemalign block align size st
  (r.1,r.2.getD 0)

def alignedAlloc (align size : ℕ) (st : State) : Returned :=
  if align = 0 then ({ st with halted := true },0)
  else if size % align ≠ 0 then (st,0)
  else memalign block align size st

def valloc (size : ℕ) (st : State) : Returned := memalign block kPageSize size st

def pvalloc (size : ℕ) (st : State) : Returned := memalign block kPageSize (padSize size kPageSize) st

/-- `scalloc_malloc`, the one entry point with a check. -/
def scallocMalloc (size : ℕ) (st : State) : Returned :=
  if st.scallocGuardRefcount = 0 then
    malloc block size
      (scallocInit env { st with scallocGuardRefcount := st.scallocGuardRefcount + 1 })
  else malloc block size st

end Glue

/-- The exported entry points with their arguments, and the global constructor. -/
inductive Call
  | malloc (size : ℕ)
  | calloc (nmemb size : ℕ)
  | realloc (ptr size : ℕ)
  | memalign (align size : ℕ)
  | alignedAlloc (align size : ℕ)
  | posixMemalign (align size : ℕ)
  | valloc (size : ℕ)
  | pvalloc (size : ℕ)
  | free (p : ℕ)
  | startupExitHook
deriving DecidableEq, Repr

/-- A call, and the block that the core allocates in it. -/
structure Event where
  call : Call
  block : ℕ
deriving DecidableEq, Repr

def Call.run (env : Env) (block : ℕ) (st : State) : Call → Returned
  | malloc size => scallocMalloc env block size st
  | calloc nmemb size => Startup.calloc block nmemb size st
  | realloc ptr size => Startup.realloc env block ptr size st
  | memalign align size => Startup.memalign block align size st
  | alignedAlloc align size => Startup.alignedAlloc block align size st
  | posixMemalign align size =>
    let r := Startup.posixMemalign block align size st
    (r.1,r.2.getD 0)
  | valloc size => Startup.valloc block size st
  | pvalloc size => Startup.pvalloc block size st
  | free p => (Startup.free p st,0)
  | startupExitHook => (scallocGuard env st,0)

/-- Pointers are null or live, and the constructor runs once. -/
def Call.Valid (st : State) : Call → Prop
  | realloc ptr _ => ptr = 0 ∨ ptr ∈ st.live
  | free p => p = 0 ∨ p ∈ st.live
  | startupExitHook => st.constructed = false
  | _ => True

instance (st : State) : ∀ c : Call, Decidable (c.Valid st)
  | .realloc _ _ => inferInstanceAs (Decidable (_ ∨ _))
  | .free _ => inferInstanceAs (Decidable (_ ∨ _))
  | .startupExitHook => inferInstanceAs (Decidable (_ = _))
  | .malloc _ => .isTrue trivial
  | .calloc _ _ => .isTrue trivial
  | .memalign _ _ => .isTrue trivial
  | .alignedAlloc _ _ => .isTrue trivial
  | .posixMemalign _ _ => .isTrue trivial
  | .valloc _ => .isTrue trivial
  | .pvalloc _ => .isTrue trivial

/-- The program keeps the returned pointer. -/
def keep (r : Returned) : State :=
  if r.2 = 0 ∨ r.2 ∈ r.1.live then r.1 else { r.1 with live := r.2 :: r.1.live }

def step (env : Env) (st : State) (e : Event) : Option State :=
  if st.halted = false ∧ e.call.Valid st then some (keep (e.call.run env e.block st)) else none

/-- The call goes on to the core without a check of the reference count. -/
def Call.Unchecked : Call → Prop
  | calloc nmemb size => ¬ (size ≠ 0 ∧ nmemb * size % kWord / size ≠ nmemb)
  | realloc ptr _ => ptr = 0
  | memalign _ size => size ≠ 0
  | alignedAlloc align size => align ≠ 0 ∧ size % align = 0 ∧ size ≠ 0
  | posixMemalign _ size => size ≠ 0
  | valloc size => size ≠ 0
  | pvalloc size => padSize size kPageSize ≠ 0
  | _ => False

instance : ∀ c : Call, Decidable c.Unchecked
  | .calloc _ _ => inferInstanceAs (Decidable (¬ _))
  | .realloc _ _ => inferInstanceAs (Decidable (_ = _))
  | .memalign _ _ => inferInstanceAs (Decidable (_ ≠ _))
  | .alignedAlloc _ _ => inferInstanceAs (Decidable (_ ∧ _))
  | .posixMemalign _ _ => inferInstanceAs (Decidable (_ ≠ _))
  | .valloc _ => inferInstanceAs (Decidable (_ ≠ _))
  | .pvalloc _ => inferInstanceAs (Decidable (_ ≠ _))
  | .malloc _ => .isFalse id
  | .free _ => .isFalse id
  | .startupExitHook => .isFalse id

/-- An unchecked call comes after a `scalloc_malloc` or the constructor. -/
def Guarded (st : State) (e : Event) : Prop := e.call.Unchecked → st.scallocGuardRefcount ≠ 0

instance (st : State) (e : Event) : Decidable (Guarded st e) := inferInstanceAs (Decidable (_ → _))

/-- The initialisation has not run and nothing was allocated. -/
structure Fresh (st : State) : Prop where
  refcount : st.scallocGuardRefcount = 0
  objectSpace : st.objectSpace = ⟨0,0,0,0⟩
  ab : st.ab = 0
  inits : st.inits = 0
  live : st.live = []
  early : st.early = false

/-- The initialisation has run once, before any use. -/
structure Ready (st : State) : Prop where
  refcount : st.scallocGuardRefcount ≠ 0
  ab : st.ab ≠ 0
  inits : st.inits = 1
  early : st.early = false

/-- The core was used too early, which ends the process. -/
structure Spoiled (st : State) : Prop where
  early : st.early = true
  halted : st.halted = true

/-- What a call makes of a fresh allocator: an unchecked one spoils it and returns null, the
others leave it fresh or make it ready. -/
structure FromFresh (unchecked : Prop) (r : Returned) : Prop where
  spoils : unchecked → r.2 = 0 ∧ Spoiled r.1
  spares : ¬ unchecked → r.2 = 0 ∧ Fresh r.1 ∨ Ready r.1

theorem fresh_new : Fresh new := ⟨rfl,rfl,rfl,rfl,rfl,rfl⟩

section Ready
variable {env : Env} {st : State} {block : ℕ}

theorem Ready.use (h : Ready st) : Ready st.use :=
  ⟨h.refcount,h.ab,h.inits,by simp [State.use, h.early, h.inits]⟩

theorem Ready.getAB (h : Ready st) : Ready st.getAB :=
  ⟨h.refcount,h.ab,h.inits,h.use.early⟩

theorem Ready.malloc (h : Ready st) (size : ℕ) : Ready (malloc block size st).1 := by
  unfold Startup.malloc
  dsimp only
  split
  · exact h.getAB
  · split
    · exact h.getAB
    · exact h.getAB.use

theorem Ready.free (h : Ready st) (p : ℕ) : Ready (free p st) := by
  unfold Startup.free
  split
  · exact ⟨h.refcount,h.ab,h.inits,h.getAB.early⟩
  · split
    · exact h
    · exact ⟨h.refcount,h.ab,h.inits,h.early⟩

theorem Ready.realloc (h : Ready st) (ptr size : ℕ) : Ready (realloc env block ptr size st).1 := by
  unfold Startup.realloc
  split
  · exact h.malloc size
  · split
    · exact h
    · dsimp only
      split
      · exact h.malloc size
      · exact (h.malloc size).free ptr

theorem Ready.posixMemalign (h : Ready st) (align size : ℕ) :
    Ready (posixMemalign block align size st).1 := by
  have hseen : Ready st.seeMemalign := by
    unfold State.seeMemalign
    split
    · exact ⟨h.refcount,h.ab,h.inits,h.early⟩
    · exact h
  have hm : Ready (Startup.malloc block ((align + size) % kWord) st.seeMemalign).1 := hseen.malloc _
  unfold Startup.posixMemalign
  dsimp only
  split
  · exact hseen
  · split
    · exact hm
    · split
      · exact ⟨hm.refcount,hm.ab,hm.inits,hm.early⟩
      · exact hm

theorem Ready.alignedAlloc (h : Ready st) (align size : ℕ) :
    Ready (alignedAlloc block align size st).1 := by
  unfold Startup.alignedAlloc
  split
  · exact ⟨h.refcount,h.ab,h.inits,h.early⟩
  · split
    · exact h
    · exact h.posixMemalign align size

theorem Ready.run (h : Ready st) (c : Call) : Ready (c.run env block st).1 := by
  cases c with
  | malloc size =>
    simp only [Call.run, scallocMalloc, if_neg h.refcount]
    exact h.malloc size
  | calloc nmemb size =>
    simp only [Call.run, calloc]
    split
    · exact h
    · exact h.malloc _
  | realloc ptr size => exact h.realloc ptr size
  | memalign align size => exact h.posixMemalign align size
  | alignedAlloc align size => exact h.alignedAlloc align size
  | posixMemalign align size => exact h.posixMemalign align size
  | valloc size => exact h.posixMemalign kPageSize size
  | pvalloc size => exact h.posixMemalign kPageSize _
  | free p => exact h.free p
  | startupExitHook =>
    simp only [Call.run, scallocGuard, if_neg h.refcount]
    exact ⟨Nat.succ_ne_zero _,h.ab,h.inits,h.early⟩

theorem Ready.keep {r : Returned} (h : Ready r.1) : Ready (keep r) := by
  unfold Startup.keep
  split
  · exact h
  · exact ⟨h.refcount,h.ab,h.inits,h.early⟩

end Ready

section Fresh
variable {env : Env} {st : State} {block : ℕ}

/-- The initialisation makes a fresh allocator ready. -/
theorem Fresh.scallocInit (h : Fresh st) :
    Ready (scallocInit env { st with scallocGuardRefcount := st.scallocGuardRefcount + 1 }) := by
  refine ⟨Nat.succ_ne_zero _,?_,?_,h.early⟩
  · simpa [Startup.scallocInit, h.ab] using env.core_ne
  · simp [Startup.scallocInit, h.inits]

/-- A request without a check dereferences null. -/
theorem Fresh.malloc (h : Fresh st) (size : ℕ) :
    (malloc block size st).2 = 0 ∧ Spoiled (malloc block size st).1 := by
  have hs : Spoiled st.getAB := ⟨by simp [State.getAB, State.use, h.inits],by simp [State.getAB, h.ab]⟩
  unfold Startup.malloc
  dsimp only
  rw [if_pos hs.halted]
  exact ⟨rfl,hs⟩

theorem Fresh.seeMemalign (h : Fresh st) : Fresh st.seeMemalign := by
  unfold State.seeMemalign
  split
  · exact ⟨h.refcount,h.objectSpace,h.ab,h.inits,h.live,h.early⟩
  · exact h

theorem Fresh.posixMemalign (h : Fresh st) (align size : ℕ) :
    FromFresh (size ≠ 0) (memalign block align size st) := by
  obtain ⟨hr,hs⟩ : (Startup.malloc block ((align + size) % kWord) st.seeMemalign).2 = 0 ∧
      Spoiled (Startup.malloc block ((align + size) % kWord) st.seeMemalign).1 := h.seeMemalign.malloc _
  unfold memalign Startup.posixMemalign
  dsimp only
  constructor
  · intro h0
    rw [if_neg h0, if_pos hr]
    exact ⟨rfl,hs⟩
  · intro h0
    rw [if_pos (not_not.mp h0)]
    exact .inl ⟨rfl,h.seeMemalign⟩

theorem Fresh.alignedAlloc (h : Fresh st) (align size : ℕ) :
    FromFresh (align ≠ 0 ∧ size % align = 0 ∧ size ≠ 0) (alignedAlloc block align size st) := by
  have hm : FromFresh (size ≠ 0) (memalign block align size st) := h.posixMemalign align size
  unfold Startup.alignedAlloc
  constructor
  · rintro ⟨ha,hmod,h0⟩
    rw [if_neg ha, if_neg (not_not.mpr hmod)]
    exact hm.spoils h0
  · intro hn
    split
    · exact .inl ⟨rfl,h.refcount,h.objectSpace,h.ab,h.inits,h.live,h.early⟩
    · next ha =>
      split
      · exact .inl ⟨rfl,h⟩
      · next hmod => exact hm.spares fun h0 => hn ⟨ha,not_not.mp hmod,h0⟩

theorem Fresh.run {c : Call} (h : Fresh st) (hv : c.Valid st) :
    FromFresh c.Unchecked (c.run env block st) := by
  have hnull : ∀ p, p = 0 ∨ p ∈ st.live → p = 0 := by
    rintro p (h0 | hm)
    · exact h0
    · rw [h.live] at hm
      cases hm
  cases c with
  | malloc size =>
    refine ⟨fun hc => hc.elim,fun _ => .inr ?_⟩
    simp only [Call.run, scallocMalloc, if_pos h.refcount]
    exact h.scallocInit.malloc size
  | calloc nmemb size =>
    simp only [Call.run, calloc]
    constructor
    · intro hc
      rw [if_neg hc]
      exact h.malloc _
    · intro hc
      rw [if_pos (not_not.mp hc)]
      exact .inl ⟨rfl,h⟩
  | realloc ptr size =>
    refine ⟨fun _ => ?_,fun hc => absurd (hnull ptr hv) hc⟩
    simp only [Call.run, Startup.realloc]
    rw [if_pos (hnull ptr hv)]
    exact h.malloc size
  | memalign align size => exact h.posixMemalign align size
  | alignedAlloc align size => exact h.alignedAlloc align size
  | posixMemalign align size => exact h.posixMemalign align size
  | valloc size => exact h.posixMemalign kPageSize size
  | pvalloc size => exact h.posixMemalign kPageSize _
  | free p =>
    have hc : ¬ st.objectSpace.contains p = true := by simp [Arena.contains, h.objectSpace]
    have hfree : Startup.free p st = st := by
      rw [Startup.free, if_neg hc, if_pos (hnull p hv)]
    refine ⟨fun hc => hc.elim,fun _ => .inl ⟨rfl,?_⟩⟩
    change Fresh (Startup.free p st)
    rwa [hfree]
  | startupExitHook =>
    refine ⟨fun hc => hc.elim,fun _ => .inr ?_⟩
    simp only [Call.run, scallocGuard, if_pos h.refcount]
    have hready : Ready (Startup.scallocInit env
        { st with scallocGuardRefcount := st.scallocGuardRefcount + 1 }) := h.scallocInit
    exact ⟨hready.refcount,hready.ab,hready.inits,hready.early⟩

end Fresh

section Runs
variable {env : Env} {st st' : State} {e : Event}

theorem keep_null {r : Returned} (h : r.2 = 0) : keep r = r.1 := if_pos (.inl h)

/-- A step that meets the condition keeps the allocator fresh or ready. -/
theorem step_guarded (h : Fresh st ∨ Ready st) (hg : Guarded st e)
    (hstep : step env st e = some st') : Fresh st' ∨ Ready st' := by
  unfold step at hstep
  split at hstep
  · next hv =>
    cases hstep
    rcases h with hf | hr
    · have hc : ¬ e.call.Unchecked := fun hc => hg hc hf.refcount
      rcases (hf.run hv.2).spares hc with ⟨h0,hf'⟩ | hr'
      · rw [keep_null h0]
        exact .inl hf'
      · exact .inr hr'.keep
    · exact .inr (hr.run e.call).keep
  · cases hstep

/-- A step that misses the condition spoils the allocator. -/
theorem step_unguarded (h : Fresh st ∨ Ready st) (hg : ¬ Guarded st e)
    (hstep : step env st e = some st') : Spoiled st' := by
  obtain ⟨hc,h0⟩ := Classical.not_imp.mp hg
  unfold step at hstep
  split at hstep
  · next hv =>
    cases hstep
    rcases h with hf | hr
    · obtain ⟨hnull,hs⟩ := (hf.run hv.2).spoils hc
      rwa [keep_null hnull]
    · exact absurd hr.refcount h0
  · cases hstep

/-- After a use that came too early no call follows. -/
theorem exec_spoiled {es : List Event} (h : Spoiled st) (he : exec (step env) Always st es = some st') :
    st' = st := by
  cases es with
  | nil =>
    cases he
    rfl
  | cons e es =>
    obtain ⟨t,ht,_⟩ := exec_cons he
    unfold step at ht
    rw [if_neg (fun hv => by rw [h.halted] at hv; cases hv.1)] at ht
    cases ht

theorem initialised_iff_of_state {es : List Event} (h : Fresh st ∨ Ready st)
    (he : exec (step env) Always st es = some st') :
    (st'.inits ≤ 1 ∧ st'.early = false) ↔ exec (step env) Guarded st es = some st' := by
  induction es generalizing st with
  | nil =>
    cases he
    refine iff_of_true ?_ rfl
    rcases h with hf | hr
    · exact ⟨by rw [hf.inits]; decide,hf.early⟩
    · exact ⟨hr.inits.le,hr.early⟩
  | cons e es ih =>
    obtain ⟨t,ht,hes⟩ := exec_cons he
    by_cases hg : Guarded st e
    · rw [ih (step_guarded h hg ht) hes]
      simp only [exec, if_pos hg, ht, Option.bind_some]
    · have hs := step_unguarded h hg ht
      rw [exec_spoiled hs hes]
      refine iff_of_false (fun hb => ?_) ?_
      · rw [hs.early] at hb
        cases hb.2
      · simp [exec, hg]

/-- In every sequence of calls, with the constructor anywhere, the initialisation runs at most
once and no call uses the core or the arenas before it, exactly if every call that goes to the
core unchecked comes when the reference count is no longer 0. -/
theorem initialised_iff {es : List Event} (he : exec (step env) Always new es = some st) :
    (st.inits ≤ 1 ∧ st.early = false) ↔ exec (step env) Guarded new es = some st :=
  initialised_iff_of_state (.inl fresh_new) he

end Runs

/-- An object space of 2^46 bytes, a core at one page, and blocks of 16 bytes. -/
def sampleEnv : Env := ⟨⟨2 ^ 46,2 ^ 47,2 ^ 46,2 ^ 46⟩,kPageSize,fun _ => 16,by decide⟩

/-- `malloc` first, then `calloc`, the constructor and `free`. -/
theorem initialised_mallocFirst : ∃ st,
    exec (step sampleEnv) Always new [⟨.malloc 8,2 ^ 46 + 128⟩, ⟨.calloc 1 8,2 ^ 46 + 144⟩,
      ⟨.startupExitHook,0⟩, ⟨.free (2 ^ 46 + 128),0⟩] = some st ∧ st.inits = 1 ∧
    ((st.inits ≤ 1 ∧ st.early = false) ↔
      exec (step sampleEnv) Guarded new [⟨.malloc 8,2 ^ 46 + 128⟩, ⟨.calloc 1 8,2 ^ 46 + 144⟩,
        ⟨.startupExitHook,0⟩, ⟨.free (2 ^ 46 + 128),0⟩] = some st) :=
  ⟨_,rfl,rfl,initialised_iff rfl⟩

/-- A global constructor of another translation unit calls `calloc` first. -/
theorem early_callocFirst : ∃ st,
    exec (step sampleEnv) Always new [⟨.calloc 1 8,0⟩] = some st ∧
      ¬ (st.inits ≤ 1 ∧ st.early = false) :=
  ⟨_,rfl,by decide⟩

end Scalloc.Startup
