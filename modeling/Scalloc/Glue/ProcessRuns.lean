import Scalloc.Glue.ProcessCalls
import Scalloc.Glue.Dispatch

/-! # What the program may rely on

The contract of the calls over blocks with contents, without spans, mappings or headers,
and its proof for every run in which `Arena::Contains` tells the live pointers apart.
-/
namespace Scalloc.Process
open ByteMemory Transition Allocator

/-- What a call means for the program. An allocation takes a new block with room for the
request; `calloc` clears it, and a `realloc` that moves copies the old block into it and
gives that one back. -/
inductive Spec : Store Held ℕ UInt8 → Call → Store Held ℕ UInt8 → Prop
  | start {σ : Store Held ℕ UInt8} {t : ℕ} : Spec σ (.start t) σ
  | exit {σ : Store Held ℕ UInt8} {t : ℕ} : Spec σ (.exit t) σ
  | mallocZero {σ : Store Held ℕ UInt8} {t : ℕ} {rand : ℕ → ℕ → ℕ} {map : Option ℕ} :
    Spec σ (.malloc t 0 rand map) σ
  | malloc {σ τ : Store Held ℕ UInt8} {t size : ℕ} {rand : ℕ → ℕ → ℕ} {map : Option ℕ} {x : Held}
    (hroom : size ≤ x.size) (htake : Step Held.foot σ (.take x) τ) :
    Spec σ (.malloc t size rand map) τ
  | freeNull {σ : Store Held ℕ UInt8} {t : ℕ} : Spec σ (.free t 0) σ
  | free {σ τ : Store Held ℕ UInt8} {t : ℕ} {x : Held} (hgive : Step Held.foot σ (.give x) τ) :
    Spec σ (.free t x.start) τ
  | callocNull {σ : Store Held ℕ UInt8} {t nmemb size : ℕ} {rand : ℕ → ℕ → ℕ} {map : Option ℕ}
    (hnull : nmemb * size = 0 ∨ kWord ≤ nmemb * size) : Spec σ (.calloc t nmemb size rand map) σ
  | calloc {σ τ : Store Held ℕ UInt8} {t nmemb size : ℕ} {rand : ℕ → ℕ → ℕ} {map : Option ℕ}
    {x : Held} (hroom : nmemb * size ≤ x.size)
    (hclear : Trace (Step Held.foot) σ
      (.take x :: puts x.start (List.replicate (nmemb * size) 0)) τ) :
    Spec σ (.calloc t nmemb size rand map) τ
  | reallocNull {σ τ : Store Held ℕ UInt8} {t size : ℕ} {rand : ℕ → ℕ → ℕ} {map : Option ℕ}
    (hmalloc : Spec σ (.malloc t size rand map) τ) : Spec σ (.realloc t 0 size rand map) τ
  | reallocStays {σ : Store Held ℕ UInt8} {t size : ℕ} {rand : ℕ → ℕ → ℕ} {map : Option ℕ}
    {x : Held} (hheld : x ∈ σ.held) (hroom : size ≤ x.size) :
    Spec σ (.realloc t x.start size rand map) σ
  | reallocMoves {σ τ : Store Held ℕ UInt8} {t size : ℕ} {rand : ℕ → ℕ → ℕ} {map : Option ℕ}
    {x y : Held} {vs : List UInt8} (hlt : x.size < size) (hroom : size ≤ y.size)
    (hlen : vs.length = x.size) (hold : ∀ i (h : i < vs.length), σ.byte (x.start + i) = some vs[i])
    (hmove : Trace (Step Held.foot) σ (.take y :: puts y.start vs ++ [.give x]) τ) :
    Spec σ (.realloc t x.start size rand map) τ
  | write {σ τ : Store Held ℕ UInt8} {x : Held} {a : ℕ} {v : UInt8} (hheld : x ∈ σ.held)
    (ha : a ∈ x.foot) (hput : Step Held.foot σ (.put a v) τ) : Spec σ (.write x a v) τ

variable {cfg : Config} {st st' : State} {e : Call}

/-- The object space stays where it is. -/
def SameSpace (a b : Arena) : Prop := b = { a with current := b.current }

theorem SameSpace.trans {a b c : Arena} (h : SameSpace a b) (h' : SameSpace b c) :
    SameSpace a c := by
  unfold SameSpace at h h' ⊢
  rw [h', h]

theorem SameSpace.contains {a b : Arena} (h : SameSpace a b) (p : ℕ) :
    b.contains p = a.contains p := by
  unfold SameSpace at h
  rw [h]
  rfl

theorem SameSpace.routed {a b : Arena} (h : SameSpace a b) (x : Held) :
    x.Routed b = x.Routed a := by
  cases x <;> simp only [Held.Routed, h.contains]

/-- A call that keeps the invariant, leaves the object space in place and does what the
program expects of it. -/
structure Meets (cfg : Config) (st : State) (e : Call) (st' : State) : Prop where
  inv : State.Inv cfg st'
  space : SameSpace st.machine.heap.objectSpace st'.machine.heap.objectSpace
  spec : Spec st.store e st'.store

/-- The heap took a step without touching memory or blocks. -/
theorem State.Inv.of_frame (hi : State.Inv cfg st) {h : Heap}
    (hh : Scalloc.State.Inv cfg ⟨h,st.smalls⟩)
    (hf : h.mem = st.machine.heap.mem ∧ h.objectSpace = st.machine.heap.objectSpace) :
    State.Inv cfg ⟨⟨h,st.machine.maps⟩,st.live⟩ ∧
      State.store ⟨⟨h,st.machine.maps⟩,st.live⟩ = st.store := by
  refine ⟨hi.of_heap hh hi.nodup (fun _ _ => Iff.rfl) ?_ ?_ fun a _ => congrFun hf.1 a,?_⟩
  · rw [hf.2]
  · rw [hf.2]
  · rw [State.store, State.store, hf.1]

theorem meets_start (hi : State.Inv cfg st) {t : ℕ} (hs : step cfg st (.start t) = some st') :
    Meets cfg st (.start t) st' := by
  simp only [step] at hs
  split at hs
  · next ht =>
    obtain ⟨h,hh,rfl⟩ := Option.map_eq_some_iff.mp hs
    have hstep : Scalloc.step cfg st.small (.start t) = some ⟨h,st.smalls⟩ := by
      have ht' : st.small.heap.tls t = 0 := ht
      have hh' : (st.small.heap.getMeALAB cfg t).toOption = some h := hh
      rw [Scalloc.step, if_pos ht', hh']
      rfl
    have hf := Scalloc.State.start_frame hi.heap hstep
    obtain ⟨hi',hst⟩ := hi.of_frame (hi.heap.step hstep) hf
    refine ⟨hi',?_,?_⟩
    · change h.objectSpace = _
      rw [hf.2]
      rfl
    · rw [hst]
      exact .start
  · cases hs

theorem meets_exit (hi : State.Inv cfg st) {t : ℕ} (hs : step cfg st (.exit t) = some st') :
    Meets cfg st (.exit t) st' := by
  simp only [step] at hs
  split at hs
  · next ht =>
    obtain ⟨h,hh,rfl⟩ := Option.map_eq_some_iff.mp hs
    have hstep : Scalloc.step cfg st.small (.exit t) = some ⟨h,st.smalls⟩ := by
      have ht' : st.small.heap.tls t ≠ 0 := ht
      have hh' : (st.small.heap.threadDestructor cfg t).toOption = some h := hh
      rw [Scalloc.step, if_pos ht', hh']
      rfl
    have hf := Scalloc.State.exit_frame hi.heap hstep
    obtain ⟨hi',hst⟩ := hi.of_frame (hi.heap.step hstep) hf
    refine ⟨hi',?_,?_⟩
    · change h.objectSpace = _
      rw [hf.2]
      rfl
    · rw [hst]
      exact .exit
  · cases hs

theorem State.Inv.filter_zero (hi : State.Inv cfg st) :
    st.live.filter (fun x => x.start ≠ 0) = st.live :=
  List.filter_eq_self.mpr fun x hx => by simpa using (hi.start_pos hx).ne'

/-- The pointer of a request goes to the blocks of the program. -/
theorem State.Inv.keep (hi : State.Inv cfg st) {p : ℕ} (h0 : p ≠ 0) (size : ℕ) (mc : Machine) :
    st.keep 0 size (p,mc) = ⟨mc,Held.of p size :: st.live⟩ := by
  have hne : ¬ (p = 0 ∨ p = 0) := by
    rw [or_self]
    exact h0
  rw [State.keep]
  simp only [if_neg hne, hi.filter_zero]

theorem meets_malloc (hi : State.Inv cfg st) {t size : ℕ} {rand : ℕ → ℕ → ℕ} {map : Option ℕ}
    (hf : size + 15 < kWord) (hs : step cfg st (.malloc t size rand map) = some st') :
    Meets cfg st (.malloc t size rand map) st' := by
  simp only [step] at hs
  split at hs
  · next hpre =>
    obtain ⟨ht,_,hmap⟩ := hpre
    obtain ⟨r,hr,rfl⟩ := Option.map_eq_some_iff.mp hs
    rcases malloc_spec hi ht hf hmap hr with ⟨rfl,rfl⟩ | ⟨_,hserved⟩
    · have hkeep : st.keep 0 0 (0,st.machine) = st := if_pos (.inl rfl)
      rw [hkeep]
      exact ⟨hi,rfl,.mallocZero⟩
    · obtain ⟨p,mc⟩ := r
      rw [hi.keep hserved.ne_zero]
      exact ⟨hserved.inv,hserved.space,.malloc hserved.room hserved.take⟩
  · cases hs

/-- The pointers that a call may be given. -/
theorem owns_iff {p : ℕ} : st.owns p = true ↔ p = 0 ∨ ∃ x ∈ st.live, x.start = p := by
  simp [State.owns]

theorem meets_free (hi : State.Inv cfg st) {t p : ℕ} (hr : st.Routed)
    (hnull : st.machine.heap.objectSpace.contains 0 = false)
    (hs : step cfg st (.free t p) = some st') : Meets cfg st (.free t p) st' := by
  simp only [step] at hs
  split at hs
  · next hpre =>
    obtain ⟨ht,howns⟩ := hpre
    obtain ⟨mc,hmc,rfl⟩ := Option.map_eq_some_iff.mp hs
    rcases owns_iff.mp howns with rfl | ⟨x,hx,rfl⟩
    · rw [free, if_neg (by rw [hnull]; decide), if_pos rfl] at hmc
      obtain rfl := Option.some.inj hmc
      rw [hi.filter_zero]
      exact ⟨hi,rfl,.freeNull⟩
    · obtain ⟨mc',hfree,hfreed⟩ := free_spec hi ht hx (hr x hx)
      rw [hfree] at hmc
      obtain rfl := Option.some.inj hmc
      rw [hi.filter_start hx]
      exact ⟨hfreed.inv,hfreed.space,.free (hfreed.give hi hx)⟩
  · cases hs

theorem meets_calloc (hi : State.Inv cfg st) {t nmemb size : ℕ} {rand : ℕ → ℕ → ℕ}
    {map : Option ℕ} (hf : nmemb * size + 15 < kWord ∨ kWord ≤ nmemb * size)
    (hs : step cfg st (.calloc t nmemb size rand map) = some st') :
    Meets cfg st (.calloc t nmemb size rand map) st' := by
  simp only [step] at hs
  split at hs
  · next hpre =>
    obtain ⟨ht,_,_,hmap⟩ := hpre
    obtain ⟨r,hr,rfl⟩ := Option.map_eq_some_iff.mp hs
    by_cases hover : kWord ≤ nmemb * size
    · have hsize : 0 < size := by
        refine Nat.pos_of_ne_zero fun h0 => ?_
        rw [h0, Nat.mul_zero] at hover
        exact absurd hover (by decide)
      have hcheck : size ≠ 0 ∧ nmemb * size % kWord / size ≠ nmemb :=
        ⟨hsize.ne',fun hc => not_lt.mpr hover ((Glue.product_check hsize).mp hc)⟩
      rw [calloc, if_pos hcheck] at hr
      obtain rfl := Option.some.inj hr
      have hkeep : st.keep 0 (nmemb * size) (0,st.machine) = st := if_pos (.inl rfl)
      rw [hkeep]
      exact ⟨hi,rfl,.callocNull (.inr hover)⟩
    · have hlt : nmemb * size < kWord := not_le.mp hover
      have hcheck : ¬ (size ≠ 0 ∧ nmemb * size % kWord / size ≠ nmemb) := fun hc =>
        hc.2 ((Glue.product_check (Nat.pos_of_ne_zero hc.1)).mpr hlt)
      rw [Nat.mod_eq_of_lt hlt] at hmap
      rw [calloc, if_neg hcheck, Nat.mod_eq_of_lt hlt] at hr
      obtain ⟨⟨p,mc⟩,hm,rfl⟩ := Option.map_eq_some_iff.mp hr
      rcases malloc_spec hi ht (by omega) hmap hm with ⟨h0,he⟩ | ⟨_,hserved⟩
      · obtain ⟨rfl,rfl⟩ := Prod.mk.inj he
        have hkeep : st.keep 0 (nmemb * size) (0,st.machine) = st := if_pos (.inl rfl)
        simp only [ne_eq, not_true_eq_false, if_false, hkeep]
        exact ⟨hi,rfl,.callocNull (.inl h0)⟩
      · have hne : p ≠ 0 := hserved.ne_zero
        have hstart : (Held.of p (nmemb * size)).start = p := hserved.start
        simp only [if_pos hne, clear_eq_fill]
        rw [hi.keep hne]
        have hfit : p + (List.replicate (nmemb * size) (0 : UInt8)).length ≤
            (Held.of p (nmemb * size)).start + (Held.of p (nmemb * size)).size := by
          have hroom := hserved.room
          rw [hstart, List.length_replicate]
          exact Nat.add_le_add_left hroom _
        obtain ⟨hi',htr⟩ := hserved.inv.fill (List.mem_cons_self ..) hstart.le hfit
        refine ⟨hi',hserved.space,.calloc hserved.room (.cons hserved.take ?_)⟩
        rw [hserved.start]
        exact htr
  · cases hs

/-- A `realloc` that moves. -/
theorem meets_move (hi : State.Inv cfg st) {t size q : ℕ} {rand : ℕ → ℕ → ℕ} {map : Option ℕ}
    {x : Held} {r : ℕ × Machine} {mc : Machine} (hx : x ∈ st.live)
    (hr : x.Routed st.machine.heap.objectSpace = true) (hlt : x.size < size)
    (ht : st.machine.heap.tls t ≠ 0) (hserved : Served cfg st size r)
    (hq : (if r.1 = 0 then some r else (free cfg (r.2.setMem (move r.2.heap.mem r.1 x.start
      x.size)) t x.start).map fun mc => (r.1,mc)) = some (q,mc)) :
    Meets cfg st (.realloc t x.start size rand map) (st.keep x.start size (q,mc)) := by
  have hne := hserved.ne_zero
  rw [if_neg hne] at hq
  obtain ⟨p,m1⟩ := r
  dsimp only at hne hq
  obtain ⟨mc',hfree,he⟩ := Option.map_eq_some_iff.mp hq
  obtain ⟨rfl,rfl⟩ := Prod.mk.inj he
  have hstart : (Held.of p size).start = p := hserved.start
  have hx1 : x ∈ Held.of p size :: st.live := List.mem_cons_of_mem _ hx
  have hyx : Held.of p size ≠ x := fun h => hserved.not_mem (h ▸ hx)
  have hpx : ¬ (p = 0 ∨ p = x.start) := by
    rintro (h | h)
    · exact hne h
    · exact hyx (hserved.inv.start_inj (List.mem_cons_self ..) hx1 (hstart.trans h))
  let vs := (List.range x.size).map fun i => m1.heap.mem (x.start + i)
  have hlen : vs.length = x.size := by simp [vs]
  have hfit : p + vs.length ≤ (Held.of p size).start + (Held.of p size).size := by
    have hroom := hserved.room
    rw [hstart, hlen]
    exact Nat.add_le_add_left (hlt.le.trans hroom) _
  obtain ⟨hi2,htr⟩ := hserved.inv.fill (List.mem_cons_self ..) hstart.le hfit
  have hr2 : x.Routed m1.heap.objectSpace = true := by
    have hsp : SameSpace st.machine.heap.objectSpace m1.heap.objectSpace := hserved.space
    rw [hsp.routed, hr]
  have ht2 : m1.heap.tls t ≠ 0 := by
    rw [hserved.tls]
    exact ht
  obtain ⟨mc2,hfree2,hfreed⟩ := free_spec hi2 ht2 hx1 hr2
  rw [move_eq_fill] at hfree
  obtain rfl := Option.some.inj (hfree.symm.trans hfree2)
  have hlive : (Held.of p size :: st.live).erase x = Held.of p size :: st.live.erase x :=
    List.erase_cons_tail (by simpa using hyx)
  have hkeep : st.keep x.start size (p,mc') = ⟨mc',(Held.of p size :: st.live).erase x⟩ := by
    rw [hlive, ← hi.filter_start hx]
    exact if_neg hpx
  have htr' : Trace (Step Held.foot) (State.store ⟨m1,Held.of p size :: st.live⟩)
      (puts (Held.of p size).start vs)
      (State.fill ⟨m1,Held.of p size :: st.live⟩ p vs).store := by
    rw [hstart]
    exact htr
  rw [hkeep]
  refine ⟨hfreed.inv,SameSpace.trans hserved.space hfreed.space,?_⟩
  refine .reallocMoves hlt hserved.room hlen ?_ (.cons hserved.take (htr'.append ?_))
  · intro i h
    have hin : x.start + i ∈ x.foot := ⟨Nat.le_add_right _ _,by omega⟩
    rw [State.store, ofMemory_byte (show x ∈ { x | x ∈ st.live } from hx) hin]
    have hk : m1.heap.mem (x.start + i) = _ := hserved.keeps x hx _ hin
    simp only [vs, List.getElem_map, List.getElem_range, hk]
  · exact .cons (hfreed.give hi2 hx1) .nil

theorem meets_realloc (hi : State.Inv cfg st) {t p size : ℕ} {rand : ℕ → ℕ → ℕ}
    {map : Option ℕ} (hf : size + 15 < kWord) (hr : st.Routed)
    (hs : step cfg st (.realloc t p size rand map) = some st') :
    Meets cfg st (.realloc t p size rand map) st' := by
  simp only [step] at hs
  split at hs
  · next hpre =>
    obtain ⟨ht,hsize,howns,hmap⟩ := hpre
    rcases owns_iff.mp howns with rfl | ⟨x,hx,rfl⟩
    · have hm : step cfg st (.malloc t size rand map) = some st' := by
        rw [step, if_pos ⟨ht,hsize,hmap⟩]
        exact hs
      have hmeets := meets_malloc hi hf hm
      exact ⟨hmeets.inv,hmeets.space,.reallocNull hmeets.spec⟩
    · obtain ⟨⟨q,mc⟩,hq,rfl⟩ := Option.map_eq_some_iff.mp hs
      rw [realloc, if_neg (hi.start_pos hx).ne', oldSize_eq hi hx (hr x hx), Option.bind_some] at hq
      split at hq
      · next hle =>
        cases hq
        have hkeep : st.keep x.start size (x.start,st.machine) = st := if_pos (.inr rfl)
        rw [hkeep]
        exact ⟨hi,rfl,.reallocStays hx hle⟩
      · next hlt =>
        obtain ⟨⟨p,m1⟩,hm,hq⟩ := Option.bind_eq_some_iff.mp hq
        rcases malloc_spec hi ht hf hmap hm with ⟨h0,_⟩ | ⟨_,hserved⟩
        · omega
        · exact meets_move hi hx (hr x hx) (not_le.mp hlt) ht hserved hq
  · cases hs

theorem meets_write (hi : State.Inv cfg st) {x : Held} {a : ℕ} {v : UInt8}
    (hs : step cfg st (.write x a v) = some st') : Meets cfg st (.write x a v) st' := by
  simp only [step] at hs
  split at hs
  · next hpre =>
    obtain ⟨hx,ha⟩ := hpre
    obtain rfl := (Option.some.inj hs).symm
    exact ⟨hi.put hx ha v,rfl,.write hx ha (State.put_step hx ha v)⟩
  · cases hs

/-- One call in a state where the live pointers are told apart and the null pointer is not
taken for an object of the arena. -/
theorem State.Inv.meets (hi : State.Inv cfg st) (hr : st.Routed) (hf : e.Fits)
    (hnull : st.machine.heap.objectSpace.contains 0 = false)
    (hs : Process.step cfg st e = some st') : Meets cfg st e st' := by
  cases e with
  | start t => exact meets_start hi hs
  | exit t => exact meets_exit hi hs
  | malloc t size rand map => exact meets_malloc hi hf hs
  | free t p => exact meets_free hi hr hnull hs
  | calloc t nmemb size rand map => exact meets_calloc hi hf hs
  | realloc t p size rand map => exact meets_realloc hi hf hr hs
  | write x a v => exact meets_write hi hs

/-- The condition on a call: the request fits, and the live pointers are told apart. -/
def Sound (st : State) (e : Call) : Prop := st.Routed ∧ e.Fits

instance : ∀ e : Call, Decidable e.Fits
  | .malloc _ size _ _ => inferInstanceAs (Decidable (size + 15 < kWord))
  | .calloc _ nmemb size _ _ =>
    inferInstanceAs (Decidable (nmemb * size + 15 < kWord ∨ kWord ≤ nmemb * size))
  | .realloc _ _ size _ _ => inferInstanceAs (Decidable (size + 15 < kWord))
  | .start _ | .exit _ | .free _ _ | .write _ _ _ => .isTrue trivial

instance : Decidable st.Routed := inferInstanceAs (Decidable (∀ x ∈ st.live, _ = true))

instance : Decidable (Sound st e) := inferInstanceAs (Decidable (st.Routed ∧ e.Fits))

/-- What a run from a given arena on keeps. -/
structure Ready (cfg : Config) (a : Arena) (st : State) : Prop where
  inv : State.Inv cfg st
  space : SameSpace a st.machine.heap.objectSpace

theorem Ready.step {a : Arena} (h : Ready cfg a st) (hnull : a.contains 0 = false)
    (hok : Sound st e) (hs : Process.step cfg st e = some st') :
    Ready cfg a st' ∧ Spec st.store e st'.store := by
  have hm := h.inv.meets hok.1 hok.2 (h.space.contains 0 ▸ hnull) hs
  exact ⟨⟨hm.inv,h.space.trans hm.space⟩,hm.spec⟩

section Layout
variable {l : Layout} {seen : Bool} {es : List Call}

theorem contains_null (l : Layout) (seen : Bool) :
    (Heap.init l seen).objectSpace.contains 0 = false := by
  have hpos := l.objectStart_pos
  have hal := l.objectStart_aligned
  have hle : kObjectSpaceSize ≤ l.objectStart := by
    by_contra hlt
    rw [Nat.mod_eq_of_lt (not_le.mp hlt)] at hal
    omega
  change decide (0 ^^^ l.objectStart < kObjectSpaceSize) = false
  rw [Nat.zero_xor, decide_eq_false_iff_not]
  exact not_lt.mpr hle

theorem ready_init (cfg : Config) (l : Layout) (seen : Bool) :
    Ready cfg (Heap.init l seen).objectSpace (State.init l seen) where
  inv := by
    refine ⟨Scalloc.State.Inv.init cfg l seen,List.nodup_nil,?_,List.nodup_nil,?_,?_⟩
    · intro base len
      exact iff_of_false List.not_mem_nil List.not_mem_nil
    · intro base len hx
      cases hx
    · intro r hr
      cases hr
  space := rfl

theorem store_init (l : Layout) (seen : Bool) : (State.init l seen).store = Store.empty := by
  refine Store.ext ?_ ?_
  · ext x
    simp [State.store, Store.ofMemory, State.init, Store.empty]
  · funext a
    simp [State.store, Store.ofMemory, State.init, Store.empty]

theorem ready_of_exec (h : exec (step cfg) Sound (State.init l seen) es = some st) :
    Ready cfg (Heap.init l seen).objectSpace st ∧ Trace Spec Store.empty es st.store := by
  have hnull := contains_null l seen
  have hstep : ∀ s e t, Ready cfg (Heap.init l seen).objectSpace s → Sound s e →
      step cfg s e = some t → Ready cfg (Heap.init l seen).objectSpace t ∧
        ∃ e', e = e' ∧ Spec s.store e' t.store := fun s e t hs hok he =>
    ⟨(hs.step hnull hok he).1,e,rfl,(hs.step hnull hok he).2⟩
  obtain ⟨hready,ls,hls,htr⟩ := trace_of_exec hstep h (ready_init cfg l seen)
  obtain rfl := List.forall₂_eq_eq_eq ▸ hls
  rw [store_init] at htr
  exact ⟨hready,htr⟩

end Layout

/-- The calls of every run mean for the program what they should. -/
theorem contract_of_run {cfg : Config} {l : Layout} {seen : Bool} {es : List Call} {st : State}
    (h : exec (step cfg) Sound (State.init l seen) es = some st) :
    Trace Spec Store.empty es st.store :=
  (ready_of_exec h).2

/-- Where thread 0 gets its first small block and the first large one. -/
def sampleSmall : ℕ := kObjectSpaceSize + 128

def sampleLarge : ℕ := 128 * kTera + 16

/-- Two threads: a small block that grows into a mapping, a cleared array, and a free of the
mapping by the other thread. -/
def sampleCalls : List Call :=
  [.start 0, .start 1, .malloc 0 48 (fun _ _ => 0) none,
    .write (.small ⟨sampleSmall,3⟩) sampleSmall 255,
    .calloc 1 2 64 (fun _ _ => 0) none,
    .realloc 0 sampleSmall 3000000 (fun _ _ => 0) (some (128 * kTera)),
    .realloc 1 sampleLarge 100 (fun _ _ => 0) none, .calloc 0 (2 ^ 63) 2 (fun _ _ => 0) none,
    .free 1 sampleLarge, .malloc 0 48 (fun _ _ => 0) none, .exit 0]

theorem contract_of_sampleCalls : ∃ st,
    exec (step sampleConfig) Sound (State.init sampleLayout false) sampleCalls = some st ∧
    Trace Spec Store.empty sampleCalls st.store ∧ st.live.length = 2 := by
  have hrun : (exec (step sampleConfig) Sound (State.init sampleLayout false) sampleCalls).map
      (fun st => st.live.length) = some 2 := by decide +kernel
  obtain ⟨st,hst,hlen⟩ := Option.map_eq_some_iff.mp hrun
  exact ⟨st,hst,contract_of_run hst,hlen⟩

/-- If the check of the arena is a range check, it tells all live pointers apart. -/
theorem Ready.routed {a : Arena} (h : Ready cfg a st) (hexact : a.ContainsExact)
    (hfin : a.fin = a.start + a.len) : st.Routed := by
  have hword := h.inv.heap.heap.arena.fin_le
  have hs := h.space
  unfold SameSpace at hs
  have hstart : st.machine.heap.objectSpace.start = a.start := by rw [hs]
  have hend : st.machine.heap.objectSpace.fin = a.start + a.len := by rw [hs, ← hfin]
  change st.machine.heap.objectSpace.fin ≤ kWord at hword
  intro x hx
  rw [h.space.routed]
  cases x with
  | small b =>
    have hin : _ ≤ b.start ∧ b.start + b.size ≤ _ := h.inv.heap.in_space (mem_smalls.mpr hx)
    change st.machine.heap.objectSpace.start ≤ b.start ∧
      b.start + b.size ≤ st.machine.heap.objectSpace.fin at hin
    have hz : 0 < b.size := h.inv.size_pos hx
    exact (hexact b.start (by omega)).mpr (by omega)
  | large base len =>
    have hm := h.inv.mapped _ _ hx
    have hp := hm.payload
    have ho := hm.outside
    have hbound := hm.bounded
    have hobj : (Held.large base len).start = LargeObject.objectStart base := rfl
    rw [hobj] at hp
    have hno : ¬ a.contains (LargeObject.objectStart base) = true := by
      rw [hexact _ (by omega)]
      omega
    simpa [Held.Routed] using hno

end Scalloc.Process
