import Scalloc.Heap.ThreadExit

/-! # What becomes of a span that is given up

`Core::Allocate` retires a hot span without local objects. A retired span is in no slot, no
deque and not in the pool; it comes back when frees of its live objects link it or delete it. A
span without live objects stays where it is.
-/
namespace Scalloc
open ByteMemory Epoch Transition

namespace Board
variable {percent : ℕ} {clean : Bool} {B B' : Board} {c sc s x a b : ℕ} {id : CoreId}

/-- A span that is neither in the deque nor in the pool is not touched by a fetch. -/
theorem Fetches.other (hf : B.Fetches c sc s B') (hk : B.known x) (hp : ¬ B.Pooled x)
    (hd : x ∉ (B.deque c sc).nodes) :
    x ≠ s ∧ B'.card x = B.card x ∧ B'.ids = B.ids ∧ x ∉ (B'.deque c sc).nodes := by
  cases hf with
  | reuse hl =>
    have hx : x ≠ s := fun he => hd (by simp [hl, he])
    refine ⟨hx,by simp [Board.reuse, setCard, hx],rfl,?_⟩
    simp only [Board.reuse, update₂_apply, and_self, if_true]
    exact fun hm => hd (List.mem_of_mem_dropLast hm)
  | fresh hl hs hks =>
    have hx : x ≠ s := fun he => hks (he ▸ hk)
    exact ⟨hx,by simp [Board.adopt, hx],rfl,hd⟩
  | @recycled a b rest hl hpool =>
    have hx : x ≠ s := fun he => hp ⟨a,b,by simp [hpool, he]⟩
    exact ⟨hx,by simp [Board.adopt, hx],rfl,hd⟩

theorem Renews.other (hr : B.Renews clean c sc s B') (hk : B.known x) (hp : ¬ B.Pooled x)
    (hd : x ∉ (B.deque c sc).nodes) : x ≠ s ∧ B'.card x = B.card x ∧ B'.ids = B.ids := by
  cases hr with
  | fetched _ hf =>
    obtain ⟨h1,h2,h3,_⟩ := hf.other hk hp hd
    exact ⟨h1,h2,h3⟩
  | swept _ hf hs =>
    obtain ⟨h1,h2,h3,h4⟩ := hf.other hk hp hd
    exact ⟨h1,(hs.other x h4).1.trans h2,hs.ids.trans h3⟩

theorem card_setFree (f : ℤ) : (B.setFree x f).card x = { B.card x with free := f } := by
  simp [setFree, setCard]

theorem card_setFree_of_ne (hx : x ≠ s) (f : ℤ) : (B.setFree s f).card x = B.card x := by
  simp [setFree, setCard, hx]

theorem setFree_revive (f : ℤ) (hg : ¬ B.Gone (B.card x).owner) :
    (B.setFree x f).revive x id = B.setFree x f := by
  unfold Board.revive
  rw [card_setFree]
  exact if_neg hg

/-- A free of an object of a floating span with a live owner. -/
theorem freedIn_floating (clean : Bool) (percent : ℕ) (id : CoreId) (a b : ℕ)
    (hm : (B.card x).mark = .floating) (hl : (B.card x).link = none)
    (hg : ¬ B.Gone (B.card x).owner) :
    (B.freedIn clean percent x id a b).Pooled x ∨
      (∃ c sc, x ∈ ((B.freedIn clean percent x id a b).deque c sc).nodes) ∨
      B.freedIn clean percent x id a b = B.setFree x ((B.card x).free + 1) ∧
        (B.card x).free + 1 ≤ classToReuseThreshold percent (B.card x).sizeClass := by
  have hcard := card_setFree (B := B) (x := x) ((B.card x).free + 1)
  have hrelink : ∀ c sc, ∃ c' sc', x ∈
      (((B.setFree x ((B.card x).free + 1)).relink c sc x).deque c' sc').nodes :=
    fun c sc => ⟨c,sc,by simp [Board.relink]⟩
  unfold freedIn
  rw [setFree_revive _ hg, hm]
  cases clean with
  | true =>
    simp only [settleIn, if_true, Board.settle, hcard, hm, reduceCtorEq, or_self, if_false, ne_eq,
      not_false_eq_true, and_true]
    split
    · refine .inl ⟨a,b,?_⟩
      simp [Board.discard, hcard, hl, Board.toPool]
    · split
      · exact .inr (.inl (hrelink _ _))
      · next hle => exact .inr (.inr ⟨rfl,not_lt.mp hle⟩)
  | false =>
    simp only [settleIn, Bool.false_eq_true, Board.settleKept, hcard, reduceCtorEq, or_self, if_false, ne_eq,
      not_false_eq_true, and_true]
    split
    · exact .inr (.inl (hrelink _ _))
    · next hle => exact .inr (.inr ⟨rfl,not_lt.mp hle⟩)

end Board

namespace State
variable {cfg : Config} {st st' : State} {t x : ℕ}

/-- The frees of objects of the span at `x`. -/
def FreesOf (x : ℕ) (_ : State) : Event → Prop
  | .free _ b => fromObject b.start = x
  | _ => False

/-- The span is in a deque or in the pool. -/
def Available (st : State) (x : ℕ) : Prop :=
  (∃ c sc, x ∈ (st.heap.deque c sc).nodes) ∨ st.heap.pool.Holds x

/-- Later frees of objects of the span can link it into a deque or delete it. -/
def Recovers (cfg : Config) (st : State) (x : ℕ) : Prop :=
  ∃ st', Runs (step cfg) (FreesOf x) st st' ∧ st'.Available x

/-- A floating span is in no slot, in no deque and not in the pool. -/
theorem loose_of_floating {percent : ℕ} {B : Board} {w : Place} (hw : B.At percent x w)
    (hm : (B.card x).mark = .floating) : w = .loose := by
  have ha := hw.allowed
  cases w with
  | hot c sc => simp [Place.Allows, hm] at ha
  | linked c sc => simp [Place.Allows, hm] at ha
  | pooled a b => simp [Place.Allows, hm] at ha
  | loose => rfl

/-- A floating span with a live owner. -/
structure Floats (st : State) (x : ℕ) : Prop where
  known : st.heap.Known x
  mark : ((st.heap.board st.heap.hot).card x).mark = .floating
  owner : ¬ (st.heap.board st.heap.hot).Gone ((st.heap.board st.heap.hot).card x).owner

/-- A free of a live block is a step. -/
theorem Inv.exists_free (hi : Inv cfg st) {b : Block} (hb : b ∈ st.live) (ht : st.heap.tls t ≠ 0) :
    ∃ st', Scalloc.step cfg st (.free t b) = some st' ∧ st'.heap.tls = st.heap.tls := by
  obtain ⟨h',hfree,_,_,hthreads,_⟩ := hi.free_ok ht hb
  refine ⟨⟨h',st.live.erase b⟩,?_,hthreads.tls⟩
  simp only [Scalloc.step]
  rw [if_pos ⟨ht,hb⟩, hfree]
  rfl

/-- A free of an object of a floating span makes the span available, or the span goes on
floating below the threshold. -/
theorem Floats.free (hf : Floats st x) (hi : Inv cfg st) {b : Block} (hbx : fromObject b.start = x)
    (hs : Scalloc.step cfg st (.free t b) = some st') :
    st'.Available x ∨ Floats st' x ∧ (st'.liveIn x).length + 1 = (st.liveIn x).length ∧
      (st'.heap.spans x).nrFreeObjects ≤
        classToReuseThreshold cfg.reuseThreshold (st'.heap.spans x).sizeClass := by
  obtain ⟨w,hw⟩ := hi.heap.board.placed x hf.known
  obtain rfl := loose_of_floating hw hf.mark
  obtain ⟨_,_,_,⟨i,j,hboard⟩,hi'⟩ := step_freeIn hi hs
  rw [hbx] at hboard
  rcases Board.freedIn_floating cfg.cleanupInFree cfg.reuseThreshold
    (st.heap.cores (st.heap.tls t)).id i j hf.mark hw.link hf.owner with h1 | ⟨c,sc,h1⟩ | ⟨h1,h2⟩
  · rw [← hboard] at h1
    exact .inl (.inr h1)
  · rw [← hboard] at h1
    exact .inl (.inl ⟨c,sc,h1⟩)
  · rw [h1] at hboard
    have hcard : (st'.heap.spans x).card = { (st.heap.spans x).card with
        free := (st.heap.spans x).nrFreeObjects + 1 } := by
      change (st'.heap.board st'.heap.hot).card x = _
      rw [hboard, Board.card_setFree]
      rfl
    have hfloats : Floats st' x := by
      have hk : st'.heap.Known x := by
        have : (st'.heap.board st'.heap.hot).known x := by
          rw [hboard]
          exact hf.known
        exact this
      refine ⟨hk,?_,?_⟩
      · exact (congrArg Card.mark hcard).trans hf.mark
      · rw [hboard, Board.card_setFree]
        exact hf.owner
    obtain ⟨w',hw'⟩ := hi'.heap.board.placed x hfloats.known
    obtain rfl := loose_of_floating hw' hfloats.mark
    have hn := hi.heap.free_eq hf.known fun ⟨p,q,hm⟩ => by cases (hw.pool p q).mp hm
    have hn' := hi'.heap.free_eq hfloats.known fun ⟨p,q,hm⟩ => by cases (hw'.pool p q).mp hm
    have hfree : (st'.heap.spans x).nrFreeObjects = (st.heap.spans x).nrFreeObjects + 1 :=
      congrArg Card.free hcard
    have hclass : (st'.heap.spans x).sizeClass = (st.heap.spans x).sizeClass :=
      congrArg Card.sizeClass hcard
    refine .inr ⟨hfloats,?_,?_⟩
    · rw [hfree, hn, hclass] at hn'
      omega
    · rw [hfree, hclass]
      exact h2

/-- A floating span with a live owner and a live object comes back when its live objects
are freed, since the last free finds the span above the threshold. -/
theorem Floats.recovers (hf : Floats st x) (hi : Inv cfg st) (hp : cfg.reuseThreshold < 100)
    (ht : st.heap.tls t ≠ 0) {n : ℕ} (hlive : (st.liveIn x).length = n + 1) :
    Recovers cfg st x := by
  induction n generalizing st with
  | zero =>
    have hpos : 0 < (st.liveIn x).length := by omega
    obtain ⟨b,hb,hbx⟩ := exists_of_liveIn hpos
    obtain ⟨st',hs,_⟩ := hi.exists_free hb ht
    rcases hf.free hi hbx hs with ha | ⟨hf',hlen,hle⟩
    · exact ⟨st',.tail (e := Event.free t b) .refl hbx hs,ha⟩
    · have hi' := hi.step hs
      obtain ⟨w,hw⟩ := hi'.heap.board.placed x hf'.known
      obtain rfl := loose_of_floating hw hf'.mark
      have hn := hi'.heap.free_eq hf'.known fun ⟨p,q,hm⟩ => by cases (hw.pool p q).mp hm
      have hlt : classToReuseThreshold cfg.reuseThreshold (st'.heap.spans x).sizeClass <
          classToObjects (st'.heap.spans x).sizeClass := classToReuseThreshold_lt hp hw.objectClass
      omega
  | succ n ih =>
    have hpos : 0 < (st.liveIn x).length := by omega
    obtain ⟨b,hb,hbx⟩ := exists_of_liveIn hpos
    obtain ⟨st',hs,htls⟩ := hi.exists_free hb ht
    rcases hf.free hi hbx hs with ha | ⟨hf',hlen,_⟩
    · exact ⟨st',.tail (e := Event.free t b) .refl hbx hs,ha⟩
    · obtain ⟨st'',hrun,ha⟩ := ih hf' (hi.step hs) (by rw [htls]; exact ht) (by omega)
      exact ⟨st'',hrun.head (e := Event.free t b) hbx hs,ha⟩

end State

namespace Heap
variable {cfg : Config} {h g : Heap} {live : ℕ → List ℕ} {c sc : ℕ}

/-- `Core::Allocate` gives up the hot span that it finds in place. -/
def Retires (cfg : Config) (h : Heap) (c sc : ℕ) : Prop :=
  (h.allocateFrom c sc).1 = 0 ∧
    ((h.allocateFrom c sc).2.spans ((h.cores c).hotSpan sc)).nrFreeObjects ≤
      classToReuseThreshold cfg.reuseThreshold sc

instance (cfg : Config) (h : Heap) (c sc : ℕ) : Decidable (h.Retires cfg c sc) :=
  inferInstanceAs (Decidable (_ ∧ _))

/-- The heaps in which a call of `Core::Allocate` comes to `hot_span_[sc]->Allocate()`. -/
inductive ComesTo (cfg : Config) (h : Heap) (c sc : ℕ) (rand : ℕ → ℕ) : Heap → Prop
  | present (hne : (h.cores c).hotSpan sc ≠ 0) : ComesTo cfg h c sc rand h
  | fetched {s : ℕ} {g : Heap} (h0 : (h.cores c).hotSpan sc = 0)
    (hg : h.getSpan cfg c sc rand = .ok (s,g)) : ComesTo cfg h c sc rand (g.setHot c sc s)

theorem Inv.retires_iff (hi : Inv cfg.reuseThreshold h h.hot live)
    (hne : (h.cores c).hotSpan sc ≠ 0) : h.Retires cfg c sc ↔
      (h.spans ((h.cores c).hotSpan sc)).nrLocalObjects = 0 ∧
        (h.spans ((h.cores c).hotSpan sc)).nrFreeObjects ≤
          classToReuseThreshold cfg.reuseThreshold sc := by
  by_cases hlocal : (h.spans ((h.cores c).hotSpan sc)).nrLocalObjects = 0
  · obtain ⟨hk,_,hnp⟩ := hi.hot_at hne
    simp [Retires, allocateFrom_empty hi hk hnp rfl hlocal, hlocal]
  · obtain ⟨p,h2,hfrom,hp0,_⟩ := allocated_direct cfg.cleanupInFree hi hne hlocal
    simp [Retires, hfrom, hp0, hlocal]

/-- A span that `GetSpan` returned has a local object. -/
theorem Inv.not_retires {s : ℕ} (hi : Inv cfg.reuseThreshold h h.hot live)
    (hc : (h.board h.hot).Live c) (hc0 : c ≠ 0) (hlimit : h.pool.limit ≠ 0)
    (hsc : IsObjectClass sc) (h0 : (h.cores c).hotSpan sc = 0) {rand : ℕ → ℕ}
    (hg : h.getSpan cfg c sc rand = .ok (s,g)) : ¬ (g.setHot c sc s).Retires cfg c sc := by
  have hren := (getSpan_ok cfg hi hc hc0 hlimit hsc h0 rand).of_ok hg
  obtain ⟨p,h2,hfrom,hslot,_⟩ :=
    allocateFrom_slot hren.inv hren.known hren.at_hot hren.locals (by rw [hren.hot])
  rintro ⟨hp,_⟩
  rw [hfrom] at hp
  exact slot_ne_zero hslot hp

end Heap

/-- In no reachable state does `Core::Allocate` retire a span without live objects; the frees
of the live objects of a retired span bring it into a deque or into the pool. -/
def NeverStrands (cfg : Config) : Prop :=
  ∀ (st : State) (t size : ℕ) (rand : ℕ → ℕ → ℕ) (g : Heap), Reachable cfg st →
    st.heap.tls t ≠ 0 → 0 < size → size ≤ kMaxMediumSize →
    st.heap.ComesTo cfg (st.heap.tls t) (sizeToClass size) (rand 0) g →
    g.Retires cfg (st.heap.tls t) (sizeToClass size) →
    (∃ b ∈ st.live, fromObject b.start = (g.cores (st.heap.tls t)).hotSpan (sizeToClass size)) ∧
      ∀ st', step cfg st (.allocate t size rand) = some st' →
        st'.Recovers cfg ((g.cores (st.heap.tls t)).hotSpan (sizeToClass size))

namespace State
variable {cfg : Config} {st st' : State} {t size : ℕ} {rand : ℕ → ℕ → ℕ}

/-- A retired span floats after the call. -/
theorem Inv.floats_of_retires (hi : Inv cfg st)
    (hne : (st.heap.cores (st.heap.tls t)).hotSpan (sizeToClass size) ≠ 0)
    (hr : st.heap.Retires cfg (st.heap.tls t) (sizeToClass size))
    (hs : Scalloc.step cfg st (.allocate t size rand) = some st') :
    Floats st' ((st.heap.cores (st.heap.tls t)).hotSpan (sizeToClass size)) := by
  obtain ⟨hlocal,hfew⟩ := (hi.heap.retires_iff hne).mp hr
  obtain ⟨hk,hat,hnp⟩ := hi.heap.hot_at hne
  obtain ⟨_,_,_,_,_,hall,hi'⟩ := step_allocate hi hs
  obtain ⟨B,hren,hboard⟩ := hall.given hne hlocal hfew
  have hd : (st.heap.cores (st.heap.tls t)).hotSpan (sizeToClass size) ∉
      (((st.heap.board st.heap.hot).retire (st.heap.tls t) (sizeToClass size)).deque
        (st.heap.tls t) (sizeToClass size)).nodes := by
    intro hm
    cases (hat.deque _ _).mp hm
  obtain ⟨hx,hcard,hids⟩ := hren.other (by exact hk) (by exact hnp) hd
  have hcard' : (st'.heap.board st'.heap.hot).card
      ((st.heap.cores (st.heap.tls t)).hotSpan (sizeToClass size)) =
      { (st.heap.board st.heap.hot).card
        ((st.heap.cores (st.heap.tls t)).hotSpan (sizeToClass size)) with mark := .floating } := by
    rw [hboard, Board.card_setFree_of_ne hx, hcard]
    exact Function.update_self _ _ _
  have hids' : (st'.heap.board st'.heap.hot).ids = (st.heap.board st.heap.hot).ids := by
    rw [hboard]
    exact hids
  refine ⟨(hall.serves.keeps hk hnp).1,by rw [hcard'],?_⟩
  rw [hcard', Board.Gone, hids']
  exact hi.heap.board.not_gone hat.allowed.1 hat.allowed.2.2.1

theorem Inv.not_strands (hi : Inv cfg st) (hp : cfg.reuseThreshold < 100)
    (hne : (st.heap.cores (st.heap.tls t)).hotSpan (sizeToClass size) ≠ 0)
    (hr : st.heap.Retires cfg (st.heap.tls t) (sizeToClass size)) :
    ∃ b ∈ st.live,
      fromObject b.start = (st.heap.cores (st.heap.tls t)).hotSpan (sizeToClass size) := by
  obtain ⟨_,hfew⟩ := (hi.heap.retires_iff hne).mp hr
  obtain ⟨hk,hat,hnp⟩ := hi.heap.hot_at hne
  refine hi.exists_live hk hnp fun hall => ?_
  have hclass : (st.heap.spans
      ((st.heap.cores (st.heap.tls t)).hotSpan (sizeToClass size))).sizeClass = sizeToClass size :=
    hat.allowed.2.1
  have hsc : IsObjectClass (sizeToClass size) := hclass ▸ hat.objectClass
  have hlt := classToReuseThreshold_lt hp hsc
  rw [Span.AllFree, hclass] at hall
  omega

end State

theorem neverStrands_of_lt {cfg : Config} (hp : cfg.reuseThreshold < 100) : NeverStrands cfg := by
  intro st t size rand g hreach ht h1 h2 hto hr
  have hi := hreach.inv
  cases hto with
  | present hne =>
    obtain ⟨b,hb,hbx⟩ := hi.not_strands hp hne hr
    refine ⟨⟨b,hb,hbx⟩,fun st' hs => ?_⟩
    obtain ⟨_,_,p,s,hlive,hall,hi'⟩ := State.step_allocate hi hs
    have hb' : b ∈ st'.live := by
      rw [hlive]
      exact List.mem_cons_of_mem _ hb
    have hm := State.mem_liveIn hb'
    rw [hbx] at hm
    obtain ⟨n,hn⟩ := Nat.exists_eq_succ_of_ne_zero (List.length_pos_of_mem hm).ne'
    exact (hi.floats_of_retires hne hr hs).recovers hi' hp (by rw [hall.threads.tls]; exact ht) hn
  | fetched h0 hg =>
    exact absurd hr (hi.heap.not_retires (hi.core ht).1 ht (hi.threads.limit_ne_zero ht)
      (sizeToClass_isObjectClass h1 h2) h0 hg)

/-- The machine of the examples in a build that disables reuse. -/
def noReuseConfig : Config := { sampleConfig with reuseThreshold := 100 }

/-- The only object of a hot span was freed by another thread, and its owner asks for one. -/
theorem noReuse_strands : ¬ NeverStrands noReuseConfig := by
  intro hall
  have hrun : (exec (step noReuseConfig) Always (State.init sampleLayout false)
      [.start 0, .start 1, .allocate 0 1048576 fun _ _ => 0,
        .free 1 ⟨kObjectSpaceSize + 128,28⟩]).map (fun st =>
        (st.live,decide (st.heap.tls 0 = 0),
          decide ((st.heap.cores (st.heap.tls 0)).hotSpan (sizeToClass 1048576) = 0),
          decide (st.heap.Retires noReuseConfig (st.heap.tls 0) (sizeToClass 1048576)))) =
      some ([],false,false,true) := by decide +kernel
  obtain ⟨st,hst,hval⟩ := Option.map_eq_some_iff.mp hrun
  simp only [Prod.mk.injEq, decide_eq_true_eq, decide_eq_false_iff_not] at hval
  obtain ⟨hlive,htls,hne,hret⟩ := hval
  obtain ⟨⟨b,hb,_⟩,_⟩ := hall st 0 1048576 (fun _ _ => 0) st.heap
    ⟨sampleLayout,false,runs_of_exec hst⟩ htls (by decide) (by decide) (.present hne) hret
  rw [hlive] at hb
  cases hb

/-- `Core::Allocate` strands no span exactly when the threshold is below 100 percent. -/
theorem neverStrands_iff {R : ℕ} (hR : R ≤ 100) :
    (∀ cfg : Config, cfg.reuseThreshold = R → NeverStrands cfg) ↔ R < 100 := by
  constructor
  · intro hall
    refine lt_of_le_of_ne hR ?_
    rintro rfl
    exact noReuse_strands (hall noReuseConfig rfl)
  · rintro hlt cfg rfl
    exact neverStrands_of_lt hlt

theorem neverStrands_eighty : sampleConfig.reuseThreshold = 80 ∧ NeverStrands sampleConfig :=
  ⟨rfl,(neverStrands_iff (R := 80) (by decide)).mpr (by decide) sampleConfig rfl⟩

theorem not_neverStrands_hundred :
    ¬ ∀ R ≤ 100, ∀ cfg : Config, cfg.reuseThreshold = R → NeverStrands cfg :=
  fun hall => noReuse_strands (hall 100 le_rfl noReuseConfig rfl)

end Scalloc
