import Scalloc.Heap.StepSpots

/-! # The steps that move objects

One lemma for each: a free lists its object, the program gives an object to a free or gets one
from the local list, and the remote objects go to the local list.
-/
namespace Scalloc.Stepwise
open Epoch Transition

variable {m : Machine} {st st' X : State} {c c' s y p q sc : ℕ} {pc : Pc} {w w' : Spot} {x : Header}
  {l : List ℕ}

theorem setLocals_spans (st : State) (s : ℕ) (l : List ℕ) (y : ℕ) : (st.setLocals s l).spans y =
    if y = s then { st.spans s with locals := l } else st.spans y := by
  simp [State.setLocals, State.setSpan, Function.update_apply]

theorem setRemotes_spans (st : State) (s : ℕ) (l : List ℕ) (y : ℕ) : (st.setRemotes s l).spans y =
    if y = s then { st.spans s with remotes := l } else st.spans y := by
  simp [State.setRemotes, State.setSpan, Function.update_apply]

theorem SpotInv.only (h : SpotInv st) (hi : Inv m st) (ho : w.Out) (hl : st.Lies p w) (v : Spot) :
    st.Lies p v ↔ v = w :=
  ⟨fun hv => h.unique_out hi ho hl hv,fun he => he ▸ hl⟩

/-- The place is not one of another thread. -/
def Spot.Of (c : ℕ) : Spot → Prop
  | freeing c' => c' = c
  | moving c' => c' = c
  | _ => True

/-- Where an object is that moved. -/
theorem lies_moved (hpc : X.pc = st.pc) (honly : ∀ v, st.Lies q v ↔ v = w) (hw : w.Of c)
    (hw' : w'.Of c) (hlive : q ∈ X.live ↔ w' = .live) (hfreed : pc.freed = some q ↔ w' = .freeing c)
    (hobjects : q ∈ pc.objects ↔ w' = .moving c)
    (hlisted : q ∈ (X.spans (fromObject q)).locals ↔ w' = .listed)
    (hremote : q ∈ (X.spans (fromObject q)).remotes ↔ w' = .remote) (v : Spot) :
    (X.goto c pc).Lies q v ↔ v = w' := by
  cases v with
  | live => exact hlive.trans eq_comm
  | freeing c' =>
    rw [lies_goto_freeing hpc]
    split
    · next hc => rw [hfreed, hc, eq_comm]
    · next hc =>
      rw [honly]
      refine iff_of_false ?_ ?_
      · rintro rfl
        exact hc hw
      · rintro rfl
        exact hc hw'
  | moving c' =>
    rw [lies_goto_moving hpc]
    split
    · next hc => rw [hobjects, hc, eq_comm]
    · next hc =>
      rw [honly]
      refine iff_of_false ?_ ?_
      · rintro rfl
        exact hc hw
      · rintro rfl
        exact hc hw'
  | listed => exact hlisted.trans eq_comm
  | remote => exact hremote.trans eq_comm

/-- Where an object is that did not move. -/
theorem lies_stayed (hpc : X.pc = st.pc) (hlive : q ∈ X.live ↔ q ∈ st.live)
    (hfreed : pc.freed = some q ↔ (st.pc c).freed = some q)
    (hobjects : q ∈ pc.objects ↔ q ∈ (st.pc c).objects)
    (hlisted : q ∈ (X.spans (fromObject q)).locals ↔ q ∈ (st.spans (fromObject q)).locals)
    (hremote : q ∈ (X.spans (fromObject q)).remotes ↔ q ∈ (st.spans (fromObject q)).remotes)
    (v : Spot) : (X.goto c pc).Lies q v ↔ st.Lies q v := by
  cases v with
  | live => exact hlive
  | freeing c' =>
    rw [lies_goto_freeing hpc]
    split
    · next hc => rw [hfreed, ← hc]; rfl
    · rfl
  | moving c' =>
    rw [lies_goto_moving hpc]
    split
    · next hc => rw [hobjects, ← hc]; rfl
    · rfl
  | listed => exact hlisted
  | remote => exact hremote

theorem setSpan_spans (st : State) (s : ℕ) (x : Header) (y : ℕ) : (st.setSpan s x).spans y =
    if y = s then x else st.spans y := by
  simp [State.setSpan, Function.update_apply]

/-- Objects of a span, in the hands of thread `c`, come to one of its lists. -/
theorem SpotInv.toList (h : SpotInv st) (hi : Inv m st) {ps : List ℕ}
    (hw : w = .freeing c ∨ w = .moving c) (hl : ∀ q ∈ ps, st.Lies q w ∧ fromObject q = s)
    (hps : ps.Nodup) (hbuild : (st.pc c).building = none) (hpcf : pc.freed = none)
    (hclosing : pc.closing = none)
    (hobjects : ∀ q, q ∈ pc.objects ↔ q ∈ (st.pc c).objects ∧ q ∉ ps) (hnodup : pc.objects.Nodup)
    (hfreed : ∀ q, (st.pc c).freed = some q → q ∈ ps)
    (hclass : x.sizeClass = (st.spans s).sizeClass)
    (hx : w' = .listed ∧ x.locals = ps ++ (st.spans s).locals ∧ x.remotes = (st.spans s).remotes ∨
      w' = .remote ∧ x.locals = (st.spans s).locals ∧ x.remotes = ps ++ (st.spans s).remotes) :
    SpotInv ((st.setSpan s x).goto c pc) := by
  have hX : (st.setSpan s x).pc = st.pc := rfl
  have ho : w.Out := by rcases hw with rfl | rfl <;> trivial
  have honly : ∀ q ∈ ps, ∀ v, st.Lies q v ↔ v = w := fun q hq => h.only hi ho (hl q hq).1
  have hno : ∀ q ∈ ps, ∀ v, v ≠ w → ¬ st.Lies q v := fun q hq v hv hp => hv ((honly q hq v).mp hp)
  have hlocal : ∀ q ∈ ps, q ∉ (st.spans s).locals := by
    intro q hq
    have hn := hno q hq .listed (by rcases hw with rfl | rfl <;> simp)
    rwa [State.Lies, (hl q hq).2] at hn
  have hremote : ∀ q ∈ ps, q ∉ (st.spans s).remotes := by
    intro q hq
    have hn := hno q hq .remote (by rcases hw with rfl | rfl <;> simp)
    rwa [State.Lies, (hl q hq).2] at hn
  have hlive : ∀ q ∈ ps, q ∉ st.live := fun q hq =>
    hno q hq .live (by rcases hw with rfl | rfl <;> simp)
  refine h.shift hi (P := fun q => q ∈ ps) (w := w) (z := w') hX rfl rfl ?_ hbuild hclosing
    (fun q hq => (hl q hq).1) ?_ ?_ ?_ h.live ?_ hnodup
  · intro y
    rw [setSpan_spans]
    split
    · next hy => rw [hy, hclass]
    · rfl
  · intro q hq
    have hq1 : q ∉ pc.objects := fun hm => ((hobjects q).mp hm).2 hq
    refine lies_moved hX (honly q hq) ?_ ?_ ?_ ?_ ?_ ?_ ?_
    · rcases hw with rfl | rfl <;> exact rfl
    · rcases hx with ⟨rfl,_⟩ | ⟨rfl,_⟩ <;> trivial
    · refine iff_of_false (hlive q hq) ?_
      rcases hx with ⟨rfl,_⟩ | ⟨rfl,_⟩ <;> simp
    · rw [hpcf]
      rcases hx with ⟨rfl,_⟩ | ⟨rfl,_⟩ <;> simp
    · refine iff_of_false hq1 ?_
      rcases hx with ⟨rfl,_⟩ | ⟨rfl,_⟩ <;> simp
    · rw [(hl q hq).2, setSpan_spans, if_pos rfl]
      rcases hx with ⟨rfl,h1,h2⟩ | ⟨rfl,h1,h2⟩
      · simp [h1, hq]
      · simp [h1, hlocal q hq]
    · rw [(hl q hq).2, setSpan_spans, if_pos rfl]
      rcases hx with ⟨rfl,h1,h2⟩ | ⟨rfl,h1,h2⟩
      · simp [h2, hremote q hq]
      · simp [h2, hq]
  · intro q hq
    refine lies_stayed hX Iff.rfl ?_ ?_ ?_ ?_
    · rw [hpcf]
      exact iff_of_false (by simp) fun hf => hq (hfreed q hf)
    · rw [hobjects]
      simp [hq]
    · rw [setSpan_spans]
      split
      · next hy =>
        rw [hy]
        rcases hx with ⟨_,h1,_⟩ | ⟨_,h1,_⟩ <;> simp [h1, hq]
      · rfl
    · rw [setSpan_spans]
      split
      · next hy =>
        rw [hy]
        rcases hx with ⟨_,_,h1⟩ | ⟨_,_,h1⟩ <;> simp [h1, hq]
      · rfl
  · intro ho'
    rcases hx with ⟨rfl,_⟩ | ⟨rfl,_⟩ <;> exact ho'.elim
  · intro y hb
    obtain ⟨h1,h2⟩ := h.lists y hb
    rw [setSpan_spans]
    split
    · next hy =>
      subst hy
      rcases hx with ⟨_,h3,h4⟩ | ⟨_,h3,h4⟩
      · rw [h3, h4]
        exact ⟨hps.append h1 hlocal,h2⟩
      · rw [h3, h4]
        exact ⟨h1,hps.append h2 hremote⟩
    · exact ⟨h1,h2⟩

/-- The lists of a span that is not under construction. -/
theorem SpotInv.only_list (h : SpotInv st) (hk : st.Known (fromObject p))
    (hb : ¬ st.Building (fromObject p)) (hl : st.Lies p w) (v : Spot) : st.Lies p v ↔ v = w :=
  ⟨fun hv => h.unique hk hb hv hl,fun he => he ▸ hl⟩

/-- `PopAll` of the remote objects. -/
theorem SpotInv.popAll (h : SpotInv st) (hi : Inv m st) (hk : st.Known s) (hc : ¬ st.Closed s)
    (hbuild : (st.pc c).building = none) (hfreed : (st.pc c).freed = none)
    (hobjects : (st.pc c).objects = []) (hpcf : pc.freed = none) (hclosing : pc.closing = none)
    (hpco : pc.objects = (st.spans s).remotes) : SpotInv ((st.setRemotes s []).goto c pc) := by
  have hX : (st.setRemotes s []).pc = st.pc := rfl
  have hb : ¬ st.Building s := fun hb => hc hb.closed
  have hfrom : ∀ q ∈ (st.spans s).remotes, fromObject q = s := fun q hq => hi.lists s q (.inr hq)
  have hl : ∀ q ∈ (st.spans s).remotes, st.Lies q .remote := by
    intro q hq
    rw [State.Lies, hfrom q hq]
    exact hq
  have honly : ∀ q ∈ (st.spans s).remotes, ∀ v, st.Lies q v ↔ v = .remote := by
    intro q hq
    refine h.only_list ?_ ?_ (hl q hq)
    · rwa [hfrom q hq]
    · rwa [hfrom q hq]
  refine h.shift hi (P := fun q => q ∈ (st.spans s).remotes) (w := .remote) (z := .moving c) hX rfl
    rfl ?_ hbuild hclosing hl ?_ ?_ (fun _ q hq => by rwa [hfrom q hq]) h.live ?_ ?_
  · intro y
    rw [setRemotes_spans]
    split
    · next hy => rw [hy]
    · rfl
  · intro q hq
    refine lies_moved hX (honly q hq) trivial rfl ?_ ?_ ?_ ?_ ?_
    · exact (honly q hq .live).trans (by simp)
    · rw [hpcf]
      simp
    · rw [hpco]
      simp [hq]
    · rw [hfrom q hq, setRemotes_spans, if_pos rfl]
      have hlisted := (honly q hq .listed).trans (show _ ↔ Spot.moving c = .listed by simp)
      rwa [State.Lies, hfrom q hq] at hlisted
    · rw [hfrom q hq, setRemotes_spans, if_pos rfl]
      simp
  · intro q hq
    refine lies_stayed hX Iff.rfl ?_ ?_ ?_ ?_
    · rw [hpcf, hfreed]
    · rw [hpco, hobjects]
      simp [hq]
    · rw [setRemotes_spans]
      split
      · next hy => rw [hy]
      · rfl
    · rw [setRemotes_spans]
      split
      · next hy =>
        rw [hy]
        simp [hq]
      · rfl
  · intro y hby
    obtain ⟨h1,h2⟩ := h.lists y hby
    rw [setRemotes_spans]
    split
    · next hy =>
      subst hy
      exact ⟨h1,List.nodup_nil⟩
    · exact ⟨h1,h2⟩
  · rw [hpco]
    exact (h.lists s hb).2

/-- `Pop` of the local list of a span that is not closed. -/
theorem SpotInv.pop (h : SpotInv st) (hi : Inv m st) (hk : st.Known s) (hc : ¬ st.Closed s)
    (hlocals : (st.spans s).locals = p :: l) (hbuild : (st.pc c).building = none)
    (hfreed : (st.pc c).freed = none) (hobjects : (st.pc c).objects = []) (hpcf : pc.freed = none)
    (hclosing : pc.closing = none) (hpco : pc.objects = []) :
    SpotInv ({ st.setLocals s l with live := p :: st.live }.goto c pc) := by
  have hX : ({ st.setLocals s l with live := p :: st.live } : State).pc = st.pc := rfl
  have hb : ¬ st.Building s := fun hb => hc hb.closed
  have hfrom : fromObject p = s := hi.lists s p (.inl (by rw [hlocals]; exact List.mem_cons_self))
  have hl : st.Lies p .listed := by
    rw [State.Lies, hfrom, hlocals]
    exact List.mem_cons_self
  have honly := h.only_list (hfrom.symm ▸ hk) (hfrom.symm ▸ hb) hl
  have hlive : p ∉ st.live := fun hm => by cases (honly .live).mp hm
  have hnodup := (h.lists s hb).1
  rw [hlocals, List.nodup_cons] at hnodup
  have hspans : ∀ y, ({ st.setLocals s l with live := p :: st.live } : State).spans y =
      if y = s then { st.spans s with locals := l } else st.spans y := setLocals_spans st s l
  refine h.shift hi (P := fun q => q = p) (w := .listed) (z := .live) hX rfl rfl ?_ hbuild hclosing
    (fun q hq => hq ▸ hl) ?_ ?_ ?_ (List.nodup_cons.mpr ⟨hlive,h.live⟩) ?_ (by rw [hpco]; exact List.nodup_nil)
  · intro y
    rw [hspans]
    split
    · next hy => rw [hy]
    · rfl
  · rintro q rfl
    refine lies_moved hX honly trivial trivial ?_ ?_ ?_ ?_ ?_
    · exact iff_of_true List.mem_cons_self rfl
    · rw [hpcf]
      simp
    · rw [hpco]
      simp
    · rw [hfrom, hspans, if_pos rfl]
      exact iff_of_false hnodup.1 (by simp)
    · rw [hfrom, hspans, if_pos rfl]
      have hr := (honly .remote).trans (show _ ↔ Spot.live = .remote by simp)
      rwa [State.Lies, hfrom] at hr
  · intro q hq
    refine lies_stayed hX ?_ ?_ ?_ ?_ ?_
    · exact List.mem_cons.trans (or_iff_right hq)
    · rw [hpcf, hfreed]
    · rw [hpco, hobjects]
    · rw [hspans]
      split
      · next hy =>
        rw [hy, hlocals]
        exact (List.mem_cons.trans (or_iff_right hq)).symm
      · rfl
    · rw [hspans]
      split
      · next hy => rw [hy]
      · rfl
  · rintro _ q rfl
    rwa [hfrom]
  · intro y hby
    obtain ⟨h1,h2⟩ := h.lists y hby
    rw [hspans]
    split
    · next hy =>
      subst hy
      exact ⟨hnodup.2,h2⟩
    · exact ⟨h1,h2⟩

/-- The program gives an object to `Core::Free`. -/
theorem SpotInv.give (h : SpotInv st) (hi : Inv m st) (hp : p ∈ st.live)
    (hbuild : (st.pc c).building = none) (hfreed : (st.pc c).freed = none)
    (hobjects : (st.pc c).objects = []) (hpcf : pc.freed = some p) (hclosing : pc.closing = none)
    (hpco : pc.objects = []) :
    SpotInv ({ st with live := st.live.erase p }.goto c pc) := by
  have hX : ({ st with live := st.live.erase p } : State).pc = st.pc := rfl
  have hl : st.Lies p .live := hp
  have honly := h.only hi (w := .live) trivial hl
  refine h.shift hi (P := fun q => q = p) (w := .live) (z := .freeing c) hX rfl rfl (fun _ => rfl)
    hbuild hclosing (fun q hq => hq ▸ hl) ?_ ?_ ?_ (h.live.erase p) h.lists
    (by rw [hpco]; exact List.nodup_nil)
  · rintro q rfl
    refine lies_moved hX honly trivial rfl ?_ ?_ ?_ ?_ ?_
    · exact iff_of_false h.live.not_mem_erase (by simp)
    · exact iff_of_true hpcf rfl
    · rw [hpco]
      simp
    · exact (honly .listed).trans (by simp)
    · exact (honly .remote).trans (by simp)
  · intro q hq
    refine lies_stayed hX ?_ ?_ ?_ Iff.rfl Iff.rfl
    · exact h.live.mem_erase_iff.trans (and_iff_right hq)
    · rw [hpcf, hfreed]
      simp [Ne.symm hq]
    · rw [hpco, hobjects]
  · rintro _ q rfl hc
    exact h.closed q .live trivial hl hc

end Scalloc.Stepwise
