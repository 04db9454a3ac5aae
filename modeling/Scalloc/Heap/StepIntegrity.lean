import Scalloc.Heap.StepObjects

/-! # Heap integrity between any two steps

In every undisturbed run in which no epoch wraps, all objects stay at exactly one place: no
object is handed out twice, and no span is deleted while the program has one of its objects.
-/
namespace Scalloc.Stepwise
open Epoch Transition

variable {m : Machine} {st st' : State} {c s p sc : ℕ} {pc : Pc} {w w' : Spot}

/-- A span that is marked full has all its objects on its lists. -/
theorem SpotInv.full (h : SpotInv st) (hi : Inv m st) (hcount : CountInv st) {f : FreeCall}
    {e : Epoch} (hpc : st.pc c = .markFull f)
    (hcas : newMarkFull (st.spans f.span).epoch f.epoch = some e) :
    ∀ p w, fromObject p = f.span → w.Out → ¬ st.Lies p w := by
  have hknows := hi.knows c
  have hfresh := hcount c
  rw [hpc] at hknows hfresh
  obtain ⟨hf,hloose⟩ := hknows
  have hsame : (st.spans f.span).epoch = f.epoch := by
    have hmark := mark_of_floatingOrReusable hf.epoch hloose
    obtain ⟨k,mk,he⟩ := hi.valid f.span
    obtain ⟨k',mk',he'⟩ := hf.epoch
    rw [he'] at hmark
    rw [he, he'] at hcas ⊢
    rw [mark_encode] at hmark
    obtain ⟨⟨rfl,rfl⟩,_⟩ := newMarkFull_encode.mp hcas
    rcases hmark with rfl | rfl <;> rfl
  have hk := hf.used.1
  have hb : ¬ st.Building f.span := by
    rintro ⟨c',hb⟩
    have hmark := mark_of_floatingOrReusable hf.epoch hloose
    rw [← hsame] at hmark
    exact hi.not_has hf.used hmark (.inr (Pc.building_held hb))
  obtain ⟨hclass,htotal⟩ := hfresh.2 hsame hloose
  have hlies : ∀ q, (q ∈ (st.spans f.span).locals → st.Lies q .listed ∧ fromObject q = f.span) ∧
      (q ∈ (st.spans f.span).remotes → st.Lies q .remote ∧ fromObject q = f.span) := by
    intro q
    constructor <;> intro hq
    · have hfrom := hi.lists f.span q (.inl hq)
      exact ⟨by rwa [State.Lies, hfrom],hfrom⟩
    · have hfrom := hi.lists f.span q (.inr hq)
      exact ⟨by rwa [State.Lies, hfrom],hfrom⟩
  have hnodup : ((st.spans f.span).locals ++ (st.spans f.span).remotes).Nodup := by
    obtain ⟨h1,h2⟩ := h.lists f.span hb
    refine h1.append h2 fun q hq1 hq2 => ?_
    obtain ⟨hl,hfrom⟩ := (hlies q).1 hq1
    have hne := h.unique (hfrom.symm ▸ hk) (hfrom.symm ▸ hb) hl ((hlies q).2 hq2).1
    cases hne
  have hsub : (st.spans f.span).locals ++ (st.spans f.span).remotes ⊆ st.slots f.span := by
    intro q hq
    have hany : ∃ v, st.Lies q v ∧ fromObject q = f.span := by
      rcases List.mem_append.mp hq with hq | hq
      · exact ⟨_,(hlies q).1 hq⟩
      · exact ⟨_,(hlies q).2 hq⟩
    obtain ⟨v,hv,hfrom⟩ := hany
    have hslot := h.slot q v (hfrom.symm ▸ hk) (hfrom.symm ▸ hb) hv
    rwa [hfrom] at hslot
  have hlen : (st.slots f.span).length ≤
      ((st.spans f.span).locals ++ (st.spans f.span).remotes).length := by
    rw [State.slots, slots_length, List.length_append, ← hclass]
    exact htotal
  have hperm := (hnodup.subperm hsub).perm_of_length_le hlen
  intro p w hfrom ho hl
  have hslot := h.slot p w (hfrom.symm ▸ hk) (hfrom.symm ▸ hb) hl
  rw [hfrom] at hslot
  rcases List.mem_append.mp (hperm.mem_iff.mpr hslot) with hp | hp
  · have hne := h.unique_out hi ho hl ((hlies p).1 hp).1
    subst hne
    exact ho
  · have hne := h.unique_out hi ho hl ((hlies p).2 hp).1
    subst hne
    exact ho

/-- What the constructor of a span has written so far. -/
def Pc.Built (st : State) : Pc → Prop
  | newLocal g s => (st.spans s).sizeClass = g.sizeClass
  | newRemote g s => (st.spans s).sizeClass = g.sizeClass ∧
      (st.spans s).locals = slots s g.sizeClass
  | _ => True

def BuiltInv (st : State) : Prop := ∀ c, (st.pc c).Built st

/-- The lists of the new span are filled: all its objects are on the local list. -/
theorem SpotInv.finish (h : SpotInv st) (hi : Inv m st) {g : Fetch}
    (hpc : st.pc c = .newRemote g s) (hbuilt : (st.pc c).Built st) :
    SpotInv ((st.setRemotes s []).goto c (.newEpoch g s)) := by
  have hknows := hi.knows c
  rw [hpc] at hknows hbuilt
  obtain ⟨hclass,hlocals⟩ := hbuilt
  have hX : (st.setRemotes s []).pc = st.pc := rfl
  have hclosed : st.Closed s := State.Building.closed ⟨c,by rw [hpc]; rfl⟩
  have hk : st.Known s := (hi.at_held (c := c) (by rw [hpc]; rfl)).1
  obtain ⟨st',hst'⟩ : ∃ X, X = (st.setRemotes s []).goto c (.newEpoch g s) := ⟨_,rfl⟩
  have hspans : ∀ y, st'.spans y = if y = s then { st.spans s with remotes := [] } else st.spans y := by
    rw [hst']
    exact setRemotes_spans st s []
  have hout : ∀ {p w}, w.Out → (st'.Lies p w ↔ st.Lies p w) := by
    intro p w
    rw [hst']
    exact lies_goto_out hX rfl (by rw [hpc]; rfl) (by rw [hpc]; rfl)
  have hnone : ∀ {p w}, fromObject p = s → w.Out → ¬ st'.Lies p w := by
    intro p w hfrom ho hl
    exact h.closed p w ho ((hout ho).mp hl) (hfrom.symm ▸ hclosed)
  have hother : ∀ {p w}, fromObject p ≠ s → (st'.Lies p w ↔ st.Lies p w) := by
    intro p w hne
    cases w with
    | listed => rw [State.Lies, hspans, if_neg hne]; rfl
    | remote => rw [State.Lies, hspans, if_neg hne]; rfl
    | _ => exact hout trivial
  have hknown : ∀ {y}, st'.Known y → st.Known y := by
    rw [hst']
    exact id
  have hbuilding : ∀ {y}, y ≠ s → ¬ st'.Building y → ¬ st.Building y := by
    rintro y hy hb ⟨c',hc'⟩
    refine hb ⟨c',?_⟩
    rw [hst', goto_pc_eq hX]
    split
    · next hc =>
      rw [hc, hpc] at hc'
      exact absurd (Option.some.inj hc').symm hy
    · exact hc'
  have hslots : ∀ {y}, st'.slots y = st.slots y := by
    intro y
    rw [State.slots, State.slots, hspans]
    split
    · next hy => rw [hy]
    · rfl
  have hlist : (st'.spans s).locals = st'.slots s := by
    rw [hslots, hspans, if_pos rfl, State.slots, hclass]
    exact hlocals
  have hremotes : (st'.spans s).remotes = [] := by rw [hspans, if_pos rfl]
  have hsc : IsObjectClass (st'.spans s).sizeClass := by
    rw [hspans, if_pos rfl]
    exact hclass.symm ▸ hknows.1
  rw [← hst']
  refine ⟨?_,?_,?_,?_,?_,?_,?_⟩
  · intro y hky hb
    by_cases hy : y = s
    · exact hy ▸ hsc
    · rw [hspans, if_neg hy]
      exact h.objectClass y (hknown hky) (hbuilding hy hb)
  · intro y hky hb p hp
    by_cases hy : y = s
    · subst hy
      have hz := classToSize_pos hsc
      have hfrom : fromObject p = y := fromObject_of_slot (hi.arena.isVirtualSpan hk) hsc hp le_rfl
        (by omega)
      refine ⟨.listed,?_,fun v hv => ?_⟩
      · change p ∈ (st'.spans (fromObject p)).locals
        rw [hfrom, hlist]
        exact hp
      · cases v with
        | listed => rfl
        | remote =>
          rw [State.Lies, hfrom, hremotes] at hv
          cases hv
        | _ => exact absurd hv (hnone hfrom trivial)
    · rw [hslots] at hp
      have hfrom := h.fromObject_slot hi (hknown hky) (hbuilding hy hb) hp
      obtain ⟨v,hv,huniq⟩ := h.placed y (hknown hky) (hbuilding hy hb) p hp
      have hne : fromObject p ≠ s := hfrom.symm ▸ hy
      exact ⟨v,(hother hne).mpr hv,fun u hu => huniq u ((hother hne).mp hu)⟩
  · intro p v hky hb hl
    by_cases hy : fromObject p = s
    · rw [hy]
      cases v with
      | listed =>
        rw [State.Lies, hy, hlist] at hl
        exact hl
      | remote =>
        rw [State.Lies, hy, hremotes] at hl
        cases hl
      | _ => exact absurd hl (hnone hy trivial)
    · rw [hslots]
      exact h.slot p v (hknown hky) (hbuilding hy hb) ((hother hy).mp hl)
  · intro p v ho hl hc
    refine h.closed p v ho ((hout ho).mp hl) ?_
    rw [hst'] at hc
    rcases closed_goto hX hc with hc | hc | hc
    · exact .inl hc
    · cases hc
    · exact hc
  · rw [hst']
    exact h.live
  · intro y hb
    by_cases hy : y = s
    · subst hy
      rw [hlist, hremotes]
      exact ⟨slots_nodup hsc,List.nodup_nil⟩
    · rw [hspans, if_neg hy]
      exact h.lists y (hbuilding hy hb)
  · intro c'
    rw [hst', goto_pc_eq hX]
    split
    · exact List.nodup_nil
    · exact h.objects c'

theorem alike_setEpoch (s : ℕ) (e : Epoch) (y : ℕ) :
    (st.spans y).Alike ((st.setEpoch s e).spans y) := by
  by_cases hy : y = s
  · subst hy
    rw [State.setEpoch_self]
    exact ⟨rfl,rfl,rfl⟩
  · rw [State.setEpoch_of_ne hy]
    exact ⟨rfl,rfl,rfl⟩

theorem alike_setDeque (a b : ℕ) (l : List ℕ) (s : ℕ) (link : Option (ℕ × ℕ)) (y : ℕ) :
    (st.spans y).Alike ((st.setDeque a b l s link).spans y) := by
  by_cases hy : y = s
  · subst hy
    rw [State.setDeque_self]
    exact ⟨rfl,rfl,rfl⟩
  · rw [State.setDeque_of_ne hy]
    exact ⟨rfl,rfl,rfl⟩

theorem settle_like (n : ℕ) (f : FreeCall) (hpc : (st.pc c).freed = none)
    (ho : (st.pc c).objects = []) (hb : (st.pc c).building = none) :
    (st.pc c).Like (m.settle n f) := by
  rcases settle_cases m n f with ⟨hs,_⟩ | hs | hs <;>
  · rw [hs]
    exact ⟨hpc.symm,ho.symm,hb.symm,.inl rfl⟩

/-- A call of `Core::Free` puts its object on a list of the span. -/
theorem SpotInv.pushes (h : SpotInv st) (hi : Inv m st) {f : FreeCall} {x : Header}
    (hpc : st.pc c = .pushLocal p f ∧ x = { st.spans f.span with
        locals := p :: (st.spans f.span).locals } ∨
      st.pc c = .pushRemote p f ∧ x = { st.spans f.span with
        remotes := p :: (st.spans f.span).remotes })
    (hpcf : pc.freed = none) (hclosing : pc.closing = none) (hobjects : pc.objects = []) :
    SpotInv ((st.setSpan f.span x).goto c pc) := by
  have hknows := hi.knows c
  have hfree : (st.pc c).freed = some p ∧ (st.pc c).objects = [] ∧ (st.pc c).building = none ∧
      f.span = fromObject p := by
    rcases hpc with ⟨hpc,_⟩ | ⟨hpc,_⟩
    · rw [hpc] at hknows ⊢
      exact ⟨rfl,rfl,rfl,hknows.2⟩
    · rw [hpc] at hknows ⊢
      exact ⟨rfl,rfl,rfl,hknows.2⟩
  obtain ⟨hfreed,ho,hbuild,hspan⟩ := hfree
  have hl : ∀ q ∈ [p], st.Lies q (.freeing c) ∧ fromObject q = f.span := by
    intro q hq
    obtain rfl := List.mem_singleton.mp hq
    exact ⟨hfreed,hspan.symm⟩
  have hmem : ∀ q, q ∈ pc.objects ↔ q ∈ (st.pc c).objects ∧ q ∉ [p] := by
    intro q
    rw [hobjects, ho]
    simp
  have hf : ∀ q, (st.pc c).freed = some q → q ∈ [p] := by
    intro q hq
    rw [hfreed] at hq
    exact List.mem_singleton.mpr (Option.some.inj hq).symm
  have hnodup : pc.objects.Nodup := by
    rw [hobjects]
    exact List.nodup_nil
  rcases hpc with ⟨_,rfl⟩ | ⟨_,rfl⟩
  · exact h.toList hi (.inl rfl) hl (List.nodup_singleton p) hbuild hpcf hclosing hmem hnodup hf rfl
      (.inl ⟨rfl,rfl,rfl⟩)
  · exact h.toList hi (.inl rfl) hl (List.nodup_singleton p) hbuild hpcf hclosing hmem hnodup hf rfl
      (.inr ⟨rfl,rfl,rfl⟩)

theorem SpotInv.freeStep (h : SpotInv st) (hi : Inv m st) (hcount : CountInv st)
    (hs : Stepwise.freeStep m st c = some st') : SpotInv st' := by
  have hknows := hi.knows c
  unfold Stepwise.freeStep at hs
  split at hs
  · next p hpc =>
    cases hs
    exact h.read hi (by rw [hpc]; exact ⟨rfl,rfl,rfl,.inl rfl⟩)
  · next p e hpc =>
    cases hs
    exact h.read hi (by rw [hpc]; exact ⟨rfl,rfl,rfl,.inl rfl⟩)
  · next p e owner hpc =>
    cases hs
    exact h.read hi (by rw [hpc]; exact ⟨rfl,rfl,rfl,.inl rfl⟩)
  · next p f hpc =>
    split at hs <;>
    · cases hs
      exact h.read hi (by rw [hpc]; exact ⟨rfl,rfl,rfl,.inl rfl⟩)
  · next p f hpc =>
    cases hs
    exact h.pushes hi (.inl ⟨hpc,rfl⟩) rfl rfl rfl
  · next n f hpc =>
    split at hs <;>
    · cases hs
      exact h.read hi (by rw [hpc]; exact ⟨rfl,rfl,rfl,.inl rfl⟩)
  · next n f hpc =>
    cases hs
    exact h.read hi (by rw [hpc]; exact ⟨rfl,rfl,rfl,.inl rfl⟩)
  · next p f hpc =>
    cases hs
    exact h.pushes hi (.inr ⟨hpc,rfl⟩) rfl rfl rfl
  · next n f hpc =>
    cases hs
    exact h.read hi (by rw [hpc]; exact ⟨rfl,rfl,rfl,.inl rfl⟩)
  · next n f hpc =>
    split at hs <;>
    · cases hs
      exact h.read hi (by rw [hpc]; exact ⟨rfl,rfl,rfl,.inl rfl⟩)
  · next n f hpc =>
    split at hs
    · cases hs
      exact h.read hi (by rw [hpc]; exact ⟨rfl,rfl,rfl,.inl rfl⟩)
    · cases hs
      exact h.read hi (settle_like n f (by rw [hpc]; rfl) (by rw [hpc]; rfl) (by rw [hpc]; rfl))
  · next n f hpc =>
    rw [hpc] at hknows
    exact hknows.elim
  · next n f hpc =>
    rw [hpc] at hknows
    exact hknows.elim
  · next f hpc =>
    split at hs
    · next e hcas =>
      cases hs
      have hfull := h.full hi hcount hpc hcas
      refine h.calm hi rfl rfl ?_ ?_ ?_ (fun y _ => alike_setEpoch f.span e y) (fun _ hk _ => hk) ?_
      · rw [hpc]
        split <;> rfl
      · rw [hpc]
        split <;> rfl
      · rw [hpc]
        intro y hy
        cases hy
      · rintro y (hy | hy)
        · exact .inl (.inl hy)
        · refine .inr ?_
          obtain rfl : f.span = y := by
            split at hy <;> exact Option.some.inj hy
          exact hfull
    · cases hs
      exact h.read hi (by rw [hpc]; exact ⟨rfl,rfl,rfl,.inl rfl⟩)
  · next f hpc =>
    split at hs
    · cases hs
      exact h.read hi (by rw [hpc]; exact ⟨rfl,rfl,rfl,.inr rfl⟩)
    · split at hs
      · cases hs
        exact h.read hi (by rw [hpc]; exact ⟨rfl,rfl,rfl,.inr rfl⟩)
      · cases hs
        exact h.quiet hi rfl rfl rfl rfl (alike_setDeque _ _ _ _ _)
          (by rw [hpc]; exact ⟨rfl,rfl,rfl,.inr rfl⟩)
  · next f hpc =>
    cases hs
    exact h.read hi (by rw [hpc]; exact ⟨rfl,rfl,rfl,.inr rfl⟩)
  · next s sc id hpc =>
    cases hs
    refine h.calm hi rfl rfl (by rw [hpc]; rfl) (by rw [hpc]; rfl) (by rw [hpc]; intro _ hy; cases hy)
      (fun _ _ => ⟨rfl,rfl,rfl⟩) (fun _ hk _ => hk) ?_
    rintro y (⟨a,b,hy⟩ | hy)
    · refine .inl ?_
      have hspans : (st.pool.push (SpanPool.slot sc) (id % m.backends) s).spans =
          update₂ st.pool.spans (SpanPool.slot sc) (id % m.backends)
            (s :: st.pool.spans (SpanPool.slot sc) (id % m.backends)) := by
        rw [SpanPool.push, SpanPool.spans_setStack]
      rw [hspans, update₂_apply] at hy
      split at hy
      · rcases List.mem_cons.mp hy with rfl | hy
        · exact .inr ⟨c,by rw [hpc]; rfl⟩
        · exact .inl ⟨_,_,hy⟩
      · exact .inl ⟨_,_,hy⟩
    · cases hy
  · next f hpc =>
    split at hs
    · cases hs
      exact h.quiet hi rfl rfl rfl rfl (alike_setEpoch _ _)
        (by rw [hpc]; exact ⟨rfl,rfl,rfl,.inl rfl⟩)
    · cases hs
      exact h.read hi (by rw [hpc]; exact ⟨rfl,rfl,rfl,.inl rfl⟩)
  · next f hpc =>
    split at hs
    · cases hs
      exact h.read hi (by rw [hpc]; exact ⟨rfl,rfl,rfl,.inl rfl⟩)
    · cases hs
      exact h.quiet hi rfl rfl rfl rfl (alike_setDeque _ _ _ _ _)
        (by rw [hpc]; exact ⟨rfl,rfl,rfl,.inl rfl⟩)
  · cases hs

/-- A span in a slot or in the hands of a thread that moves its objects is not closed. -/
theorem Inv.not_closed (hi : Inv m st) (hk : st.Known s) (hhas : st.Has c s)
    (hclosing : (st.pc c).closing = none) : ¬ st.Closed s := by
  obtain ⟨w,hat⟩ := hi.placed s hk
  have hs0 := hi.ne_zero hk
  rintro (⟨a,b,hp⟩ | ⟨c',hc'⟩)
  · obtain rfl := (hat.pool a b).mp hp
    rcases hhas with ⟨sc,hslot⟩ | hheld
    · cases (hat.slot c sc).mp hslot
    · obtain ⟨l,hl⟩ := (hat.held c).mp hheld
      cases hl
  · obtain rfl := hi.has_unique hs0 hhas (.inr (Pc.closing_held hc'))
    rw [hclosing] at hc'
    cases hc'

theorem SpotInv.popLocal (h : SpotInv st) (hi : Inv m st) (hfetch : (st.pc c).fetching = none)
    (hne : st.hot c sc ≠ 0) (hfreed : (st.pc c).freed = none) (hobjects : (st.pc c).objects = [])
    (hclosing : (st.pc c).closing = none) (hbuild : (st.pc c).building = none) {empty : Pc}
    (hempty : (st.pc c).Like empty) : SpotInv (popLocal st c sc empty) := by
  unfold Stepwise.popLocal
  split
  · exact h.read hi hempty
  · next p l hl =>
    have hk := (hi.at_slot hfetch hne).1
    exact h.pop hi hk (hi.not_closed hk (has_hot hfetch) hclosing) hl hbuild hfreed hobjects rfl rfl rfl

/-- The remote objects of a span that the thread has come to its local list. -/
theorem SpotInv.moves (h : SpotInv st) (hi : Inv m st) {k : Then} {ps rest : List ℕ}
    (hpc : st.pc c = .moveTest s ps k ∧ rest = [] ∨ st.pc c = .moveLoop s (ps ++ rest) k)
    (hpcf : pc.freed = none) (hclosing : pc.closing = none) (hobjects : pc.objects = rest) :
    SpotInv ((st.setLocals s (ps ++ (st.spans s).locals)).goto c pc) := by
  have hknows := hi.knows c
  have hnodup := h.objects c
  have hobj : (st.pc c).objects = ps ++ rest ∧ (st.pc c).freed = none ∧
      (st.pc c).building = none ∧ ∀ q ∈ ps, fromObject q = s := by
    rcases hpc with ⟨hpc,rfl⟩ | hpc
    · rw [hpc] at hknows ⊢
      exact ⟨(List.append_nil _).symm,rfl,rfl,hknows.2⟩
    · rw [hpc] at hknows ⊢
      exact ⟨rfl,rfl,rfl,fun q hq => hknows.2 q (List.mem_append_left _ hq)⟩
  obtain ⟨ho,hf,hbuild,hfrom⟩ := hobj
  rw [ho] at hnodup
  have hdisjoint := List.disjoint_of_nodup_append hnodup
  refine h.toList hi (.inr rfl) ?_ (List.Nodup.of_append_left hnodup) hbuild hpcf hclosing ?_ ?_ ?_
    rfl (.inl ⟨rfl,rfl,rfl⟩)
  · intro q hq
    refine ⟨?_,hfrom q hq⟩
    change q ∈ (st.pc c).objects
    rw [ho]
    exact List.mem_append_left _ hq
  · intro q
    rw [hobjects, ho, List.mem_append]
    constructor
    · exact fun hq => ⟨.inr hq,fun hp => hdisjoint hp hq⟩
    · exact fun hq => hq.1.resolve_left hq.2
  · rw [hobjects]
    exact List.Nodup.of_append_right hnodup
  · rw [hf]
    intro q hq
    cases hq

theorem Then.pc_like {k : Then} (hfreed : pc.freed = none) (hobjects : pc.objects = [])
    (hbuild : pc.building = none) : pc.Like (k.pc s) := by
  cases k <;> exact ⟨hfreed.symm,hobjects.symm,hbuild.symm,.inl rfl⟩

theorem retire_like (n : ℕ) (hfreed : pc.freed = none) (hobjects : pc.objects = [])
    (hbuild : pc.building = none) : pc.Like (m.retire sc s n) := by
  rcases retire_cases m sc s n with hr | hr <;>
  · rw [hr]
    exact ⟨hfreed.symm,hobjects.symm,hbuild.symm,.inl rfl⟩

theorem SpotInv.allocateStep (h : SpotInv st) (hi : Inv m st)
    (hs : Stepwise.allocateStep m st c = some st') : SpotInv st' := by
  have hknows := hi.knows c
  unfold Stepwise.allocateStep at hs
  split at hs
  · next sc hpc =>
    rw [hpc] at hknows
    cases hs
    exact h.popLocal hi (by rw [hpc]; rfl) hknows.2 (by rw [hpc]; rfl) (by rw [hpc]; rfl)
      (by rw [hpc]; rfl) (by rw [hpc]; rfl) (by rw [hpc]; exact ⟨rfl,rfl,rfl,.inl rfl⟩)
  · next sc hpc =>
    cases hs
    exact h.read hi (by rw [hpc]; exact ⟨rfl,rfl,rfl,.inl rfl⟩)
  · next sc n hpc =>
    split at hs
    · cases hs
      exact h.read hi (by rw [hpc]; exact retire_like n rfl rfl rfl)
    · cases hs
      exact h.read hi (by rw [hpc]; exact ⟨rfl,rfl,rfl,.inl rfl⟩)
  · next sc n hpc =>
    cases hs
    exact h.read hi (by rw [hpc]; exact retire_like _ rfl rfl rfl)
  · next s k hpc =>
    split at hs
    · cases hs
      exact h.read hi (by rw [hpc]; exact Then.pc_like rfl rfl rfl)
    · cases hs
      exact h.read hi (by rw [hpc]; exact ⟨rfl,rfl,rfl,.inl rfl⟩)
  · next s k hpc =>
    split at hs
    · cases hs
      exact h.read hi (by rw [hpc]; exact Then.pc_like rfl rfl rfl)
    · cases hs
      exact h.read hi (by rw [hpc]; exact ⟨rfl,rfl,rfl,.inl rfl⟩)
  · next s k hpc =>
    rw [hpc] at hknows
    cases hs
    have hk := hi.move_known (c := c) (by rw [hpc]; rfl) (by rw [hpc]; rfl) hknows
    have hc := hi.not_closed hk (hknows.has (by rw [hpc]; rfl) (by rw [hpc]; rfl)) (by rw [hpc]; rfl)
    exact h.popAll hi hk hc (by rw [hpc]; rfl) (by rw [hpc]; rfl) (by rw [hpc]; rfl) rfl rfl rfl
  · next s objects k hpc =>
    split at hs
    · next hl =>
      cases hs
      have hnil := List.eq_nil_of_length_eq_zero hl
      have hmoved : SpotInv ((st.setLocals s (objects ++ (st.spans s).locals)).goto c (k.pc s)) :=
        h.moves hi (.inl ⟨hpc,rfl⟩) (by cases k <;> rfl) (by cases k <;> rfl) (by cases k <;> rfl)
      rwa [hnil, List.append_nil] at hmoved
    · cases hs
      exact h.read hi (by rw [hpc]; exact ⟨rfl,rfl,rfl,.inl rfl⟩)
  · next s objects k hpc =>
    split at hs
    · cases hs
      exact h.read hi (by rw [hpc]; exact Then.pc_like rfl rfl rfl)
    · next p objects =>
      cases hs
      have hfirst : st.pc c = .moveLoop s ([p] ++ objects) k := hpc
      exact h.moves hi (.inr hfirst) rfl rfl rfl
  · next sc hpc =>
    rw [hpc] at hknows
    cases hs
    exact h.popLocal hi (by rw [hpc]; rfl) hknows (by rw [hpc]; rfl) (by rw [hpc]; rfl)
      (by rw [hpc]; rfl) (by rw [hpc]; rfl) (by rw [hpc]; exact ⟨rfl,rfl,rfl,.inl rfl⟩)
  · next sc hpc =>
    cases hs
    exact h.read hi (by rw [hpc]; exact ⟨rfl,rfl,rfl,.inl rfl⟩)
  · next sc e hpc =>
    cases hs
    exact h.quiet hi rfl rfl rfl rfl (alike_setEpoch _ _)
      (by rw [hpc]; exact ⟨rfl,rfl,rfl,.inl rfl⟩)
  · cases hs

/-- A store of the constructor before the lists are filled. -/
theorem SpotInv.construct (h : SpotInv st) (hi : Inv m st) {x : Header} {pc' : Pc}
    (hpc : st.pc c = pc') (hbefore : pc'.building = some s) (hafter : pc.building = some s)
    (hlike : pc'.Like pc) : SpotInv ((st.setSpan s x).goto c pc) := by
  refine h.calm hi rfl rfl (by rw [hpc, hlike.freed]) (by rw [hpc, hlike.objects]) ?_ ?_
    (fun _ hk _ => hk) ?_
  · intro y hy
    rw [hpc, hbefore] at hy
    rw [hafter, hy]
  · intro y hy
    have hne : y ≠ s := by
      rintro rfl
      exact hy hafter
    rw [setSpan_spans, if_neg hne]
    exact ⟨rfl,rfl,rfl⟩
  · rintro y (hy | hy)
    · exact .inl (.inl hy)
    · rw [Pc.building_closing hafter] at hy
      obtain rfl := Option.some.inj hy
      exact .inl (.inr ⟨c,by rw [hpc]; exact Pc.building_closing hbefore⟩)

theorem mem_of_pop {pool : SpanPool} {a b a' b' y : ℕ} (h : st.pool.pop a b = some (s,pool))
    (hy : y ∈ pool.spans a' b') : y ∈ st.pool.spans a' b' := by
  unfold SpanPool.pop at h
  split at h
  · cases h
  · next x l hl =>
    obtain ⟨rfl,rfl⟩ := Prod.mk.inj (Option.some.inj h)
    rw [SpanPool.spans_setStack, update₂_apply] at hy
    split at hy
    · next he =>
      rw [he.1, he.2, hl]
      exact List.mem_cons_of_mem _ hy
    · exact hy

theorem mem_pop {pool : SpanPool} {a b : ℕ} (h : st.pool.pop a b = some (s,pool)) :
    s ∈ st.pool.spans a b := by
  unfold SpanPool.pop at h
  split at h
  · cases h
  · next x l hl =>
    obtain ⟨rfl,rfl⟩ := Prod.mk.inj (Option.some.inj h)
    rw [hl]
    exact List.mem_cons_self

theorem SpotInv.fetchStep (h : SpotInv st) (hi : Inv m st) (hbuilt : BuiltInv st)
    {rand : ℕ → ℕ} (hs : Stepwise.fetchStep m st c rand = some st') : SpotInv st' := by
  unfold Stepwise.fetchStep at hs
  split at hs
  · next g hpc =>
    split at hs
    · cases hs
      exact h.quiet hi rfl rfl rfl rfl (alike_setDeque _ _ _ _ _)
        (by rw [hpc]; exact ⟨rfl,rfl,rfl,.inl rfl⟩)
    · cases hs
      exact h.read hi (by rw [hpc]; exact ⟨rfl,rfl,rfl,.inl rfl⟩)
  · next g s hpc =>
    cases hs
    exact h.read hi (by rw [hpc]; exact ⟨rfl,rfl,rfl,.inl rfl⟩)
  · next g s e hpc =>
    split at hs
    · cases hs
      exact h.quiet hi rfl rfl rfl rfl (alike_setEpoch _ _)
        (by rw [hpc]; exact ⟨rfl,rfl,rfl,.inl rfl⟩)
    · cases hs
      exact h.read hi (by rw [hpc]; exact ⟨rfl,rfl,rfl,.inl rfl⟩)
  · next g a b rest hpc =>
    split at hs
    · next s pool hpop =>
      cases hs
      refine h.calm hi rfl rfl (by rw [hpc]; rfl) (by rw [hpc]; rfl)
        (by rw [hpc]; intro _ hy; cases hy) (fun _ _ => ⟨rfl,rfl,rfl⟩) (fun _ hk _ => hk) ?_
      rintro y (⟨a',b',hy⟩ | hy)
      · exact .inl (.inl ⟨a',b',mem_of_pop hpop hy⟩)
      · obtain rfl := Option.some.inj hy
        exact .inl (.inl ⟨a,b,mem_pop hpop⟩)
    · cases hs
      exact h.read hi (by rw [hpc]; exact ⟨rfl,rfl,rfl,.inl rfl⟩)
  · next g hpc =>
    split at hs
    · next s arena halloc =>
      cases hs
      obtain ⟨_,hs,hknown⟩ := hi.arena.extend halloc
      have hnk : ¬ st.Known s := fun hk => absurd hk.2.1 (by rw [hs]; exact lt_irrefl _)
      refine h.calm hi rfl rfl (by rw [hpc]; rfl) (by rw [hpc]; rfl)
        (by rw [hpc]; intro _ hy; cases hy) (fun _ _ => ⟨rfl,rfl,rfl⟩) ?_ ?_
      · intro y hk hy
        refine ((hknown y).mp hk).resolve_left ?_
        rintro rfl
        exact hy rfl
      · rintro y (hy | hy)
        · exact .inl (.inl hy)
        · obtain rfl := Option.some.inj hy
          exact .inr fun p w hfrom ho hl => hnk (hfrom ▸ hi.known_out ho hl)
    · cases hs
  · next g s hpc =>
    cases hs
    exact h.construct hi hpc rfl rfl ⟨rfl,rfl,rfl,.inr rfl⟩
  · next g s hpc =>
    cases hs
    exact h.construct hi hpc rfl rfl ⟨rfl,rfl,rfl,.inr rfl⟩
  · next g s hpc =>
    cases hs
    exact h.construct hi hpc rfl rfl ⟨rfl,rfl,rfl,.inr rfl⟩
  · next g s hpc =>
    cases hs
    exact h.construct hi hpc rfl rfl ⟨rfl,rfl,rfl,.inr rfl⟩
  · next g s hpc =>
    cases hs
    exact h.finish hi hpc (hbuilt c)
  · next g s hpc =>
    cases hs
    exact h.read hi (by rw [hpc]; exact ⟨rfl,rfl,rfl,.inl rfl⟩)
  · next g s e hpc =>
    split at hs
    · cases hs
      exact h.quiet hi rfl rfl rfl rfl (alike_setEpoch _ _)
        (by rw [hpc]; exact ⟨rfl,rfl,rfl,.inl rfl⟩)
    · cases hs
      exact h.read hi (by rw [hpc]; exact ⟨rfl,rfl,rfl,.inl rfl⟩)
  · next g s hpc =>
    dsimp only at hs
    repeat' split at hs
    all_goals
      cases hs
      exact h.quiet hi rfl rfl rfl rfl (fun _ => ⟨rfl,rfl,rfl⟩)
        (by rw [hpc]; exact ⟨rfl,rfl,rfl,.inl rfl⟩)
  · cases hs

theorem SpotInv.step {e : Event} (h : SpotInv st) (hi : Inv m st) (hcount : CountInv st)
    (hbuilt : BuiltInv st) (hs : Stepwise.step m st e = some st') : SpotInv st' := by
  cases e with
  | allocate c size =>
    rw [Stepwise.step] at hs
    split at hs
    · next hcall =>
      cases hs
      have hrests := hcall.2.1
      refine h.read hi ?_
      cases hpc : st.pc c <;> rw [hpc] at hrests <;> first
        | (split <;> exact ⟨rfl,rfl,rfl,.inl rfl⟩)
        | cases hrests
    · cases hs
  | free c p =>
    rw [Stepwise.step] at hs
    split at hs
    · next hcall =>
      cases hs
      have hrests := hcall.2.1
      have hpc : (st.pc c).building = none ∧ (st.pc c).freed = none ∧ (st.pc c).objects = [] := by
        cases hpc : st.pc c <;> rw [hpc] at hrests <;> first
          | exact ⟨rfl,rfl,rfl⟩
          | cases hrests
      exact h.give hi hcall.2.2 hpc.1 hpc.2.1 hpc.2.2 rfl rfl rfl
    · cases hs
  | next c rand =>
    rcases step_next hs with hs | hs | hs
    · exact h.freeStep hi hcount hs
    · exact h.allocateStep hi hs
    · exact h.fetchStep hi hbuilt hs

/-- What the constructor of another thread has written stays. -/
theorem Mild.built {c' : ℕ} (hm : Mild st st' c) (hi : Inv m st) (h : SpotInv st) (hc : c' ≠ c)
    (hb : (st.pc c').Built st) : (st.pc c').Built st' := by
  have hkeep : ∀ s, (st.pc c').building = some s →
      (st'.spans s).sizeClass = (st.spans s).sizeClass ∧
      (st'.spans s).locals = (st.spans s).locals := by
    intro s hs
    have hheld := Pc.building_held hs
    have hnot : ¬ st.Has c s := fun hhas =>
      hc (hi.has_unique (hi.ne_zero (hi.at_held hheld).1) (.inr hheld) hhas)
    refine ⟨(hm.grows s hnot).sizeClass,(hm.steady s hnot).resolve_right ?_⟩
    rintro ⟨p,hp,hfrom⟩
    exact h.not_building (w := .freeing c) trivial hp ⟨c',hfrom.symm ▸ hs⟩
  cases hpc : st.pc c' with
  | newLocal g s =>
    rw [hpc] at hb hkeep
    exact (hkeep s rfl).1.trans hb
  | newRemote g s =>
    rw [hpc] at hb hkeep
    exact ⟨(hkeep s rfl).1.trans hb.1,(hkeep s rfl).2.trans hb.2⟩
  | _ => trivial

theorem BuiltInv.next (hbuilt : BuiltInv st) (hi : Inv m st) (h : SpotInv st)
    (hm : Mild st st' c) (hc : (st'.pc c).Built st') : BuiltInv st' := by
  intro c'
  by_cases hcc : c' = c
  · rw [hcc]
    exact hc
  · rw [hm.pc c' hcc]
    exact hm.built hi h hcc (hbuilt c')

theorem BuiltInv.fetchStep (hbuilt : BuiltInv st) (hi : Inv m st) (h : SpotInv st)
    {rand : ℕ → ℕ} (hs : Stepwise.fetchStep m st c rand = some st')
    (hok : Unwrapped st (.next c rand)) : BuiltInv st' := by
  refine hbuilt.next hi h (hi.mild_fetch hs hok) ?_
  have hown := hbuilt c
  unfold Stepwise.fetchStep at hs
  split at hs
  · split at hs <;> (cases hs; rw [State.goto_pc_self]; trivial)
  · cases hs
    rw [State.goto_pc_self]
    trivial
  · split at hs <;> (cases hs; rw [State.goto_pc_self]; trivial)
  · split at hs <;> (cases hs; rw [State.goto_pc_self]; trivial)
  · split at hs
    · cases hs
      rw [State.goto_pc_self]
      trivial
    · cases hs
  · cases hs
    rw [State.goto_pc_self]
    trivial
  · cases hs
    rw [State.goto_pc_self]
    trivial
  · cases hs
    rw [State.goto_pc_self, Pc.Built, State.goto_spans, setSpan_spans, if_pos rfl]
  · next g s hpc =>
    rw [hpc] at hown
    cases hs
    rw [State.goto_pc_self, Pc.Built, State.goto_spans, setLocals_spans, if_pos rfl]
    exact ⟨hown,rfl⟩
  · cases hs
    rw [State.goto_pc_self]
    trivial
  · cases hs
    rw [State.goto_pc_self]
    trivial
  · split at hs <;> (cases hs; rw [State.goto_pc_self]; trivial)
  · dsimp only at hs
    repeat' split at hs
    all_goals
      cases hs
      rw [State.goto_pc_self]
      trivial
  · cases hs

theorem popLocal_built {empty : Pc} (hempty : ∀ X, empty.Built X) :
    ((popLocal st c sc empty).pc c).Built (popLocal st c sc empty) := by
  unfold popLocal
  split
  · rw [State.goto_pc_self]
    exact hempty _
  · rw [State.goto_pc_self]
    trivial

theorem settle_built (n : ℕ) (f : FreeCall) : (m.settle n f).Built st := by
  unfold Machine.settle
  repeat' split
  all_goals trivial

theorem retire_built (sc s n : ℕ) : (m.retire sc s n).Built st := by
  unfold Machine.retire
  split <;> trivial

theorem then_built (s : ℕ) (k : Then) : (k.pc s).Built st := by
  cases k <;> trivial

theorem BuiltInv.step {e : Event} (hbuilt : BuiltInv st) (hi : Inv m st) (h : SpotInv st)
    (hcount : CountInv st) (hok : Unwrapped st e) (hs : Stepwise.step m st e = some st') :
    BuiltInv st' := by
  cases e with
  | allocate c size =>
    rw [Stepwise.step] at hs
    split at hs
    · cases hs
      refine hbuilt.next hi h .load ?_
      rw [State.goto_pc_self]
      split <;> trivial
    · cases hs
  | free c p =>
    rw [Stepwise.step] at hs
    split at hs
    · cases hs
      refine hbuilt.next hi h (.goto rfl (fun _ _ => rfl) rfl) ?_
      rw [State.goto_pc_self]
      trivial
    · cases hs
  | next c rand =>
    rcases step_next hs with hs | hs | hs
    · refine hbuilt.next hi h (hi.mild_free hs hok) ?_
      unfold Stepwise.freeStep at hs
      repeat' split at hs
      all_goals first
        | (cases hs; rw [State.goto_pc_self]; trivial)
        | (cases hs; rw [State.goto_pc_self]; exact settle_built _ _)
        | cases hs
    · refine hbuilt.next hi h (hi.mild_allocate hs (hcount c)) ?_
      unfold Stepwise.allocateStep at hs
      repeat' split at hs
      all_goals first
        | (cases hs; exact popLocal_built fun _ => trivial)
        | (cases hs; rw [State.goto_pc_self]; trivial)
        | (cases hs; rw [State.goto_pc_self]; exact retire_built _ _ _)
        | (cases hs; rw [State.goto_pc_self]; exact then_built _ _)
        | cases hs
    · exact hbuilt.fetchStep hi h hs hok

end Scalloc.Stepwise
