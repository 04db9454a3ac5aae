import Scalloc.Heap.Shutdown

/-! # One ring with assignments left

Between the link assignments of a call the nodes of a deque are no ring. What holds all
the time is that the assignments left to the holder of the lock make them one.
-/
namespace Scalloc.Shutdown
open Function LinkCode LinkedRing

/-- The program `code` makes the links a ring of `nodes` with sentinel `s` and unlinks the
other nodes of its footprint `M`. -/
structure Settles (s : ℕ) (L : Links ℕ) (nodes : List ℕ) (code : List (Stmt ℕ)) (M : Set ℕ) :
    Prop where
  null : 0 ∉ M
  closed : Closed 0 M L
  within : ∀ c ∈ code, c.Within M
  mem : ∀ x ∈ s :: nodes, x ∈ M
  settles : ∃ L₁, L.run 0 code = some L₁ ∧ IsRing L₁.next L₁.prev s nodes ∧
    ∀ x ∈ M, x ∉ s :: nodes → Unlinked 0 L₁ x
  linked : ∀ x ∈ M, L.next x ≠ 0 ∨ (x ∈ s :: nodes ∧ L.prev x ≠ 0)
  keeps : ∀ x, .clearPrev x ∈ code → x ∉ s :: nodes
  clears : ∀ x, .clearNext x ∉ code.dropLast

variable {s node : ℕ} {L L' : Links ℕ} {nodes : List ℕ} {code : List (Stmt ℕ)} {c : Stmt ℕ}
  {M : Set ℕ}

/-- Outside the footprint anything may change. -/
theorem Settles.frame (h : Settles s L nodes code M) (ha : AgreeOn M L L') :
    Settles s L' nodes code M where
  null := h.null
  closed := h.closed.congr ha
  within := h.within
  mem := h.mem
  settles := by
    obtain ⟨L₁,hrun,hring,hloose⟩ := h.settles
    obtain ⟨L₁',hrun',ha'⟩ := ha.run h.within hrun
    refine ⟨L₁',hrun',?_,?_⟩
    · exact hring.congr (fun x hx => (ha' x (h.mem x hx)).1) (fun x hx => (ha' x (h.mem x hx)).2)
    · intro x hx hn
      obtain ⟨h1,h2⟩ := ha' x hx
      obtain ⟨h3,h4⟩ := hloose x hx hn
      exact ⟨h1.trans h3,h2.trans h4⟩
  linked := by
    intro x hx
    obtain ⟨h1,h2⟩ := ha x hx
    rw [h1, h2]
    exact h.linked x hx
  keeps := h.keeps
  clears := h.clears

/-- A ring at rest. -/
theorem settles_nil (hring : IsRing L.next L.prev s nodes) (h0 : 0 ∉ s :: nodes) :
    Settles s L nodes [] {x | x ∈ s :: nodes} where
  null := h0
  closed := fun x hx => ⟨.inr (hring.links hx).1,.inr (hring.links hx).2.1⟩
  within := by simp
  mem := fun x hx => hx
  settles := ⟨L,rfl,hring,fun x hx hn => absurd hx hn⟩
  linked := fun x hx => .inl fun h => h0 (h ▸ (hring.links hx).1)
  keeps := by simp
  clears := by simp

/-- With nothing left to do the ring is there and is all of the footprint. -/
theorem Settles.ring (h : Settles s L nodes [] M) :
    IsRing L.next L.prev s nodes ∧ M = {x | x ∈ s :: nodes} := by
  obtain ⟨L₁,hrun,hring,hloose⟩ := h.settles
  obtain rfl := Option.some.inj hrun
  refine ⟨hring,Set.ext fun x => ⟨fun hx => ?_,h.mem x⟩⟩
  by_contra hn
  obtain ⟨h1,h2⟩ := hloose x hx hn
  rcases h.linked x hx with h3 | h3
  · exact h3 h1
  · exact h3.2 h2

theorem Settles.not_unlinked (h : Settles s L nodes code M) {x : ℕ} (hx : x ∈ M) :
    ¬ Unlinked 0 L x := by
  rintro ⟨h1,h2⟩
  rcases h.linked x hx with h3 | h3
  · exact h3 h1
  · exact h3.2 h2

/-- An assignment other than the two clears leaves every node as linked as it was. -/
theorem exec_linked {x : ℕ} (he : L.exec 0 c = some L') (hn : c ≠ .clearNext x)
    (hx : L.next x ≠ 0) : L'.next x ≠ 0 := by
  cases c with
  | setNext p v =>
    simp only [Links.exec, Option.ite_none_left_eq_some, not_or, Option.some.injEq] at he
    obtain ⟨⟨hp,hv⟩,rfl⟩ := he
    by_cases hxp : x = p.eval L
    · simpa [Links.setNext, hxp] using hv
    · simpa [Links.setNext, hxp] using hx
  | clearNext y =>
    obtain rfl := Option.some.inj he
    have hxy : x ≠ y := fun h => hn (h ▸ rfl)
    simpa [Links.setNext, hxy] using hx
  | setPrev p v =>
    simp only [Links.exec, Option.ite_none_left_eq_some, not_or, Option.some.injEq] at he
    obtain ⟨_,rfl⟩ := he
    exact hx
  | clearPrev y =>
    obtain rfl := Option.some.inj he
    exact hx

theorem exec_linked_prev {x : ℕ} (he : L.exec 0 c = some L') (hn : c ≠ .clearPrev x)
    (hx : L.prev x ≠ 0) : L'.prev x ≠ 0 := by
  cases c with
  | setPrev p v =>
    simp only [Links.exec, Option.ite_none_left_eq_some, not_or, Option.some.injEq] at he
    obtain ⟨⟨hp,hv⟩,rfl⟩ := he
    by_cases hxp : x = p.eval L
    · simpa [Links.setPrev, hxp] using hv
    · simpa [Links.setPrev, hxp] using hx
  | clearPrev y =>
    obtain rfl := Option.some.inj he
    have hxy : x ≠ y := fun h => hn (h ▸ rfl)
    simpa [Links.setPrev, hxy] using hx
  | setNext p v =>
    simp only [Links.exec, Option.ite_none_left_eq_some, not_or, Option.some.injEq] at he
    obtain ⟨_,rfl⟩ := he
    exact hx
  | clearNext y =>
    obtain rfl := Option.some.inj he
    exact hx

/-- One assignment. A node leaves the footprint with its links null. -/
theorem Settles.exec (h : Settles s L nodes (c :: code) M) :
    ∃ L' M', L.exec 0 c = some L' ∧ AgreeOn Mᶜ L L' ∧ Settles s L' nodes code M' ∧ M' ⊆ M ∧
      ∀ x ∈ M, x ∉ M' → Unlinked 0 L' x := by
  obtain ⟨L₁,hrun,hring,hloose⟩ := h.settles
  obtain ⟨L',he,hrun⟩ := Option.bind_eq_some_iff.mp hrun
  obtain ⟨hcl,hout⟩ := h.closed.exec (h.within c (by simp)) he
  cases code with
  | nil =>
    obtain rfl := Option.some.inj hrun
    have h0 : 0 ∉ s :: nodes := fun hx => h.null (h.mem 0 hx)
    exact ⟨L',_,he,hout,settles_nil hring h0,h.mem,hloose⟩
  | cons d code =>
    refine ⟨L',M,he,hout,⟨h.null,hcl,?_,h.mem,⟨L₁,hrun,hring,hloose⟩,?_,?_,?_⟩,subset_rfl,?_⟩
    · exact fun e he => h.within e (List.mem_cons_of_mem _ he)
    · intro x hx
      have hc : c ≠ .clearNext x := by
        intro hc
        exact h.clears x (by simp [hc, List.dropLast_cons_cons])
      rcases h.linked x hx with h1 | ⟨h1,h2⟩
      · exact .inl (exec_linked he hc h1)
      · have hp : c ≠ .clearPrev x := fun hp => h.keeps x (by simp [hp]) h1
        exact .inr ⟨h1,exec_linked_prev he hp h2⟩
    · exact fun x hx => h.keeps x (List.mem_cons_of_mem _ hx)
    · intro x hx
      exact h.clears x (by simp [List.dropLast_cons_cons, hx])
    · exact fun x hx hn => absurd hx hn

theorem run_pushFront (hn : node ≠ 0) (hs : s ≠ 0) (hns : node ≠ s) (hf : L.next s ≠ 0) :
    (L.setPrev node s).run 0 (pushFrontCode s node) =
      some ⟨update (update L.next node (L.next s)) s node,
        update (update L.prev node s) (L.next s) node⟩ := by
  simp [Links.run, pushFrontCode, Links.exec, Ptr.eval, Links.setNext, Links.setPrev, hn, hs, hf,
    hns.symm]

/-- The first assignment of `PushFront` brings the node in. -/
theorem Settles.pushFront (h : Settles s L nodes [] M) (hn : node ≠ 0) (hm : node ∉ M)
    (hu : Unlinked 0 L node) :
    Settles s (L.setPrev node s) (node :: nodes) (pushFrontCode s node) (insert node M) := by
  obtain ⟨hring,hM⟩ := h.ring
  have hsM : s ∈ M := h.mem s (List.mem_cons_self ..)
  have hns : node ≠ s := fun he => hm (he ▸ hsM)
  have hs : s ≠ 0 := fun he => h.null (he ▸ hsM)
  have hf : L.next s ≠ 0 := fun he => h.null (he ▸ h.mem _ (hring.sentinel_links.1))
  have hmem : ∀ x ∈ s :: node :: nodes, x ∈ insert node M := by
    intro x hx
    rcases List.mem_cons.mp hx with rfl | hx
    · exact .inr hsM
    · rcases List.mem_cons.mp hx with rfl | hx
      · exact .inl rfl
      · exact .inr (h.mem x (List.mem_cons_of_mem _ hx))
  have hxm : node ∉ s :: nodes := fun hx => hm (h.mem node hx)
  refine ⟨?_,?_,?_,hmem,⟨_,run_pushFront hn hs hns hf,hring.insert hxm,?_⟩,?_,?_,?_⟩
  · rintro (h0 | h0)
    · exact hn h0.symm
    · exact h.null h0
  · rintro x (rfl | hx)
    · exact ⟨.inl hu.1,.inr (.inr (by simpa [Links.setPrev] using hsM))⟩
    · have hxn : x ≠ node := fun he => hm (he ▸ hx)
      obtain ⟨h1,h2⟩ := h.closed x hx
      refine ⟨h1.imp_right .inr,?_⟩
      simpa [Links.setPrev, hxn] using h2.imp_right .inr
  · simp [pushFrontCode, Stmt.Within, Ptr.name, hsM]
  · intro x hx hn'
    refine absurd ?_ hn'
    rcases hx with rfl | hx
    · simp
    · rw [hM] at hx
      rcases List.mem_cons.mp hx with rfl | hx
      · exact List.mem_cons_self ..
      · exact List.mem_cons_of_mem _ (List.mem_cons_of_mem _ hx)
  · rintro x (rfl | hx)
    · exact .inr ⟨by simp,by simpa [Links.setPrev] using hs⟩
    · refine .inl ?_
      rw [hM] at hx
      exact fun he => h.null (he ▸ h.mem _ (hring.links hx).1)
  · simp [pushFrontCode]
  · simp [pushFrontCode]

theorem run_remove (hn : L.next node ≠ 0) (hp : L.prev node ≠ 0)
    (hne : L.next node ≠ node) :
    L.run 0 (removeCode node) =
      some ⟨update (update L.next (L.prev node) (L.next node)) node 0,
        update (update L.prev (L.next node) (L.prev node)) node 0⟩ := by
  have hv : update L.prev (L.next node) (L.prev node) node = L.prev node := update_of_ne hne.symm _ _
  simp [Links.run, removeCode, clearCode, Links.exec, Ptr.eval, Links.setNext, Links.setPrev, hn, hp,
    hv]

/-- What joining the neighbours of a node and clearing it makes of a ring. -/
theorem ring_erase (hring : IsRing L.next L.prev s nodes) (hx : node ∈ nodes) :
    IsRing (update (update L.next (L.prev node) (L.next node)) node 0)
      (update (update L.prev (L.next node) (L.prev node)) node 0) s (nodes.erase node) ∧
    node ∉ s :: nodes.erase node := by
  have hnd := (List.nodup_cons.mp hring.nodup).2
  have hnm : node ∉ s :: nodes.erase node := by
    intro hm
    rcases List.mem_cons.mp hm with rfl | hm
    · exact hring.notMem hx
    · exact (hnd.mem_erase_iff.mp hm).1 rfl
  refine ⟨(hring.erase hx).congr ?_ ?_,hnm⟩
  · intro y hy
    have hyn : y ≠ node := fun he => hnm (he ▸ hy)
    exact update_of_ne hyn _ _
  · intro y hy
    have hyn : y ≠ node := fun he => hnm (he ▸ hy)
    exact update_of_ne hyn _ _

/-- An accepted `Remove` takes the node out. -/
theorem Settles.remove (h : Settles s L nodes [] M) (hx : node ∈ nodes) :
    L.next node ≠ 0 ∧ L.prev node ≠ 0 ∧ Settles s L (nodes.erase node) (removeCode node) M := by
  obtain ⟨hring,hM⟩ := h.ring
  have hxs : node ∈ s :: nodes := List.mem_cons_of_mem _ hx
  have hl := hring.links hxs
  have hn0 : ∀ y ∈ s :: nodes, y ≠ 0 := fun y hy he => h.null (he ▸ h.mem y hy)
  have hne : L.next node ≠ node := hring.next_ne hx
  obtain ⟨hring',hnm⟩ := ring_erase hring hx
  refine ⟨hn0 _ hl.1,hn0 _ hl.2.1,h.null,h.closed,?_,?_,?_,?_,?_,?_⟩
  · simp [removeCode, clearCode, Stmt.Within, Ptr.name, h.mem node hxs]
  · intro y hy
    rcases List.mem_cons.mp hy with rfl | hy
    · exact h.mem y (List.mem_cons_self ..)
    · exact h.mem y (List.mem_cons_of_mem _ (List.mem_of_mem_erase hy))
  · refine ⟨_,run_remove (hn0 _ hl.1) (hn0 _ hl.2.1) hne,hring',?_⟩
    intro y hy hn
    rw [hM] at hy
    have hyn : y = node := by
      by_contra hyn
      refine hn ?_
      rcases List.mem_cons.mp hy with rfl | hy
      · exact List.mem_cons_self ..
      · exact List.mem_cons_of_mem _ ((List.mem_erase_of_ne hyn).mpr hy)
    simp [Unlinked, hyn]
  · intro y hy
    rw [hM] at hy
    exact .inl (hn0 _ (hring.links hy).1)
  · intro y hy
    have hyn : y = node := by simpa [removeCode, clearCode] using hy
    exact hyn ▸ hnm
  · simp [removeCode, clearCode]

theorem run_removeFront (hs : s ≠ 0) (hns : node ≠ s) (hn : L.next node ≠ 0) :
    L.run 0 (removeFrontCode s node ++ clearCode node) =
      some ⟨update (update L.next s (L.next node)) node 0,
        update (update L.prev (L.next node) s) node 0⟩ := by
  simp [Links.run, removeFrontCode, clearCode, Links.exec, Ptr.eval, Links.setNext, Links.setPrev,
    hn, hs, hns]

theorem run_removeFront_nil (hs : s ≠ 0) (hn : L.next s = s) (hp : L.prev s = s) :
    L.run 0 (removeFrontCode s s) = some L := by
  have h1 : update L.next s s = L.next := update_eq_self_iff.mpr hn.symm
  have h2 : update L.prev s s = L.prev := update_eq_self_iff.mpr hp.symm
  simp [Links.run, removeFrontCode, Links.exec, Ptr.eval, Links.setNext, Links.setPrev, hs, hn, h1, h2]

/-- `RemoveFront` takes the first node out, if there is one. -/
theorem Settles.removeFront (h : Settles s L nodes [] M) :
    Settles s L nodes.tail
      (removeFrontCode s (L.next s) ++ if L.next s = s then [] else clearCode (L.next s)) M ∧
    (L.next s = s ↔ nodes = []) := by
  obtain ⟨hring,hM⟩ := h.ring
  have hsM : s ∈ M := h.mem s (List.mem_cons_self ..)
  have hs : s ≠ 0 := fun he => h.null (he ▸ hsM)
  cases nodes with
  | nil =>
    obtain ⟨h1,h2⟩ := IsRing.nil_iff.mp hring
    rw [h1, if_pos rfl, List.append_nil]
    refine ⟨⟨h.null,h.closed,?_,h.mem,?_,h.linked,?_,?_⟩,by simp⟩
    · simp [removeFrontCode, Stmt.Within, Ptr.name, hsM]
    · refine ⟨L,run_removeFront_nil hs h1 h2,hring,?_⟩
      intro x hx hn
      rw [hM] at hx
      exact absurd hx hn
    · simp [removeFrontCode]
    · simp [removeFrontCode]
  | cons x nodes =>
    have hx : x ∈ x :: nodes := List.mem_cons_self ..
    have hxs : x ≠ s := fun he => hring.notMem (he ▸ hx)
    obtain ⟨hn,_,hrem⟩ := h.remove hx
    obtain ⟨hring',_⟩ := ring_erase hring hx
    rw [hring.prev_eq, List.erase_cons_head] at hring'
    rw [List.erase_cons_head] at hrem
    rw [hring.next_eq, if_neg hxs]
    refine ⟨⟨hrem.null,hrem.closed,?_,hrem.mem,?_,hrem.linked,?_,?_⟩,by simpa using hxs⟩
    · simp [removeFrontCode, clearCode, Stmt.Within, Ptr.name, hsM, h.mem x (by simp)]
    · obtain ⟨L₁,hrun,_,hloose⟩ := hrem.settles
      rw [run_remove hn (hring.prev_eq ▸ hs) (hring.next_ne hx), hring.prev_eq] at hrun
      refine ⟨_,run_removeFront hs hxs hn,hring',?_⟩
      obtain rfl := Option.some.inj hrun
      exact hloose
    · intro y hy
      refine hrem.keeps y ?_
      have hyx : y = x := by simpa [removeFrontCode, clearCode] using hy
      simp [removeCode, clearCode, hyx]
    · simp [removeFrontCode, clearCode]

end Scalloc.Shutdown
