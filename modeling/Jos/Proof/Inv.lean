import Jos.Proof.Insert

/-!
# The invariant of the memory manager

`Inv F K A` relates a sound state to the start of a run: `F` is the set of pages that
the allocator manages (those that were free at boot), `K` is the kernel's part of the
address space above `UTOP`, and `A` is a property of the leaf entries below `UTOP`.
-/

namespace Jos

open Lib

/-- The state is sound, user mappings and the tables of environments stay on pages of
`F`, the leaf entries from `UTOP` up are those of `K`, and those below satisfy `A`. -/
structure Inv (F : Set ℕ) (K : Vpn → Option PTE) (A : PTE → Prop) (R : Roots) (m : Pmap)
    (fl : List ℕ) : Prop where
  sound : Sound R m fl
  free : ∀ p ∈ fl, p ∈ F
  target : ∀ s p, targets R m s = some p → p ∈ F
  node : ∀ e π p, (tables R m).At (.env e) π p → p ∈ F
  kern : ∀ v, ¬ User (.kern, v) → view R m (.kern, v) = K v
  perm : ∀ s v, User s → view R m s = some v → A v

variable {F : Set ℕ} {K : Vpn → Option PTE} {A : PTE → Prop} {R R' : Roots} {m m' : Pmap}
variable {fl fl' new : List ℕ} {o : Owner} {e : EnvIdx} {v : PTE} {t p q r pp : ℕ} {a b c d : Idx}
variable {va : VA} {perm : BitVec 32}

/-- A sound state with no new mapping, no new table and no new free page. -/
theorem Inv.of_sub (h : Inv F K A R m fl) (hs : Sound R' m' fl') (hf : ∀ p ∈ fl', p ∈ F)
    (hn : ∀ e π p, (tables R' m').At (.env e) π p → p ∈ F)
    (hk : ∀ v, view R' m' (.kern, v) = view R m (.kern, v))
    (hv : ∀ s v, view R' m' s = some v → view R m s = some v) : Inv F K A R' m' fl' := by
  refine ⟨hs, hf, fun s p hp => ?_, hn, fun v hu => by rw [hk]; exact h.kern v hu,
    fun s v hu hw => h.perm s v hu (hv s v hw)⟩
  obtain ⟨hu, v, h1, h2⟩ := targets_eq_some.1 hp
  exact h.target s p (targets_eq_some.2 ⟨hu, v, hv s v h1, h2⟩)

theorem Inv.restored (h : Inv F K A R m fl) (hr : Restored m m' fl) : Inv F K A R m' fl := by
  obtain ⟨-, hat, hview⟩ := h.sound.wf.restored hr
  refine h.of_sub (h.sound.restored hr) h.free (fun e π p hp => h.node e π p ((hat _ _ _).1 hp)) ?_ ?_
  · intro v; rw [hview]
  · intro s v hv; rwa [hview] at hv

theorem Inv.grown (h : Inv F K A R m fl) (hg : Grown R o m fl m' fl' new) : Inv F K A R m' fl' := by
  have hfl : ∀ p ∈ fl', p ∈ fl := fun p hp => by rw [hg.list]; exact List.mem_append_right _ hp
  refine h.of_sub (h.sound.grown hg) (fun p hp => h.free p (hfl p hp)) ?_ ?_ ?_
  · intro e π p hp
    rcases hg.only _ _ _ hp with hp | hp
    · exact h.node e π p hp
    · exact h.free p (by rw [hg.list]; exact List.mem_append_left _ hp)
  · intro v; rw [hg.view]
  · intro s v hv; rwa [hg.view] at hv

theorem Inv.taken (h : Inv F K A R m (p :: fl)) (z : Bool) : Inv F K A R (taken m z p) fl := by
  obtain ⟨-, hat, hview⟩ := h.sound.wf.taken z
  refine h.of_sub (h.sound.taken z) (fun q hq => h.free q (List.mem_cons_of_mem _ hq))
    (fun e π p hp => h.node e π p ((hat _ _ _).1 hp)) ?_ ?_
  · intro v; rw [hview]
  · intro s v hv; rwa [hview] at hv

/-- A page that was taken from the free list may be mapped. -/
theorem Inv.mappable_taken (h : Inv F K A R m (p :: fl)) (z : Bool) :
    Mappable R (Jos.taken m z p) fl p := by
  obtain ⟨-, hat, -⟩ := h.sound.wf.taken z
  refine ⟨by rw [taken_npages]; exact h.sound.wf.free.lt p List.mem_cons_self,
    (List.nodup_cons.1 h.sound.wf.free.nodup).1, ?_, ?_⟩
  · rintro ⟨o, π, hp⟩
    exact h.sound.wf.free_node p List.mem_cons_self ((hat _ _ _).1 hp).node
  · rw [taken_ref, h.sound.wf.free.ref p List.mem_cons_self]; decide

/-- The page of a mapping may be mapped again, unless its count is at its maximum. -/
theorem Sound.mappable (h : Sound R m fl) {s : Owner × Vpn} (hs : User s) (hv : view R m s = some v)
    (hmax : (m.pages (ppn v)).ppRef ≠ 0xFFFF#16) : Mappable R m fl (ppn v) := by
  obtain ⟨h1, h2, h3⟩ := h.wf.leaf s v hs hv
  exact ⟨h1, h2, h3, hmax⟩

/-- A page that `page_alloc` took and nothing refers to may be freed again. -/
theorem Inv.freed (h : Inv F K A R m fl) (hp : Mappable R m fl p) (h0 : (m.pages p).ppRef = 0)
    (hF : p ∈ F) : Inv F K A R (freed m p) (p :: fl) := by
  have hm : ∀ t, (tables R m).Node t → (Jos.freed m p).mem t = m.mem t := fun _ _ => rfl
  have hpages : ∀ q, ((Jos.freed m p).pages q).ppRef = (m.pages q).ppRef := fun q => by
    simp [Jos.freed]
  have hnt : ∀ s, targets R m s ≠ some p := by
    intro s hs
    have h1 := refs_pos hs
    have h2 := h.sound.counted p
    rw [h0] at h2
    have : (0 : BitVec 16).toNat = 0 := rfl
    omega
  have hat : ∀ o π n, (tables R (Jos.freed m p)).At o π n ↔ (tables R m).At o π n :=
    fun _ _ _ => at_congr hm
  have hview : view R (Jos.freed m p) = view R m := view_off hm
  have hw := h.sound.wf
  have hnode : ∀ n, (tables R (Jos.freed m p)).Node n ↔ (tables R m).Node n :=
    fun n => exists_congr fun o => exists_congr fun π => hat o π n
  have hwf : Wf R (Jos.freed m p) (p :: fl) := by
    refine ⟨hw.free.freed hp.notFree hp.lt h0, fun q hq => ?_,
      hw.unshared.mono fun o π n => (hat o π n).1, fun q hq => hw.node_lt q ((hnode q).1 hq),
      fun o π q hq hne => ?_, fun q hq => hw.clean q ((hnode q).1 hq), hw.kern, ?_, hw.top,
      fun s v hs hv => ?_⟩
    · rw [hnode]
      rcases List.mem_cons.1 hq with rfl | hq
      · exact hp.notNode
      · exact hw.free_node q hq
    · rw [hpages]; exact hw.node_ref o π q ((hat o π q).1 hq) hne
    · obtain ⟨q, hq⟩ := hw.spine
      exact ⟨q, (hat _ _ _).2 hq⟩
    · rw [hview] at hv
      obtain ⟨h1, h2, h3⟩ := hw.leaf s v hs hv
      refine ⟨h1, ?_, fun hn => h3 ((hnode _).1 hn)⟩
      rw [List.mem_cons, not_or]
      exact ⟨fun he => hnt s (targets_eq_some.2 ⟨hs, v, hv, he⟩), h2⟩
  refine h.of_sub ⟨hwf, fun q => ?_⟩ (fun q hq => ?_) (fun e π q hq => h.node e π q ((hat _ _ _).1 hq))
    (fun v => by rw [hview]) (fun s v hv => by rwa [hview] at hv)
  · rw [hpages, targets_congr hview]; exact h.sound.counted q
  · rcases List.mem_cons.1 hq with rfl | hq
    · exact hF
    · exact h.free q hq

theorem Inv.removeAt (h : Inv F K A R m fl) (ht : (tables R m).At o [a, b, c] t)
    (hs : User (o, (a, b, c, d))) (hp : flag (m.mem t d) pteP = true) :
    Inv F K A R (removeAt m t d) (dropList m fl (ppn (m.mem t d))) := by
  obtain ⟨hat, hview⟩ := view_removeAt (d := d) h.sound.wf ht
  have hv : view R m (o, (a, b, c, d)) = some (m.mem t d) := view_eq_some.2 ⟨t, ht, rfl, hp⟩
  have hsub : ∀ s v, view R (Jos.removeAt m t d) s = some v → view R m s = some v := by
    intro s v hw
    rw [hview] at hw
    by_cases hst : s = (o, (a, b, c, d))
    · subst hst; rw [Function.update_self] at hw; cases hw
    · rwa [Function.update_of_ne hst] at hw
  refine ⟨h.sound.removeAt ht hs hp, fun p hq => ?_, fun s p hq => ?_,
    fun e π p hq => h.node e π p ((hat _ _ _).1 hq), fun v hu => ?_,
    fun s v hu hw => h.perm s v hu (hsub s v hw)⟩
  · rcases mem_dropList.1 hq with ⟨rfl, -⟩ | hq
    · exact h.target _ _ (targets_eq_some.2 ⟨hs, _, hv, rfl⟩)
    · exact h.free p hq
  · obtain ⟨hu, v, h1, h2⟩ := targets_eq_some.1 hq
    exact h.target s p (targets_eq_some.2 ⟨hu, v, hsub s v h1, h2⟩)
  · have hne : ((.kern, v) : Owner × Vpn) ≠ (o, (a, b, c, d)) := by
      intro he; rw [he] at hu; exact hu hs
    rw [hview, Function.update_of_ne hne]
    exact h.kern v hu

theorem Inv.insertAt (h : Inv F K A R m fl) (ht : (tables R m).At o [a, b, c] t)
    (hs : User (o, (a, b, c, d))) (hpp : Mappable R m fl pp) (hF : pp ∈ F) (hperm : PermOk perm)
    (hA : A (mkPte pp perm)) :
    Inv F K A R (insertAt m t d pp perm) (insertList m fl t d pp) := by
  obtain ⟨hsound, hat, hview, -⟩ := h.sound.insertAt ht hs hpp hperm
  have hlt : pp < 2 ^ 52 := by
    have := hpp.lt
    have := h.sound.wf.npages_le
    omega
  refine ⟨hsound, fun p hq => ?_, fun s p hq => ?_,
    fun e π p hq => h.node e π p ((hat _ _ _).1 hq), fun v hu => ?_, fun s v hu hw => ?_⟩
  · unfold insertList at hq
    split at hq
    · rename_i hp
      rcases mem_dropList.1 hq with ⟨rfl, -⟩ | hq
      · exact h.target _ _ (targets_eq_some.2 ⟨hs, _, view_eq_some.2 ⟨t, ht, rfl, hp⟩, rfl⟩)
      · exact h.free p hq
    · exact h.free p hq
  · obtain ⟨hu, v, h1, h2⟩ := targets_eq_some.1 hq
    rw [hview] at h1
    by_cases hst : s = (o, (a, b, c, d))
    · subst hst
      rw [Function.update_self] at h1
      cases h1
      rw [← h2, ppn_mkPte hlt hperm]; exact hF
    · rw [Function.update_of_ne hst] at h1
      exact h.target s p (targets_eq_some.2 ⟨hu, v, h1, h2⟩)
  · have hne : ((.kern, v) : Owner × Vpn) ≠ (o, (a, b, c, d)) := by
      intro he; rw [he] at hu; exact hu hs
    rw [hview, Function.update_of_ne hne]
    exact h.kern v hu
  · rw [hview] at hw
    by_cases hst : s = (o, (a, b, c, d))
    · subst hst
      rw [Function.update_self] at hw
      cases hw; exact hA
    · rw [Function.update_of_ne hst] at hw
      exact h.perm s v hu hw

/-! ## `page_insert` as a step -/

/-- **What a successful `page_insert`** of page `pp` at `va` in environment `e` does:
the walk makes the missing tables, and the mapping is installed in the last one. -/
def Inserts (R : Roots) (e : EnvIdx) (va : VA) (pp : ℕ) (perm : BitVec 32) (m : Pmap) (fl : List ℕ)
    (m' : Pmap) (fl' : List ℕ) : Prop :=
  ∃ m₁ fl₁ new q, Grown R (ownerOf e va) m fl m₁ fl₁ new ∧
    (tables R m₁).At (ownerOf e va) (path va) q ∧ Mappable R m₁ fl₁ pp ∧
    m' = Jos.insertAt m₁ q (ptx va) pp perm ∧ fl' = insertList m₁ fl₁ q (ptx va) pp

/-- **How `page_insert` ends**, below `UTOP`: it fails when more tables are missing than
pages are free, with the state restored, and installs the mapping otherwise. -/
theorem Sound.pageInsert_cases (perm : BitVec 32) (h : Sound R m fl) (hr : R (.env e) = some r)
    (hva : va < utop) (hpp : Mappable R m fl pp) :
    (fl.length < missingTables m r va ∧
      ∃ m', Jos.pageInsert m r pp va perm = some (-eNoMem, m') ∧ Restored m m' fl) ∨
    (missingTables m r va ≤ fl.length ∧ ∃ m' fl', Jos.pageInsert m r pp va perm = some (0, m') ∧
      Inserts R e va pp perm m fl m' fl') := by
  by_cases hm : missingTables m r va ≤ fl.length
  · obtain ⟨m₁, q, h1, h2, h3, h4⟩ := h.pageInsert hr hva hm hpp
    exact Or.inr ⟨hm, _, _, h1, m₁, _, _, q, h2, h3, h4, rfl, rfl⟩
  · rw [not_le] at hm
    exact Or.inl ⟨hm, h.wf.pageInsert_short hr hva hm⟩

section Inserts

variable (hi : Inserts R e va pp perm m fl m' fl')
include hi

theorem Inserts.boot : m'.bootPml4e = m.bootPml4e := by
  obtain ⟨m₁, fl₁, new, q, hg, -, -, rfl, -⟩ := hi
  exact insertAt_boot.trans hg.boot

theorem Inserts.npages : m'.npages = m.npages := by
  obtain ⟨m₁, fl₁, new, q, hg, -, -, rfl, -⟩ := hi
  exact insertAt_npages.trans hg.npages

/-- The mapping is the only one that changes. -/
theorem Inserts.view_eq (h : Sound R m fl) (hva : va < utop) (hperm : PermOk perm) :
    view R m' = Function.update (view R m) (ownerOf e va, vpn va) (some (mkPte pp perm)) := by
  obtain ⟨m₁, fl₁, new, q, hg, hat, hpp, rfl, -⟩ := hi
  rw [← hg.view]
  exact ((h.grown hg).insertAt hat (user_vpn hva) hpp hperm).2.2.1

/-- Memory outside the tables of the owner of the address changes only on pages that
were free. -/
theorem Inserts.off {t : ℕ} (ht : ∀ π, ¬ (tables R m).At (ownerOf e va) π t) (hf : t ∉ fl) :
    m'.mem t = m.mem t := by
  obtain ⟨m₁, fl₁, new, q, hg, hat, -, rfl, -⟩ := hi
  have hn : t ∉ new := fun hn => hf (by rw [hg.list]; exact List.mem_append_left _ hn)
  have htq : t ≠ q := by
    rintro rfl
    rcases hg.only _ _ _ hat with h1 | h1
    · exact ht _ h1
    · exact hn h1
  funext j
  rw [insertAt_mem fun hc => htq hc.1, hg.off t ht hn]

/-- **A successful `page_insert` keeps the invariant.** -/
theorem Inserts.inv (h : Inv F K A R m fl) (hva : va < utop) (hF : pp ∈ F) (hperm : PermOk perm)
    (hA : A (mkPte pp perm)) : Inv F K A R m' fl' := by
  obtain ⟨m₁, fl₁, new, q, hg, hat, hpp, rfl, rfl⟩ := hi
  exact (h.grown hg).insertAt hat (user_vpn hva) hpp hF hperm hA

end Inserts

end Jos
