import Jos.Proof.Inv

/-!
# Making and taking down address spaces

The steps of `env_setup_vm` and `env_free` on the trees: a new PML4, a table that is
taken out of its tree, and a PML4 that is dropped. The last two may strand what is
below: the tree loses all of it, but only the table itself goes back to the free list.
-/

namespace Jos

open Lib

variable {F : Set ℕ} {K : Vpn → Option PTE} {A : PTE → Prop} {R R' : Roots} {m m' : Pmap}
variable {fl : List ℕ} {o o' : Owner} {e : EnvIdx} {π π' : List Idx} {v : PTE} {t p q r : ℕ}
variable {i a b c d : Idx} {s : Owner × Vpn}

/-- A view that only loses entries keeps a sound count. -/
theorem refs_targets_mono (h : ∀ s v, view R' m' s = some v → view R m s = some v) (p : ℕ) :
    refs (targets R' m') p ≤ refs (targets R m) p := by
  refine refs_mono fun s t hs => ?_
  obtain ⟨hu, v, h1, h2⟩ := targets_eq_some.1 hs
  exact targets_eq_some.2 ⟨hu, v, h s v h1, h2⟩

/-- No mapping below `UTOP` refers to a table. -/
theorem Wf.targets_node (h : Wf R m fl) (hp : (tables R m).Node p) : refs (targets R m) p = 0 := by
  refine refs_eq_zero.2 fun s hs => ?_
  obtain ⟨hu, v, h1, rfl⟩ := targets_eq_some.1 hs
  exact (h.leaf s v hu h1).2.2 hp

/-! ## A new PML4 -/

/-- The memory after `env_setup_vm` has made page `p` a PML4. -/
def rooted (m : Pmap) (p : ℕ) : Pmap :=
  (((taken m true p).incRef p).write p 1 (m.mem m.bootPml4e 1)).write p 2 (page2pa p ||| pteP ||| pteU)

section rooted

@[simp] theorem rooted_npages : (rooted m p).npages = m.npages := by simp [rooted]
@[simp] theorem rooted_boot : (rooted m p).bootPml4e = m.bootPml4e := by simp [rooted]
theorem rooted_ref : ((rooted m p).pages q).ppRef =
    if q = p then (m.pages p).ppRef + 1 else (m.pages q).ppRef := by simp [rooted]
theorem rooted_mem (h : q ≠ p) : (rooted m p).mem q = m.mem q := by
  funext j
  unfold rooted
  rw [Pmap.write_mem_of_ne (fun hc => h hc.1), Pmap.write_mem_of_ne (fun hc => h hc.1),
    Pmap.incRef_mem, taken_mem_of_ne h]
theorem rooted_self (i : Idx) : (rooted m p).mem p i =
    if i = 2 then page2pa p ||| pteP ||| pteU else if i = 1 then m.mem m.bootPml4e 1 else 0 := by
  unfold rooted
  simp only [Pmap.write_mem, true_and, Pmap.incRef_mem, taken_mem_self]

end rooted

/-- The roots with that of one environment changed. -/
def setRoot (R : Roots) (e : EnvIdx) (r : Option ℕ) : Roots := Function.update R (.env e) r

@[simp] theorem setRoot_self : setRoot R e (some r) (.env e) = some r := Function.update_self ..

theorem setRoot_of_ne {x : Option ℕ} (h : o ≠ .env e) : setRoot R e x o = R o :=
  Function.update_of_ne h ..

/-- The trees after `env_setup_vm`. -/
theorem Wf.at_rooted (h : Wf R m (p :: fl)) (h0 : R (.env e) = none) :
    (tables (setRoot R e (some p)) (rooted m p)).At o π q ↔
      (tables R m).At o π q ∨ (o = .env e ∧ π = [] ∧ q = p) := by
  have hp : ¬ (tables R m).Node p := h.free_node p List.mem_cons_self
  refine Forest.addRoot_iff (F := tables R m) (o := .env e) rfl h0 setRoot_self
    (fun o ho => setRoot_of_ne ho) (fun j hj => next_eq_none.2 ?_) fun o' π' j s hs _ => ?_
  · have hj : j = 0 := inTree_one.1 hj
    rw [rooted_self, hj, if_neg (by decide), if_neg (by decide)]; exact flag_zero _
  · have hsp : s ≠ p := by rintro rfl; exact hp hs.node
    simp only [tables, next, rooted_mem hsp]

theorem Wf.view_rooted (h : Wf R m (p :: fl)) (h0 : R (.env e) = none) :
    view (setRoot R e (some p)) (rooted m p) = view R m := by
  funext ⟨o, a, b, c, d⟩
  refine Option.ext fun v => ?_
  rw [view_eq_some, view_eq_some]
  refine exists_congr fun t => ?_
  rw [h.at_rooted h0]
  constructor
  · rintro ⟨h1 | ⟨-, h1, -⟩, h2, h3⟩
    · have htp : t ≠ p := by rintro rfl; exact h.free_node _ List.mem_cons_self h1.node
      rw [rooted_mem htp] at h2
      exact ⟨h1, h2, h3⟩
    · cases h1
  · rintro ⟨h1, h2, h3⟩
    have htp : t ≠ p := by rintro rfl; exact h.free_node _ List.mem_cons_self h1.node
    exact ⟨Or.inl h1, by rw [rooted_mem htp]; exact h2, h3⟩

/-- **A new PML4** keeps the state well-formed. -/
theorem Wf.rooted (h : Wf R m (p :: fl)) (h0 : R (.env e) = none) :
    Wf (setRoot R e (some p)) (rooted m p) fl := by
  have hp : ¬ (tables R m).Node p := h.free_node p List.mem_cons_self
  have hpf : p ∉ fl := (List.nodup_cons.1 h.free.nodup).1
  have hbp : m.bootPml4e ≠ p := by
    rintro he; exact hp (he ▸ (root_at h.kern).node)
  have hnode : ∀ q, (tables (setRoot R e (some p)) (Jos.rooted m p)).Node q →
      (tables R m).Node q ∨ q = p := by
    rintro q ⟨o, π, hq⟩
    rcases (h.at_rooted h0).1 hq with hq | ⟨-, -, hq⟩
    · exact Or.inl hq.node
    · exact Or.inr hq
  have hne : ∀ {q}, (tables R m).Node q → q ≠ p := fun hq e => hp (e ▸ hq)
  refine ⟨((h.free.taken true).incRef hpf).congr rfl rfl rfl, ?_, ?_, ?_, ?_, ?_, ?_, ?_, ?_, ?_⟩
  · intro q hq hn
    rcases hnode q hn with hn | rfl
    · exact h.free_node q (List.mem_cons_of_mem _ hq) hn
    · exact hpf hq
  · exact h.unshared.insert hp fun o π q hq => (h.at_rooted h0).1 hq
  · intro q hq
    rw [rooted_npages]
    rcases hnode q hq with hq | rfl
    · exact h.node_lt q hq
    · exact h.free.lt _ List.mem_cons_self
  · intro o π q hq hk
    rw [rooted_ref, h.free.ref p List.mem_cons_self]
    rcases (h.at_rooted h0).1 hq with hq | ⟨-, -, rfl⟩
    · rw [if_neg (hne hq.node)]; exact h.node_ref o π q hq hk
    · rw [if_pos rfl]; rfl
  · intro q hq i hi
    rcases hnode q hq with hq | rfl
    · rw [rooted_mem (hne hq)] at hi ⊢; exact h.clean q hq i hi
    · rw [rooted_self] at hi ⊢
      split at hi
      · rw [BitVec.or_assoc, flag_or (by decide)] at hi; cases hi
      · rename_i h2
        rw [if_neg h2]
        split at hi
        · rw [h.kern_link.1] at hi; cases hi
        · rename_i h1; rw [if_neg h1]
  · rw [rooted_boot, setRoot_of_ne (by simp)]; exact h.kern
  · obtain ⟨q, hq⟩ := h.spine
    exact ⟨q, (h.at_rooted h0).2 (Or.inl hq)⟩
  · intro e' r hr
    rw [rooted_boot, rooted_mem hbp]
    by_cases he : e' = e
    · subst he
      rw [setRoot_self] at hr
      cases hr
      refine ⟨by rw [rooted_self]; rfl, by rw [rooted_self]; rfl, fun i hi => ?_⟩
      have h2 : i ≠ 2 := by rintro rfl; simp at hi
      have h1 : i ≠ 1 := by rintro rfl; simp at hi
      rw [rooted_self, if_neg h2, if_neg h1]
    · rw [setRoot_of_ne (by simpa using he)] at hr
      rw [rooted_mem (hne (root_at hr).node)]
      exact h.top e' r hr
  · intro s v hs hv
    rw [h.view_rooted h0] at hv
    obtain ⟨h1, h2, h3⟩ := h.leaf s v hs hv
    rw [List.mem_cons, not_or] at h2
    refine ⟨by rw [rooted_npages]; exact h1, h2.2, fun hn => ?_⟩
    rcases hnode _ hn with hn | hn
    · exact h3 hn
    · exact h2.1 hn

theorem Inv.rooted (h : Inv F K A R m (p :: fl)) (h0 : R (.env e) = none) :
    Inv F K A (setRoot R e (some p)) (rooted m p) fl := by
  have hw := h.sound.wf
  have hv := hw.view_rooted (e := e) h0
  refine h.of_sub ⟨hw.rooted h0, fun q => ?_⟩ (fun q hq => h.free q (List.mem_cons_of_mem _ hq))
    (fun e' π q hq => ?_) (fun v => by rw [hv]) (fun s v hs => by rwa [hv] at hs)
  · have h1 := refs_targets_mono (fun s v hs => by rwa [hv] at hs) q
    have h2 := h.sound.counted q
    rw [rooted_ref]
    split
    · subst q
      have h3 := hw.free.ref p List.mem_cons_self
      rw [h3] at h2 ⊢
      have : (0 : BitVec 16).toNat = 0 := rfl
      omega
    · omega
  · rcases (hw.at_rooted h0).1 hq with hq | ⟨-, -, rfl⟩
    · exact h.node e' π q hq
    · exact h.free _ List.mem_cons_self

/-! ## Taking a table out of its tree -/

/-- The page that a table of an environment links to. -/
structure Link (R : Roots) (m : Pmap) (e : EnvIdx) (π : List Idx) (t : ℕ) (i : Idx) : Prop where
  table : (tables R m).At (.env e) π t
  inTree : inTree (.env e) (π ++ [i])
  present : flag (m.mem t i) pteP = true

theorem Link.child (h : Link R m e π t i) : (tables R m).At (.env e) (π ++ [i]) (ppn (m.mem t i)) :=
  child_at h.table h.inTree h.present

/-- The trees after the table at entry `i` of `t` is taken out. -/
theorem Wf.at_removeTable (h : Wf R m fl) (hl : Link R m e π t i) :
    (tables R (removeAt m t i)).At o π' q ↔
      (tables R m).At o π' q ∧ ¬ (o = .env e ∧ π ++ [i] <+: π') := by
  refine at_unlink h.unshared hl.table (fun q _ j hj => ?_) ?_
  · rw [removeAt_mem, Pmap.write_mem_of_ne hj]
  · rw [removeAt_mem, Pmap.write_mem_self]; simp

theorem Wf.view_removeTable (h : Wf R m fl) (hl : Link R m e π t i) :
    view R (removeAt m t i) (o, (a, b, c, d)) = some v ↔
      view R m (o, (a, b, c, d)) = some v ∧ ¬ (o = .env e ∧ π ++ [i] <+: [a, b, c]) := by
  have hlen : π.length ≤ 2 := by have := hl.inTree.1; simp at this; omega
  rw [view_eq_some, view_eq_some, ← exists_and_right]
  refine exists_congr fun q => ?_
  rw [h.at_removeTable hl]
  have hm : (tables R m).At o [a, b, c] q → (removeAt m t i).mem q d = m.mem q d := by
    intro hq
    rw [removeAt_mem, Pmap.write_mem_of_ne]
    rintro ⟨rfl, -⟩
    obtain ⟨-, rfl⟩ := h.unshared hq hl.table
    simp at hlen
  constructor
  · rintro ⟨⟨h1, h2⟩, h3, h4⟩; exact ⟨⟨h1, by rw [← hm h1]; exact h3, h4⟩, h2⟩
  · rintro ⟨⟨h1, h3, h4⟩, h2⟩; exact ⟨⟨h1, h2⟩, by rw [hm h1]; exact h3, h4⟩

theorem Wf.ref_link (h : Wf R m fl) (hl : Link R m e π t i) :
    (m.pages (ppn (m.mem t i))).ppRef = 1 := h.node_ref _ _ _ hl.child (by simp)

/-- **A table that is taken out of its tree** goes back to the free list. -/
theorem Wf.removeTable (h : Wf R m fl) (hl : Link R m e π t i) :
    Wf R (removeAt m t i) (ppn (m.mem t i) :: fl) := by
  have hc := hl.child
  have hnf : ppn (m.mem t i) ∉ fl := fun hf => h.free_node _ hf hc.node
  have hdl : dropList (m.write t i 0) fl (ppn (m.mem t i)) = ppn (m.mem t i) :: fl := by
    unfold dropList; rw [Pmap.write_pages, if_pos (h.ref_link hl)]
  have hf : FreeOK (removeAt m t i) (ppn (m.mem t i) :: fl) := by
    have hw : FreeOK (m.write t i 0) fl := h.free.congr rfl rfl rfl
    rw [← hdl]
    exact hw.dropped hnf (h.node_lt _ hc.node)
  have hnode : ∀ q, (tables R (removeAt m t i)).Node q →
      (tables R m).Node q ∧ q ≠ ppn (m.mem t i) := by
    rintro q ⟨o, π', hq⟩
    obtain ⟨h1, h2⟩ := (h.at_removeTable hl).1 hq
    refine ⟨h1.node, ?_⟩
    rintro rfl
    obtain ⟨rfl, rfl⟩ := h.unshared h1 hc
    exact h2 ⟨rfl, List.prefix_rfl⟩
  have hmem : ∀ {q}, q ≠ t → (removeAt m t i).mem q = m.mem q := by
    intro q hq
    funext j
    rw [removeAt_mem, Pmap.write_mem_of_ne fun hj => hq hj.1]
  have hboot : (removeAt m t i).mem m.bootPml4e = m.mem m.bootPml4e := by
    refine hmem ?_
    rintro rfl
    have := (h.unshared (root_at h.kern) hl.table).1
    cases this
  refine ⟨hf, ?_, h.unshared.mono fun o π q hq => ((h.at_removeTable hl).1 hq).1, ?_, ?_, ?_, ?_, ?_,
    ?_, ?_⟩
  · intro q hq hn
    obtain ⟨h1, h2⟩ := hnode q hn
    rcases List.mem_cons.1 hq with hq | hq
    · exact h2 hq
    · exact h.free_node q hq h1
  · intro q hq
    rw [removeAt_npages]; exact h.node_lt q (hnode q hq).1
  · intro o π' q hq hne
    have h1 := ((h.at_removeTable hl).1 hq).1
    have h2 := (hnode q hq.node).2
    unfold removeAt
    rw [dropped_ref, if_neg h2]
    exact h.node_ref o π' q h1 hne
  · intro q hq j hj
    have h1 := (hnode q hq).1
    by_cases hw : q = t ∧ j = i
    · obtain ⟨rfl, rfl⟩ := hw
      rw [removeAt_mem, Pmap.write_mem_self]
    · rw [removeAt_mem, Pmap.write_mem_of_ne hw] at hj ⊢
      exact h.clean q h1 j hj
  · rw [removeAt_boot]; exact h.kern
  · obtain ⟨q, hq⟩ := h.spine
    exact ⟨q, (h.at_removeTable hl).2 ⟨hq, by simp⟩⟩
  · intro e' r hr
    have hj : ∀ j : Idx, j ≠ 0 → (removeAt m t i).mem r j = m.mem r j := by
      intro j hj
      rw [removeAt_mem, Pmap.write_mem_of_ne]
      rintro ⟨rfl, rfl⟩
      obtain ⟨-, rfl⟩ := h.unshared (root_at hr) hl.table
      exact hj (inTree_one.1 hl.inTree)
    rw [removeAt_boot, hboot, hj 1 (by decide), hj 2 (by decide)]
    obtain ⟨h3, h4, h5⟩ := h.top e' r hr
    refine ⟨h3, h4, fun k hk => ?_⟩
    rw [hj k (by rintro rfl; simp at hk), h5 k hk]
  · rintro ⟨o, a, b, c, d⟩ v hs hv
    obtain ⟨h1, h2, h3⟩ := h.leaf _ v hs ((h.view_removeTable hl).1 hv).1
    rw [removeAt_npages, List.mem_cons, not_or]
    exact ⟨h1, ⟨fun he => h3 (he ▸ hc.node), h2⟩, fun hn => h3 (hnode _ hn).1⟩

theorem Inv.removeTable (h : Inv F K A R m fl) (hl : Link R m e π t i) :
    Inv F K A R (Jos.removeAt m t i) (ppn (m.mem t i) :: fl) := by
  have hw := h.sound.wf
  have hv : ∀ s v, view R (Jos.removeAt m t i) s = some v → view R m s = some v := by
    rintro ⟨o, a, b, c, d⟩ v hs
    exact ((hw.view_removeTable hl).1 hs).1
  refine h.of_sub ⟨hw.removeTable hl, fun q => ?_⟩ (fun q hq => ?_)
    (fun e' π' q hq => h.node e' π' q ((hw.at_removeTable hl).1 hq).1) (fun v => ?_) hv
  · have h1 := refs_targets_mono hv q
    have h2 := h.sound.counted q
    by_cases hq : q = ppn (m.mem t i)
    · rw [hq] at h1 ⊢
      rw [hw.targets_node hl.child.node] at h1
      omega
    · have h3 : ((Jos.removeAt m t i).pages q).ppRef = (m.pages q).ppRef := by
        unfold Jos.removeAt; rw [dropped_ref, if_neg hq]; rfl
      rw [h3]; exact h1.trans h2
  · rcases List.mem_cons.1 hq with rfl | hq
    · exact h.node e _ _ hl.child
    · exact h.free q hq
  · obtain ⟨a, b, c, d⟩ := v
    refine Option.ext fun x => ?_
    rw [hw.view_removeTable hl]
    simp

/-! ## Dropping a PML4 -/

/-- The trees after the PML4 of an environment is dropped. -/
theorem at_dropRoot :
    (tables (setRoot R e none) (dropped m r)).At o π q ↔ (tables R m).At o π q ∧ o ≠ .env e := by
  refine Forest.dropRoot_iff (F := tables R m) rfl (Function.update_self ..)
    (fun o ho => setRoot_of_ne ho) fun o' π' j s _ _ _ => ?_
  simp only [tables, next, dropped_mem]

theorem view_dropRoot :
    view (setRoot R e none) (dropped m r) s = some v ↔ view R m s = some v ∧ s.1 ≠ .env e := by
  obtain ⟨o, a, b, c, d⟩ := s
  rw [view_eq_some, view_eq_some, ← exists_and_right]
  refine exists_congr fun q => ?_
  rw [at_dropRoot, dropped_mem]
  exact ⟨fun ⟨⟨h1, h2⟩, h3⟩ => ⟨⟨h1, h3⟩, h2⟩, fun ⟨⟨h1, h3⟩, h2⟩ => ⟨⟨h1, h2⟩, h3⟩⟩

/-- **A PML4 that is dropped** goes back to the free list. -/
theorem Wf.dropRoot (h : Wf R m fl) (h0 : R (.env e) = some r) :
    Wf (setRoot R e none) (Jos.dropped m r) (r :: fl) := by
  have hr := root_at (m := m) h0
  have href : (m.pages r).ppRef = 1 := h.node_ref _ _ _ hr (by simp)
  have hnf : r ∉ fl := fun hf => h.free_node _ hf hr.node
  have hf : FreeOK (Jos.dropped m r) (r :: fl) := by
    have hdl : dropList m fl r = r :: fl := by unfold dropList; rw [if_pos href]
    rw [← hdl]
    exact h.free.dropped hnf (h.node_lt _ hr.node)
  have hnode : ∀ q, (tables (setRoot R e none) (Jos.dropped m r)).Node q →
      (tables R m).Node q ∧ q ≠ r := by
    rintro q ⟨o, π', hq⟩
    obtain ⟨h1, h2⟩ := at_dropRoot.1 hq
    refine ⟨h1.node, ?_⟩
    rintro rfl
    exact h2 (h.unshared h1 hr).1
  refine ⟨hf, ?_, h.unshared.mono fun o π q hq => (at_dropRoot.1 hq).1, ?_, ?_, ?_, ?_, ?_, ?_, ?_⟩
  · intro q hq hn
    obtain ⟨h1, h2⟩ := hnode q hn
    rcases List.mem_cons.1 hq with hq | hq
    · exact h2 hq
    · exact h.free_node q hq h1
  · intro q hq
    rw [dropped_npages]; exact h.node_lt q (hnode q hq).1
  · intro o π' q hq hne
    rw [dropped_ref, if_neg (hnode q hq.node).2]
    exact h.node_ref o π' q (at_dropRoot.1 hq).1 hne
  · intro q hq j hj
    rw [dropped_mem] at hj ⊢
    exact h.clean q (hnode q hq).1 j hj
  · rw [dropped_boot, setRoot_of_ne (by simp)]; exact h.kern
  · obtain ⟨q, hq⟩ := h.spine
    exact ⟨q, at_dropRoot.2 ⟨hq, by simp⟩⟩
  · intro e' r' hr'
    rw [dropped_boot, dropped_mem]
    by_cases he : e' = e
    · subst he
      have : setRoot R e' none (.env e') = none := Function.update_self ..
      rw [this] at hr'; cases hr'
    · rw [setRoot_of_ne (by simpa using he)] at hr'
      exact h.top e' r' hr'
  · intro s v hs hv
    obtain ⟨h1, h2, h3⟩ := h.leaf _ v hs (view_dropRoot.1 hv).1
    rw [dropped_npages, List.mem_cons, not_or]
    exact ⟨h1, ⟨fun he => h3 (he ▸ hr.node), h2⟩, fun hn => h3 (hnode _ hn).1⟩

theorem Inv.dropRoot (h : Inv F K A R m fl) (h0 : R (.env e) = some r) :
    Inv F K A (setRoot R e none) (Jos.dropped m r) (r :: fl) := by
  have hw := h.sound.wf
  have hr := root_at (m := m) h0
  have hv : ∀ s v, view (setRoot R e none) (Jos.dropped m r) s = some v → view R m s = some v :=
    fun s v hs => (view_dropRoot.1 hs).1
  refine h.of_sub ⟨hw.dropRoot h0, fun q => ?_⟩ (fun q hq => ?_)
    (fun e' π' q hq => h.node e' π' q (at_dropRoot.1 hq).1) (fun v => ?_) hv
  · have h1 := refs_targets_mono hv q
    have h2 := h.sound.counted q
    rw [dropped_ref]
    split
    · subst q
      rw [hw.targets_node hr.node] at h1
      omega
    · omega
  · rcases List.mem_cons.1 hq with rfl | hq
    · exact h.node e _ _ hr
    · exact h.free q hq
  · refine Option.ext fun x => ?_
    rw [view_dropRoot]
    simp

end Jos
