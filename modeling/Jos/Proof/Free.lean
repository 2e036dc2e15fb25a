import Jos.Proof.Env

/-!
# `env_free`

The loops of `env_free` clear a set of table entries: for each cleared entry that was
present, the page it referred to loses a reference. `Cleared` is what is true of any
such sequence of steps; the loops are followed level by level, each with the set of
entries that it visits.
-/

namespace Jos

open Lib

variable {F : Set ℕ} {K : Vpn → Option PTE} {A : PTE → Prop} {R : Roots} {m m' m₁ m₂ : Pmap}
variable {fl fl' fl₁ fl₂ : List ℕ} {o : Owner} {e : EnvIdx} {π : List Idx} {t q n root : ℕ}
variable {pt pgdir table : ℕ} {i j x y : Idx} {C C₁ C₂ : ℕ → Idx → Prop}

/-- A page that a present entry of the set refers to. -/
def Drop (m : Pmap) (C : ℕ → Idx → Prop) (p : ℕ) : Prop := ∃ q j, C q j ∧ next m q j = some p

/-- Every page that an entry of the set refers to is counted once, for that entry. -/
def Private (m : Pmap) (C : ℕ → Idx → Prop) : Prop :=
  ∀ q j p, C q j → next m q j = some p → (m.pages p).ppRef = 1 ∧
    ∀ q' j', C q' j' → next m q' j' = some p → q' = q ∧ j' = j

/-- **The entries of `C` are cleared**, and their pages dropped. -/
structure Cleared (m : Pmap) (fl : List ℕ) (m' : Pmap) (fl' : List ℕ) (C : ℕ → Idx → Prop) :
    Prop where
  keep : ∀ q j, ¬ C q j → m'.mem q j = m.mem q j
  zero : ∀ q j, C q j → m'.mem q j = 0
  sub : ∀ p ∈ fl', p ∈ fl ∨ Drop m C p
  mono : ∀ p ∈ fl, p ∈ fl'
  ref : ∀ p, ¬ Drop m C p → (m'.pages p).ppRef = (m.pages p).ppRef
  back : Private m C → ∀ p, Drop m C p → p ∈ fl'
  boot : m'.bootPml4e = m.bootPml4e

theorem Cleared.refl : Cleared m fl m fl fun _ _ => False where
  keep := fun _ _ _ => rfl
  zero := nofun
  sub := fun _ hp => Or.inl hp
  mono := fun _ hp => hp
  ref := fun _ _ => rfl
  back := fun _ _ ⟨_, _, h, _⟩ => h.elim
  boot := rfl

theorem Cleared.congr (h : Cleared m fl m' fl' C) (hC : ∀ q j, C₁ q j ↔ C q j) :
    Cleared m fl m' fl' C₁ := by
  have : C₁ = C := by funext q j; exact propext (hC q j)
  rw [this]; exact h

/-- An entry that is 0 counts as cleared. -/
theorem Cleared.absent (h0 : m.mem t i = 0) : Cleared m fl m fl fun q j => q = t ∧ j = i := by
  have hd : ∀ p, ¬ Drop m (fun q j => q = t ∧ j = i) p := by
    rintro p ⟨q, j, ⟨rfl, rfl⟩, hn⟩
    have := (next_eq_some.1 hn).1
    rw [h0] at this; simp at this
  exact ⟨fun _ _ _ => rfl, fun q j ⟨h1, h2⟩ => by rw [h1, h2, h0], fun _ hp => Or.inl hp,
    fun _ hp => hp, fun _ _ => rfl, fun _ p hp => absurd hp (hd p), rfl⟩

/-- One present entry is cleared. -/
theorem Cleared.one (hp : flag (m.mem t i) pteP = true) :
    Cleared m fl (removeAt m t i) (dropList m fl (ppn (m.mem t i))) fun q j => q = t ∧ j = i := by
  have hn : next m t i = some (ppn (m.mem t i)) := next_eq_some.2 ⟨hp, rfl⟩
  have hd : ∀ p, Drop m (fun q j => q = t ∧ j = i) p ↔ p = ppn (m.mem t i) := by
    intro p
    constructor
    · rintro ⟨q, j, ⟨rfl, rfl⟩, h1⟩
      rw [hn] at h1; exact (Option.some.inj h1).symm
    · rintro rfl; exact ⟨t, i, ⟨rfl, rfl⟩, hn⟩
  refine ⟨fun q j hq => ?_, fun q j hq => ?_, fun p hq => ?_, fun p hq => ?_, fun p hq => ?_,
    fun hpr p hq => ?_, removeAt_boot⟩
  · rw [removeAt_mem, Pmap.write_mem_of_ne hq]
  · obtain ⟨rfl, rfl⟩ := hq
    rw [removeAt_mem, Pmap.write_mem_self]
  · rw [hd]
    rcases mem_dropList.1 hq with ⟨h1, -⟩ | h1
    · exact Or.inr h1
    · exact Or.inl h1
  · exact mem_dropList.2 (Or.inr hq)
  · rw [hd] at hq
    unfold removeAt
    rw [dropped_ref, if_neg hq]; rfl
  · rw [hd] at hq
    subst hq
    exact mem_dropList.2 (Or.inl ⟨rfl, (hpr t i _ ⟨rfl, rfl⟩ hn).1⟩)

/-- **Clearing more entries** later. -/
theorem Cleared.trans (h : Cleared m fl m₁ fl₁ C₁) (h' : Cleared m₁ fl₁ m₂ fl₂ C₂) :
    Cleared m fl m₂ fl₂ fun q j => C₁ q j ∨ C₂ q j := by
  have hnext : ∀ {q j p}, next m₁ q j = some p → ¬ C₁ q j ∧ next m q j = some p := by
    intro q j p hn
    have hc : ¬ C₁ q j := by
      intro hc
      have h1 := (next_eq_some.1 hn).1
      rw [h.zero q j hc] at h1; simp at h1
    refine ⟨hc, ?_⟩
    unfold next at hn ⊢
    rwa [h.keep q j hc] at hn
  -- an entry that is cleared twice drops its page only the first time
  have hdrop : ∀ p, Drop m (fun q j => C₁ q j ∨ C₂ q j) p ↔ Drop m C₁ p ∨ Drop m₁ C₂ p := by
    intro p
    constructor
    · rintro ⟨q, j, hc, hn⟩
      by_cases hc₁ : C₁ q j
      · exact Or.inl ⟨q, j, hc₁, hn⟩
      · refine Or.inr ⟨q, j, hc.resolve_left hc₁, ?_⟩
        unfold next at hn ⊢
        rwa [h.keep q j hc₁]
    · rintro (⟨q, j, hc, hn⟩ | ⟨q, j, hc, hn⟩)
      · exact ⟨q, j, Or.inl hc, hn⟩
      · exact ⟨q, j, Or.inr hc, (hnext hn).2⟩
  refine ⟨fun q j hq => ?_, fun q j hq => ?_, fun p hp => ?_, fun p hp => h'.mono p (h.mono p hp),
    fun p hp => ?_, fun hpr p hp => ?_, h'.boot.trans h.boot⟩
  · rw [not_or] at hq
    rw [h'.keep q j hq.2, h.keep q j hq.1]
  · by_cases hc : C₂ q j
    · exact h'.zero q j hc
    · rw [h'.keep q j hc, h.zero q j (hq.resolve_right hc)]
  · rw [hdrop]
    rcases h'.sub p hp with hp | hp
    · rcases h.sub p hp with hp | hp
      · exact Or.inl hp
      · exact Or.inr (Or.inl hp)
    · exact Or.inr (Or.inr hp)
  · rw [hdrop, not_or] at hp
    rw [h'.ref p hp.2, h.ref p hp.1]
  · have h1 : Private m C₁ := fun q j p hc hn =>
      ⟨(hpr q j p (Or.inl hc) hn).1, fun q' j' hc' => (hpr q j p (Or.inl hc) hn).2 q' j' (Or.inl hc')⟩
    have h2 : Private m₁ C₂ := by
      intro q j p hc hn
      obtain ⟨hne, hn₀⟩ := hnext hn
      obtain ⟨h3, h4⟩ := hpr q j p (Or.inr hc) hn₀
      refine ⟨?_, fun q' j' hc' hn' => h4 q' j' (Or.inr hc') (hnext hn').2⟩
      rw [h.ref p, h3]
      rintro ⟨q', j', hc', hn'⟩
      obtain ⟨rfl, rfl⟩ := h4 q' j' (Or.inl hc') hn'
      exact hne hc'
    rcases (hdrop p).1 hp with hp | hp
    · exact h'.mono p (h.back h1 p hp)
    · exact h'.back h2 p hp

/-! ## The loop over `pteno` -/

theorem mem_idxBelow {n : ℕ} : x ∈ idxBelow n ↔ x.val < n := by simp [idxBelow]

theorem idxBelow_nodup (n : ℕ) : (idxBelow n).Nodup := (List.nodup_finRange 512).filter _

/-- The item of a turn was not done before. -/
theorem notMem_of_nodup {l xs ys : List Idx} (hl : l.Nodup) (he : l = xs ++ x :: ys) : x ∉ xs := by
  intro hx
  rw [he] at hl
  exact (List.nodup_append.1 hl).2.2 x hx x List.mem_cons_self rfl

/-- One turn over a last-level table. -/
theorem Inv.envFreePte (h : Inv F K A R m fl) (hr : R (.env e) = some root)
    (ht : (tables R m).At (.env e) [0, i, j] pt) : ∃ m' fl',
      Jos.envFreePte root pt i j m x = some m' ∧ Inv F K A R m' fl' ∧
      (∀ o π n, (tables R m').At o π n ↔ (tables R m).At o π n) ∧
      Cleared m fl m' fl' fun q y => q = pt ∧ y = x := by
  unfold Jos.envFreePte
  by_cases hp : flag (m.mem pt x) pteP = true
  · obtain ⟨h1, h2, h3, h4, h5⟩ := pgaddr_fields i j x
    have ho : ownerOf e (pgaddr 0 i j x) = .env e := if_pos h2
    have hpath : path (pgaddr 0 i j x) = [0, i, j] := by unfold path; rw [h2, h3, h4]
    have hrm := h.sound.wf.pageRemove_mapped hr h1 (q := pt) (by rw [ho, hpath]; exact ht)
      (by rw [h5]; exact hp)
    rw [h5] at hrm
    rw [if_pos hp, hrm]
    exact ⟨_, _, rfl, h.removeAt ht trivial hp, (view_removeAt h.sound.wf ht).1, .one hp⟩
  · rw [Bool.not_eq_true] at hp
    rw [if_neg (by simp [hp])]
    exact ⟨m, fl, rfl, h, fun _ _ _ => Iff.rfl, .absent (h.sound.wf.clean pt ht.node x hp)⟩

/-- The bound of the loop over `pteno`. -/
theorem ptx_limit : (ptx (-1)).val = 511 := by decide

/-- The loop over a last-level table. -/
theorem Inv.pteLoop (h : Inv F K A R m fl) (hr : R (.env e) = some root)
    (ht : (tables R m).At (.env e) [0, i, j] pt) : ∃ m' fl',
      (idxBelow (ptx (-1)).val).foldlM (Jos.envFreePte root pt i j) m = some m' ∧
      Inv F K A R m' fl' ∧ (∀ o π n, (tables R m').At o π n ↔ (tables R m).At o π n) ∧
      Cleared m fl m' fl' fun q y => q = pt ∧ y.val < 511 := by
  obtain ⟨m', h1, fl', h2, h3, h4⟩ := loop_total (f := Jos.envFreePte root pt i j)
    (l := idxBelow (ptx (-1)).val) (P := fun done m' => ∃ fl', Inv F K A R m' fl' ∧
      (∀ o π n, (tables R m').At o π n ↔ (tables R m).At o π n) ∧
      Cleared m fl m' fl' fun q y => q = pt ∧ y ∈ done)
    (fun xs x ys m₁ _ ⟨fl₁, h1, h2, h3⟩ => by
      obtain ⟨m₂, fl₂, h4, h5, h6, h7⟩ := h1.envFreePte hr ((h2 _ _ _).2 ht)
      refine ⟨m₂, h4, fl₂, h5, fun o π n => (h6 o π n).trans (h2 o π n), (h3.trans h7).congr ?_⟩
      intro q y
      rw [List.mem_append, List.mem_singleton, and_or_left])
    ⟨fl, h, fun _ _ _ => Iff.rfl, Cleared.refl.congr (by simp)⟩
  refine ⟨m', fl', h1, h2, h3, h4.congr fun q y => ?_⟩
  rw [mem_idxBelow, ptx_limit]

/-! ## The loop over `pdeno` -/

/-- The entries that are cleared for entry `j` of a page directory. -/
def pdeSlots (m : Pmap) (pgdir : ℕ) (j : Idx) (q : ℕ) (y : Idx) : Prop :=
  flag (m.mem pgdir j) pteP = true ∧
    ((q = pgdir ∧ y = j) ∨ (q = ppn (m.mem pgdir j) ∧ y.val < 511))

theorem pdeSlots_congr (h : m₁.mem pgdir j = m.mem pgdir j) : pdeSlots m₁ pgdir j = pdeSlots m pgdir j := by
  unfold pdeSlots; rw [h]

/-- A cleared entry of a page directory is the one that is freed. -/
theorem pdeSlots_self (h : Wf R m fl) (ht : (tables R m).At (.env e) [0, i] pgdir)
    (hc : pdeSlots m pgdir j pgdir y) : y = j := by
  obtain ⟨hp, ⟨-, hy⟩ | ⟨hq, -⟩⟩ := hc
  · exact hy
  · have h1 := child_at ht (inTree_leaf.2 rfl) hp
    rw [← hq] at h1
    have := (h.unshared h1 ht).2
    simp at this

/-- The trees of owners and paths that a step leaves alone. -/
structure Kept (R : Roots) (m m' : Pmap) (e : EnvIdx) (ρ : List Idx) : Prop where
  sub : ∀ o π n, (tables R m').At o π n → (tables R m).At o π n
  keep : ∀ o π n, (tables R m).At o π n → ¬ (o = .env e ∧ ρ <+: π) → (tables R m').At o π n

theorem Inv.unlink (h : Inv F K A R m fl) (hl : Link R m e π t i) :
    Inv F K A R (Jos.removeAt m t i) (dropList m fl (ppn (m.mem t i))) ∧
    Kept R m (Jos.removeAt m t i) e (π ++ [i]) ∧
    Cleared m fl (Jos.removeAt m t i) (dropList m fl (ppn (m.mem t i))) fun q y => q = t ∧ y = i := by
  have hdl : dropList m fl (ppn (m.mem t i)) = ppn (m.mem t i) :: fl := by
    unfold dropList; rw [if_pos (h.sound.wf.ref_link hl)]
  refine ⟨by rw [hdl]; exact h.removeTable hl, ⟨fun o π' n hn => ?_, fun o π' n hn hk => ?_⟩,
    .one hl.present⟩
  · exact ((h.sound.wf.at_removeTable hl).1 hn).1
  · exact (h.sound.wf.at_removeTable hl).2 ⟨hn, hk⟩

/-- Clearing an entry and dropping its page, in the order of the loops. -/
theorem decref_unlink (h : Inv F K A R m fl) (hl : Link R m e π t i) :
    (do let page ← pa2page (m.write t i 0) (pteAddr (m.mem t i))
        pageDecref (m.write t i 0) page) = some (Jos.removeAt m t i) := by
  have hlt := h.sound.wf.node_lt _ hl.child.node
  have hf : FreeOK (m.write t i 0) fl := h.sound.wf.free.congr rfl rfl rfl
  unfold pa2page
  rw [if_neg (by rw [ppn_pteAddr, Pmap.write_npages]; omega), ppn_pteAddr]
  exact pageDecref_eq hf

/-- One turn over a page directory. -/
theorem Inv.envFreePde (h : Inv F K A R m fl) (hr : R (.env e) = some root)
    (ht : (tables R m).At (.env e) [0, i] pgdir) : ∃ m' fl',
      Jos.envFreePde root pgdir i m j = some m' ∧ Inv F K A R m' fl' ∧
      Kept R m m' e [0, i, j] ∧ Cleared m fl m' fl' (pdeSlots m pgdir j) := by
  unfold Jos.envFreePde
  by_cases hp : flag (m.mem pgdir j) pteP = true
  · have hd : inTree (.env e) ([0, i] ++ [j]) := inTree_leaf.2 rfl
    have hc := child_at ht hd hp
    have hk : kaddr m (pteAddr (m.mem pgdir j)) = some (ppn (m.mem pgdir j)) :=
      kaddr_pteAddr h.sound.wf.npages_le (h.sound.wf.node_lt _ hc.node)
    obtain ⟨m₁, fl₁, h1, h2, h3, h4⟩ := h.pteLoop hr hc
    -- the loop leaves the entry of the page directory
    have hne : pgdir ≠ ppn (m.mem pgdir j) := by
      intro hq
      rw [← hq] at hc
      have := (h.sound.wf.unshared hc ht).2
      simp at this
    have hm : m₁.mem pgdir j = m.mem pgdir j := h4.keep _ _ fun hq => hne hq.1
    have hl : Link R m₁ e [0, i] pgdir j := ⟨(h3 _ _ _).2 ht, hd, by rw [hm]; exact hp⟩
    obtain ⟨h5, h6, h7⟩ := h2.unlink hl
    refine ⟨_, _, ?_, h5, ⟨fun o π n hn => (h3 o π n).1 (h6.sub o π n hn),
      fun o π n hn hk => h6.keep o π n ((h3 o π n).2 hn) hk⟩, (h4.trans h7).congr fun q y => ?_⟩
    · simp only [hp, hk, h1, Option.bind_eq_bind, Option.bind_some]
      rw [← hm]
      exact decref_unlink h2 hl
    · unfold pdeSlots
      rw [hp]
      simp only [true_and]
      exact or_comm
  · rw [Bool.not_eq_true] at hp
    refine ⟨m, fl, by rw [hp]; rfl, h, ⟨fun _ _ _ hn => hn, fun _ _ _ hn _ => hn⟩,
      Cleared.refl.congr fun q y => ?_⟩
    unfold pdeSlots
    rw [hp]; simp

/-- The loop over a page directory. -/
theorem Inv.pdeLoop (h : Inv F K A R m fl) (hr : R (.env e) = some root)
    (ht : (tables R m).At (.env e) [0, i] pgdir) (n : ℕ) : ∃ m' fl',
      (idxBelow n).foldlM (Jos.envFreePde root pgdir i) m = some m' ∧ Inv F K A R m' fl' ∧
      Kept R m m' e [0, i] ∧ (tables R m').At (.env e) [0, i] pgdir ∧
      Cleared m fl m' fl' fun q y => ∃ j, j.val < n ∧ pdeSlots m pgdir j q y := by
  obtain ⟨m', h1, fl', h2, h3, h4, h5⟩ := loop_total (f := Jos.envFreePde root pgdir i)
    (l := idxBelow n) (P := fun done m' => ∃ fl', Inv F K A R m' fl' ∧ Kept R m m' e [0, i] ∧
      (tables R m').At (.env e) [0, i] pgdir ∧
      Cleared m fl m' fl' fun q y => ∃ j ∈ done, pdeSlots m pgdir j q y)
    (fun xs j ys m₁ hl ⟨fl₁, h1, h2, h3, h4⟩ => by
      have hj : j ∉ xs := notMem_of_nodup (idxBelow_nodup n) hl
      have hm : m₁.mem pgdir j = m.mem pgdir j := by
        refine h4.keep _ _ fun ⟨j', hj', hc⟩ => hj ?_
        rw [pdeSlots_self h.sound.wf ht hc]; exact hj'
      obtain ⟨m₂, fl₂, h5, h6, h7, h8⟩ := h1.envFreePde (j := j) hr h3
      rw [pdeSlots_congr hm] at h8
      have hpre : ([0, i] : List Idx) <+: [0, i, j] := ⟨[j], rfl⟩
      refine ⟨m₂, h5, fl₂, h6, ⟨fun o π n hn => h2.sub o π n (h7.sub o π n hn),
        fun o π n hn hk => h7.keep o π n (h2.keep o π n hn hk) fun hc => hk ⟨hc.1, hpre.trans hc.2⟩⟩,
        h7.keep _ _ _ h3 (by simp), (h4.trans h8).congr fun q y => ?_⟩
      simp only [List.mem_append, List.mem_singleton, or_and_right, exists_or, exists_eq_left])
    ⟨fl, h, ⟨fun _ _ _ hn => hn, fun _ _ _ hn _ => hn⟩, ht, Cleared.refl.congr (by simp)⟩
  exact ⟨m', fl', h1, h2, h3, h4, h5.congr fun q y => by simp only [mem_idxBelow]⟩

/-! ## The loop over `pdpe_index` -/

/-- The entries that are cleared for entry `i` of the page-directory-pointer table. -/
def pdpeSlots (m : Pmap) (table : ℕ) (i : Idx) (q : ℕ) (y : Idx) : Prop :=
  flag (m.mem table i) pteP = true ∧ ((q = table ∧ y = i) ∨
    ∃ j : Idx, j.val < pdenoLimit i ∧ pdeSlots m (ppn (m.mem table i)) j q y)

/-- A table with a cleared entry is on a path through entry `i`, or is the table itself. -/
theorem pdpeSlots_at (ht : (tables R m).At (.env e) [0] table) (hc : pdpeSlots m table i q y) :
    (q = table ∧ y = i) ∨ ∃ ρ, (tables R m).At (.env e) (0 :: i :: ρ) q := by
  obtain ⟨hp, hc | ⟨j, -, hpd, ⟨rfl, -⟩ | ⟨rfl, -⟩⟩⟩ := hc
  · exact Or.inl hc
  · exact Or.inr ⟨[], child_at ht (by simp [inTree, slot]) hp⟩
  · have h1 := child_at ht (i := i) (by simp [inTree, slot]) hp
    exact Or.inr ⟨[j], child_at h1 (inTree_leaf.2 rfl) hpd⟩

theorem pdpeSlots_congr (h : m₁.mem table i = m.mem table i)
    (h' : ∀ j, m₁.mem (ppn (m.mem table i)) j = m.mem (ppn (m.mem table i)) j) :
    pdpeSlots m₁ table i = pdpeSlots m table i := by
  unfold pdpeSlots
  rw [h]
  simp only [pdeSlots_congr (h' _)]

/-- One turn over the page-directory-pointer table. -/
theorem Inv.envFreePdpe (h : Inv F K A R m fl) (hr : R (.env e) = some root)
    (ht : (tables R m).At (.env e) [0] table) : ∃ m' fl',
      Jos.envFreePdpe root table m i = some m' ∧ Inv F K A R m' fl' ∧
      Kept R m m' e [0, i] ∧ Cleared m fl m' fl' (pdpeSlots m table i) := by
  unfold Jos.envFreePdpe
  by_cases hp : flag (m.mem table i) pteP = true
  · have hd : inTree (.env e) ([0] ++ [i]) := by simp [inTree, slot]
    have hc := child_at ht hd hp
    have hk : kaddr m (pteAddr (m.mem table i)) = some (ppn (m.mem table i)) :=
      kaddr_pteAddr h.sound.wf.npages_le (h.sound.wf.node_lt _ hc.node)
    obtain ⟨m₁, fl₁, h1, h2, h3, h4, h5⟩ := h.pdeLoop hr hc (pdenoLimit i)
    have hm : m₁.mem table i = m.mem table i := by
      refine h5.keep _ _ ?_
      rintro ⟨j, hj, hs⟩
      rcases pdpeSlots_at ht (i := i) ⟨hp, Or.inr ⟨j, hj, hs⟩⟩ with ⟨-, -⟩ | ⟨ρ, h6⟩
      · -- the directory below would be the table itself
        obtain ⟨hq, ⟨hq', -⟩ | ⟨hq', -⟩⟩ := hs
        · rw [← hq'] at hc
          have := (h.sound.wf.unshared hc ht).2
          simp at this
        · have h7 := child_at hc (i := j) (inTree_leaf.2 rfl) hq
          rw [← hq'] at h7
          have := (h.sound.wf.unshared h7 ht).2
          simp at this
      · have := (h.sound.wf.unshared h6 ht).2
        simp at this
    have hl : Link R m₁ e [0] table i :=
      ⟨h3.keep _ _ _ ht (by simp), hd, by rw [hm]; exact hp⟩
    obtain ⟨h6, h7, h8⟩ := h2.unlink hl
    refine ⟨_, _, ?_, h6, ⟨fun o π n hn => h3.sub o π n (h7.sub o π n hn),
      fun o π n hn hk => h7.keep o π n (h3.keep o π n hn hk) hk⟩, (h5.trans h8).congr fun q y => ?_⟩
    · simp only [hp, hk, h1, Option.bind_eq_bind, Option.bind_some]
      exact decref_unlink h2 hl
    · unfold pdpeSlots
      rw [hp]
      simp only [true_and]
      exact or_comm
  · rw [Bool.not_eq_true] at hp
    refine ⟨m, fl, by rw [hp]; rfl, h, ⟨fun _ _ _ hn => hn, fun _ _ _ hn _ => hn⟩,
      Cleared.refl.congr fun q y => ?_⟩
    unfold pdpeSlots
    rw [hp]; simp

/-- The loop over the page-directory-pointer table. -/
theorem Inv.pdpeLoop (h : Inv F K A R m fl) (hr : R (.env e) = some root)
    (ht : (tables R m).At (.env e) [0] table) : ∃ m' fl',
      [(0 : Idx), 1, 2, 3].foldlM (Jos.envFreePdpe root table) m = some m' ∧ Inv F K A R m' fl' ∧
      Kept R m m' e [0] ∧ (tables R m').At (.env e) [0] table ∧
      Cleared m fl m' fl' fun q y => ∃ i : Idx, i.val ≤ 3 ∧ pdpeSlots m table i q y := by
  obtain ⟨m', h1, fl', h2, h3, h4, h5⟩ := loop_total (f := Jos.envFreePdpe root table)
    (l := [(0 : Idx), 1, 2, 3]) (b := m) (P := fun done m' => ∃ fl', Inv F K A R m' fl' ∧
      Kept R m m' e [0] ∧ (tables R m').At (.env e) [0] table ∧
      Cleared m fl m' fl' fun q y => ∃ i ∈ done, pdpeSlots m table i q y)
    (fun xs i ys m₁ hl hdone => by
      obtain ⟨fl₁, h1, h2, h3, h4⟩ := hdone
      have hi : i ∉ xs := notMem_of_nodup (by decide) hl
      have hm : m₁.mem table i = m.mem table i := by
        refine h4.keep _ _ ?_
        rintro ⟨i', hi', hc⟩
        rcases pdpeSlots_at ht hc with ⟨-, rfl⟩ | ⟨ρ, h5⟩
        · exact hi hi'
        · have := (h.sound.wf.unshared h5 ht).2
          simp at this
      -- the directory below was not touched by the turns before
      have hdir : flag (m.mem table i) pteP = true →
          ∀ j, m₁.mem (ppn (m.mem table i)) j = m.mem (ppn (m.mem table i)) j := by
        intro hp j
        have hc := child_at ht (i := i) (by simp [inTree, slot]) hp
        refine h4.keep _ _ ?_
        rintro ⟨i', hi', hs⟩
        rcases pdpeSlots_at ht hs with ⟨hq, -⟩ | ⟨ρ, h5⟩
        · rw [hq] at hc
          have := (h.sound.wf.unshared hc ht).2
          simp at this
        · have := (h.sound.wf.unshared h5 hc).2
          simp at this
          exact hi (this.1 ▸ hi')
      have hslots : pdpeSlots m₁ table i = pdpeSlots m table i := by
        by_cases hp : flag (m.mem table i) pteP = true
        · exact pdpeSlots_congr hm (hdir hp)
        · funext q y
          unfold pdpeSlots
          rw [hm]; simp [hp]
      obtain ⟨m₂, fl₂, h5, h6, h7, h8⟩ := h1.envFreePdpe (i := i) hr h3
      rw [hslots] at h8
      have hpre : ([0] : List Idx) <+: [0, i] := ⟨[i], rfl⟩
      refine ⟨m₂, h5, fl₂, h6, ⟨fun o π n hn => h2.sub o π n (h7.sub o π n hn),
        fun o π n hn hk => h7.keep o π n (h2.keep o π n hn hk) fun hc => hk ⟨hc.1, hpre.trans hc.2⟩⟩,
        h7.keep _ _ _ h3 (by simp), (h4.trans h8).congr fun q y => ?_⟩
      simp only [List.mem_append, List.mem_singleton, or_and_right, exists_or, exists_eq_left])
    ⟨fl, h, ⟨fun _ _ _ hn => hn, fun _ _ _ hn _ => hn⟩, ht, Cleared.refl.congr (by simp)⟩
  have hmem : ∀ i : Idx, i ∈ [(0 : Idx), 1, 2, 3] ↔ i.val ≤ 3 := by
    intro i
    simp only [List.mem_cons, List.not_mem_nil, or_false, Fin.ext_iff]
    simp; omega
  exact ⟨m', fl', h1, h2, h3, h4, h5.congr fun q y => by simp only [hmem]⟩

/-! ## The address space -/

/-- The entries that `env_free` clears. -/
def vmSlots (m : Pmap) (root : ℕ) (q : ℕ) (y : Idx) : Prop :=
  flag (m.mem root 0) pteP = true ∧ ((q = root ∧ y = 0) ∨
    ∃ i : Idx, i.val ≤ 3 ∧ pdpeSlots m (ppn (m.mem root 0)) i q y)

/-- **`env_free` gives back an address space**: it clears the entries it visits, and
drops the PML4. -/
theorem Inv.envFreeVm (h : Inv F K A R m fl) (hr : R (.env e) = some root) : ∃ m₁ fl₁,
    Jos.envFreeVm m root (page2pa root) = some (Jos.dropped m₁ root) ∧
    Inv F K A (setRoot R e none) (Jos.dropped m₁ root) (root :: fl₁) ∧
    Inv F K A R m₁ fl₁ ∧ Cleared m fl m₁ fl₁ (vmSlots m root) := by
  have hroot := root_at (m := m) hr
  have hlt := h.sound.wf.node_lt root hroot.node
  have hnp := h.sound.wf.npages_le
  -- dropping the PML4 that is left
  have hlast : ∀ m₁ fl₁, Inv F K A R m₁ fl₁ →
      (do let page ← pa2page m₁ (page2pa root)
          pageDecref m₁ page) = some (Jos.dropped m₁ root) := by
    intro m₁ fl₁ h₁
    have h2 := h₁.sound.wf.node_lt root (root_at hr).node
    have h3 : ppn (page2pa root) = root := ppn_page2pa (by omega)
    unfold pa2page
    rw [h3, if_neg (by omega)]
    exact pageDecref_eq h₁.sound.wf.free
  unfold Jos.envFreeVm
  by_cases hp : flag (m.mem root 0) pteP = true
  · have hd : inTree (.env e) ([] ++ [0]) := by simp [inTree, slot]
    have hc := child_at hroot hd hp
    have hk : kaddr m (pteAddr (m.mem root 0)) = some (ppn (m.mem root 0)) :=
      kaddr_pteAddr hnp (h.sound.wf.node_lt _ hc.node)
    obtain ⟨m₁, fl₁, h1, h2, h3, h4, h5⟩ := h.pdpeLoop hr hc
    have hm : m₁.mem root 0 = m.mem root 0 := by
      refine h5.keep _ _ ?_
      rintro ⟨i, hi, hs⟩
      rcases pdpeSlots_at hc hs with ⟨hq, -⟩ | ⟨ρ, h6⟩
      · rw [← hq] at hc
        have := (h.sound.wf.unshared hc hroot).2
        simp at this
      · have := (h.sound.wf.unshared h6 hroot).2
        simp at this
    have hl : Link R m₁ e [] root 0 :=
      ⟨h3.keep _ _ _ hroot (by simp), hd, by rw [hm]; exact hp⟩
    obtain ⟨h6, h7, h8⟩ := h2.unlink hl
    -- the entry is cleared after its page is dropped
    have hpa : pa2page m₁ (pteAddr (m₁.mem root 0)) = some (ppn (m₁.mem root 0)) := by
      have h9 := h2.sound.wf.node_lt _ hl.child.node
      unfold pa2page
      rw [if_neg (by rw [ppn_pteAddr]; omega), ppn_pteAddr]
    refine ⟨_, _, ?_, h6.dropRoot hr, h6, (h5.trans h8).congr fun q y => ?_⟩
    · simp only [hp, hk, h1, hpa, pageDecref_eq h2.sound.wf.free, dropped_write,
        Option.bind_eq_bind, Option.bind_some, if_true]
      exact hlast _ _ h6
    · unfold vmSlots
      rw [hp]
      simp only [true_and]
      exact or_comm
  · rw [Bool.not_eq_true] at hp
    have hz : m.write root 0 0 = m := by
      have h0 := h.sound.wf.clean root hroot.node 0 hp
      have hmem : (m.write root 0 0).mem = m.mem := by
        funext q j
        by_cases hw : q = root ∧ j = 0
        · obtain ⟨rfl, rfl⟩ := hw
          rw [Pmap.write_mem_self, h0]
        · rw [Pmap.write_mem_of_ne hw]
      unfold Pmap.write at hmem ⊢
      simp only at hmem
      rw [hmem]
    refine ⟨m, fl, ?_, h.dropRoot hr, h, Cleared.refl.congr fun q y => ?_⟩
    · rw [hp]
      simp only [Bool.false_eq_true, if_false, Option.bind_eq_bind, Option.bind_some, hz]
      exact hlast m fl h
    · unfold vmSlots
      rw [hp]; simp

/-! ## The environment -/

variable {k : Kernel} {efl : List EnvIdx}

/-- The state after `env_free`. -/
def envFreed (k : Kernel) (m : Pmap) (e : EnvIdx) : Kernel :=
  ((k.setPm m).setEnv e { k.envs e with
    envPml4e := none, envCr3 := 0, envStatus := .free, envLink := k.envFreeList }).setFree (some e)

theorem roots_envFreed (hb : m.bootPml4e = k.pm.bootPml4e) :
    roots (envFreed k m e) = setRoot (roots k) e none := by
  funext o
  cases o with
  | kern => rw [setRoot_of_ne (by simp), roots_kern, roots_kern, ← hb]; rfl
  | env x =>
    by_cases hx : x = e
    · subst hx
      have hl : ¬ (envFreed k m x).Live x := by
        unfold Kernel.Live envFreed; simp
      have h1 : setRoot (roots k) x none (.env x) = none := Function.update_self ..
      rw [h1]
      exact if_neg hl
    · have he : (envFreed k m e).envs x = k.envs x := by
        unfold envFreed; rw [Kernel.setFree_envs, Kernel.setEnv_of_ne hx, Kernel.setPm_envs]
      have hl : (envFreed k m e).Live x ↔ k.Live x := by unfold Kernel.Live; rw [he]
      rw [setRoot_of_ne (by simpa using hx)]
      unfold roots
      simp only [hl, he]

/-- **`env_free` keeps the invariant**, and never panics on a live environment. -/
theorem KInv.envFree (h : KInv F K A k fl efl) (hl : k.Live e) : ∃ root m₁ fl₁,
    (k.envs e).envPml4e = some root ∧
    Jos.envFree k e = some (envFreed k (Jos.dropped m₁ root) e) ∧
    KInv F K A (envFreed k (Jos.dropped m₁ root) e) (root :: fl₁) (e :: efl) ∧
    Inv F K A (roots k) m₁ fl₁ ∧ Cleared k.pm fl m₁ fl₁ (vmSlots k.pm root) := by
  obtain ⟨root, h1, h2⟩ := h.root e hl
  have hr : roots k (.env e) = some root := by rw [roots_env hl, h1]
  obtain ⟨m₁, fl₁, h3, h4, h5, h6⟩ := h.inv.envFreeVm hr
  have hboot : (Jos.dropped m₁ root).bootPml4e = k.pm.bootPml4e := by rw [dropped_boot, h6.boot]
  have hefl : e ∉ efl := fun he => (h.free e).1 he hl
  have hother : ∀ x, x ≠ e → (envFreed k (Jos.dropped m₁ root) e).envs x = k.envs x := by
    intro x hx
    unfold envFreed; rw [Kernel.setFree_envs, Kernel.setEnv_of_ne hx, Kernel.setPm_envs]
  have hself : ¬ (envFreed k (Jos.dropped m₁ root) e).Live e := by
    unfold Kernel.Live envFreed; simp
  have hlive : ∀ x, x ≠ e → ((envFreed k (Jos.dropped m₁ root) e).Live x ↔ k.Live x) := by
    intro x hx; unfold Kernel.Live; rw [hother x hx]
  refine ⟨root, m₁, fl₁, h1, ?_, ⟨?_, fun x hx => ?_, ?_, fun x => ?_⟩, h5, h6⟩
  · unfold Jos.envFree
    simp only [h1, h2, h3, Option.bind_eq_bind, Option.bind_some]
    rfl
  · rw [roots_envFreed hboot]; exact h4
  · have hxe : x ≠ e := by rintro rfl; exact hself hx
    rw [hother x hxe]; exact h.root x ((hlive x hxe).1 hx)
  · refine h.chain.push hefl ?_ fun c hc => ?_
    · unfold Kernel.link envFreed; simp
    · unfold Kernel.link; rw [hother c hc]
  · by_cases hxe : x = e
    · subst hxe; simp [hself]
    · rw [hlive x hxe, ← h.free x]; simp [hxe]

end Jos
