import Jos.Lib.Refs
import Jos.Proof.Walk

/-!
# Mappings

What `page_lookup`, `page_remove` and `page_insert` do to the view, the free list and
the reference counts, for addresses below `UTOP`.

`Sound` adds to well-formedness that no page is counted fewer times than mappings below
`UTOP` refer to it, so that a page that goes back to the free list has no mapping left.
-/

namespace Jos

open Lib

variable {R : Roots} {m m' : Pmap} {fl fl' new : List ℕ} {o : Owner} {e : EnvIdx} {v old : PTE}
variable {t p q r pp : ℕ} {a b c d : Idx} {va : VA} {perm : BitVec 32} {s : Owner × Vpn}

/-- The page that each mapping below `UTOP` refers to. -/
def targets (R : Roots) (m : Pmap) : Owner × Vpn → Option ℕ :=
  fun s => if User s then (view R m s).map ppn else none

/-- Every page is counted at least once for each mapping below `UTOP`. -/
structure Sound (R : Roots) (m : Pmap) (fl : List ℕ) : Prop where
  wf : Wf R m fl
  counted : ∀ p, refs (targets R m) p ≤ (m.pages p).ppRef.toNat

theorem targets_eq_some : targets R m s = some p ↔ User s ∧ ∃ v, view R m s = some v ∧ ppn v = p := by
  unfold targets
  split
  · rename_i h; rw [Option.map_eq_some_iff]; exact ⟨fun hv => ⟨h, hv⟩, fun hv => hv.2⟩
  · rename_i h; simp [h]

theorem targets_congr (h : view R m' = view R m) : targets R m' = targets R m := by
  unfold targets; rw [h]

/-- A mapped page is counted. -/
theorem Sound.ref_pos (h : Sound R m fl) (hs : User s) (hv : view R m s = some v) :
    1 ≤ (m.pages (ppn v)).ppRef.toNat := by
  have h1 : targets R m s = some (ppn v) := targets_eq_some.2 ⟨hs, v, hv, rfl⟩
  have h2 := refs_pos h1
  have h3 := h.counted (ppn v)
  omega

theorem Sound.grown (h : Sound R m fl) (hg : Grown R o m fl m' fl' new) : Sound R m' fl' := by
  refine ⟨hg.wf, fun p => ?_⟩
  have h1 := h.counted p
  rw [targets_congr hg.view, hg.ref]
  split
  · rename_i hp
    have h2 : (m.pages p).ppRef = 0 := h.wf.free.ref p (by rw [hg.list]; simp [hp])
    rw [h2] at h1
    simp at h1 ⊢; omega
  · exact h1

theorem Sound.restored (h : Sound R m fl) (hr : Restored m m' fl) : Sound R m' fl := by
  obtain ⟨h1, -, h2⟩ := h.wf.restored hr
  exact ⟨h1, fun p => by rw [targets_congr h2, hr.pages]; exact h.counted p⟩

/-! ## Counting a page once more -/

theorem Wf.incRef (h : Wf R m fl) (hp : p ∉ fl) (hn : ¬ (tables R m).Node p) :
    Wf R (m.incRef p) fl := by
  have hm : ∀ t, (tables R m).Node t → (m.incRef p).mem t = m.mem t := fun _ _ => rfl
  refine (h.of_off hm (h.free.incRef hp) (fun _ h => h) rfl rfl fun q hq => ?_).1
  have hqp : q ≠ p := by rintro rfl; exact hn hq
  rw [Pmap.incRef_ref, if_neg hqp]

theorem toNat_incRef (hmax : (m.pages p).ppRef ≠ 0xFFFF#16) :
    (((m.incRef p).pages q).ppRef).toNat = (m.pages q).ppRef.toNat + if q = p then 1 else 0 := by
  rw [Pmap.incRef_ref]
  split
  · subst q; bv_omega
  · rfl

theorem view_incRef : view R (m.incRef p) = view R m := rfl

theorem Sound.incRef (h : Sound R m fl) (hp : p ∉ fl) (hn : ¬ (tables R m).Node p)
    (hmax : (m.pages p).ppRef ≠ 0xFFFF#16) : Sound R (m.incRef p) fl := by
  refine ⟨h.wf.incRef hp hn, fun q => ?_⟩
  have h1 := h.counted q
  rw [toNat_incRef hmax, targets_congr view_incRef]
  omega

/-! ## Taking a page from the free list -/

theorem Wf.taken (h : Wf R m (p :: fl)) (z : Bool) : Wf R (taken m z p) fl ∧
    (∀ o π n, (tables R (Jos.taken m z p)).At o π n ↔ (tables R m).At o π n) ∧
    view R (Jos.taken m z p) = view R m := by
  refine h.of_off (fun t ht => ?_) (h.free.taken z) (fun q hq => List.mem_cons_of_mem _ hq)
    taken_npages taken_boot fun q _ => taken_ref
  funext j
  exact taken_mem_of_ne fun hp => h.free_node p List.mem_cons_self (hp ▸ ht)

theorem Sound.taken (h : Sound R m (p :: fl)) (z : Bool) : Sound R (taken m z p) fl := by
  obtain ⟨h1, -, h2⟩ := h.wf.taken z
  exact ⟨h1, fun q => by rw [targets_congr h2, taken_ref]; exact h.counted q⟩

/-! ## Writing a leaf entry -/

/-- A store into a last-level table keeps the state well-formed, if an entry below
`UTOP` refers to a page that is neither free nor a table. -/
theorem Wf.leafWrite (h : Wf R m fl) (ht : (tables R m).At o [a, b, c] t)
    (hz : flag v pteP = false → v = 0) (hl : User (o, (a, b, c, d)) → flag v pteP = true →
      ppn v < m.npages ∧ ppn v ∉ fl ∧ ¬ (tables R m).Node (ppn v)) : Wf R (m.write t d v) fl := by
  have hat : ∀ o π n, (tables R (m.write t d v)).At o π n ↔ (tables R m).At o π n :=
    fun _ _ _ => at_leafWrite h.unshared ht
  have hnode : ∀ n, (tables R (m.write t d v)).Node n ↔ (tables R m).Node n :=
    fun n => exists_congr fun o => exists_congr fun π => hat o π n
  have hroot : ∀ {o s}, R o = some s → (m.write t d v).mem s = m.mem s := by
    intro o s hs
    funext k
    refine Pmap.write_mem_of_ne ?_
    rintro ⟨rfl, -⟩
    obtain ⟨-, h1⟩ := h.unshared (root_at hs) ht
    cases h1
  refine ⟨h.free.congr rfl rfl rfl, ?_, h.unshared.mono fun o π n => (hat o π n).1, ?_, ?_, ?_,
    h.kern, ?_, ?_, ?_⟩
  · intro p hp; rw [hnode]; exact h.free_node p hp
  · intro p hp; exact h.node_lt p ((hnode p).1 hp)
  · intro o π p hp hne; exact h.node_ref o π p ((hat o π p).1 hp) hne
  · intro p hp i hi
    have hp := (hnode p).1 hp
    by_cases hw : p = t ∧ i = d
    · obtain ⟨rfl, rfl⟩ := hw
      rw [Pmap.write_mem_self] at hi ⊢; exact hz hi
    · rw [Pmap.write_mem_of_ne hw] at hi ⊢; exact h.clean p hp i hi
  · obtain ⟨p, hp⟩ := h.spine
    exact ⟨p, (hat _ _ _).2 hp⟩
  · intro e s hs
    rw [hroot hs, Pmap.write_boot, hroot h.kern]
    exact h.top e s hs
  · intro s w hs hw
    rw [hnode, Pmap.write_npages]
    rw [view_leafWrite h.unshared ht] at hw
    by_cases hst : s = (o, (a, b, c, d))
    · subst hst
      rw [Function.update_self] at hw
      split at hw
      · cases hw; exact hl hs ‹_›
      · cases hw
    · rw [Function.update_of_ne hst] at hw
      exact h.leaf s w hs hw

theorem targets_leafWrite (h : Wf R m fl) (ht : (tables R m).At o [a, b, c] t)
    (hs : s ≠ (o, (a, b, c, d))) : targets R (m.write t d v) s = targets R m s := by
  unfold targets
  rw [view_leafWrite h.unshared ht, Function.update_of_ne hs]

/-! ## `page_decref` -/

/-- `page_decref` of a page that, if this was its last reference, no mapping refers to. -/
theorem Wf.dropped (h : Wf R m fl) (hn : ¬ (tables R m).Node p) (hp : p ∉ fl) (hlt : p < m.npages)
    (hl : (m.pages p).ppRef = 1 → ∀ s, targets R m s ≠ some p) :
    Wf R (dropped m p) (dropList m fl p) := by
  have hat : ∀ o π n, (tables R (Jos.dropped m p)).At o π n ↔ (tables R m).At o π n :=
    fun _ _ _ => at_congr fun _ _ => by rw [dropped_mem]
  have hnode : ∀ n, (tables R (Jos.dropped m p)).Node n ↔ (tables R m).Node n :=
    fun n => exists_congr fun o => exists_congr fun π => hat o π n
  have hv : view R (Jos.dropped m p) = view R m := view_off fun _ _ => by rw [dropped_mem]
  refine ⟨h.free.dropped hp hlt, ?_, h.unshared.mono fun o π n => (hat o π n).1, ?_, ?_, ?_,
    by rw [dropped_boot]; exact h.kern, ?_, ?_, ?_⟩
  · intro q hq
    rw [hnode]
    rcases mem_dropList.1 hq with ⟨rfl, -⟩ | hq
    · exact hn
    · exact h.free_node q hq
  · intro q hq; rw [dropped_npages]; exact h.node_lt q ((hnode q).1 hq)
  · intro o π q hq hne
    have h1 := (hat o π q).1 hq
    have hqp : q ≠ p := by rintro rfl; exact hn h1.node
    rw [dropped_ref, if_neg hqp]
    exact h.node_ref o π q h1 hne
  · intro q hq i hi
    rw [dropped_mem] at hi ⊢; exact h.clean q ((hnode q).1 hq) i hi
  · obtain ⟨q, hq⟩ := h.spine
    exact ⟨q, (hat _ _ _).2 hq⟩
  · intro e s hs
    rw [dropped_mem, dropped_boot]; exact h.top e s hs
  · intro s w hs hw
    rw [hv] at hw
    obtain ⟨h1, h2, h3⟩ := h.leaf s w hs hw
    rw [dropped_npages, hnode]
    refine ⟨h1, fun hq => ?_, h3⟩
    rcases mem_dropList.1 hq with ⟨he, h1⟩ | hq
    · exact hl h1 s (targets_eq_some.2 ⟨hs, w, hw, he⟩)
    · exact h2 hq

theorem toNat_dropped (hpos : 1 ≤ (m.pages p).ppRef.toNat) :
    ((dropped m p).pages q).ppRef.toNat + (if q = p then 1 else 0) = (m.pages q).ppRef.toNat := by
  rw [dropped_ref]
  split
  · subst q; bv_omega
  · rfl

/-! ## Removing a mapping -/

/-- The state after `page_remove` of the mapping at entry `d` of table `t`. -/
def removeAt (m : Pmap) (t : ℕ) (d : Idx) : Pmap := dropped (m.write t d 0) (ppn (m.mem t d))

theorem dropped_write : (dropped m p).write t d v = dropped (m.write t d v) p := by
  unfold dropped
  rw [Pmap.write_pages]
  split <;> rfl

section removeAt

@[simp] theorem removeAt_npages : (removeAt m t d).npages = m.npages := by simp [removeAt]
@[simp] theorem removeAt_boot : (removeAt m t d).bootPml4e = m.bootPml4e := by simp [removeAt]
theorem removeAt_mem : (removeAt m t d).mem = (m.write t d 0).mem := by simp [removeAt]

end removeAt

/-- The trees and the view after a mapping is removed. -/
theorem view_removeAt (h : Wf R m fl) (ht : (tables R m).At o [a, b, c] t) :
    (∀ o' π n, (tables R (removeAt m t d)).At o' π n ↔ (tables R m).At o' π n) ∧
    view R (removeAt m t d) = Function.update (view R m) (o, (a, b, c, d)) none := by
  constructor
  · intro o' π n
    rw [at_congr (m := m.write t d 0) fun _ _ => by rw [removeAt_mem]]
    exact at_leafWrite h.unshared ht
  · rw [view_off (m := m.write t d 0) fun _ _ => by rw [removeAt_mem], view_leafWrite h.unshared ht]
    simp

/-- **One reference and one count less.** -/
theorem Sound.refs_removeAt (h : Sound R m fl) (ht : (tables R m).At o [a, b, c] t)
    (hs : User (o, (a, b, c, d))) (hp : flag (m.mem t d) pteP = true) (x : ℕ) :
    ((removeAt m t d).pages x).ppRef.toNat + refs (targets R m) x =
      (m.pages x).ppRef.toNat + refs (targets R (removeAt m t d)) x := by
  have hv : view R m (o, (a, b, c, d)) = some (m.mem t d) := view_eq_some.2 ⟨t, ht, rfl, hp⟩
  have hold : targets R m (o, (a, b, c, d)) = some (ppn (m.mem t d)) :=
    targets_eq_some.2 ⟨hs, _, hv, rfl⟩
  have hnew : targets R (removeAt m t d) (o, (a, b, c, d)) = none := by
    unfold targets
    rw [(view_removeAt h.wf ht).2, Function.update_self]; simp
  have hoff : ∀ s' ≠ (o, (a, b, c, d)), targets R (removeAt m t d) s' = targets R m s' := by
    intro s' hs'
    unfold targets
    rw [(view_removeAt h.wf ht).2, Function.update_of_ne hs']
  have hpos := h.ref_pos hs hv
  have h1 : ((removeAt m t d).pages x).ppRef.toNat + (if x = ppn (m.mem t d) then 1 else 0) =
      (m.pages x).ppRef.toNat := toNat_dropped (m := m.write t d 0) hpos
  have h2 := refs_set (t := x) hoff
  rw [hold, hnew] at h2
  simp only [Option.some.injEq, reduceCtorEq, if_false, Nat.add_zero] at h2
  simp only [eq_comm (a := x)] at h1
  omega

/-- **Removing a mapping** keeps the state sound. -/
theorem Sound.removeAt (h : Sound R m fl) (ht : (tables R m).At o [a, b, c] t)
    (hs : User (o, (a, b, c, d))) (hp : flag (m.mem t d) pteP = true) :
    Sound R (removeAt m t d) (dropList m fl (ppn (m.mem t d))) := by
  have hv : view R m (o, (a, b, c, d)) = some (m.mem t d) := view_eq_some.2 ⟨t, ht, rfl, hp⟩
  obtain ⟨hlt, hnf, hnn⟩ := h.wf.leaf _ _ hs hv
  have hw : Wf R (m.write t d 0) fl := h.wf.leafWrite ht (fun _ => rfl) fun _ hf => by simp at hf
  have hcount := h.refs_removeAt ht hs hp
  have hn : ¬ (tables R (m.write t d 0)).Node (ppn (m.mem t d)) := by
    rintro ⟨o', π, h1⟩
    exact hnn ((at_leafWrite h.wf.unshared ht).1 h1).node
  have htg : targets R (m.write t d 0) = targets R (Jos.removeAt m t d) :=
    (targets_congr (view_off fun _ _ => by rw [removeAt_mem])).symm
  refine ⟨hw.dropped hn hnf hlt fun h1 s' hs' => ?_, fun x => ?_⟩
  · -- the last count was that of the mapping that is removed
    have h2 := hcount (ppn (m.mem t d))
    have h3 := h.counted (ppn (m.mem t d))
    have h4 : ((Jos.removeAt m t d).pages (ppn (m.mem t d))).ppRef.toNat = 0 := by
      unfold Jos.removeAt
      rw [dropped_ref, if_pos rfl, h1]; rfl
    rw [htg] at hs'
    have h5 := refs_pos hs'
    omega
  · have h2 := hcount x
    have h3 := h.counted x
    omega

/-! ## Installing a mapping -/

/-- The state after `page_insert` has stored the mapping at entry `d` of table `t`. -/
def insertAt (m : Pmap) (t : ℕ) (d : Idx) (pp : ℕ) (perm : BitVec 32) : Pmap :=
  let m := m.incRef pp
  (if flag (m.mem t d) pteP then removeAt m t d else m).write t d (mkPte pp perm)

/-- The free list after that. -/
def insertList (m : Pmap) (fl : List ℕ) (t : ℕ) (d : Idx) (pp : ℕ) : List ℕ :=
  if flag (m.mem t d) pteP then dropList (m.incRef pp) fl (ppn (m.mem t d)) else fl

section insertAt

@[simp] theorem insertAt_npages : (insertAt m t d pp perm).npages = m.npages := by
  unfold insertAt; dsimp only; split <;> simp
@[simp] theorem insertAt_boot : (insertAt m t d pp perm).bootPml4e = m.bootPml4e := by
  unfold insertAt; dsimp only; split <;> simp
theorem insertAt_mem {q : ℕ} {j : Idx} (h : ¬ (q = t ∧ j = d)) :
    (insertAt m t d pp perm).mem q j = m.mem q j := by
  unfold insertAt
  dsimp only
  rw [Pmap.write_mem_of_ne h]
  split
  · rw [removeAt_mem, Pmap.write_mem_of_ne h]; rfl
  · rfl

end insertAt

/-- The page of a mapping may be mapped once more. -/
structure Mappable (R : Roots) (m : Pmap) (fl : List ℕ) (pp : ℕ) : Prop where
  lt : pp < m.npages
  notFree : pp ∉ fl
  notNode : ¬ (tables R m).Node pp
  notMax : (m.pages pp).ppRef ≠ 0xFFFF#16

/-- The state of `page_insert` just before it stores the new entry: the entry is empty,
and the page is counted once more than it was, for the mapping to come. -/
theorem Sound.emptied (perm : BitVec 32) (h : Sound R m fl) (ht : (tables R m).At o [a, b, c] t)
    (hs : User (o, (a, b, c, d))) (hpp : Mappable R m fl pp) : ∃ m₁,
      insertAt m t d pp perm = m₁.write t d (mkPte pp perm) ∧
      Sound R m₁ (insertList m fl t d pp) ∧
      (∀ o' π n, (tables R m₁).At o' π n ↔ (tables R m).At o' π n) ∧
      view R m₁ = Function.update (view R m) (o, (a, b, c, d)) none ∧
      ∀ x, (m₁.pages x).ppRef.toNat + refs (targets R m) x =
        (m.pages x).ppRef.toNat + refs (targets R m₁) x + if x = pp then 1 else 0 := by
  have hi := h.incRef hpp.notFree hpp.notNode hpp.notMax
  unfold insertAt insertList
  dsimp only
  rw [Pmap.incRef_mem]
  split
  · rename_i hp
    obtain ⟨hat, hview⟩ := view_removeAt (d := d) hi.wf ht
    refine ⟨_, rfl, hi.removeAt ht hs hp, hat, hview, fun x => ?_⟩
    have h1 := hi.refs_removeAt ht hs hp x
    have h2 := toNat_incRef (q := x) hpp.notMax
    rw [targets_congr view_incRef] at h1
    omega
  · rename_i hp
    refine ⟨_, rfl, hi, fun _ _ _ => Iff.rfl, ?_, fun x => ?_⟩
    · -- nothing was mapped there
      have hv : view R m (o, (a, b, c, d)) = none := by
        cases hx : view R m (o, (a, b, c, d)) with
        | none => rfl
        | some w =>
          obtain ⟨t', h1, rfl, h3⟩ := view_eq_some.1 hx
          rw [h1.det ht] at h3
          exact absurd h3 hp
      rw [← hv, Function.update_eq_self]; rfl
    · have h2 := toNat_incRef (q := x) hpp.notMax
      rw [targets_congr view_incRef]
      omega

/-- **Installing a mapping** keeps the state sound, changes one leaf entry and no tree,
and changes the counts as it changes the references. -/
theorem Sound.insertAt (h : Sound R m fl) (ht : (tables R m).At o [a, b, c] t)
    (hs : User (o, (a, b, c, d))) (hpp : Mappable R m fl pp) (hperm : PermOk perm) :
    Sound R (insertAt m t d pp perm) (insertList m fl t d pp) ∧
      (∀ o' π n, (tables R (insertAt m t d pp perm)).At o' π n ↔ (tables R m).At o' π n) ∧
      view R (insertAt m t d pp perm) =
        Function.update (view R m) (o, (a, b, c, d)) (some (mkPte pp perm)) ∧
      ∀ x, ((insertAt m t d pp perm).pages x).ppRef.toNat + refs (targets R m) x =
        (m.pages x).ppRef.toNat + refs (targets R (insertAt m t d pp perm)) x := by
  obtain ⟨m₁, he, hw, hat, hview, hcount⟩ := h.emptied perm ht hs hpp
  have ht₁ := (hat o _ t).2 ht
  have hlt : pp < 2 ^ 52 := by
    have := hpp.lt
    have := h.wf.npages_le
    omega
  have hppn := ppn_mkPte hlt hperm
  have hn₁ : ¬ (tables R m₁).Node pp := by
    rintro ⟨o', π, h1⟩
    exact hpp.notNode ((hat o' π pp).1 h1).node
  have hnf : pp ∉ insertList m fl t d pp := by
    -- a mapping of the same page is counted apart from the new one
    intro hf
    unfold insertList at hf
    split at hf
    · rename_i hp
      rcases mem_dropList.1 hf with ⟨hq, h1⟩ | hf
      · have h2 := h.ref_pos hs (view_eq_some.2 ⟨t, ht, rfl, hp⟩)
        have h3 := toNat_incRef (q := pp) hpp.notMax
        rw [← hq] at h1 h2
        rw [h1, if_pos rfl] at h3
        have : (1 : BitVec 16).toNat = 1 := rfl
        omega
      · exact hpp.notFree hf
    · exact hpp.notFree hf
  have hnp : m₁.npages = m.npages := by
    have h1 : (Jos.insertAt m t d pp perm).npages = m₁.npages := by rw [he]; rfl
    rw [← h1, insertAt_npages]
  have hwf : Wf R (m₁.write t d (mkPte pp perm)) (insertList m fl t d pp) := by
    refine hw.wf.leafWrite ht₁ (fun hf => by simp at hf) fun _ _ => ?_
    rw [hppn, hnp]
    exact ⟨hpp.lt, hnf, hn₁⟩
  have hv : view R (m₁.write t d (mkPte pp perm)) =
      Function.update (view R m) (o, (a, b, c, d)) (some (mkPte pp perm)) := by
    rw [view_leafWrite hw.wf.unshared ht₁, hview, Function.update_idem, flag_mkPte, if_pos rfl]
  have hbal : ∀ x, ((m₁.write t d (mkPte pp perm)).pages x).ppRef.toNat + refs (targets R m) x =
      (m.pages x).ppRef.toNat + refs (targets R (m₁.write t d (mkPte pp perm))) x := by
    intro x
    have hoff : ∀ s' ≠ (o, (a, b, c, d)),
        targets R (m₁.write t d (mkPte pp perm)) s' = targets R m₁ s' :=
      fun s' hs' => targets_leafWrite hw.wf ht₁ hs'
    have h1 := refs_set (t := x) hoff
    have h2 : targets R m₁ (o, (a, b, c, d)) = none := by
      unfold targets; rw [hview, Function.update_self]; simp
    have h3 : targets R (m₁.write t d (mkPte pp perm)) (o, (a, b, c, d)) = some pp := by
      refine targets_eq_some.2 ⟨hs, mkPte pp perm, ?_, hppn⟩
      rw [hv, Function.update_self]
    have h4 := hcount x
    rw [h2, h3] at h1
    simp only [reduceCtorEq, if_false, Nat.add_zero, Option.some.injEq, eq_comm (a := pp)] at h1
    rw [Pmap.write_pages]
    omega
  rw [he]
  refine ⟨⟨hwf, fun x => ?_⟩, fun o' π n => ?_, hv, hbal⟩
  · have h1 := hbal x
    have h2 := h.counted x
    omega
  · rw [at_leafWrite hw.wf.unshared ht₁, hat]

/-! ## The functions of `kern/pmap.c` -/

/-- The table that holds the entry of a mapped address. -/
theorem Wf.mapped_at (h : Wf R m fl) (hr : R (.env e) = some r) (hva : va < utop)
    (hv : leafEntry m r va = some v) :
    ∃ q, (tables R m).At (ownerOf e va) (path va) q ∧ m.mem q (ptx va) = v ∧ flag v pteP = true := by
  rw [h.leafEntry_view hr hva] at hv
  exact view_eq_some.1 hv

/-- `page_lookup` of a mapped address. -/
theorem Wf.pageLookup_mapped (h : Wf R m fl) (hr : R (.env e) = some r) (hva : va < utop)
    (hv : leafEntry m r va = some v) : ∃ q, pageLookup m r va = some (some (ppn v, ⟨q, ptx va⟩), m) ∧
      (tables R m).At (ownerOf e va) (path va) q ∧ m.mem q (ptx va) = v ∧ flag v pteP = true := by
  obtain ⟨q, h1, h2, h3⟩ := h.mapped_at hr hva hv
  have hlt := (h.leaf _ v (user_vpn hva) (h.leafEntry_view hr hva ▸ hv)).1
  refine ⟨q, ?_, h1, h2, h3⟩
  unfold pageLookup
  rw [h.pml4eWalk_at hr hva h1]
  simp only [Option.bind_eq_bind, Option.bind_some, h2]
  unfold pa2page
  rw [if_neg (by omega)]; rfl

/-- `page_lookup` with too few free pages for the tables it makes. -/
theorem Wf.pageLookup_short (h : Wf R m fl) (hr : R (.env e) = some r) (hva : va < utop)
    (hm : fl.length < missingTables m r va) :
    ∃ m', pageLookup m r va = some (none, m') ∧ Restored m m' fl := by
  obtain ⟨m', h1, h2⟩ := h.pml4eWalk_short hr hva hm
  refine ⟨m', ?_, h2⟩
  unfold pageLookup
  rw [h1]; rfl

/-- **`page_lookup` of an address that is not mapped** makes its tables and returns the
page of the entry 0, which is page 0. -/
theorem Wf.pageLookup_unmapped (h : Wf R m fl) (hr : R (.env e) = some r) (hva : va < utop)
    (hv : leafEntry m r va = none) (hm : missingTables m r va ≤ fl.length) : ∃ m' q,
      pageLookup m r va = some (some (0, ⟨q, ptx va⟩), m') ∧ m'.mem q (ptx va) = 0 ∧
      Grown R (ownerOf e va) m fl m' (fl.drop (missingTables m r va))
        (fl.take (missingTables m r va)) ∧
      (tables R m').At (ownerOf e va) (path va) q := by
  obtain ⟨m', q, h1, hg, hat⟩ := h.pml4eWalk hr hva hm
  have hz : m'.mem q (ptx va) = 0 := by
    refine hg.wf.clean q hat.node _ ?_
    rw [h.leafEntry_view hr hva, ← hg.view] at hv
    by_contra hf
    have : view R m' (ownerOf e va, vpn va) = some (m'.mem q (ptx va)) :=
      view_eq_some.2 ⟨q, hat, rfl, by simpa using hf⟩
    rw [hv] at this; cases this
  refine ⟨m', q, ?_, hz, hg, hat⟩
  have hnp : 0 < m'.npages := by
    have := hg.wf.node_lt q hat.node
    omega
  unfold pageLookup
  rw [h1]
  simp only [Option.bind_eq_bind, Option.bind_some, hz]
  unfold pa2page
  rw [if_neg (by rw [show ppn 0 = 0 from rfl]; omega)]; rfl

/-- `page_remove` of a mapped address. -/
theorem Wf.pageRemove_mapped (h : Wf R m fl) (hr : R (.env e) = some r) (hva : va < utop)
    (hq : (tables R m).At (ownerOf e va) (path va) q) (hp : flag (m.mem q (ptx va)) pteP = true) :
    pageRemove m r va = some (removeAt m q (ptx va)) := by
  have hv : leafEntry m r va = some (m.mem q (ptx va)) := by
    rw [h.leafEntry_view hr hva]; exact view_eq_some.2 ⟨q, hq, rfl, hp⟩
  obtain ⟨q', h1, h2, -, -⟩ := h.pageLookup_mapped hr hva hv
  obtain rfl := h2.det hq
  unfold pageRemove
  rw [h1]
  simp only [Option.bind_eq_bind, Option.bind_some]
  rw [pageDecref_eq h.free]
  exact congrArg some dropped_write

/-- **`page_insert`** with enough free pages: the walk makes the missing tables, and the
mapping is installed in the last. -/
theorem Sound.pageInsert (h : Sound R m fl) (hr : R (.env e) = some r) (hva : va < utop)
    (hm : missingTables m r va ≤ fl.length) (hpp : Mappable R m fl pp) : ∃ m₁ q,
      Jos.pageInsert m r pp va perm = some (0, Jos.insertAt m₁ q (ptx va) pp perm) ∧
      Grown R (ownerOf e va) m fl m₁ (fl.drop (missingTables m r va))
        (fl.take (missingTables m r va)) ∧
      (tables R m₁).At (ownerOf e va) (path va) q ∧
      Mappable R m₁ (fl.drop (missingTables m r va)) pp := by
  obtain ⟨m₁, q, h1, hg, hat⟩ := h.wf.pml4eWalk hr hva hm
  have hpt : pp ∉ fl.take (missingTables m r va) := fun hp => hpp.notFree (List.mem_of_mem_take hp)
  have hpp₁ : Mappable R m₁ (fl.drop (missingTables m r va)) pp := by
    refine ⟨by rw [hg.npages]; exact hpp.lt, fun hp => hpp.notFree (List.mem_of_mem_drop hp), ?_, ?_⟩
    · rintro ⟨o', π, hn⟩
      rcases hg.only o' π pp hn with hn | hn
      · exact hpp.notNode hn.node
      · exact hpt hn
    · rw [hg.ref, if_neg hpt]; exact hpp.notMax
  refine ⟨m₁, q, ?_, hg, hat, hpp₁⟩
  have hi : Wf R (m₁.incRef pp) (fl.drop (missingTables m r va)) :=
    hg.wf.incRef hpp₁.notFree hpp₁.notNode
  unfold Jos.pageInsert Jos.insertAt
  rw [h1]
  simp only [Option.bind_eq_bind, Option.bind_some]
  split
  · rename_i hp
    rw [hi.pageRemove_mapped hr hva hat hp]; rfl
  · rfl

/-- **`page_insert`** without enough free pages. -/
theorem Wf.pageInsert_short (h : Wf R m fl) (hr : R (.env e) = some r) (hva : va < utop)
    (hm : fl.length < missingTables m r va) :
    ∃ m', Jos.pageInsert m r pp va perm = some (-eNoMem, m') ∧ Restored m m' fl := by
  obtain ⟨m', h1, h2⟩ := h.pml4eWalk_short hr hva hm
  refine ⟨m', ?_, h2⟩
  unfold Jos.pageInsert
  rw [h1]; rfl

end Jos
