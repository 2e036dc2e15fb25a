import Jos.Proof.Insert
import Jos.Proof.Lookup

/-!
# `page_insert`, for any root and any address

`pageInsert_exact`: a call that succeeds installs one leaf entry, takes at most three empty tables
from the free list, counts the page once more and the displaced page once less; a call that fails
changes nothing. A page that is mapped again where it was is counted as before.

The new count is made before the old mapping is removed (`insertAt`), so that the page of both is
not freed in between.
-/

namespace Jos

open Lib

variable {S : Set Idx} {m m' m₁ : Pmap} {fl rest new : List ℕ} {π ρ : List Idx} {r t p q n pp : ℕ}
variable {a b c d i j : Idx} {va va' : VA} {perm : BitVec 32} {R : Roots} {e : EnvIdx} {v : PTE}

/-! ## Trees of the environments -/

/-- Below the PML4 of an environment there are its own tables and the kernel's. -/
theorem Wf.tableAt (h : Wf R m fl) (hr : R (.env e) = some r) (ht : TableAt {i | i ≠ 2} r m π t) :
    π = [] ∧ t = r ∨ π ≠ [] ∧ ∃ o, (o = .env e ∨ o = .kern) ∧ (tables R m).At o π t ∧
      π.head? = some (slot o) := by
  obtain ⟨htop1, -, htop3⟩ := h.top e r hr
  induction π using List.reverseRecOn generalizing t with
  | nil =>
    cases Forest.at_nil.1 ht
    exact Or.inl ⟨rfl, rfl⟩
  | append_singleton π i ih =>
    obtain ⟨⟨hl, hd⟩, s, hs, hn⟩ := Forest.at_append.1 ht
    obtain ⟨hp, rfl⟩ := next_eq_some.1 hn
    refine Or.inr ⟨by simp, ?_⟩
    rcases ih hs with ⟨rfl, rfl⟩ | ⟨hne, o, ho, hso, hh⟩
    · -- an entry of the PML4: its own slot, the kernel's, or one that is always empty
      by_cases h0 : i = 0
      · subst h0
        exact ⟨.env e, Or.inl rfl, child_at (root_at hr) (inTree_one.2 rfl) hp, rfl⟩
      · by_cases h1 : i = 1
        · subst h1
          rw [htop1] at hp ⊢
          exact ⟨.kern, Or.inr rfl, child_at (root_at h.kern) (inTree_one.2 rfl) hp, rfl⟩
        · have h2 : i ≠ 2 := hd i rfl
          have h3 : 3 ≤ i.val := by
            have h4 : i.val ≠ 0 := Fin.val_ne_of_ne h0
            have h5 : i.val ≠ 1 := Fin.val_ne_of_ne h1
            have h6 : i.val ≠ 2 := Fin.val_ne_of_ne h2
            omega
          rw [htop3 i h3] at hp
          exact absurd hp (by decide)
    · obtain ⟨x, π, rfl⟩ := List.exists_cons_of_ne_nil hne
      cases hh
      refine ⟨o, ho, child_at hso ⟨hl, fun k hk => ?_⟩ hp, rfl⟩
      cases hk
      rfl

/-- **The tables of an environment are a tree**, but for the slot through which the PML4 maps
itself. -/
theorem Wf.treeOk (h : Wf R m fl) (hr : R (.env e) = some r) : TreeOk {i | i ≠ 2} r m fl := by
  have hroot := root_at (m := m) hr
  have hnode : ∀ {π t}, TableAt {i | i ≠ 2} r m π t → (tables R m).Node t := by
    intro π t ht
    rcases h.tableAt hr ht with ⟨-, rfl⟩ | ⟨-, o, -, hto, -⟩
    · exact hroot.node
    · exact hto.node
  refine ⟨h.free, ?_, fun π t ht hf => h.free_node t hf (hnode ht), fun π t ht => h.node_lt t (hnode ht),
    fun π t i ht _ hf => h.clean t (hnode ht) i hf⟩
  intro π π' t ht ht'
  rcases h.tableAt hr ht with ⟨rfl, rfl⟩ | ⟨-, o, -, hto, -⟩ <;>
    rcases h.tableAt hr ht' with ⟨rfl, h1⟩ | ⟨-, o', -, hto', -⟩
  · rfl
  · exact (h.unshared hroot hto').2
  · rw [h1] at hto
    exact (h.unshared hto hroot).2
  · exact (h.unshared hto hto').2

/-! ## The entries of a walk -/

theorem missing_le (m : Pmap) (t : ℕ) (ρ : List Idx) : missing m t ρ ≤ ρ.length := by
  induction ρ generalizing t with
  | nil => exact Nat.le_refl 0
  | cons i ρ ih =>
    have h1 := ih (ppn (m.mem t i))
    rw [List.length_cons]
    unfold missing
    split
    · omega
    · omega

theorem walkWords_snoc (ht : TableAt S r m π t) (hq : TableAt S r m (π ++ ρ) q) :
    walkWords m t (ρ ++ [d]) = walkWords m t ρ ++ [(q, d)] := by
  induction ρ generalizing π t with
  | nil =>
    rw [List.append_nil] at hq
    rw [ht.det hq]
    rfl
  | cons i ρ ih =>
    have hq' : TableAt S r m ((π ++ [i]) ++ ρ) q := by simpa using hq
    obtain ⟨s, hs⟩ := hq'.prefix
    obtain ⟨-, t', ht', hn⟩ := Forest.at_append.1 hs
    rw [ht'.det ht] at hn
    obtain ⟨-, rfl⟩ := next_eq_some.1 hn
    have h1 := ih hs hq'
    simp only [List.cons_append, walkWords, h1]

/-- The words of a walk depend on the entries above the leaf. -/
theorem walkWords_frame (hm : ∀ π t i, TableAt S r m π t → InSlots S (π ++ [i]) → m'.mem t i = m.mem t i)
    (ht : TableAt S r m π t) (hq : TableAt S r m (π ++ ρ) q) : walkWords m' t ρ = walkWords m t ρ := by
  induction ρ generalizing π t with
  | nil => rfl
  | cons i ρ ih =>
    have hq' : TableAt S r m ((π ++ [i]) ++ ρ) q := by simpa using hq
    obtain ⟨s, hs⟩ := hq'.prefix
    obtain ⟨hd, t', ht', hn⟩ := Forest.at_append.1 hs
    rw [ht'.det ht] at hn
    obtain ⟨-, rfl⟩ := next_eq_some.1 hn
    unfold walkWords
    rw [hm π t i ht hd, ih hs hq']

/-! ## Installing the mapping -/

theorem tableAt_mem (h : m'.mem = m.mem) : TableAt S r m' π t ↔ TableAt S r m π t :=
  Forest.frame (F := pageTree S r m) (G := pageTree S r m') rfl rfl fun o π i t _ _ => by
    simp only [pageTree, next, h]

theorem translate_mem (h : m'.mem = m.mem) : translate m' r va = translate m r va := by
  unfold translate presentAt
  rw [h]

/-- The new entry is all that is stored. -/
theorem insertAt_mem_eq : (insertAt m q d pp perm).mem = (m.write q d (mkPte pp perm)).mem := by
  funext s j
  by_cases h : s = q ∧ j = d
  · obtain ⟨rfl, rfl⟩ := h
    unfold insertAt
    dsimp only
    rw [Pmap.write_mem_self, Pmap.write_mem_self]
  · rw [insertAt_mem h, Pmap.write_mem_of_ne h]

/-- A mapping that `page_remove` can remove: its page is in RAM, and counted. -/
def Removable (m : Pmap) (v : PTE) : Prop := ppn v < m.npages ∧ (m.pages (ppn v)).ppRef ≠ 0

/-- **The counts.** -/
theorem insertAt_ref (perm : BitVec 32) (hmax : (m.pages pp).ppRef ≠ 0xFFFF)
    (hv : flag (m.mem q d) pteP = true → Removable m (m.mem q d)) :
    ((insertAt m q d pp perm).pages n).ppRef.toNat +
        (if flag (m.mem q d) pteP = true ∧ ppn (m.mem q d) = n then 1 else 0) =
      (m.pages n).ppRef.toNat + if n = pp then 1 else 0 := by
  have h1 := toNat_incRef (q := n) hmax
  unfold insertAt
  dsimp only
  rw [Pmap.write_pages, Pmap.incRef_mem]
  split
  · rename_i hp
    have h2 : 1 ≤ ((m.incRef pp).pages (ppn (m.mem q d))).ppRef.toNat := by
      have h3 := (hv hp).2
      rw [toNat_incRef hmax]
      bv_omega
    have h4 := toNat_dropped (m := (m.incRef pp).write q d 0) (q := n) h2
    unfold removeAt
    rw [Pmap.incRef_mem]
    rw [Pmap.write_pages] at h4
    simp only [hp, true_and, eq_comm (a := ppn (m.mem q d))]
    omega
  · rename_i hp
    rw [if_neg fun h => hp h.1]
    exact h1

/-- The page of an old mapping goes back to the free list if it is not counted any more. -/
def insertedList (m' : Pmap) (rest : List ℕ) (v : Option PTE) : List ℕ :=
  match v with
  | some v => if (m'.pages (ppn v)).ppRef = 0 then ppn v :: rest else rest
  | none => rest

/-- **The free list.** -/
theorem insertAt_free (h : FreeOK m rest) (hpp : pp ∉ rest) (hmax : (m.pages pp).ppRef ≠ 0xFFFF)
    (hv : flag (m.mem q d) pteP = true → Removable m (m.mem q d)) :
    FreeOK (insertAt m q d pp perm) (insertedList (insertAt m q d pp perm) rest (presentAt m q d)) := by
  have hi := h.incRef hpp
  have href := insertAt_ref (n := ppn (m.mem q d)) perm hmax hv
  unfold presentAt
  split
  · rename_i hp
    obtain ⟨hlt, hpos⟩ := hv hp
    have h1 : ppn (m.mem q d) ∉ rest := fun hf => hpos (h.ref _ hf)
    have h2 := ((hi.congr rfl rfl rfl : FreeOK ((m.incRef pp).write q d 0) rest)).dropped h1 hlt
    have h3 : insertedList (insertAt m q d pp perm) rest (some (m.mem q d)) =
        dropList ((m.incRef pp).write q d 0) rest (ppn (m.mem q d)) := by
      have h4 := toNat_incRef (q := ppn (m.mem q d)) hmax
      rw [if_pos ⟨hp, rfl⟩] at href
      have h5 : ((insertAt m q d pp perm).pages (ppn (m.mem q d))).ppRef = 0 ↔
          ((m.incRef pp).pages (ppn (m.mem q d))).ppRef = 1 := by
        rw [← BitVec.toNat_inj, ← BitVec.toNat_inj]
        change _ = 0 ↔ _ = 1
        omega
      unfold insertedList dropList
      dsimp only
      rw [Pmap.write_pages]
      simp only [h5]
    rw [h3]
    refine h2.congr ?_ ?_ ?_ <;>
    · unfold insertAt
      dsimp only
      rw [Pmap.incRef_mem, if_pos hp]
      rfl
  · rename_i hp
    refine hi.congr ?_ ?_ ?_ <;>
    · unfold insertAt
      dsimp only
      rw [Pmap.incRef_mem, if_neg hp]
      rfl

/-! ## `page_insert` -/

/-- **Exact**: what a call of `page_insert` leaves that returns 0. -/
structure Inserted (S : Set Idx) (m m' : Pmap) (fl : List ℕ) (r pp : ℕ) (va : VA) (perm : BitVec 32) :
    Prop where
  entry : leafEntry m' r va = some (mkPte pp perm)
  others : ∀ va', pml4 va' ∈ S → vpn va' ≠ vpn va → translate m' r va' = translate m r va'
  access : OpenWalk m' r (path va) ↔ OpenWalk m r (path va)
  npages : m'.npages = m.npages
  boot : m'.bootPml4e = m.bootPml4e
  pages : ∃ new rest, fl = new ++ rest ∧ new.length ≤ 3 ∧
    FreeOK m' (insertedList m' rest (leafEntry m r va)) ∧
    (∀ n ∈ new, (m'.pages n).ppRef = 1 ∧
      ∀ j, (n, j) ∉ walkWords m' r (indices va) → m'.mem n j = 0) ∧
    (∀ n ∉ new, ∀ j, (n, j) ∉ walkWords m' r (indices va) → m'.mem n j = m.mem n j) ∧
    ∀ n ∉ new, (m'.pages n).ppRef.toNat + (if (leafEntry m r va).map ppn = some n then 1 else 0) =
      (m.pages n).ppRef.toNat + if n = pp then 1 else 0

theorem TreeOk.incRef (h : TreeOk S r m fl) (hp : p ∉ fl) : TreeOk S r (m.incRef p) fl :=
  have hm : ∀ π t, TableAt S r m π t → (m.incRef p).mem t = m.mem t := fun _ _ _ => rfl
  (h.off hm (h.free.incRef hp) h.notFree rfl).1

theorem TreeOk.pageRemove_mapped (h : TreeOk S r m fl) (hva : pml4 va ∈ S) (hv : leafEntry m r va = some v)
    (hlt : ppn v < m.npages) (hq : TableAt S r m (path va) q) :
    pageRemove m r va = some (removeAt m q (ptx va)) := by
  obtain ⟨q', h1, h2, rfl, -⟩ := h.pageLookup_mapped hva hv hlt
  obtain rfl := h2.det hq
  unfold pageRemove
  rw [h1]
  change (pageDecref m _).bind _ = _
  rw [pageDecref_eq h.free]
  exact congrArg some dropped_write

/-- A walk that makes its tables, and then the mapping. -/
theorem TreeOk.pageInsert_eq (ho : TreeOk S r m₁ rest) (hva : pml4 va ∈ S) (hpp : pp ∉ rest)
    (hw : Jos.pml4eWalk m r va true = some (some ⟨q, ptx va⟩, m₁))
    (hq : TableAt S r m₁ (path va) q)
    (hv : flag (m₁.mem q (ptx va)) pteP = true → ppn (m₁.mem q (ptx va)) < m₁.npages) :
    pageInsert m r pp va perm = some (0, insertAt m₁ q (ptx va) pp perm) := by
  unfold pageInsert insertAt
  rw [hw]
  simp only [Option.bind_eq_bind, Option.bind_some]
  split
  · rename_i hp
    have hq' : TableAt S r (m₁.incRef pp) (path va) q := (tableAt_mem rfl).2 hq
    have h1 : leafEntry (m₁.incRef pp) r va = some (m₁.mem q (ptx va)) := by
      rw [leafEntry_at hq']
      exact presentAt_eq_some.2 ⟨rfl, hp⟩
    rw [(ho.incRef hpp).pageRemove_mapped hva h1 (hv hp) hq']
    rfl
  · rfl

/-- **`page_insert` is exact on success and atomic on failure.** -/
theorem pageInsert_exact (h : TreeOk S r m fl) (hva : pml4 va ∈ S) (hpp : pp ∉ fl)
    (hmax : (m.pages pp).ppRef ≠ 0xFFFF) (hv : ∀ v, leafEntry m r va = some v → Removable m v) :
    ∃ x m', pageInsert m r pp va perm = some (x, m') ∧
      (x = 0 ∧ Inserted S m m' fl r pp va perm ∨ x = -eNoMem ∧ Restored m m' fl) := by
  by_cases hm : missingTables m r va ≤ fl.length
  · obtain ⟨m₁, q, hw, hx, hq⟩ := h.pml4eWalk hva hm
    obtain ⟨new, hnew⟩ : ∃ new, new = fl.take (missingTables m r va) := ⟨_, rfl⟩
    obtain ⟨rest, hrest⟩ : ∃ rest, rest = fl.drop (missingTables m r va) := ⟨_, rfl⟩
    rw [← hnew, ← hrest] at hx
    have hlist : fl = new ++ rest := hx.list
    have hppn : pp ∉ new := fun hf => hpp (by rw [hlist]; exact List.mem_append_left _ hf)
    have hppr : pp ∉ rest := fun hf => hpp (by rw [hlist]; exact List.mem_append_right _ hf)
    have hmax₁ : (m₁.pages pp).ppRef ≠ 0xFFFF := by
      rw [hx.ref, if_neg hppn]
      exact hmax
    -- the old mapping is as it was before the walk
    have hleaf : presentAt m₁ q (ptx va) = leafEntry m r va := by
      rw [← leafEntry_at hq]
      unfold leafEntry
      rw [hx.translate va hva]
    have hold : ∀ n ∉ new, (flag (m₁.mem q (ptx va)) pteP = true ∧ ppn (m₁.mem q (ptx va)) = n) ↔
        (leafEntry m r va).map ppn = some n := by
      intro n _
      rw [← hleaf]
      by_cases hp : flag (m₁.mem q (ptx va)) pteP = true
      · rw [presentAt_of_flag hp]
        simp only [hp, true_and, Option.map_some, Option.some.injEq]
      · unfold presentAt
        simp only [hp, Bool.false_eq_true, false_and, if_false, Option.map_none, reduceCtorEq]
    have hrem : flag (m₁.mem q (ptx va)) pteP = true → Removable m₁ (m₁.mem q (ptx va)) := by
      intro hp
      obtain ⟨h1, h2⟩ := hv _ (hleaf.symm.trans (presentAt_of_flag hp))
      refine ⟨by rw [hx.npages]; exact h1, ?_⟩
      rw [hx.ref]
      split
      · decide
      · exact h2
    have hat : TableAt S r (insertAt m₁ q (ptx va) pp perm) (path va) q :=
      (tableAt_mem insertAt_mem_eq).2 ((hx.ok.leafWrite (a := pml4 va) (b := pdpe va) (c := pdx va) hq).2.1
        (path va) q |>.2 hq)
    have hupper : ∀ π t i, TableAt S r m₁ π t → InSlots S (π ++ [i]) →
        (insertAt m₁ q (ptx va) pp perm).mem t i = m₁.mem t i := by
      intro π t i ht hd
      apply insertAt_mem
      rintro ⟨rfl, -⟩
      obtain rfl := hx.ok.unshared _ _ _ ht hq
      exact absurd hd.1 (by simp [path])
    have hwords : walkWords (insertAt m₁ q (ptx va) pp perm) r (indices va) =
        walkWords m₁ r (path va) ++ [(q, ptx va)] := by
      rw [indices, walkWords_snoc (π := []) (ρ := path va) tableAt_root hat,
        walkWords_frame (π := []) (ρ := path va) hupper tableAt_root hq]
    refine ⟨0, _, hx.ok.pageInsert_eq hva hppr hw hq fun hp => (hrem hp).1, Or.inl ⟨rfl, ?_, ?_, ?_, ?_, ?_,
      new, rest, hlist, ?_, ?_, ?_, ?_, ?_⟩⟩
    · rw [leafEntry_at hat]
      refine presentAt_eq_some.2 ⟨?_, flag_mkPte _ _⟩
      rw [insertAt_mem_eq, Pmap.write_mem_self]
    · intro va' hva' hne
      rw [translate_mem insertAt_mem_eq, ← hx.translate va' hva']
      refine (hx.ok.leafWrite (a := pml4 va) (b := pdpe va) (c := pdx va) hq).2.2 va' hva' fun hi => hne ?_
      simp only [indices, path, List.cons_append, List.nil_append, List.cons.injEq, and_true] at hi
      simp only [vpn, hi]
    · exact (openWalk_frame hupper tableAt_root (inSlots_path hva)).trans
        (hx.open_iff h tableAt_root (inSlots_path hva))
    · rw [insertAt_npages, hx.npages]
    · rw [insertAt_boot, hx.boot]
    · rw [hnew, List.length_take]
      have h1 : missingTables m r va ≤ 3 := missing_le m r (path va)
      omega
    · rw [← hleaf]
      exact insertAt_free hx.ok.free hppr hmax₁ hrem
    · intro n hn
      have hnf : (m.pages n).ppRef = 0 := h.free.ref n (by rw [hlist]; exact List.mem_append_left _ hn)
      have h1 := insertAt_ref (n := n) perm hmax₁ hrem
      have hne : n ≠ pp := by
        rintro rfl
        exact hppn hn
      have hno : ¬ (flag (m₁.mem q (ptx va)) pteP = true ∧ ppn (m₁.mem q (ptx va)) = n) := by
        -- a counted page was not on the free list
        rintro ⟨hp, rfl⟩
        exact (hv _ (hleaf.symm.trans (presentAt_of_flag hp))).2 hnf
      rw [hx.ref, if_pos hn, if_neg hno, if_neg hne] at h1
      refine ⟨BitVec.eq_of_toNat_eq h1, fun j hj => ?_⟩
      rw [hwords, List.mem_append, not_or] at hj
      rw [insertAt_mem fun hc => hj.2 (by rw [hc.1, hc.2]; exact List.mem_singleton_self _)]
      exact hx.zero n hn j hj.1
    · intro n hn j hj
      rw [hwords, List.mem_append, not_or] at hj
      rw [insertAt_mem fun hc => hj.2 (by rw [hc.1, hc.2]; exact List.mem_singleton_self _), hx.frame n hn j hj.1]
    · intro n hn
      have h1 := insertAt_ref (n := n) perm hmax₁ hrem
      rw [hx.ref, if_neg hn] at h1
      simp only [hold n hn] at h1
      exact h1
  · obtain ⟨m', h1, h2⟩ := h.pml4eWalk_short hva (by omega)
    refine ⟨_, m', ?_, Or.inr ⟨rfl, h2⟩⟩
    unfold pageInsert
    rw [h1]
    rfl

/-- Page 5 is mapped at address 0 of an empty PML4, with three new tables. -/
theorem pageInsert_exact_empty : ∃ x m', pageInsert emptyRoot 1 5 0 7 = some (x, m') ∧
    (x = 0 ∧ Inserted Set.univ emptyRoot m' [2, 3, 4] 1 5 0 7 ∨ x = -eNoMem ∧ Restored emptyRoot m' [2, 3, 4]) :=
  pageInsert_exact emptyRoot_tree (Set.mem_univ _) (by decide) (by decide) fun v hv => by cases hv

end Jos
