import Jos.Proof.Tree
import Jos.Proof.MemCheck
import Jos.Spec.Vm

/-!
# Looking addresses up

* `pureWalk_iff`: `pml4e_walk` without `create` is the processor's walk exactly for the addresses
  whose three tables exist. It never tests a present bit, so elsewhere it goes on in the page that
  an absent entry decodes to.
* `lookupRight_iff`: `page_lookup` is a pure lookup, and `page_remove` of an unmapped address has no
  effect, exactly if the address is mapped or the walk of `page_lookup`, which is made with
  `create`, gives up for want of memory.
-/

namespace Jos

open Lib

variable {S : Set Idx} {m m' : Pmap} {fl : List ℕ} {π ρ : List Idx} {r t n : ℕ} {i d : Idx} {va : VA}
variable {k : Kernel} {cur e : EnvIdx} {envid : EnvId}

/-! ## Without `create` -/

/-- The address of the leaf entry that the processor's walk reaches. -/
def leafPtr (m : Pmap) (r : ℕ) (va : VA) : Option PtePtr :=
  match tableEntries m r va with
  | [_, _, e] => some ⟨ppn e, ptx va⟩
  | _ => none

/-- **A pure lookup**: `pml4e_walk(r, va, 0)` changes nothing, and gives the leaf entry that the
processor's walk reaches, or `NULL` if an entry above it is absent; and so does `check_va2pa`. -/
def PureWalk (m : Pmap) (r : ℕ) (va : VA) : Prop :=
  pml4eWalk m r va false = some (leafPtr m r va, m) ∧
    checkVa2pa m r va = some (match leafEntry m r va with | some e => pteAddr e | none => ~~~0)

/-- The entries on a path from table `t` are present, and link to pages in RAM. -/
def TablesExist (m : Pmap) : ℕ → List Idx → Prop
  | _, [] => True
  | t, i :: ρ => flag (m.mem t i) pteP = true ∧ ppn (m.mem t i) % 2 ^ 32 < m.npages ∧
    TablesExist m (ppn (m.mem t i)) ρ

theorem kaddr_eq_some {x : BitVec 64} : kaddr m x = some t ↔ ppn x % 2 ^ 32 < m.npages ∧ ppn x = t := by
  unfold kaddr
  split
  · rename_i h
    simp only [reduceCtorEq, false_iff, not_and]
    omega
  · rename_i h
    simp only [Option.some.injEq]
    omega

theorem presentAt_of_flag (h : flag (m.mem t i) pteP = true) : presentAt m t i = some (m.mem t i) :=
  presentAt_eq_some.2 ⟨rfl, h⟩

/-- The entries that the processor meets on a path are all there exactly if they are present. -/
theorem walkEntries_length (h : (walkEntries m t ρ).length = ρ.length) :
    ∀ i ρ', ρ = i :: ρ' → flag (m.mem t i) pteP = true ∧
      (walkEntries m (ppn (m.mem t i)) ρ').length = ρ'.length := by
  rintro i ρ' rfl
  unfold walkEntries at h
  cases he : presentAt m t i with
  | none =>
    rw [he] at h
    cases h
  | some e =>
    obtain ⟨rfl, hp⟩ := presentAt_eq_some.1 he
    rw [he] at h
    exact ⟨hp, by simpa using h⟩

/-- A walk without `create` that does not panic stays in RAM. -/
theorem tablesExist_of_walk {x : Option PtePtr × Pmap} (h : walkPath d false ρ m t = some x)
    (hl : (walkEntries m t ρ).length = ρ.length) : TablesExist m t ρ := by
  induction ρ generalizing t with
  | nil => trivial
  | cons i ρ ih =>
    obtain ⟨h1, h2⟩ := walkEntries_length hl i ρ rfl
    unfold walkPath at h
    rw [walkVia_present (by simp)] at h
    obtain ⟨s, hs, h⟩ := Option.bind_eq_some_iff.1 h
    obtain ⟨h3, rfl⟩ := kaddr_eq_some.1 hs
    rw [ppn_pteAddr] at h h3
    exact ⟨h1, h3, ih h h2⟩

theorem leafPtr_of_exist (h : TablesExist m r (path va)) : ∃ t, leafPtr m r va = some ⟨t, ptx va⟩ ∧
    pml4eWalk m r va false = some (some ⟨t, ptx va⟩, m) ∧ leafEntry m r va = presentAt m t (ptx va) ∧
    checkVa2pa m r va = if !flag (m.mem t (ptx va)) pteP then some (~~~0)
      else some (pteAddr (m.mem t (ptx va))) := by
  obtain ⟨h1, k1, h2, k2, h3, k3, -⟩ := h
  have hk : ∀ {e : PTE}, ppn e % 2 ^ 32 < m.npages → kaddr m (pteAddr e) = some (ppn e) := fun he =>
    kaddr_eq_some.2 ⟨by rwa [ppn_pteAddr], ppn_pteAddr _⟩
  refine ⟨ppn (m.mem (ppn (m.mem (ppn (m.mem r (pml4 va))) (pdpe va))) (pdx va)), ?_, ?_, ?_, ?_⟩
  · unfold leafPtr tableEntries
    simp only [walkEntries, presentAt_of_flag h1, presentAt_of_flag h2, presentAt_of_flag h3]
  · rw [pml4eWalk_eq]
    unfold path
    simp only [walkPath, walkVia_present, Bool.false_and, hk k1, hk k2, hk k3, Option.bind_some]
  · unfold leafEntry translate
    simp only [presentAt_of_flag h1, presentAt_of_flag h2, presentAt_of_flag h3, Option.bind_eq_bind,
      Option.bind_some]
    cases presentAt m (ppn (m.mem (ppn (m.mem (ppn (m.mem r (pml4 va))) (pdpe va))) (pdx va))) (ptx va) <;> rfl
  · unfold checkVa2pa checkVia
    simp only [h1, h2, h3, hk k1, hk k2, hk k3, Bool.not_true, Bool.false_eq_true, if_false,
      Option.bind_eq_bind, Option.bind_some]

/-- A walk that gives what the processor's walk gives has met three present entries. -/
theorem PureWalk.exist (h : PureWalk m r va) : TablesExist m r (path va) := by
  have h1 := h.1
  rw [pml4eWalk_eq] at h1
  apply tablesExist_of_walk h1
  obtain ⟨q, hq⟩ := walkPath_false h1
  have h2 : leafPtr m r va = some ⟨q, ptx va⟩ := congrArg Prod.fst hq
  unfold leafPtr at h2
  split at h2
  · rename_i heq
    exact congrArg List.length heq
  · cases h2

/-- **When a walk without `create` is a pure lookup**: if and only if the three tables of the
address exist, in RAM. -/
theorem pureWalk_iff (m : Pmap) (r : ℕ) (va : VA) : PureWalk m r va ↔ TablesExist m r (path va) := by
  constructor
  · intro h
    exact h.exist
  · intro h
    obtain ⟨t, h1, h2, h3, h4⟩ := leafPtr_of_exist h
    refine ⟨h2.trans (by rw [h1]), ?_⟩
    rw [h3, h4]
    unfold presentAt
    cases flag (m.mem t (ptx va)) pteP <;> rfl

/-- **This fails** for an empty PML4: the walk gives an entry in physical page 0. -/
theorem pureWalk_counterexample : ¬ ∀ m r va, PureWalk m r va := by
  intro h
  obtain ⟨h1, -⟩ := (h ⟨2, fun _ => ⟨none, 0⟩, none, fun _ _ => 0, 1⟩ 1 0).exist
  cases h1

/-! ## `page_lookup` -/

/-- `page_remove(pml4e, va)`, `n` times. -/
def removeTimes (r : ℕ) (va : VA) : ℕ → Pmap → Option Pmap
  | 0, m => some m
  | n + 1, m => (pageRemove m r va).bind (removeTimes r va n)

/-- `sys_page_unmap(envid, va)`, `n` times. -/
def unmapTimes (cur : EnvIdx) (envid : EnvId) (va : VA) : ℕ → Kernel → Option Kernel
  | 0, k => some k
  | n + 1, k => (sysPageUnmap k cur envid va).bind fun x => unmapTimes cur envid va n x.2

/-- **Right for `va`**: `page_lookup` gives the mapped page, or `NULL`, and leaves all tables,
counts and the free list alone; so do `page_remove` and `sys_page_unmap` if `va` is not mapped, any
number of times. -/
structure LookupRight (m : Pmap) (fl : List ℕ) (r : ℕ) (va : VA) : Prop where
  lookup : ∃ x m', pageLookup m r va = some (x, m') ∧ Restored m m' fl ∧
    x.map Prod.fst = (leafEntry m r va).map ppn
  remove : leafEntry m r va = none → ∀ n, ∃ m', removeTimes r va n m = some m' ∧ Restored m m' fl
  unmap : leafEntry m r va = none → ∀ (k : Kernel) cur envid e, k.pm = m →
    envid2env k cur envid true = some e → (k.envs e).envPml4e = some r →
      ∀ n, ∃ m', unmapTimes cur envid va n k = some (k.setPm m') ∧ Restored m m' fl

/-- **The condition**: `va` is mapped to a page of RAM, or the walk needs more tables than there
are free pages. -/
def LookupFits (m : Pmap) (fl : List ℕ) (r : ℕ) (va : VA) : Prop :=
  (∃ v, leafEntry m r va = some v ∧ ppn v < m.npages) ∨ fl.length < missingTables m r va

theorem Restored.trans {m₁ m₂ : Pmap} (h : Restored m m₁ fl) (h' : Restored m₁ m₂ fl) : Restored m m₂ fl where
  npages := h'.npages.trans h.npages
  pages := h'.pages.trans h.pages
  head := h'.head.trans h.head
  boot := h'.boot.trans h.boot
  mem := fun q hq => (h'.mem q hq).trans (h.mem q hq)

theorem TreeOk.pageLookup_short (h : TreeOk S r m fl) (hva : pml4 va ∈ S)
    (hm : fl.length < missingTables m r va) :
    ∃ m', pageLookup m r va = some (none, m') ∧ Restored m m' fl := by
  obtain ⟨m', h1, h2⟩ := h.pml4eWalk_short hva hm
  refine ⟨m', ?_, h2⟩
  unfold pageLookup
  rw [h1]
  rfl

theorem TreeOk.pageRemove_short (h : TreeOk S r m fl) (hva : pml4 va ∈ S)
    (hm : fl.length < missingTables m r va) : ∃ m', pageRemove m r va = some m' ∧ Restored m m' fl := by
  obtain ⟨m', h1, h2⟩ := h.pageLookup_short hva hm
  refine ⟨m', ?_, h2⟩
  unfold pageRemove
  rw [h1]
  rfl

theorem TreeOk.removeTimes_short (h : TreeOk S r m fl) (hva : pml4 va ∈ S)
    (hm : fl.length < missingTables m r va) (n : ℕ) :
    ∃ m', removeTimes r va n m = some m' ∧ Restored m m' fl := by
  induction n generalizing m with
  | zero => exact ⟨m, rfl, .refl⟩
  | succ n ih =>
    obtain ⟨m₁, h1, h2⟩ := h.pageRemove_short hva hm
    obtain ⟨m₂, h3, h4⟩ := ih (h.restored h2).1 (by rw [h.missing_restored h2 hva]; exact hm)
    refine ⟨m₂, ?_, h2.trans h4⟩
    unfold removeTimes
    rw [h1]
    exact h3

theorem TreeOk.unmapTimes_short (h : TreeOk S r m fl) (hva : pml4 va ∈ S)
    (hm : fl.length < missingTables m r va) (hk : k.pm = m) (he : envid2env k cur envid true = some e)
    (hr : (k.envs e).envPml4e = some r) (n : ℕ) :
    ∃ m', unmapTimes cur envid va n k = some (k.setPm m') ∧ Restored m m' fl := by
  induction n generalizing k m with
  | zero =>
    subst hk
    exact ⟨k.pm, rfl, .refl⟩
  | succ n ih =>
    subst hk
    unfold unmapTimes
    by_cases hbad : va ≥ utop ∨ va &&& 0xFFF ≠ 0
    · -- the address does not pass the checks of the call
      obtain ⟨m₂, h3, h4⟩ := ih h hm rfl he hr
      refine ⟨m₂, ?_, h4⟩
      have h1 : sysPageUnmap k cur envid va = some (-eInval, k) := by
        unfold sysPageUnmap
        rw [he]
        exact if_pos hbad
      rw [h1]
      exact h3
    · obtain ⟨m₁, h1, h2⟩ := h.pageRemove_short hva hm
      obtain ⟨m₂, h3, h4⟩ := ih (k := k.setPm m₁) (h.restored h2).1
        (by rw [h.missing_restored h2 hva]; exact hm) rfl he hr
      refine ⟨m₂, ?_, h2.trans h4⟩
      have h5 : sysPageUnmap k cur envid va = some (0, k.setPm m₁) := by
        unfold sysPageUnmap
        rw [he]
        change (if _ then _ else _) = _
        rw [if_neg hbad, hr]
        change (pageRemove k.pm r va).bind _ = _
        rw [h1]
        rfl
      rw [h5]
      exact h3

theorem TreeOk.pageLookup_mapped {v : PTE} (h : TreeOk S r m fl) (hva : pml4 va ∈ S)
    (hv : leafEntry m r va = some v) (hlt : ppn v < m.npages) :
    ∃ q, pageLookup m r va = some (some (ppn v, ⟨q, ptx va⟩), m) ∧ TableAt S r m (path va) q ∧
      m.mem q (ptx va) = v ∧ flag v pteP = true := by
  have h0 : missingTables m r va = 0 := by
    by_contra hne
    rw [leafEntry_missing hne] at hv
    cases hv
  obtain ⟨q, hq⟩ := (missingTables_eq_zero hva).1 h0
  rw [leafEntry_at hq] at hv
  obtain ⟨h1, h2⟩ := presentAt_eq_some.1 hv
  refine ⟨q, ?_, hq, h1, h2⟩
  have h3 : pa2page m (m.mem q (ptx va)) = some (ppn v) := by
    unfold pa2page
    rw [h1, if_neg (by omega)]
  unfold pageLookup
  rw [h.pml4eWalk_at hq]
  change (pa2page m (m.mem q (ptx va))).bind _ = _
  rw [h3]
  rfl

/-- A lookup that makes no table and finds a page of RAM: the address is mapped to it. -/
theorem LookupRight.fits (h : LookupRight m fl r va) (ho : TreeOk S r m fl) (hva : pml4 va ∈ S) :
    LookupFits m fl r va := by
  obtain ⟨x, m', h1, h2, h3⟩ := h.lookup
  by_cases hm : fl.length < missingTables m r va
  · exact Or.inr hm
  · obtain ⟨m₁, q, hw, hx, hq⟩ := ho.pml4eWalk hva (by omega)
    unfold pageLookup at h1
    rw [hw] at h1
    change (pa2page m₁ (m₁.mem q (ptx va))).bind _ = _ at h1
    obtain ⟨page, hp, h1⟩ := Option.bind_eq_some_iff.1 h1
    cases h1
    have h0 : leafEntry m r va = presentAt m' q (ptx va) := by
      rw [← leafEntry_at hq]
      unfold leafEntry
      rw [hx.translate va hva]
    cases hv : leafEntry m r va with
    | none =>
      rw [hv] at h3
      cases h3
    | some v =>
      rw [hv] at h0
      obtain ⟨h4, -⟩ := presentAt_eq_some.1 h0.symm
      unfold pa2page at hp
      rw [h4, h2.npages] at hp
      split at hp
      · cases hp
      · exact Or.inl ⟨v, hv, by omega⟩

/-- **When looking an address up is right**: if and only if it is mapped to a page of RAM, or the
walk of `page_lookup` does not get the tables that it wants to make. -/
theorem lookupRight_iff (h : TreeOk S r m fl) (hva : pml4 va ∈ S) :
    LookupRight m fl r va ↔ LookupFits m fl r va := by
  constructor
  · intro hr
    exact hr.fits h hva
  · rintro (⟨v, hv, hlt⟩ | hm)
    · obtain ⟨q, h1, -⟩ := h.pageLookup_mapped hva hv hlt
      have h0 : leafEntry m r va ≠ none := by
        rw [hv]
        exact Option.some_ne_none v
      exact ⟨⟨_, m, h1, .refl, by rw [hv]; rfl⟩, fun h2 => absurd h2 h0, fun h2 => absurd h2 h0⟩
    · obtain ⟨m', h1, h2⟩ := h.pageLookup_short hva hm
      have h0 : leafEntry m r va = none := leafEntry_missing (by omega)
      exact ⟨⟨none, m', h1, h2, by rw [h0]; rfl⟩, fun _ => h.removeTimes_short hva hm,
        fun _ k cur envid e hk he hr => h.unmapTimes_short hva hm hk he hr⟩

/-! ## An empty tree -/

/-- A PML4 without present entries. -/
theorem TreeOk.of_empty (h : FreeOK m fl) (hr : r ∉ fl) (hlt : r < m.npages) (h0 : ∀ i, m.mem r i = 0) :
    TreeOk S r m fl := by
  have hat : ∀ π t, TableAt S r m π t → π = [] ∧ t = r := by
    intro π t ht
    induction π using List.reverseRecOn generalizing t with
    | nil =>
      cases Forest.at_nil.1 ht
      exact ⟨rfl, rfl⟩
    | append_singleton π i ih =>
      obtain ⟨-, s, hs, hn⟩ := Forest.at_append.1 ht
      obtain ⟨-, rfl⟩ := ih _ hs
      obtain ⟨hp, -⟩ := next_eq_some.1 hn
      rw [h0] at hp
      exact absurd hp (by decide)
  refine ⟨h, ?_, ?_, ?_, ?_⟩
  · intro π π' t ht ht'
    rw [(hat π t ht).1, (hat π' t ht').1]
  · intro π t ht
    rw [(hat π t ht).2]
    exact hr
  · intro π t ht
    rw [(hat π t ht).2]
    exact hlt
  · intro π t i ht _ _
    rw [(hat π t ht).2]
    exact h0 i

/-- An empty PML4 in page 1, and the free pages 2, 3 and 4. -/
def emptyRoot : Pmap where
  npages := 8
  pages := fun n => ⟨if n = 2 then some 3 else if n = 3 then some 4 else none, 0⟩
  pageFreeList := some 2
  mem := fun _ _ => 0
  bootPml4e := 1

theorem emptyRoot_tree : TreeOk Set.univ 1 emptyRoot [2, 3, 4] := by
  refine TreeOk.of_empty ⟨by decide, .cons (.cons (.cons .nil)), by decide, by decide, ?_⟩ (by decide)
    (by decide) fun _ => rfl
  intro p hp
  simp only [List.mem_cons, List.not_mem_nil, or_false, not_or] at hp
  unfold emptyRoot
  simp only [hp.1, hp.2.1, if_false]

/-- With an empty free list, the lookup gives up. -/
theorem lookupRight_full : LookupRight { emptyRoot with pageFreeList := none, pages := fun _ => ⟨none, 0⟩ } [] 1 0 :=
  (lookupRight_iff (S := Set.univ)
    (TreeOk.of_empty ⟨by decide, .nil, by simp, by simp, fun _ _ => rfl⟩ List.not_mem_nil (by decide)
      fun _ => rfl)
    (Set.mem_univ _)).2 (Or.inr (by decide))

/-- **This fails** for address 0 of an empty PML4: `page_lookup` makes three tables, and gives
page 0. -/
theorem lookupRight_counterexample : ¬ ∀ S r m fl va, TreeOk S r m fl → pml4 va ∈ S →
    LookupRight m fl r va := by
  intro h
  rcases (h _ 1 _ _ 0 emptyRoot_tree (Set.mem_univ _)).fits emptyRoot_tree (Set.mem_univ _) with ⟨v, hv, -⟩ | hm
  · cases hv
  · revert hm
    decide

end Jos
