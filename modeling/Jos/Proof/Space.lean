import Jos.Lib.Forest
import Jos.Proof.Pages
import Jos.Spec.Mmu

/-!
# The page-table trees and the address spaces they describe

Each live environment owns the tree of its PML4 below slot 0; the kernel owns the tree
below slot 1 of `boot_pml4e`, which every environment links to. `tables` is that forest
in the memory of `kern/pmap.c`, and `view` is what it describes: for every owner and
every page of its half of the address space, the leaf entry, if present.

`Wf` is the well-formedness of a state: the trees are disjoint, the free list is
disjoint from the trees and from the pages that user mappings refer to, absent entries
are 0, and every table is counted once.
-/

namespace Jos

open Lib

/-- The owner of a page-table tree. -/
inductive Owner
  | kern
  | env (e : EnvIdx)
  deriving DecidableEq, Fintype

/-- The PML4 slot that an owner's tree hangs from. -/
def slot : Owner → Idx
  | .kern => 1
  | .env _ => 0

/-- The table paths of an owner: at most three links, the first from its slot. -/
def inTree (o : Owner) (π : List Idx) : Prop := π.length ≤ 3 ∧ ∀ i ∈ π.head?, i = slot o

/-- The PML4 page of each owner. -/
abbrev Roots := Owner → Option ℕ

/-- The page that a present entry links to. -/
def next (m : Pmap) (t : ℕ) (i : Idx) : Option ℕ :=
  if flag (m.mem t i) pteP then some (ppn (m.mem t i)) else none

/-- The page-table trees in memory. -/
def tables (R : Roots) (m : Pmap) : Forest Owner ℕ Idx where
  root := R
  next := next m
  dom := inTree
  dom_nil := fun _ => ⟨by simp, by simp⟩
  dom_init := by
    rintro o π i ⟨h1, h2⟩
    refine ⟨by simp at h1; omega, fun j hj => h2 j ?_⟩
    cases π with
    | nil => cases hj
    | cons a π => exact hj

/-- The page of a virtual address, as its four table indices. -/
abbrev Vpn := Idx × Idx × Idx × Idx

def vpn (va : VA) : Vpn := (pml4 va, pdpe va, pdx va, ptx va)

/-- The leaf entry at the end of a path from `r`, if present at every level. -/
def leafFrom (m : Pmap) (r : Option ℕ) (v : Vpn) : Option PTE :=
  (descend (next m) r [v.1, v.2.1, v.2.2.1]).bind fun t => presentAt m t v.2.2.2

/-- **The leaf entries of the address spaces.** -/
def view (R : Roots) (m : Pmap) : Owner × Vpn → Option PTE := fun s =>
  if s.2.1 = slot s.1 then leafFrom m (R s.1) s.2 else none

/-- The owner of the tree that maps `va < UTOP` in environment `e`. -/
def ownerOf (e : EnvIdx) (va : VA) : Owner := if pml4 va = 0 then .env e else .kern

/-- The pages below `UTOP`: an environment's own half, and the first four page tables
of the kernel's. -/
def User : Owner × Vpn → Prop
  | (.env _, _) => True
  | (.kern, v) => v.2.1 = 0 ∧ v.2.2.1.val < 4

instance : DecidablePred User := fun s => by
  cases s with
  | mk o v => cases o <;> unfold User <;> infer_instance

variable {R R' : Roots} {m m' : Pmap} {fl fl' : List ℕ} {o o' : Owner} {π π' : List Idx}
variable {t p q : ℕ} {i j a b c d : Idx} {s : Owner × Vpn} {e : PTE}

theorem next_eq_some : next m t i = some p ↔ flag (m.mem t i) pteP = true ∧ ppn (m.mem t i) = p := by
  unfold next; split <;> simp_all

theorem next_eq_none : next m t i = none ↔ flag (m.mem t i) pteP = false := by
  unfold next; split <;> simp_all

theorem presentAt_eq_some :
    presentAt m t i = some e ↔ m.mem t i = e ∧ flag e pteP = true := by
  unfold presentAt
  split
  · simp only [Option.some.injEq]
    constructor
    · rintro rfl; exact ⟨rfl, ‹_›⟩
    · exact fun h => h.1
  · rename_i h
    simp only [reduceCtorEq, false_iff, not_and]
    rintro rfl; exact h

theorem inTree_one : inTree o [i] ↔ i = slot o := by simp [inTree]

theorem inTree_leaf : inTree o [a, b, c] ↔ a = slot o := by simp [inTree]

/-- A leaf entry is an entry of the last table on its path. -/
theorem view_eq_some : view R m (o, (a, b, c, d)) = some e ↔
    ∃ t, (tables R m).At o [a, b, c] t ∧ m.mem t d = e ∧ flag e pteP = true := by
  unfold view leafFrom Forest.At
  simp only [tables, inTree_leaf]
  by_cases ha : a = slot o
  · simp only [ha, if_true, true_and, Option.bind_eq_some_iff, presentAt_eq_some]
  · simp [ha]

/-- The view depends on the trees and on the entries of their last tables. -/
theorem view_congr (hA : ∀ o π n, (tables R' m').At o π n ↔ (tables R m).At o π n)
    (hm : ∀ o a b c t d, (tables R m).At o [a, b, c] t → m'.mem t d = m.mem t d) :
    view R' m' = view R m := by
  funext ⟨o, a, b, c, d⟩
  refine Option.ext fun e => ?_
  rw [view_eq_some, view_eq_some]
  constructor
  · rintro ⟨t, h1, h2, h3⟩
    have h1 := (hA _ _ _).1 h1
    exact ⟨t, h1, by rw [← hm o a b c t d h1]; exact h2, h3⟩
  · rintro ⟨t, h1, h2, h3⟩
    exact ⟨t, (hA _ _ _).2 h1, by rw [hm o a b c t d h1]; exact h2, h3⟩

/-- A change of memory off the tables leaves the trees and the view alone. -/
theorem at_congr (hm : ∀ t, (tables R m).Node t → m'.mem t = m.mem t) :
    (tables R m').At o π p ↔ (tables R m).At o π p :=
  Forest.frame (F := tables R m) (G := tables R m') rfl rfl fun o π i t h _ => by
    simp only [tables, next, hm t h.node]

theorem view_off (hm : ∀ t, (tables R m).Node t → m'.mem t = m.mem t) :
    view R m' = view R m :=
  view_congr (fun _ _ _ => at_congr hm) fun o a b c t d h => by rw [hm t h.node]

/-! ## Writing one entry -/

/-- **A store into a last-level table** changes no tree. -/
theorem at_leafWrite (hu : (tables R m).Unshared) (ht : (tables R m).At o [a, b, c] t) :
    (tables R (m.write t d e)).At o' π' p ↔ (tables R m).At o' π' p :=
  Forest.frame (F := tables R m) (G := tables R (m.write t d e)) rfl rfl fun o₁ π₁ i₁ t₁ h h' => by
    have hne : t₁ ≠ t := by
      rintro rfl
      obtain ⟨rfl, rfl⟩ := hu h ht
      exact absurd h'.1 (by simp)
    simp only [tables, next, Pmap.write_mem_of_ne (fun hc => hne hc.1)]

/-- **A store into a last-level table** changes one leaf entry. -/
theorem view_leafWrite (hu : (tables R m).Unshared) (ht : (tables R m).At o [a, b, c] t) :
    view R (m.write t d e) =
      Function.update (view R m) (o, (a, b, c, d)) (if flag e pteP then some e else none) := by
  funext ⟨o₁, a₁, b₁, c₁, d₁⟩
  refine Option.ext fun e₁ => ?_
  rw [view_eq_some]
  simp only [at_leafWrite hu ht]
  by_cases hs : ((o₁, (a₁, b₁, c₁, d₁)) : Owner × Vpn) = (o, (a, b, c, d))
  · cases hs
    rw [Function.update_self]
    constructor
    · rintro ⟨t', h1, h2, h3⟩
      rw [h1.det ht, Pmap.write_mem_self] at h2
      subst h2; rw [if_pos h3]
    · intro h
      split at h
      · cases h; exact ⟨t, ht, Pmap.write_mem_self, ‹_›⟩
      · cases h
  · rw [Function.update_of_ne hs, view_eq_some]
    refine exists_congr fun t' => and_congr_right fun h1 => ?_
    rw [Pmap.write_mem_of_ne]
    rintro ⟨rfl, rfl⟩
    obtain ⟨rfl, h2⟩ := hu h1 ht
    cases h2
    exact hs rfl

/-- **Linking an empty table** adds one node. -/
theorem at_link (hu : (tables R m).Unshared) (ht : (tables R m).At o π t)
    (hd : inTree o (π ++ [i])) (h0 : flag (m.mem t i) pteP = false)
    (hm : ∀ q, (tables R m).Node q → ∀ j, ¬ (q = t ∧ j = i) → m'.mem q j = m.mem q j)
    (hp : ∀ j, m'.mem p j = 0) (h1 : flag (m'.mem t i) pteP = true) (h2 : ppn (m'.mem t i) = p) :
    (tables R m').At o' π' q ↔ (tables R m).At o' π' q ∨ (o' = o ∧ π' = π ++ [i] ∧ q = p) :=
  Forest.link_iff (F := tables R m) (G := tables R m') hu rfl rfl ht hd (next_eq_none.2 h0)
    (next_eq_some.2 ⟨h1, h2⟩) (fun j => next_eq_none.2 (by rw [hp j]; exact flag_zero _))
    fun o₁ π₁ j s hs _ hne => by
      simp only [tables, next, hm s hs.node j hne]

/-- **Linking an empty table** changes no leaf entry. -/
theorem view_link (hu : (tables R m).Unshared) (ht : (tables R m).At o π t)
    (hd : inTree o (π ++ [i])) (h0 : flag (m.mem t i) pteP = false)
    (hm : ∀ q, (tables R m).Node q → ∀ j, ¬ (q = t ∧ j = i) → m'.mem q j = m.mem q j)
    (hp : ∀ j, m'.mem p j = 0) (h1 : flag (m'.mem t i) pteP = true) (h2 : ppn (m'.mem t i) = p) :
    view R m' = view R m := by
  have hlen : π.length ≤ 2 := by have := hd.1; simp at this; omega
  have hmem : ∀ {o' a b c t' d}, (tables R m).At o' [a, b, c] t' → m'.mem t' d = m.mem t' d := by
    intro o' a b c t' d h
    refine hm t' h.node d ?_
    rintro ⟨rfl, -⟩
    obtain ⟨-, rfl⟩ := hu h ht
    simp at hlen
  funext ⟨o₁, a₁, b₁, c₁, d₁⟩
  refine Option.ext fun e₁ => ?_
  rw [view_eq_some, view_eq_some]
  simp only [at_link hu ht hd h0 hm hp h1 h2]
  constructor
  · rintro ⟨t', h3 | ⟨-, -, rfl⟩, h4, h5⟩
    · exact ⟨t', h3, by rw [← hmem h3]; exact h4, h5⟩
    · -- the new table has no present entry
      rw [hp] at h4; subst h4; simp at h5
  · rintro ⟨t', h3, h4, h5⟩
    exact ⟨t', Or.inl h3, by rw [hmem h3]; exact h4, h5⟩

/-- **Unlinking a table** drops its tree. -/
theorem at_unlink (hu : (tables R m).Unshared) (ht : (tables R m).At o π t)
    (hm : ∀ q, (tables R m).Node q → ∀ j, ¬ (q = t ∧ j = i) → m'.mem q j = m.mem q j)
    (h0 : flag (m'.mem t i) pteP = false) :
    (tables R m').At o' π' q ↔ (tables R m).At o' π' q ∧ ¬ (o' = o ∧ π ++ [i] <+: π') :=
  Forest.unlink_iff (F := tables R m) (G := tables R m') hu rfl rfl ht (next_eq_none.2 h0)
    fun o₁ π₁ j s hs _ hne => by
      simp only [tables, next, hm s hs.node j hne]

/-! ## Well-formed states -/

/-- **Well-formed page tables.** -/
structure Wf (R : Roots) (m : Pmap) (fl : List ℕ) : Prop where
  free : FreeOK m fl
  free_node : ∀ p ∈ fl, ¬ (tables R m).Node p
  unshared : (tables R m).Unshared
  node_lt : ∀ p, (tables R m).Node p → p < m.npages
  node_ref : ∀ o π p, (tables R m).At o π p → (o, π) ≠ (.kern, []) → (m.pages p).ppRef = 1
  clean : ∀ p, (tables R m).Node p → ∀ i, flag (m.mem p i) pteP = false → m.mem p i = 0
  kern : R .kern = some m.bootPml4e
  spine : ∃ p, (tables R m).At .kern [1, 0] p
  top : ∀ e r, R (.env e) = some r → m.mem r 1 = m.mem m.bootPml4e 1 ∧
    m.mem r 2 = page2pa r ||| pteP ||| pteU ∧ ∀ i : Idx, 3 ≤ i.val → m.mem r i = 0
  leaf : ∀ s e, User s → view R m s = some e →
    ppn e < m.npages ∧ ppn e ∉ fl ∧ ¬ (tables R m).Node (ppn e)

theorem Wf.npages_le (h : Wf R m fl) : m.npages ≤ 2 ^ 32 := h.free.npages_le

/-- The root of an owner is a node. -/
theorem root_at {r : ℕ} (hr : R o = some r) : (tables R m).At o [] r := Forest.at_nil.2 hr

/-- The child of a node at a present entry is a node. -/
theorem child_at (h : (tables R m).At o π t) (hd : inTree o (π ++ [i]))
    (hp : flag (m.mem t i) pteP = true) : (tables R m).At o (π ++ [i]) (ppn (m.mem t i)) :=
  h.child hd (next_eq_some.2 ⟨hp, rfl⟩)

/-- The MMU's walk finds the leaf entry at the end of the address's path. -/
theorem leafEntry_eq {r : ℕ} {va : VA} : leafEntry m r va = leafFrom m (some r) (vpn va) := by
  unfold leafEntry translate leafFrom vpn
  simp only [descend, List.foldl_cons, List.foldl_nil, Option.bind_some, Option.bind_eq_bind,
    presentAt, next]
  by_cases h4 : flag (m.mem r (pml4 va)) pteP
  · by_cases h3 : flag (m.mem (ppn (m.mem r (pml4 va))) (pdpe va)) pteP
    · by_cases h2 : flag (m.mem (ppn (m.mem (ppn (m.mem r (pml4 va))) (pdpe va))) (pdx va)) pteP
      · simp only [h4, h3, h2, if_true, Option.bind_some]
        split <;> rfl
      · simp [h4, h3, h2]
    · simp [h4, h3]
  · simp [h4]

/-- The kernel's tree is below the entry that every PML4 shares. -/
theorem Wf.kern_link (h : Wf R m fl) : flag (m.mem m.bootPml4e 1) pteP = true ∧
    (tables R m).At .kern [1] (ppn (m.mem m.bootPml4e 1)) := by
  obtain ⟨p, hp⟩ := h.spine
  obtain ⟨-, t, ht, -⟩ := Forest.at_append (π := [1]).1 hp
  obtain ⟨hd, s, hs, hn⟩ := Forest.at_append (π := []).1 ht
  have hs' := Forest.at_nil.1 hs
  have hb : s = m.bootPml4e := Option.some.inj (hs'.symm.trans h.kern)
  subst hb
  obtain ⟨h1, h2⟩ := next_eq_some.1 hn
  exact ⟨h1, h2 ▸ ht⟩

/-- **The entries of a PML4**: that of its own tree, the kernel's, and the one that refers
to the PML4 itself. -/
theorem Wf.root_entry (h : Wf R m fl) {x : EnvIdx} {r : ℕ} (hr : R (.env x) = some r)
    (hi : presentAt m r i = some e) : i = 0 ∨ (i = 1 ∧ e = m.mem m.bootPml4e 1) ∨
      (i = 2 ∧ e = page2pa r ||| pteP ||| pteU ∧ ppn e = r) := by
  obtain ⟨h1, h2, h3⟩ := h.top x r hr
  obtain ⟨rfl, hp⟩ := presentAt_eq_some.1 hi
  by_cases hi0 : i = 0
  · exact Or.inl hi0
  by_cases hi1 : i = 1
  · subst hi1; exact Or.inr (Or.inl ⟨rfl, h1⟩)
  by_cases hi2 : i = 2
  · subst hi2
    have hlt := h.node_lt r (root_at hr).node
    have hnp := h.npages_le
    exact Or.inr (Or.inr ⟨rfl, h2, by rw [h2, BitVec.or_assoc, ppn_or (by omega) (by decide)]⟩)
  · have hi3 : 3 ≤ i.val := by
      have h4 : i.val ≠ 0 := fun hv => hi0 (Fin.ext hv)
      have h5 : i.val ≠ 1 := fun hv => hi1 (Fin.ext hv)
      have h6 : i.val ≠ 2 := fun hv => hi2 (Fin.ext hv)
      omega
    rw [h3 i hi3] at hp
    simp at hp

/-- **A change off the trees** that only takes pages from the free list keeps the state
well-formed. -/
theorem Wf.of_off (h : Wf R m fl) (hm : ∀ t, (tables R m).Node t → m'.mem t = m.mem t)
    (hf : FreeOK m' fl') (hs : ∀ p ∈ fl', p ∈ fl) (hn : m'.npages = m.npages)
    (hb : m'.bootPml4e = m.bootPml4e)
    (hr : ∀ p, (tables R m).Node p → (m'.pages p).ppRef = (m.pages p).ppRef) : Wf R m' fl' ∧
      (∀ o π n, (tables R m').At o π n ↔ (tables R m).At o π n) ∧ view R m' = view R m := by
  have hat : ∀ o π n, (tables R m').At o π n ↔ (tables R m).At o π n := fun _ _ _ => at_congr hm
  have hnode : ∀ n, (tables R m').Node n ↔ (tables R m).Node n :=
    fun n => exists_congr fun o => exists_congr fun π => hat o π n
  have hv : view R m' = view R m := view_off hm
  refine ⟨⟨hf, ?_, h.unshared.mono fun o π n => (hat o π n).1, ?_, ?_, ?_, hb ▸ h.kern, ?_, ?_, ?_⟩,
    hat, hv⟩
  · intro p hp; rw [hnode]; exact h.free_node p (hs p hp)
  · intro p hp; rw [hn]; exact h.node_lt p ((hnode p).1 hp)
  · intro o π p hp hne
    have hp := (hat o π p).1 hp
    rw [hr p hp.node]; exact h.node_ref o π p hp hne
  · intro p hp i hi
    have hp := (hnode p).1 hp
    rw [hm p hp] at hi ⊢; exact h.clean p hp i hi
  · obtain ⟨p, hp⟩ := h.spine
    exact ⟨p, (hat _ _ _).2 hp⟩
  · intro e r he
    rw [hm r (root_at he).node, hb, hm _ (root_at h.kern).node]
    exact h.top e r he
  · intro s e hu he
    obtain ⟨h1, h2, h3⟩ := h.leaf s e hu (hv ▸ he)
    rw [hn, hnode]
    exact ⟨h1, fun hp => h2 (hs _ hp), h3⟩

end Jos
