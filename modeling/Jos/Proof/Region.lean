import Jos.Proof.Lookup

/-!
# Mapping a region at boot

`boot_map_region` counts with an `int`, and compares it with a `size_t`. The counter changes sign
after 2 GB, and then compares as larger than any size: the loop ends as if the region were done.

`regionMapped_iff`: the region is mapped as it should be exactly if what lies behind its first 2 GB
was so before.
-/

namespace Jos

open Lib

variable {S : Set Idx} {m m' : Pmap} {fl : List ℕ} {r j k c fuel : ℕ} {la pa size : BitVec 64}
variable {perm i : BitVec 32} {va va' : VA}

/-! ## One page -/

theorem flag_or_present (x : BitVec 64) : flag (x ||| pteP) pteP = true := by
  unfold flag pteP
  rw [bne_iff_ne]
  intro h
  have h1 := congrArg (·.getLsbD 0) h
  simp at h1

/-- **One turn of the loop** installs one leaf entry. -/
theorem TreeOk.bootMapPage (h : TreeOk S r m fl) (hva : pml4 (la + i.signExtend 64) ∈ S)
    (hret : Jos.bootMapPage m r la pa perm i = some m') : ∃ fl', TreeOk S r m' fl' ∧
      leafEntry m' r (la + i.signExtend 64) = some ((pa + i.signExtend 64) ||| perm.signExtend 64 ||| pteP) ∧
      ∀ va, pml4 va ∈ S → vpn va ≠ vpn (la + i.signExtend 64) → translate m' r va = translate m r va := by
  unfold Jos.bootMapPage at hret
  by_cases hm : missingTables m r (la + i.signExtend 64) ≤ fl.length
  · obtain ⟨m₁, q, hw, hx, hq⟩ := h.pml4eWalk hva hm
    rw [hw] at hret
    cases hret
    obtain ⟨h1, h2, h3⟩ := hx.ok.leafWrite (d := ptx (la + i.signExtend 64))
      (v := (pa + i.signExtend 64) ||| perm.signExtend 64 ||| pteP) hq
    refine ⟨_, h1, ?_, fun va hva' hne => ?_⟩
    · rw [leafEntry_at ((h2 _ _).2 hq)]
      exact presentAt_eq_some.2 ⟨Pmap.write_mem_self, flag_or_present _⟩
    · rw [← hx.translate va hva']
      refine h3 va hva' fun hi => hne ?_
      simp only [indices, path, List.cons_append, List.nil_append, List.cons.injEq, and_true] at hi
      simp only [vpn, hi]
  · -- the walk fails, and the kernel panics
    obtain ⟨m₁, hw, -⟩ := h.pml4eWalk_short hva (by omega)
    rw [hw] at hret
    cases hret

/-! ## The pages of a region -/

/-- Page `j` of the region at `la`. -/
def regionVa (la : VA) (j : ℕ) : VA := la + BitVec.ofNat 64 (j * 4096)

/-- The entry that it should have. -/
def regionPte (pa : BitVec 64) (perm : BitVec 32) (j : ℕ) : PTE :=
  (pa + BitVec.ofNat 64 (j * 4096)) ||| perm.signExtend 64 ||| pteP

theorem page_of_vpn (h : vpn va = vpn va') : va.toNat / 4096 % 2 ^ 36 = va'.toNat / 4096 % 2 ^ 36 := by
  simp only [vpn, Prod.mk.injEq, pml4, pdpe, pdx, ptx, Fin.ext_iff, field_val] at h
  omega

theorem regionVa_vpn (hj : j < 2 ^ 36) (hk : k < 2 ^ 36) (hne : j ≠ k) :
    vpn (regionVa la j) ≠ vpn (regionVa la k) := by
  intro h
  have h1 := page_of_vpn h
  unfold regionVa at h1
  rw [BitVec.toNat_add, BitVec.toNat_add, BitVec.toNat_ofNat, BitVec.toNat_ofNat] at h1
  omega

/-- The loop without its counter: `c` pages from page `k` on. -/
def bootMapPages (r : ℕ) (la pa : BitVec 64) (perm : BitVec 32) : ℕ → ℕ → Pmap → Option Pmap
  | 0, _, m => some m
  | c + 1, k, m => (bootMapPage m r la pa perm (BitVec.ofNat 32 (k * 4096))).bind
      (bootMapPages r la pa perm c (k + 1))

/-- Below 2 GB, the counter is the offset. -/
theorem signExtend_small (hk : k < 2 ^ 19) :
    (BitVec.ofNat 32 (k * 4096)).signExtend 64 = BitVec.ofNat 64 (k * 4096) := by
  have h1 : (BitVec.ofNat 32 (k * 4096)).msb = false := by
    rw [BitVec.msb_eq_false_iff_two_mul_lt, BitVec.toNat_ofNat]
    omega
  rw [BitVec.signExtend_eq_setWidth_of_msb_false h1]
  apply BitVec.eq_of_toNat_eq
  rw [BitVec.toNat_setWidth, BitVec.toNat_ofNat, BitVec.toNat_ofNat]
  omega

/-- At 2 GB, it is larger than any size. -/
theorem signExtend_wrapped : (BitVec.ofNat 32 (2 ^ 19 * 4096)).signExtend 64 = 0xFFFFFFFF80000000#64 := by
  decide

/-- The number of pages that the loop maps. -/
def loopPages (size : BitVec 64) : ℕ := min (size.toNat / 4096) (2 ^ 19)

/-- **The loop** maps the pages below 2 GB. -/
theorem bootMapLoop_eq (hal : size.toNat % 4096 = 0) (hs : size.toNat < 2 ^ 34)
    (hk : k + c = loopPages size) (hf : c < fuel) :
    bootMapLoop r la size pa perm fuel (BitVec.ofNat 32 (k * 4096)) m = bootMapPages r la pa perm c k m := by
  unfold loopPages at hk
  induction c generalizing k fuel m with
  | zero =>
    obtain ⟨fuel, rfl⟩ : ∃ f, fuel = f + 1 := ⟨fuel - 1, by omega⟩
    unfold bootMapLoop bootMapPages
    rw [if_neg]
    by_cases hw : k = 2 ^ 19
    · rw [hw, signExtend_wrapped]
      bv_omega
    · rw [signExtend_small (by omega), BitVec.lt_def, BitVec.toNat_ofNat]
      omega
  | succ c ih =>
    obtain ⟨fuel, rfl⟩ : ∃ f, fuel = f + 1 := ⟨fuel - 1, by omega⟩
    unfold bootMapLoop bootMapPages
    rw [if_pos]
    · have h1 : BitVec.ofNat 32 (k * 4096) + 4096 = BitVec.ofNat 32 ((k + 1) * 4096) := by
        apply BitVec.eq_of_toNat_eq
        rw [BitVec.toNat_add, BitVec.toNat_ofNat, BitVec.toNat_ofNat]
        change (_ + 4096) % _ = _
        omega
      rw [h1]
      refine congrArg _ (funext fun m₁ => ih (by omega) (by omega))
    · rw [signExtend_small (by omega), BitVec.lt_def, BitVec.toNat_ofNat]
      omega

/-- **The pages**: each is mapped, and no other. -/
theorem TreeOk.bootMapPages (h : TreeOk S r m fl) (hS : ∀ j, k ≤ j → j < k + c → pml4 (regionVa la j) ∈ S)
    (hk : k + c ≤ 2 ^ 19) (hret : Jos.bootMapPages r la pa perm c k m = some m') :
    (∀ j, k ≤ j → j < k + c → leafEntry m' r (regionVa la j) = some (regionPte pa perm j)) ∧
      ∀ va, pml4 va ∈ S → (∀ j, k ≤ j → j < k + c → vpn va ≠ vpn (regionVa la j)) →
        translate m' r va = translate m r va := by
  induction c generalizing k m fl with
  | zero =>
    cases hret
    exact ⟨fun j h1 h2 => by omega, fun _ _ _ => rfl⟩
  | succ c ih =>
    unfold Jos.bootMapPages at hret
    obtain ⟨m₁, h1, h2⟩ := Option.bind_eq_some_iff.1 hret
    have hi := signExtend_small (k := k) (by omega)
    obtain ⟨fl', h3, h4, h5⟩ := h.bootMapPage (by rw [hi]; exact hS k (by omega) (by omega)) h1
    rw [hi] at h4 h5
    obtain ⟨h6, h7⟩ := ih h3 (fun j hj hj' => hS j (by omega) (by omega)) (by omega) h2
    refine ⟨fun j hj hj' => ?_, fun va hva hne => ?_⟩
    · by_cases hjk : j = k
      · -- the first page keeps its entry while the others are mapped
        subst hjk
        unfold leafEntry
        rw [h7 _ (hS j (by omega) (by omega)) fun j' h8 h9 => regionVa_vpn (by omega) (by omega) (by omega)]
        exact h4
      · exact h6 j (by omega) (by omega)
    · rw [h7 va hva fun j hj hj' => hne j (by omega) (by omega)]
      exact h5 va hva (hne k (by omega) (by omega))

/-! ## The region -/

/-- **The region is mapped**: every page of it as it should be, and every other address as before. -/
structure RegionMapped (S : Set Idx) (m m' : Pmap) (r : ℕ) (la size pa : BitVec 64) (perm : BitVec 32) :
    Prop where
  mapped : ∀ j, j * 4096 < size.toNat → leafEntry m' r (regionVa la j) = some (regionPte pa perm j)
  outside : ∀ va, pml4 va ∈ S → (∀ j, j * 4096 < size.toNat → vpn va ≠ vpn (regionVa la j)) →
    translate m' r va = translate m r va

/-- **The condition**: what lies behind the first 2 GB of the region is mapped so already. -/
def TailMapped (m : Pmap) (r : ℕ) (la size pa : BitVec 64) (perm : BitVec 32) : Prop :=
  ∀ j, 2 ^ 31 ≤ j * 4096 → j * 4096 < size.toNat →
    leafEntry m r (regionVa la j) = some (regionPte pa perm j)

/-- `i386_detect_memory` admits less than 16 GB. -/
theorem limitNpages_lt (n : BitVec 64) : (limitNpages n).toNat * 4096 < 2 ^ 34 := by
  have h1 : maxNpages = 3276800 := by decide
  unfold limitNpages
  rw [h1]
  split
  · decide
  · bv_omega

/-- **`boot_map_region`** maps the pages below 2 GB, and keeps every other translation. -/
theorem TreeOk.bootMapRegion (h : TreeOk S r m fl) (hS : ∀ j, j * 4096 < size.toNat → pml4 (regionVa la j) ∈ S)
    (hal : size.toNat % 4096 = 0) (hs : size.toNat < 2 ^ 34)
    (hret : Jos.bootMapRegion m r la size pa perm = some m') :
    (∀ j, j * 4096 < size.toNat → j < 2 ^ 19 → leafEntry m' r (regionVa la j) = some (regionPte pa perm j)) ∧
      (∀ j, j * 4096 < size.toNat → 2 ^ 19 ≤ j → leafEntry m' r (regionVa la j) = leafEntry m r (regionVa la j)) ∧
      ∀ va, pml4 va ∈ S → (∀ j, j * 4096 < size.toNat → vpn va ≠ vpn (regionVa la j)) →
        translate m' r va = translate m r va := by
  have hn : loopPages size ≤ 2 ^ 19 := min_le_right _ _
  have hn' : ∀ j, j < loopPages size ↔ j * 4096 < size.toNat ∧ j < 2 ^ 19 := by
    intro j
    unfold loopPages
    omega
  have h1 : Jos.bootMapPages r la pa perm (loopPages size) 0 m = some m' := by
    rw [← hret]
    exact (bootMapLoop_eq hal hs (Nat.zero_add _) (by omega : loopPages size < 2 ^ 20)).symm
  obtain ⟨h2, h3⟩ := h.bootMapPages (k := 0) (c := loopPages size) (fun j _ hj => hS j ((hn' j).1 (by omega)).1)
    (by omega) h1
  refine ⟨fun j hj hj' => h2 j (by omega) (by rw [Nat.zero_add]; exact (hn' j).2 ⟨hj, hj'⟩),
    fun j hj hj' => ?_, fun va hva hne => h3 va hva fun j _ hj => hne j ((hn' j).1 (by omega)).1⟩
  unfold leafEntry
  rw [h3 _ (hS j hj) fun j' _ hj'' => regionVa_vpn (by omega) (by omega) (by omega)]

/-- **When a region is mapped**: if and only if its part behind the first 2 GB was. -/
theorem regionMapped_iff {n : BitVec 64} (h : TreeOk S r m fl)
    (hS : ∀ j, j * 4096 < size.toNat → pml4 (regionVa la j) ∈ S) (hal : size.toNat % 4096 = 0)
    (hsize : size.toNat ≤ (limitNpages n).toNat * 4096)
    (hret : bootMapRegion m r la size pa perm = some m') :
    RegionMapped S m m' r la size pa perm ↔ TailMapped m r la size pa perm := by
  have hlim := limitNpages_lt n
  obtain ⟨h1, h2, h3⟩ := h.bootMapRegion hS hal (by omega) hret
  constructor
  · rintro ⟨hm, -⟩ j hj hj'
    rw [← h2 j hj' (by omega)]
    exact hm j hj'
  · intro ht
    refine ⟨fun j hj => ?_, h3⟩
    by_cases hlt : j < 2 ^ 19
    · exact h1 j hj hlt
    · rw [h2 j hj (by omega)]
      exact ht j (by omega) hj

/-- One page at address 0 of an empty PML4. -/
theorem regionMapped_one : ∃ m', bootMapRegion emptyRoot 1 0 4096 0x5000 3 = some m' ∧
    RegionMapped Set.univ emptyRoot m' 1 0 4096 0x5000 3 := by
  obtain ⟨m', h⟩ := Option.isSome_iff_exists.1
    (show (bootMapRegion emptyRoot 1 0 4096 0x5000 3).isSome by decide)
  refine ⟨m', h, (regionMapped_iff (n := 1) emptyRoot_tree (fun _ _ => Set.mem_univ _) (by decide)
    (by decide) h).2 fun j h1 h2 => ?_⟩
  change j * 4096 < 4096 at h2
  omega

/-! ## A region of more than 2 GB -/

/-- A region whose tables exist is mapped without an allocation. -/
theorem TreeOk.bootMapPages_total (h : TreeOk S r m fl)
    (hq : ∀ j, k ≤ j → j < k + c → ∃ q, TableAt S r m (path (regionVa la j)) q) (hk : k + c ≤ 2 ^ 19) :
    ∃ m', Jos.bootMapPages r la pa perm c k m = some m' := by
  induction c generalizing k m with
  | zero => exact ⟨m, rfl⟩
  | succ c ih =>
    obtain ⟨q, h1⟩ := hq k (by omega) (by omega)
    obtain ⟨h2, h3, -⟩ := h.leafWrite (d := ptx (regionVa la k)) (v := regionPte pa perm k) h1
    obtain ⟨m', h4⟩ := ih (k := k + 1) h2 (fun j hj hj' => by
      obtain ⟨q', h5⟩ := hq j (by omega) (by omega)
      exact ⟨q', (h3 _ _).2 h5⟩) (by omega)
    have h5 : Jos.pml4eWalk m r (la + BitVec.ofNat 64 (k * 4096)) true = _ := h.pml4eWalk_at h1
    refine ⟨m', ?_⟩
    unfold Jos.bootMapPages Jos.bootMapPage
    rw [signExtend_small (by omega), h5]
    exact h4

/-- The tables for 4 GB from slot 1 of the PML4 on, all of them made, and nothing mapped. -/
def builtTables : Pmap where
  npages := 524289
  pages := fun _ => ⟨none, 0⟩
  pageFreeList := none
  mem := fun t i =>
    if t = 1 ∧ i.val = 1 then page2pa 2 ||| pteP ||| pteW ||| pteU
    else if t = 2 ∧ i.val < 4 then page2pa (3 + i.val) ||| pteP ||| pteW ||| pteU
    else if 3 ≤ t ∧ t < 7 then page2pa (16 + (t - 3) * 512 + i.val) ||| pteP ||| pteW ||| pteU
    else 0
  bootPml4e := 1

/-- The path to each table. -/
def builtPath (t : ℕ) : List ℕ :=
  if t = 1 then []
  else if t = 2 then [1]
  else if t < 7 then [1, t - 3]
  else [1, (t - 16) / 512, (t - 16) % 512]

theorem builtTables_next {t n : ℕ} {i : Idx} : next builtTables t i = some n ↔
    t = 1 ∧ i.val = 1 ∧ n = 2 ∨ t = 2 ∧ i.val < 4 ∧ n = 3 + i.val ∨
      3 ≤ t ∧ t < 7 ∧ n = 16 + (t - 3) * 512 + i.val := by
  have hi := i.isLt
  rw [next_eq_some]
  unfold builtTables
  dsimp only
  split
  · rename_i h
    rw [ppn_link (by omega)]
    simp only [flag_link, true_and]
    omega
  · split
    · rename_i h
      rw [ppn_link (by omega)]
      simp only [flag_link, true_and]
      omega
    · split
      · rename_i h
        rw [ppn_link (by omega)]
        simp only [flag_link, true_and]
        omega
      · rename_i h1 h2 h3
        have h4 : flag (0 : BitVec 64) pteP = false := by decide
        simp only [h4, Bool.false_eq_true, false_and, false_iff]
        omega

theorem builtTables_at {π : List Idx} {t : ℕ} (h : TableAt Set.univ 1 builtTables π t) :
    π.map Fin.val = builtPath t ∧ (t = 1 ∨ t = 2 ∨ 3 ≤ t ∧ t < 7 ∨ 16 ≤ t ∧ t < 16 + 2048) := by
  induction π using List.reverseRecOn generalizing t with
  | nil =>
    cases Forest.at_nil.1 h
    exact ⟨rfl, Or.inl rfl⟩
  | append_singleton π i ih =>
    have hi := i.isLt
    obtain ⟨-, s, hs, hn⟩ := Forest.at_append.1 h
    obtain ⟨h1, h2⟩ := ih hs
    rw [List.map_append, h1]
    unfold builtPath
    rcases builtTables_next.1 hn with ⟨rfl, h3, rfl⟩ | ⟨rfl, h3, rfl⟩ | ⟨h3, h4, rfl⟩
    · exact ⟨by rw [List.map_singleton, h3]; rfl, by omega⟩
    · rw [if_neg (by omega : ¬ 3 + i.val = 1), if_neg (by omega : ¬ 3 + i.val = 2), if_pos (by omega : 3 + i.val < 7),
        Nat.add_sub_cancel_left]
      exact ⟨rfl, by omega⟩
    · rw [if_neg (by omega : ¬ s = 1), if_neg (by omega : ¬ s = 2), if_pos h4,
        if_neg (by omega : ¬ 16 + (s - 3) * 512 + i.val = 1), if_neg (by omega : ¬ 16 + (s - 3) * 512 + i.val = 2),
        if_neg (by omega : ¬ 16 + (s - 3) * 512 + i.val < 7)]
      have h5 : (16 + (s - 3) * 512 + i.val - 16) / 512 = s - 3 := by omega
      have h6 : (16 + (s - 3) * 512 + i.val - 16) % 512 = i.val := by omega
      rw [h5, h6]
      exact ⟨rfl, by omega⟩

theorem builtTables_tree : TreeOk Set.univ 1 builtTables [] := by
  refine ⟨⟨by decide, .nil, by simp, by simp, fun _ _ => rfl⟩, ?_, fun _ _ _ => List.not_mem_nil, ?_, ?_⟩
  · intro π π' t ht ht'
    exact List.map_injective_iff.2 Fin.val_injective ((builtTables_at ht).1.trans (builtTables_at ht').1.symm)
  · intro π t ht
    have h1 := (builtTables_at ht).2
    change t < 524289
    omega
  · intro π t i _ _ hf
    by_contra hne
    have h1 : next builtTables t i = none := next_eq_none.2 hf
    revert hne hf
    unfold builtTables
    dsimp only
    split
    · intro hf
      rw [flag_link] at hf
      cases hf
    · split
      · intro hf
        rw [flag_link] at hf
        cases hf
      · split
        · intro hf
          rw [flag_link] at hf
          cases hf
        · exact fun _ hne => hne rfl

/-- The region of 2 GB and one page at `KERNBASE`. -/
theorem builtTables_path {j : ℕ} (hj : j < 2 ^ 19 + 1) :
    ∃ q, 16 ≤ q ∧ TableAt Set.univ 1 builtTables (path (regionVa kernbase j)) q := by
  have h1 : (regionVa kernbase j).toNat = 0x8004000000 + j * 4096 := by
    unfold regionVa kernbase
    rw [BitVec.toNat_add, BitVec.toNat_ofNat, BitVec.toNat_ofNat]
    omega
  have h2 : (pml4 (regionVa kernbase j)).val = 1 := by
    rw [pml4, field_val, h1]
    omega
  have h3 : (pdpe (regionVa kernbase j)).val < 4 := by
    rw [pdpe, field_val, h1]
    omega
  have hroot : TableAt Set.univ 1 builtTables [] 1 := tableAt_root
  have hd : ∀ {π : List Idx}, π.length ≤ 3 → InSlots Set.univ π := fun h => ⟨h, fun _ _ => Set.mem_univ _⟩
  have h4 := hroot.child (i := pml4 (regionVa kernbase j)) (hd (by simp))
    (builtTables_next.2 (Or.inl ⟨rfl, h2, rfl⟩))
  have h5 := h4.child (i := pdpe (regionVa kernbase j)) (hd (by simp))
    (builtTables_next.2 (Or.inr (Or.inl ⟨rfl, h3, rfl⟩)))
  have h6 := h5.child (i := pdx (regionVa kernbase j)) (hd (by simp))
    (builtTables_next.2 (Or.inr (Or.inr ⟨by omega, by omega, rfl⟩)))
  exact ⟨_, by omega, h6⟩

/-- **This fails** for 2 GB and one page at `KERNBASE`: the last page is not mapped. -/
theorem regionMapped_counterexample : ¬ ∀ S r m fl la size pa perm n m', TreeOk S r m fl →
    (∀ j, j * 4096 < size.toNat → pml4 (regionVa la j) ∈ S) → la.toNat % 4096 = 0 → pa.toNat % 4096 = 0 →
    size.toNat % 4096 = 0 → size.toNat ≤ (limitNpages n).toNat * 4096 →
    bootMapRegion m r la size pa perm = some m' → RegionMapped S m m' r la size pa perm := by
  intro h
  have hsize : (0x80001000 : BitVec 64).toNat = 2 ^ 31 + 4096 := rfl
  have hloop : loopPages 0x80001000 = 2 ^ 19 := rfl
  obtain ⟨m', h1⟩ : ∃ m', bootMapPages 1 kernbase 0 3 (2 ^ 19) 0 builtTables = some m' :=
    builtTables_tree.bootMapPages_total (fun j _ hj => by
      obtain ⟨q, -, hq⟩ := builtTables_path (j := j) (by omega)
      exact ⟨q, hq⟩) (by omega)
  have h0 : bootMapRegion builtTables 1 kernbase 0x80001000 0 3 = some m' := by
    rw [← h1]
    exact bootMapLoop_eq (k := 0) (by decide) (by decide) (by rw [hloop, Nat.zero_add]) (by decide)
  have h2 := h Set.univ 1 builtTables [] kernbase 0x80001000 0 3 524289 m' builtTables_tree
    (fun _ _ => Set.mem_univ _) (by decide) (by decide) (by decide) (by decide) h0
  obtain ⟨-, h3, -⟩ := builtTables_tree.bootMapRegion (fun _ _ => Set.mem_univ _) (by decide) (by decide) h0
  obtain ⟨q, hq16, hq⟩ := builtTables_path (j := 2 ^ 19) (by omega)
  have h4 := h2.mapped (2 ^ 19) (by rw [hsize]; omega)
  rw [h3 (2 ^ 19) (by rw [hsize]; omega) le_rfl, leafEntry_at hq] at h4
  obtain ⟨h5, h6⟩ := presentAt_eq_some.1 h4
  have h7 : ∃ n, next builtTables q (ptx (regionVa kernbase (2 ^ 19))) = some n :=
    ⟨_, next_eq_some.2 ⟨by rw [h5]; exact h6, rfl⟩⟩
  obtain ⟨n, hn⟩ := h7
  rcases builtTables_next.1 hn with ⟨h8, -⟩ | ⟨h8, -⟩ | ⟨-, h8, -⟩ <;> omega

end Jos
