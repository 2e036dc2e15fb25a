import Jos.Lib.Loop
import Jos.Proof.Region
import Jos.Spec.BootMem

/-!
# The free list after boot

`page_init` marks pages as used from the end of base memory on: the 96 pages of the hole, and as many
as lie below the memory that `boot_alloc` handed out. The latter are counted from physical address 0,
so more pages are marked than are in use, and there may not be as many.

`page_init_safe`: `page_init` stays in the `pages` array exactly if there are, and then the free list
is as it should be.
-/

namespace Jos

open Lib

variable {m m' : Pmap} {fl l : List ℕ} {fin va top nextfree nextfree' : VA} {n basemem : BitVec 64}
  {k : BitVec 32} {ks : List (BitVec 32)} {rs : List (VA × BitVec 32)} {i a c : ℕ}

/-! ## `boot_alloc` -/

/-- Where the kernel is linked, and where its part of the address space ends. -/
def KernelEnd (fin : VA) : Prop := 0x8004200000#64 ≤ fin ∧ fin < uvpt

/-- An address rounded up to a page. -/
def pageUp (x : ℕ) : ℕ := (x + 4095) / 4096 * 4096

theorem roundUp_pageUp (h : va.toNat ≤ 2 ^ 64 - 4096) : (roundUp va pgsize).toNat = pageUp va.toNat := by
  rw [roundUp_toNat]
  unfold pageUp
  omega

theorem kernbase_toNat : kernbase.toNat = 0x8004000000 := rfl

/-- The end of memory. -/
def memEnd (n : BitVec 64) : ℕ := 0x8004000000 + (limitNpages n).toNat * 4096

theorem memEnd_eq : (limitNpages n * pgsize + kernbase).toNat = memEnd n := by
  have h1 := limitNpages_lt n
  have h2 : pgsize.toNat = 4096 := rfl
  unfold memEnd
  rw [BitVec.toNat_add, BitVec.toNat_mul, kernbase_toNat, h2]
  generalize (limitNpages n).toNat = x at *
  omega

theorem memEnd_lt : memEnd n < 2 ^ 41 := by
  have h1 := limitNpages_lt n
  unfold memEnd
  generalize (limitNpages n).toNat = x at *
  omega

theorem pageUp_memEnd {x : ℕ} (h : x ≤ memEnd n) : pageUp x ≤ memEnd n := by
  have h1 : memEnd n % 4096 = 0 := by
    unfold memEnd
    rw [Nat.add_mul_mod_self_right]
  unfold pageUp
  omega

theorem KernelEnd.toNat (h : KernelEnd fin) : 0x8004200000 ≤ fin.toNat ∧ fin.toNat < 0x10000000000 := by
  obtain ⟨h1, h2⟩ := h
  exact ⟨BitVec.le_def.1 h1, BitVec.lt_def.1 h2⟩

/-- **Where the next call starts**: at the end of the kernel, or where the last call ended. -/
def bootStart (fin nextfree : VA) : VA := if nextfree = 0 then roundUp fin pgsize else nextfree

/-- The values that `nextfree` has. -/
structure BootTop (fin : VA) (n : BitVec 64) (nextfree : VA) : Prop where
  aligned : (bootStart fin nextfree).toNat % 4096 = 0
  above : pageUp fin.toNat ≤ (bootStart fin nextfree).toNat
  below : nextfree ≠ 0 → nextfree.toNat ≤ memEnd n

theorem KernelEnd.start (h : KernelEnd fin) : (bootStart fin 0).toNat = pageUp fin.toNat := by
  obtain ⟨h1, h2⟩ := h.toNat
  unfold bootStart
  rw [if_pos rfl, roundUp_pageUp (by omega)]

theorem KernelEnd.boot (h : KernelEnd fin) : BootTop fin n 0 := by
  refine ⟨?_, ?_, fun h0 => absurd rfl h0⟩
  · rw [h.start]
    unfold pageUp
    omega
  · rw [h.start]

/-- The end of what is asked for does not wrap. -/
theorem BootTop.add_toNat (ht : BootTop fin n nextfree) (hfin : KernelEnd fin) (k : BitVec 32) :
    (bootStart fin nextfree).toNat < 2 ^ 42 ∧
      (bootStart fin nextfree + k.setWidth 64).toNat = (bootStart fin nextfree).toNat + k.toNat := by
  obtain ⟨h1, h2, h3⟩ := ht
  have hend : memEnd n < 2 ^ 41 := memEnd_lt
  have hk := k.isLt
  obtain ⟨hf1, hf2⟩ := hfin.toNat
  have hlt : (bootStart fin nextfree).toNat < 2 ^ 42 := by
    by_cases h0 : nextfree = 0
    · rw [h0, hfin.start]
      unfold pageUp
      omega
    · have h4 := h3 h0
      unfold bootStart
      rw [if_neg h0]
      omega
  refine ⟨hlt, ?_⟩
  rw [BitVec.toNat_add, BitVec.toNat_setWidth]
  omega

/-- **One call**: memory from where the last one ended, below the end of memory. -/
theorem BootTop.bootAlloc (ht : BootTop fin n nextfree) (hfin : KernelEnd fin)
    (h : Jos.bootAlloc fin (limitNpages n) nextfree k = some (va, nextfree')) :
    va = bootStart fin nextfree ∧ va.toNat + k.toNat ≤ memEnd n ∧ BootTop fin n nextfree' ∧
      (bootStart fin nextfree').toNat = pageUp (va.toNat + k.toNat) := by
  obtain ⟨hlt, hadd⟩ := ht.add_toNat hfin k
  obtain ⟨h1, h2, h3⟩ := ht
  have hk := k.isLt
  obtain ⟨hf1, hf2⟩ := hfin.toNat
  have hdef : Jos.bootAlloc fin (limitNpages n) nextfree k =
      if bootStart fin nextfree + k.setWidth 64 > limitNpages n * pgsize + kernbase then none
      else some (bootStart fin nextfree,
        if k ≠ 0 then roundUp (bootStart fin nextfree + k.setWidth 64) pgsize else bootStart fin nextfree) := rfl
  rw [hdef] at h
  split at h
  · cases h
  rename_i hle
  cases h
  have hle : (bootStart fin nextfree).toNat + k.toNat ≤ memEnd n := by
    rw [gt_iff_lt, BitVec.lt_def, memEnd_eq, hadd] at hle
    omega
  refine ⟨rfl, hle, ?_⟩
  have hnew : (if k ≠ 0 then roundUp (bootStart fin nextfree + k.setWidth 64) pgsize
      else bootStart fin nextfree).toNat = pageUp ((bootStart fin nextfree).toNat + k.toNat) := by
    by_cases hk0 : k = 0
    · rw [if_neg (not_not.2 hk0), hk0]
      have hz : (0 : BitVec 32).toNat = 0 := rfl
      unfold pageUp
      omega
    · rw [if_pos hk0, roundUp_pageUp (by omega), hadd]
  generalize (if k ≠ 0 then roundUp (bootStart fin nextfree + k.setWidth 64) pgsize
    else bootStart fin nextfree) = x at hnew ⊢
  have hfin0 : 4096 ≤ pageUp fin.toNat := by
    unfold pageUp
    omega
  have hx0 : x ≠ 0 := by
    rintro rfl
    have hz : (0 : VA).toNat = 0 := rfl
    unfold pageUp at hnew
    omega
  have hstart : bootStart fin x = x := if_neg hx0
  rw [hstart]
  refine ⟨⟨?_, ?_, fun _ => ?_⟩, hnew⟩
  · rw [hstart, hnew]
    unfold pageUp
    omega
  · rw [hstart, hnew]
    unfold pageUp at h2 ⊢
    omega
  · rw [hnew]
    exact pageUp_memEnd hle

/-- **Any sequence of calls** keeps the bounds. -/
theorem BootTop.bootAllocs (ht : BootTop fin n nextfree) (hfin : KernelEnd fin)
    (h : Jos.bootAllocs fin (limitNpages n) nextfree ks = some (rs, nextfree')) : BootTop fin n nextfree' := by
  induction ks generalizing nextfree rs with
  | nil =>
    cases h
    exact ht
  | cons k ks ih =>
    obtain ⟨⟨va, nf⟩, h1, h2⟩ := Option.bind_eq_some_iff.1 h
    obtain ⟨⟨rs', nf'⟩, h3, h4⟩ := Option.bind_eq_some_iff.1 h2
    cases h4
    exact ih (ht.bootAlloc hfin h1).2.2.1 h3

/-! ## The loops of `page_init` -/

theorem FreeOK.pageInitFree (h : FreeOK m fl) (hi : i ∉ fl) (hlt : i < m.npages) :
    ∃ m', Jos.pageInitFree m i = some m' ∧ FreeOK m' (i :: fl) ∧ m'.npages = m.npages := by
  refine ⟨Jos.freed (m.setRef i 0) i, if_pos hlt, (h.setRef hi 0).freed hi hlt ?_, rfl⟩
  rw [Pmap.setRef_ref, if_pos rfl]

/-- **Freeing a range** puts it in front of the list, the last page first. -/
theorem FreeOK.freeRange (h : FreeOK m fl) (hd : ∀ i ∈ List.range' a c, i ∉ fl) (hle : c = 0 ∨ a + c ≤ m.npages) :
    ∃ m', (List.range' a c).foldlM Jos.pageInitFree m = some m' ∧
      FreeOK m' ((List.range' a c).reverse ++ fl) ∧ m'.npages = m.npages := by
  have hnd : (List.range' a c).Nodup := List.nodup_range'
  refine loop_total (P := fun xs m' => FreeOK m' (xs.reverse ++ fl) ∧ m'.npages = m.npages)
    (fun xs i ys b he hb => ?_) ⟨h, rfl⟩
  have hi : i ∈ List.range' a c := by
    rw [he]
    simp
  have hlt : i < m.npages := by
    obtain ⟨h1, h2⟩ := List.mem_range'_1.1 hi
    omega
  have hx : i ∉ xs := by
    rw [he, List.nodup_append] at hnd
    exact fun hx => hnd.2.2 i hx i List.mem_cons_self rfl
  obtain ⟨b', h1, h2, h3⟩ := hb.1.pageInitFree (i := i) (by simp [hx, hd i hi]) (by rw [hb.2]; exact hlt)
  refine ⟨b', h1, ?_, h3.trans hb.2⟩
  rw [List.reverse_append]
  exact h2

/-- **Marking a range** as used does not touch the list. -/
theorem FreeOK.useRange (h : FreeOK m fl) (hd : ∀ i ∈ List.range' a c, i ∉ fl) (hle : a + c ≤ m.npages) :
    ∃ m', (List.range' a c).foldlM pageInitUse m = some m' ∧ FreeOK m' fl ∧ m'.npages = m.npages := by
  refine loop_total (P := fun _ m' => FreeOK m' fl ∧ m'.npages = m.npages) (fun xs i ys b he hb => ?_) ⟨h, rfl⟩
  have hi : i ∈ List.range' a c := by
    rw [he]
    simp
  obtain ⟨h1, h2⟩ := List.mem_range'_1.1 hi
  exact ⟨b.setRef i 1, if_pos (by rw [hb.2]; omega), hb.1.setRef (hd i hi) 1, hb.2⟩

/-- The loop leaves the array if the range does. -/
theorem useRange_lt (h : (List.range' a c).foldlM pageInitUse m = some m') : c = 0 ∨ a + c ≤ m.npages := by
  induction c generalizing a m with
  | zero => exact Or.inl rfl
  | succ c ih =>
    rw [List.range'_succ, List.foldlM_cons] at h
    obtain ⟨m₁, h1, h2⟩ := Option.bind_eq_some_iff.1 h
    unfold pageInitUse at h1
    split at h1
    · cases h1
      have h3 := ih h2
      rw [Pmap.setRef_npages] at h3
      omega
    · cases h1

/-! ## `page_init` -/

/-- **A safe free list**: it ends, no page is on it twice, all are in the array and not in use, and
neither page 0 nor the page of the entry code nor a page of the hole nor of the memory that
`boot_alloc` handed out is on it. -/
structure SafeList (m : Pmap) (fl : List ℕ) (top : VA) : Prop where
  free : FreeOK m fl
  zero : 0 ∉ fl
  mpentry : mpentryPaddr / 4096 ∉ fl
  hole : ∀ p ∈ fl, p * 4096 < iophysmem ∨ extphysmem ≤ p * 4096
  kernel : ∀ p ∈ fl, extphysmem ≤ p * 4096 → top.toNat ≤ kernbase.toNat + p * 4096

/-- The number of pages below the memory that `boot_alloc` handed out. -/
def numAlloc (top : VA) : ℕ := (top.toNat - kernbase.toNat) / 4096

theorem numAlloc_int (h1 : kernbase.toNat ≤ top.toNat) (h2 : top.toNat ≤ memEnd n) :
    ((((top - kernbase) / pgsize).setWidth 32 : BitVec 32).signExtend 64).toNat = numAlloc top := by
  have h3 := limitNpages_lt n
  have h4 : ((top - kernbase) / pgsize).toNat = numAlloc top := by
    rw [BitVec.toNat_udiv, BitVec.toNat_sub_of_le (BitVec.le_def.2 h1)]
    rfl
  have h5 : numAlloc top < 2 ^ 31 := by
    unfold numAlloc memEnd at *
    rw [kernbase_toNat] at *
    omega
  have h6 : (((top - kernbase) / pgsize).setWidth 32 : BitVec 32).toNat = numAlloc top := by
    rw [BitVec.toNat_setWidth, h4]
    omega
  have h7 : (((top - kernbase) / pgsize).setWidth 32 : BitVec 32).msb = false := by
    rw [BitVec.msb_eq_false_iff_two_mul_lt, h6]
    omega
  rw [BitVec.signExtend_eq_setWidth_of_msb_false h7, BitVec.toNat_setWidth, h6]
  omega

/-- The three loops, for the base memory and the end of the memory that was handed out. -/
theorem pageInit_eq {b : BitVec 64} (hb : b.toNat < 2 ^ 52) (h1 : kernbase.toNat ≤ top.toNat)
    (h2 : top.toNat ≤ memEnd n) : pageInit m b top =
      ((List.range' 1 6).foldlM pageInitFree m).bind fun m₁ =>
        ((List.range' b.toNat (96 + numAlloc top)).foldlM pageInitUse m₁).bind fun m₂ =>
          (List.range' (b.toNat + 96 + numAlloc top) (m₂.npages - (b.toNat + 96 + numAlloc top))).foldlM
            pageInitFree m₂ := by
  have hnum : numAlloc top < 2 ^ 30 := by
    have h3 : memEnd n < 2 ^ 41 := memEnd_lt
    unfold numAlloc
    omega
  have hend : (b + (96 : BitVec 32).signExtend 64 +
      (((top - kernbase) / pgsize).setWidth 32 : BitVec 32).signExtend 64).toNat = b.toNat + 96 + numAlloc top := by
    have h96 : ((96 : BitVec 32).signExtend 64).toNat = 96 := by decide
    rw [BitVec.toNat_add, BitVec.toNat_add, h96, numAlloc_int h1 h2]
    omega
  unfold pageInit
  dsimp only
  rw [hend, max_eq_right (by omega), show b.toNat + 96 + numAlloc top - b.toNat = 96 + numAlloc top by omega]
  rfl

theorem pageInitFree_npages (h : (List.range' a c).foldlM pageInitFree m = some m') : m'.npages = m.npages := by
  refine loop_inv (P := fun b => b.npages = m.npages) (fun i _ b b' hb hs => ?_) h rfl
  unfold pageInitFree at hs
  split at hs
  · cases hs
    exact hb
  · cases hs

/-- **In the array** there are as many pages as `page_init` counts. -/
theorem pageInit_fits {b : BitVec 64} (hb : b.toNat < 2 ^ 52) (h1 : kernbase.toNat ≤ top.toNat)
    (h2 : top.toNat ≤ memEnd n) (h : pageInit m b top = some m') : b.toNat + 96 + numAlloc top ≤ m.npages := by
  rw [pageInit_eq hb h1 h2] at h
  obtain ⟨m₁, h3, h4⟩ := Option.bind_eq_some_iff.1 h
  obtain ⟨m₂, h5, -⟩ := Option.bind_eq_some_iff.1 h4
  have h6 := useRange_lt h5
  rw [pageInitFree_npages h3] at h6
  omega

theorem div_pgsize_lt (x : BitVec 64) : (x / pgsize).toNat < 2 ^ 52 := by
  have h1 : pgsize.toNat = 4096 := rfl
  have h2 := x.isLt
  rw [BitVec.toNat_udiv, h1]
  omega

/-- **When `page_init` builds a safe list**: for any base memory from `MPENTRY_PADDR` on, any number
of pages and any calls of `boot_alloc`, exactly if the base memory, the hole and the memory handed
out, counted from physical address 0, are together not more than there is. -/
theorem page_init_safe (hfin : KernelEnd fin) (hnp : m.npages = (limitNpages n).toNat)
    (hboot : bootAllocs fin (limitNpages n) 0 ks = some (rs, nextfree))
    (htop : bootAlloc fin (limitNpages n) nextfree 0 = some (top, nextfree'))
    (hhead : m.pageFreeList = none) (hlink : ∀ p, (m.pages p).ppLink = none)
    (hbase : mpentryPaddr / 4096 ≤ (basemem / pgsize).toNat) :
    (∃ m' fl, pageInit m (basemem / pgsize) top = some m' ∧ SafeList m' fl top) ↔
      (basemem / pgsize).toNat + 96 + numAlloc top ≤ m.npages := by
  have ht := hfin.boot.bootAllocs hfin hboot
  obtain ⟨htop', hle, -⟩ := ht.bootAlloc hfin htop
  have habove := ht.above
  rw [← htop'] at habove
  obtain ⟨hf1, hf2⟩ := hfin.toNat
  have hge : 0x8004200000 ≤ top.toNat := by
    unfold pageUp at habove
    omega
  have hk : kernbase.toNat ≤ top.toNat := by
    rw [kernbase_toNat]
    omega
  have hb := div_pgsize_lt basemem
  generalize basemem / pgsize = b at hb hbase ⊢
  have hnum : 512 ≤ numAlloc top := by
    unfold numAlloc
    rw [kernbase_toNat]
    omega
  refine ⟨fun ⟨m', fl, hm, _⟩ => pageInit_fits hb hk hle hm, fun hfit => ?_⟩
  have h0 : FreeOK m [] := by
    refine ⟨?_, ?_, nofun, nofun, fun p _ => hlink p⟩
    · have hlt := limitNpages_lt n
      omega
    · rw [hhead]
      exact .nil
  have h7 : 7 ≤ b.toNat := hbase
  -- the first loop, with the pages below the entry code
  obtain ⟨m₁, h1, h2, hn₁⟩ := h0.freeRange (a := 1) (c := 6) (fun _ _ => List.not_mem_nil) (Or.inr (by omega))
  rw [List.append_nil] at h2
  have hlow : ∀ i, i ∈ (List.range' 1 6).reverse ↔ 1 ≤ i ∧ i < 7 := fun i => by
    rw [List.mem_reverse, List.mem_range'_1]
  obtain ⟨m₂, h3, h4, hn₂⟩ := h2.useRange (a := b.toNat) (c := 96 + numAlloc top) (fun i hi hl => by
    have h5 := List.mem_range'_1.1 hi
    have h6 := (hlow i).1 hl
    omega) (by omega)
  -- the last loop, with the pages above all that is in use
  obtain ⟨m₃, h5, h6, -⟩ := h4.freeRange (a := b.toNat + 96 + numAlloc top)
    (c := m₂.npages - (b.toNat + 96 + numAlloc top)) (fun i hi hl => by
      have h7 := List.mem_range'_1.1 hi
      have h8 := (hlow i).1 hl
      omega) (by omega)
  have hmem : ∀ p, p ∈ (List.range' (b.toNat + 96 + numAlloc top)
      (m₂.npages - (b.toNat + 96 + numAlloc top))).reverse ++ (List.range' 1 6).reverse →
        (1 ≤ p ∧ p < 7) ∨ b.toNat + 96 + numAlloc top ≤ p := by
    intro p hp
    rcases List.mem_append.1 hp with hp | hp
    · rw [List.mem_reverse, List.mem_range'_1] at hp
      exact Or.inr hp.1
    · exact Or.inl ((hlow p).1 hp)
  refine ⟨m₃, _, ?_, h6, fun hp => ?_, fun hp => ?_, fun p hp => ?_, fun p hp hext => ?_⟩
  · rw [pageInit_eq hb hk hle, h1, Option.bind_some, h3, Option.bind_some, h5]
  · have h8 := hmem 0 hp
    omega
  · have h8 := hmem _ hp
    unfold mpentryPaddr at h8
    omega
  · have h8 := hmem p hp
    unfold iophysmem extphysmem
    omega
  · have h8 := hmem p hp
    unfold extphysmem at hext
    unfold numAlloc at h8 hnum
    rw [kernbase_toNat] at *
    omega

/-! ## A small machine -/

/-- The state before `page_init`, with all of `pages` cleared. -/
def clearedPages (npages : ℕ) : Pmap where
  npages := npages
  pages := fun _ => ⟨none, 0⟩
  pageFreeList := none
  mem := fun _ _ => 0
  bootPml4e := 0

/-- The calls of `boot_alloc` for a page table, the `pages` array and the `envs` array, after a
kernel of 1 MB: what they return. -/
def smallRegions : List (VA × BitVec 32) :=
  [(0x8004300000, 0x1000), (0x8004301000, 0x8000), (0x8004309000, 0x4B000)]

theorem kernelEnd_small : KernelEnd 0x8004300000 := by
  unfold KernelEnd
  decide

/-- **This fails** with 640 KB of base memory and 1000 pages, of which 852 lie below the end of
the memory handed out: `page_init` marks page 1000. -/
theorem page_init_safe_counterexample : ¬ ∀ (m : Pmap) (fin n : BitVec 64) ks rs nextfree top nextfree'
    (basemem : BitVec 64), KernelEnd fin → m.npages = (limitNpages n).toNat →
    bootAllocs fin (limitNpages n) 0 ks = some (rs, nextfree) →
    bootAlloc fin (limitNpages n) nextfree 0 = some (top, nextfree') → m.pageFreeList = none →
    (∀ p, (m.pages p).ppLink = none) → mpentryPaddr / 4096 ≤ (basemem / pgsize).toNat →
    ∃ m' fl, pageInit m (basemem / pgsize) top = some m' ∧ SafeList m' fl top := by
  intro h
  obtain ⟨m', fl, hm, -⟩ := h (clearedPages 1000) 0x8004300000 1000 [0x1000, 0x8000, 0x4B000] smallRegions
    0x8004354000 0x8004354000 0x8004354000 0xA0000 kernelEnd_small (by decide +kernel) (by decide +kernel)
    (by decide +kernel) rfl (fun _ => rfl) (by decide +kernel)
  have h1 := pageInit_fits (n := 1000) (div_pgsize_lt 0xA0000) (by decide) (by decide +kernel) hm
  exact absurd h1 (by decide +kernel)

/-- The same kernel and base memory with 2048 pages. -/
theorem page_init_safe_8MB : ∃ m' fl, pageInit (clearedPages 2048) (0xA0000 / pgsize) 0x8004354000 = some m' ∧
    SafeList m' fl 0x8004354000 :=
  have hnp : (clearedPages 2048).npages = (limitNpages 2048).toNat := by decide +kernel
  have hboot : bootAllocs 0x8004300000 (limitNpages 2048) 0 [0x1000, 0x8000, 0x4B000] =
      some (smallRegions, 0x8004354000) := by decide +kernel
  have htop : bootAlloc 0x8004300000 (limitNpages 2048) 0x8004354000 0 = some (0x8004354000, 0x8004354000) := by
    decide +kernel
  (page_init_safe kernelEnd_small hnp hboot htop rfl (fun _ => rfl) (by decide +kernel)).2 (by decide +kernel)

end Jos
