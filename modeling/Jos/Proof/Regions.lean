import Jos.Proof.BootMem
import Jos.Proof.Sections

/-!
# The memory that `boot_alloc` hands out

`read_section_headers` loads the debug sections behind the kernel, and `boot_alloc` starts at the end
of the kernel as well, not at `end_debug`. The regions that it returns are apart from one another and
in bounds (`BootTop.regions`). Calls of one page each reach every address up to the end of memory
(`BootTop.reach`).

`boot_regions`: no sequence of calls returns memory of a debug section exactly if there is none of it
between the page in which the kernel ends and the end of memory.
-/

namespace Jos

open Lib Debug

variable {fin va nextfree nextfree' : VA} {n : BitVec 64} {k : BitVec 32} {ks : List (BitVec 32)}
  {rs : List (VA × BitVec 32)} {drives : Drives} {elf : Elf} {mem : Bytes} {σ : Load} {i x : ℕ}

/-- An address in the region that a call returns. -/
def InRegion (r : VA × BitVec 32) (x : ℕ) : Prop := r.1.toNat ≤ x ∧ x < r.1.toNat + r.2.toNat

/-- What `boot_alloc` returns is as it should be. -/
structure Regions (fin : VA) (n : BitVec 64) (rs : List (VA × BitVec 32)) : Prop where
  aligned : ∀ r ∈ rs, r.1.toNat % 4096 = 0
  apart : rs.Pairwise fun r r' => ∀ x, InRegion r x → ¬ InRegion r' x
  above : ∀ r ∈ rs, fin.toNat ≤ r.1.toNat
  below : ∀ r ∈ rs, r.1.toNat + r.2.toNat ≤ memEnd n

theorem pageUp_le : x ≤ pageUp x := by
  unfold pageUp
  omega

/-- **Any sequence of calls** returns regions behind one another. -/
theorem BootTop.regions (ht : BootTop fin n nextfree) (hfin : KernelEnd fin)
    (h : Jos.bootAllocs fin (limitNpages n) nextfree ks = some (rs, nextfree')) :
    Regions fin n rs ∧ ∀ r ∈ rs, (bootStart fin nextfree).toNat ≤ r.1.toNat := by
  induction ks generalizing nextfree rs with
  | nil =>
    cases h
    exact ⟨⟨nofun, List.Pairwise.nil, nofun, nofun⟩, nofun⟩
  | cons k ks ih =>
    obtain ⟨⟨va, nf⟩, h1, h2⟩ := Option.bind_eq_some_iff.1 h
    obtain ⟨⟨rs', nf'⟩, h3, h4⟩ := Option.bind_eq_some_iff.1 h2
    cases h4
    obtain ⟨hva, hle, ht', hs⟩ := ht.bootAlloc hfin h1
    obtain ⟨⟨ha, hp, hb, hm⟩, hlow⟩ := ih ht' h3
    have hup := pageUp_le (x := va.toNat + k.toNat)
    have habove := ht.above
    have hfu := pageUp_le (x := fin.toNat)
    refine ⟨⟨?_, ?_, ?_, ?_⟩, ?_⟩
    · refine List.forall_mem_cons.2 ⟨?_, ha⟩
      rw [hva]
      exact ht.aligned
    · refine List.pairwise_cons.2 ⟨fun r hr x hx hx' => ?_, hp⟩
      -- the later region starts where this one ends, or later
      have h5 := hlow r hr
      obtain ⟨-, h6⟩ := hx
      obtain ⟨h7, -⟩ := hx'
      dsimp only at h6
      omega
    · refine List.forall_mem_cons.2 ⟨?_, hb⟩
      dsimp only
      rw [hva]
      omega
    · exact List.forall_mem_cons.2 ⟨hle, hm⟩
    · refine List.forall_mem_cons.2 ⟨?_, fun r hr => ?_⟩
      · rw [hva]
      · have h5 := hlow r hr
        rw [hva] at hs hup
        omega

/-- **A call that fits** succeeds. -/
theorem BootTop.fits (ht : BootTop fin n nextfree) (hfin : KernelEnd fin)
    (hk : (bootStart fin nextfree).toNat + k.toNat ≤ memEnd n) :
    ∃ nextfree', Jos.bootAlloc fin (limitNpages n) nextfree k = some (bootStart fin nextfree, nextfree') := by
  obtain ⟨-, hadd⟩ := ht.add_toNat hfin k
  refine ⟨if k ≠ 0 then roundUp (bootStart fin nextfree + k.setWidth 64) pgsize else bootStart fin nextfree, ?_⟩
  refine if_neg ?_
  change ¬ bootStart fin nextfree + k.setWidth 64 > _
  rw [gt_iff_lt, BitVec.lt_def, memEnd_eq, hadd]
  omega

theorem memEnd_mod : memEnd n % 4096 = 0 := by
  unfold memEnd
  rw [Nat.add_mul_mod_self_right]

/-- **Calls of a page each** reach every address below the end of memory. -/
theorem BootTop.reach (ht : BootTop fin n nextfree) (hfin : KernelEnd fin)
    (hx : (bootStart fin nextfree).toNat ≤ x) (hx' : x < memEnd n) :
    ∃ ks rs nextfree', Jos.bootAllocs fin (limitNpages n) nextfree ks = some (rs, nextfree') ∧ ∃ r ∈ rs, InRegion r x := by
  -- by the number of pages up to the address
  generalize hd : (x - (bootStart fin nextfree).toNat) / 4096 = d
  induction d generalizing nextfree with
  | zero =>
    have ha := ht.aligned
    have hm := memEnd_mod (n := n)
    have h4 : (4096 : BitVec 32).toNat = 4096 := rfl
    obtain ⟨nf, h1⟩ := ht.fits (k := 4096) hfin (by omega)
    refine ⟨[4096], [(bootStart fin nextfree, 4096)], nf, ?_, _, List.mem_singleton_self _, hx, ?_⟩
    · rw [Jos.bootAllocs, h1]
      rfl
    · dsimp only
      omega
  | succ d ih =>
    have ha := ht.aligned
    have h4 : (4096 : BitVec 32).toNat = 4096 := rfl
    obtain ⟨nf, h1⟩ := ht.fits (k := 4096) hfin (by omega)
    obtain ⟨-, -, ht', hs⟩ := ht.bootAlloc hfin h1
    have hs' : (bootStart fin nf).toNat = (bootStart fin nextfree).toNat + 4096 := by
      rw [hs, h4]
      unfold pageUp
      omega
    obtain ⟨ks, rs, nf', h2, r, hr, hin⟩ := ih ht' (by omega) (by omega)
    refine ⟨4096 :: ks, (bootStart fin nextfree, 4096) :: rs, nf', ?_, r, List.mem_cons_of_mem _ hr, hin⟩
    rw [Jos.bootAllocs, h1, Option.bind_eq_bind, Option.bind_some]
    dsimp only
    rw [h2]
    rfl

/-- What `boot_alloc` returns misses the debug sections. -/
def Clear (rs : List (VA × BitVec 32)) (σ : Load) : Prop :=
  ∀ r ∈ rs, ∀ t ≠ DebugSect.frame, ∀ x, (σ.info t).Has x → ¬ InRegion r x

/-- **No region is in a debug section**, in any sequence of calls after `read_section_headers`,
exactly if no debug section has an address between the page in which the kernel ends and the end of
memory. -/
theorem boot_regions (hfin : KernelEnd fin) (hw : Debug.WellFormed drives elf)
    (hσ : readSectionHeaders drives elf mem fin.toNat = some σ) :
    (∀ ks rs nextfree, bootAllocs fin (limitNpages n) 0 ks = some (rs, nextfree) → Regions fin n rs ∧ Clear rs σ) ↔
      ∀ t ≠ DebugSect.frame, ∀ i, elf.IsLast (image drives) elf.eShnum t i →
        ∀ x, (elf.buffer (image drives) fin.toNat i).Has x → x < pageUp fin.toNat ∨ memEnd n ≤ x := by
  obtain ⟨hf1, hf2⟩ := hfin.toNat
  obtain ⟨hs, hn⟩ := readSectionHeaders_tables hw (by omega) hσ
  obtain ⟨σ', hσ', hl, hb⟩ := readSectionHeaders_loaded mem hw (by omega : fin.toNat < 2 ^ 59) hs hn
  rw [hσ] at hσ'
  cases hσ'
  refine ⟨fun h t ht i hi x hx => ?_, fun h ks rs nf hks => ?_⟩
  · rw [← hb t ht i hi] at hx
    by_contra hne
    simp only [not_or, not_lt, not_le] at hne
    obtain ⟨ks, rs, nf, h1, r, hr, hin⟩ := (hfin.boot (n := n)).reach hfin (by rw [hfin.start]; exact hne.1) hne.2
    exact (h ks rs nf h1).2 r hr t ht x hx hin
  · obtain ⟨hr, hlow⟩ := hfin.boot.regions hfin hks
    refine ⟨hr, fun r hrs t ht x hx hx' => ?_⟩
    obtain ⟨i, hi, hbuf⟩ : ∃ i, elf.IsLast (image drives) elf.eShnum t i ∧
        σ.info t = elf.buffer (image drives) fin.toNat i := by
      by_cases hex : ∃ i < elf.eShnum, elf.sect (image drives) i = some t
      · obtain ⟨i, hi⟩ := Elf.exists_isLast hex
        exact ⟨i, hi, hb t ht i hi⟩
      · obtain ⟨h1, h2⟩ := hx
        have h3 := hl.absent t ht fun i hi he => hex ⟨i, hi, he⟩
        omega
    have h1 := hlow r hrs
    have h2 := hr.below r hrs
    obtain ⟨h3, h4⟩ := hx'
    rw [hfin.start] at h1
    rw [hbuf] at hx
    have h5 := h t ht i hi x hx
    omega

/-! ## A small image -/

theorem kernelEnd_3MB : KernelEnd 0x8004300000 := by
  unfold KernelEnd
  decide +kernel

/-- Of the section headers of the image, header 1 is for a debug section. -/
theorem smallDisk_sect (hi : i < 2) : Elf.sect ⟨0, 64, 2, 0⟩ (image smallDisk) i = if i = 1 then some .str else none := by
  have h : ∀ i < 2, Elf.sect ⟨0, 64, 2, 0⟩ (image smallDisk) i = if i = 1 then some DebugSect.str else none := by
    decide +kernel
  exact h i hi

/-- The section `.debug_str` of the image lies in the page behind the kernel. -/
theorem smallDisk_buffer : (Elf.buffer ⟨0, 64, 2, 0⟩ (image smallDisk) 0x8004300000 1).Has 0x800430054C := by
  unfold DwarfSection.Has
  decide +kernel

/-- A kernel that ends at the start of a page: the debug section is in this page. -/
theorem boot_regions_small : ∃ σ,
    readSectionHeaders smallDisk ⟨0, 64, 2, 0⟩ ⟨fun _ => 0⟩ (0x8004300001 : VA).toNat = some σ ∧
      ∀ ks rs nextfree, bootAllocs 0x8004300001 (limitNpages 2048) 0 ks = some (rs, nextfree) →
        Regions 0x8004300001 2048 rs ∧ Clear rs σ := by
  have hw := wellFormed_small (n := 2) (by decide)
  obtain ⟨σ, hσ, -⟩ := readSectionHeaders_loaded ⟨fun _ => 0⟩ hw
    (by decide : (0x8004300001 : VA).toNat < 2 ^ 59) (by decide) (by decide)
  refine ⟨σ, hσ, (boot_regions (by unfold KernelEnd; decide +kernel) hw hσ).2 fun t ht i hi x hx => Or.inl ?_⟩
  have hi1 : i = 1 := by
    by_contra hne
    have h1 := hi.2.1
    rw [smallDisk_sect hi.1, if_neg hne] at h1
    exact absurd h1 nofun
  have hend : (Elf.buffer ⟨0, 64, 2, 0⟩ (image smallDisk) (0x8004300001 : VA).toNat 1).dsData +
      (Elf.buffer ⟨0, 64, 2, 0⟩ (image smallDisk) (0x8004300001 : VA).toNat 1).dsSize ≤
        pageUp (0x8004300001 : VA).toNat := by
    decide +kernel
  obtain ⟨-, h2⟩ := hx
  rw [hi1] at h2
  exact lt_of_lt_of_le h2 hend

/-- A kernel that ends at the end of a page: the first page that is handed out has the debug section. -/
theorem boot_regions_counterexample : ¬ ∀ (fin : VA) (n : BitVec 64) (drives : Drives) (elf : Elf) (mem : Bytes)
    (σ : Load), KernelEnd fin → Debug.WellFormed drives elf → readSectionHeaders drives elf mem fin.toNat = some σ →
      ∀ ks rs nextfree, bootAllocs fin (limitNpages n) 0 ks = some (rs, nextfree) → Regions fin n rs ∧ Clear rs σ := by
  intro h
  obtain ⟨σ, hσ, -, hb⟩ := readSectionHeaders_loaded ⟨fun _ => 0⟩ (wellFormed_small (n := 2) (by decide))
    (by decide : (0x8004300000 : VA).toNat < 2 ^ 59) (by decide) (by decide)
  obtain ⟨-, hc⟩ := h 0x8004300000 1000 _ _ _ σ kernelEnd_3MB (wellFormed_small (by decide)) hσ [0x1000]
    [(0x8004300000, 0x1000)] 0x8004301000 (by decide +kernel)
  refine hc _ (List.mem_singleton_self _) .str (by decide) 0x800430054C ?_ (by unfold InRegion; decide +kernel)
  rw [hb .str (by decide) 1 ⟨by decide, by rw [smallDisk_sect (by decide)]; rfl, fun j h1 h2 => by
    have h3 : j < 2 := h2
    omega⟩]
  exact smallDisk_buffer

end Jos
