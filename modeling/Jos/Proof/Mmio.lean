import Jos.Proof.BootMem
import Jos.Spec.Mmio

/-!
# Reservations in the MMIO region

`mmio_map_region` maps the pages that hold `[pa, pa + size)`, and returns the address of the first of
them, without the offset of `pa` in it. Its test against `MMIOLIM` is on a sum that wraps.

`mmio_faithful`: the calls of a sequence reserve what they should exactly if every `pa` is the start of
a page, and no size is larger than the region. For the write permission all links above have to be
writeable, and they stay so (`LinksW`).
-/

namespace Jos

open Lib

variable {S : Set Idx} {m m' m₁ : Pmap} {fl : List ℕ} {r j k c q t : ℕ} {π : List Idx} {la pa size base base' : BitVec 64}
  {perm i : BitVec 32} {va result : VA} {reqs : List (BitVec 64 × BitVec 64)} {cs : List MmioCall} {x : Translation}

/-! ## Links that allow writing -/

/-- All links to tables allow writing. -/
def LinksW (S : Set Idx) (r : ℕ) (m : Pmap) : Prop :=
  ∀ π t i, TableAt S r m π t → InSlots S (π ++ [i]) → flag (m.mem t i) pteP = true → flag (m.mem t i) pteW = true

/-- A table that a walk did not make was there before. -/
theorem Extended.old {fl' new : List ℕ} {w : List (ℕ × Idx)} (hx : Extended S r m fl m' fl' new w)
    (h : TableAt S r m' π t) (ht : t ∉ new) : TableAt S r m π t := by
  induction π using List.reverseRecOn generalizing t with
  | nil =>
    cases Forest.at_nil.1 h
    exact tableAt_root
  | append_singleton π i ih =>
    obtain ⟨hd, s, hs, hn⟩ := Forest.at_append.1 h
    obtain ⟨h1, h2⟩ := next_eq_some.1 hn
    -- the link is an old one, as its target is
    rcases hx.made s i with ⟨h3, h4⟩ | h3 | ⟨h3, -⟩
    · rw [h4] at h1 h2
      rw [← h2]
      exact tableAt_child (ih hs h3) hd h1
    · rw [h3] at h1
      exact absurd h1 (by decide)
    · rw [h2] at h3
      exact absurd h3 ht

theorem LinksW.extended {fl' new : List ℕ} {w : List (ℕ × Idx)} (h : LinksW S r m)
    (hx : Extended S r m fl m' fl' new w) : LinksW S r m' := by
  intro π t i ht hd hp
  rcases hx.made t i with ⟨h1, h2⟩ | h1 | ⟨-, h1, -⟩
  · rw [h2] at hp ⊢
    exact h π t i (hx.old ht h1) hd hp
  · rw [h1] at hp
    exact absurd hp (by decide)
  · exact h1

theorem LinksW.leafWrite {a b d e : Idx} {v : PTE} (h : LinksW S r m) (ho : TreeOk S r m fl)
    (hq : TableAt S r m [a, b, d] q) : LinksW S r (m.write q e v) := by
  intro π t i ht' hd hp
  have ht : TableAt S r m π t := ((ho.leafWrite (d := e) (v := v) hq).2.1 π t).1 ht'
  clear ht'
  have hne : t ≠ q := by
    rintro rfl
    obtain rfl := ho.unshared _ _ _ ht hq
    exact absurd hd.1 (by simp)
  rw [Pmap.write_mem_of_ne fun hc => hne hc.1] at hp ⊢
  exact h π t i ht hd hp

/-- With such links, the leaf entry decides. -/
theorem LinksW.writeable (h : LinksW S r m) (hva : pml4 va ∈ S) (hx : translate m r va = some x) :
    x.writeable = flag x.pte pteW := by
  unfold translate at hx
  simp only [Option.bind_eq_bind, Option.bind_eq_some_iff] at hx
  obtain ⟨e4, h4, e3, h3, e2, h2, e1, h1, hx⟩ := hx
  cases hx
  obtain ⟨rfl, p4⟩ := presentAt_eq_some.1 h4
  obtain ⟨rfl, p3⟩ := presentAt_eq_some.1 h3
  obtain ⟨rfl, p2⟩ := presentAt_eq_some.1 h2
  have hd := inSlots_path hva
  have hd1 : InSlots S ([] ++ [pml4 va]) := inSlots_snoc (ρ := [pdpe va, pdx va]) hd
  have hd2 : InSlots S ([pml4 va] ++ [pdpe va]) := inSlots_snoc (ρ := [pdx va]) hd
  have t1 := tableAt_child (tableAt_root (S := S)) hd1 p4
  have t2 := tableAt_child t1 hd2 p3
  have w4 := h _ _ _ tableAt_root hd1 p4
  have w3 := h _ _ _ t1 hd2 p3
  have w2 := h _ _ _ t2 hd p2
  dsimp only
  rw [w4, w3, w2]
  rfl

/-! ## The region stays a tree -/

theorem TreeOk.bootMapPage_tree (h : TreeOk S r m fl) (hw : LinksW S r m) (hva : pml4 (la + i.signExtend 64) ∈ S)
    (hret : Jos.bootMapPage m r la pa perm i = some m') :
    (∃ fl', TreeOk S r m' fl') ∧ LinksW S r m' ∧ m'.bootPml4e = m.bootPml4e := by
  unfold Jos.bootMapPage at hret
  by_cases hm : missingTables m r (la + i.signExtend 64) ≤ fl.length
  · obtain ⟨m₁, q, hq, hx, hat⟩ := h.pml4eWalk hva hm
    rw [hq] at hret
    cases hret
    exact ⟨⟨_, (hx.ok.leafWrite hat).1⟩, (hw.extended hx).leafWrite hx.ok hat, hx.boot⟩
  · obtain ⟨m₁, hq, -⟩ := h.pml4eWalk_short hva (by omega)
    rw [hq] at hret
    cases hret

theorem TreeOk.bootMapPages_tree (h : TreeOk S r m fl) (hw : LinksW S r m)
    (hS : ∀ j, k ≤ j → j < k + c → pml4 (regionVa la j) ∈ S) (hk : k + c ≤ 2 ^ 19)
    (hret : Jos.bootMapPages r la pa perm c k m = some m') :
    (∃ fl', TreeOk S r m' fl') ∧ LinksW S r m' ∧ m'.bootPml4e = m.bootPml4e := by
  induction c generalizing k m fl with
  | zero =>
    cases hret
    exact ⟨⟨fl, h⟩, hw, rfl⟩
  | succ c ih =>
    unfold Jos.bootMapPages at hret
    obtain ⟨m₁, h1, h2⟩ := Option.bind_eq_some_iff.1 hret
    have hi := signExtend_small (k := k) (by omega)
    obtain ⟨⟨fl', h3⟩, h4, h5⟩ := h.bootMapPage_tree hw (by rw [hi]; exact hS k (by omega) (by omega)) h1
    obtain ⟨h6, h7, h8⟩ := ih h3 h4 (fun j hj hj' => hS j (by omega) (by omega)) (by omega) h2
    exact ⟨h6, h7, h8.trans h5⟩

theorem TreeOk.bootMapRegion_tree (h : TreeOk S r m fl) (hw : LinksW S r m)
    (hS : ∀ j, j * 4096 < size.toNat → pml4 (regionVa la j) ∈ S) (hal : size.toNat % 4096 = 0)
    (hs : size.toNat < 2 ^ 34) (hret : Jos.bootMapRegion m r la size pa perm = some m') :
    (∃ fl', TreeOk S r m' fl') ∧ LinksW S r m' ∧ m'.bootPml4e = m.bootPml4e := by
  have hn : loopPages size ≤ 2 ^ 19 := min_le_right _ _
  have hn' : ∀ j, j < loopPages size → j * 4096 < size.toNat := by
    intro j
    unfold loopPages
    omega
  have h1 : Jos.bootMapPages r la pa perm (loopPages size) 0 m = some m' := by
    rw [← hret]
    exact (bootMapLoop_eq hal hs (Nat.zero_add _) (by omega : loopPages size < 2 ^ 20)).symm
  exact h.bootMapPages_tree hw (fun j _ hj => hS j (hn' j (by omega))) (by omega) h1

/-! ## One call -/

/-- `PTE_PCD | PTE_PWT | PTE_W`. -/
def mmioPerm : BitVec 32 := ptePcd ||| ptePwt ||| pteW

theorem mmiobase_toNat : mmiobase.toNat = 0x8003c00000 := by decide
theorem mmiolim_toNat : mmiolim.toNat = 0x8003e00000 := by decide

/-- The size that is mapped, for a page-aligned `pa`. -/
theorem mmio_size (hpa : pa.toNat % 4096 = 0) (hs : size.toNat ≤ 2 ^ 21) :
    (roundUp (pa + size) pgsize - roundDown pa pgsize).toNat = pageUp size.toNat ∧ roundDown pa pgsize = pa := by
  have h1 := pa.isLt
  have h2 : roundDown pa pgsize = pa := by
    apply BitVec.eq_of_toNat_eq
    rw [roundDown_toNat]
    omega
  refine ⟨?_, h2⟩
  rw [h2, BitVec.toNat_sub, roundUp_toNat, BitVec.toNat_add]
  unfold pageUp
  omega

/-- What a call returns is `base`, which stays page-aligned. -/
theorem mmioMapRegion_base (hb : base.toNat % 4096 = 0)
    (h : mmioMapRegion m base pa size = some (m', base', result)) : result = base ∧ base'.toNat % 4096 = 0 := by
  unfold mmioMapRegion at h
  dsimp only at h
  have hsz : (roundUp (pa + size) pgsize - roundDown pa pgsize).toNat % 4096 = 0 := by
    rw [BitVec.toNat_sub, roundUp_toNat, roundDown_toNat]
    omega
  generalize roundUp (pa + size) pgsize - roundDown pa pgsize = sz at h hsz
  split at h
  · exact absurd h nofun
  · obtain ⟨m₁, -, h2⟩ := Option.bind_eq_some_iff.1 h
    cases h2
    refine ⟨BitVec.add_sub_cancel _ _, ?_⟩
    rw [BitVec.toNat_add]
    omega

/-- Where `base` is in a sequence of calls. -/
structure MmioBase (base : VA) : Prop where
  aligned : base.toNat % 4096 = 0
  low : 0x8003c00000 ≤ base.toNat
  high : base.toNat < 0x8003e00000

/-- **A call that is as it should be** reserves whole pages below `MMIOLIM`. -/
theorem MmioBase.call (hb : MmioBase base) (hpa : pa.toNat % 4096 = 0) (hs : size.toNat ≤ 2 ^ 21)
    (h : mmioMapRegion m base pa size = some (m', base', result)) :
    MmioBase base' ∧ base'.toNat = base.toNat + pageUp size.toNat ∧
      ∃ sz : BitVec 64, sz.toNat = pageUp size.toNat ∧ bootMapRegion m m.bootPml4e base sz pa mmioPerm = some m' := by
  obtain ⟨h1, h2, h3⟩ := hb
  obtain ⟨hsz, hrd⟩ := mmio_size hpa hs
  unfold mmioMapRegion at h
  dsimp only at h
  rw [hrd] at h hsz
  generalize hz : roundUp (pa + size) pgsize - pa = sz at h hsz
  have hup : pageUp size.toNat ≤ 2 ^ 21 + 4096 := by
    unfold pageUp
    omega
  have hadd : (base + sz).toNat = base.toNat + pageUp size.toNat := by
    rw [BitVec.toNat_add, hsz]
    omega
  split at h
  · exact absurd h nofun
  rename_i hlim
  obtain ⟨m₁, h4, h5⟩ := Option.bind_eq_some_iff.1 h
  cases h5
  rw [ge_iff_le, BitVec.le_def, mmiolim_toNat, hadd] at hlim
  refine ⟨⟨?_, ?_, ?_⟩, hadd, sz, hsz, h4⟩
  · rw [hadd]
    unfold pageUp
    omega
  · omega
  · omega

/-- The pages of the region are in the slot of `MMIOBASE`. -/
theorem MmioBase.slot (hb : MmioBase base) (hj : base.toNat + j * 4096 < 0x8003e00000) :
    (regionVa base j).toNat = base.toNat + j * 4096 ∧ pml4 (regionVa base j) = pml4 mmiobase := by
  have h2 := hb.low
  have h1 : (regionVa base j).toNat = base.toNat + j * 4096 := by
    unfold regionVa
    rw [BitVec.toNat_add, BitVec.toNat_ofNat]
    omega
  refine ⟨h1, ?_⟩
  rw [Fin.ext_iff, pml4, pml4, field_val, field_val, h1, mmiobase_toNat]
  omega

/-! ## What is reserved -/

/-- The physical address of `va`, which translates by `x`. -/
def physAddr (x : Translation) (va : VA) : ℕ := ppn x.pte * 4096 + va.toNat % 4096

/-- An address that a call reserves. -/
def MmioCall.Has (c : MmioCall) (a : ℕ) : Prop := c.result.toNat ≤ a ∧ a < c.result.toNat + c.size.toNat

/-- Every byte of the region that `c` returned is the device memory that was asked for, and the
kernel may write it, without a cache. -/
def Device (m : Pmap) (r : ℕ) (c : MmioCall) : Prop :=
  ∀ o < c.size.toNat, ∃ x, translate m r (c.result + BitVec.ofNat 64 o) = some x ∧
    physAddr x (c.result + BitVec.ofNat 64 o) = (c.pa + BitVec.ofNat 64 o).toNat ∧
    x.writeable = true ∧ flag x.pte ptePcd = true ∧ flag x.pte ptePwt = true ∧ x.user = false

/-- **The reservations** of a sequence of calls. -/
structure Reserved (m : Pmap) (r : ℕ) (cs : List MmioCall) : Prop where
  inside : ∀ c ∈ cs, mmiobase.toNat ≤ c.result.toNat ∧ c.result.toNat + c.size.toNat ≤ mmiolim.toNat
  apart : cs.Pairwise fun c c' => ∀ a, c.Has a → ¬ c'.Has a
  device : ∀ c ∈ cs, Device m r c

/-- The entry of a device page. -/
theorem mmioPte_fields (hpa : pa.toNat % 4096 = 0) (j : ℕ) :
    ppn (regionPte pa mmioPerm j) * 4096 = (pa + BitVec.ofNat 64 (j * 4096)).toNat ∧
      flag (regionPte pa mmioPerm j) pteW = true ∧ flag (regionPte pa mmioPerm j) ptePcd = true ∧
      flag (regionPte pa mmioPerm j) ptePwt = true ∧ flag (regionPte pa mmioPerm j) pteU = false := by
  have hal : (pa + BitVec.ofNat 64 (j * 4096)).toNat % 4096 = 0 := by
    rw [BitVec.toNat_add, BitVec.toNat_ofNat]
    omega
  have hlt := (pa + BitVec.ofNat 64 (j * 4096)).isLt
  have he : regionPte pa mmioPerm j = page2pa ((pa + BitVec.ofNat 64 (j * 4096)).toNat / 4096) ||| 0x1B#64 := by
    have h1 : page2pa ((pa + BitVec.ofNat 64 (j * 4096)).toNat / 4096) = pa + BitVec.ofNat 64 (j * 4096) := by
      apply BitVec.eq_of_toNat_eq
      have h2 := toNat_page2pa_or (p := (pa + BitVec.ofNat 64 (j * 4096)).toNat / 4096) (by omega) (f := 0#64) (by decide)
      rw [BitVec.or_zero] at h2
      rw [h2, BitVec.toNat_zero]
      omega
    unfold regionPte
    rw [h1, BitVec.or_assoc]
    rfl
  rw [he, ppn_or (by omega) (by decide), flag_or (by decide), flag_or (by decide), flag_or (by decide),
    flag_or (by decide)]
  exact ⟨by omega, by decide, by decide, by decide, by decide⟩

/-- **The pages of a call** make a device region. -/
theorem LinksW.device (hw : LinksW S r m) (hb : MmioBase base) (hS : pml4 mmiobase ∈ S) (hpa : pa.toNat % 4096 = 0)
    (hlim : base.toNat + size.toNat ≤ 0x8003e00000)
    (hm : ∀ j, j * 4096 < size.toNat → leafEntry m r (regionVa base j) = some (regionPte pa mmioPerm j)) :
    Device m r ⟨base, pa, size⟩ := by
  intro o ho
  dsimp only at ho ⊢
  have hal := hb.aligned
  obtain ⟨hva, hslot⟩ := hb.slot (j := o / 4096) (by omega)
  obtain ⟨x, hx, hpte⟩ := Option.map_eq_some_iff.1 (hm (o / 4096) (by omega))
  obtain ⟨h1, h2, h3, h4, h5⟩ := mmioPte_fields hpa (o / 4096)
  have hadd : (base + BitVec.ofNat 64 o).toNat = base.toNat + o := by
    rw [BitVec.toNat_add, BitVec.toNat_ofNat]
    omega
  have hpg : vpn (base + BitVec.ofNat 64 o) = vpn (regionVa base (o / 4096)) := vpn_page (by rw [hadd, hva]; omega)
  refine ⟨x, (translate_vpn hpg).trans hx, ?_, ?_, ?_, ?_, ?_⟩
  · unfold physAddr
    rw [hpte, h1, hadd, BitVec.toNat_add, BitVec.toNat_add, BitVec.toNat_ofNat, BitVec.toNat_ofNat]
    have hlt := pa.isLt
    omega
  · rw [hw.writeable (by rw [hslot]; exact hS) hx, hpte, h2]
  · rw [hpte, h3]
  · rw [hpte, h4]
  · unfold translate at hx
    simp only [Option.bind_eq_bind, Option.bind_eq_some_iff] at hx
    obtain ⟨e4, -, e3, -, e2, -, e1, -, hx⟩ := hx
    cases hx
    dsimp only at hpte ⊢
    rw [hpte, h5, Bool.and_false]

theorem Device.congr {c : MmioCall} (h : Device m r c)
    (ht : ∀ o < c.size.toNat, translate m' r (c.result + BitVec.ofNat 64 o) =
      translate m r (c.result + BitVec.ofNat 64 o)) : Device m' r c := by
  intro o ho
  rw [ht o ho]
  exact h o ho

/-! ## A sequence of calls -/

theorem pageUp_ge (n : ℕ) : n ≤ pageUp n ∧ pageUp n < n + 4096 := by
  unfold pageUp
  omega

theorem mmioMapRegions_cons {q : BitVec 64 × BitVec 64}
    (h : mmioMapRegions m base (q :: reqs) = some (m', base', cs)) : ∃ m₁ base₁ result cs',
      mmioMapRegion m base q.1 q.2 = some (m₁, base₁, result) ∧
        mmioMapRegions m₁ base₁ reqs = some (m', base', cs') ∧ cs = ⟨result, q.1, q.2⟩ :: cs' := by
  rw [mmioMapRegions] at h
  generalize mmioMapRegion m base q.1 q.2 = y at h
  obtain ⟨⟨m₁, base₁, result⟩, rfl, h2⟩ := Option.bind_eq_some_iff.1 h
  obtain ⟨⟨m₂, base₂, cs'⟩, h3, h4⟩ := Option.bind_eq_some_iff.1 h2
  cases h4
  exact ⟨m₁, base₁, result, cs', rfl, h3, rfl⟩

/-- **Calls that are as they should be** reserve regions behind one another, and keep what is below. -/
theorem MmioBase.calls (hb : MmioBase base) (h : TreeOk S m.bootPml4e m fl) (hw : LinksW S m.bootPml4e m)
    (hS : pml4 mmiobase ∈ S) (hok : ∀ q ∈ reqs, q.1.toNat % 4096 = 0 ∧ q.2.toNat ≤ 2 ^ 21)
    (hrun : mmioMapRegions m base reqs = some (m', base', cs)) :
    Reserved m' m.bootPml4e cs ∧ (∀ c ∈ cs, base.toNat ≤ c.result.toNat) ∧
      ∀ va, 0x8003c00000 ≤ va.toNat → va.toNat < base.toNat → pml4 va ∈ S →
        translate m' m.bootPml4e va = translate m m.bootPml4e va := by
  induction reqs generalizing m base fl cs with
  | nil =>
    cases hrun
    exact ⟨⟨nofun, List.Pairwise.nil, nofun⟩, nofun, fun _ _ _ _ => rfl⟩
  | cons q reqs ih =>
    obtain ⟨pa, size⟩ := q
    obtain ⟨m₁, base₁, result, cs', h1, h3, rfl⟩ := mmioMapRegions_cons hrun
    dsimp only at h1
    obtain ⟨⟨hpa, hs⟩, hok'⟩ := List.forall_mem_cons.1 hok
    dsimp only at hpa hs
    obtain ⟨rfl, -⟩ := mmioMapRegion_base hb.aligned h1
    obtain ⟨hb₁, hadd, sz, hsz, hreg⟩ := hb.call hpa hs h1
    obtain ⟨hge, -⟩ := pageUp_ge size.toNat
    have hlow := hb.low
    have hhigh := hb₁.high
    have hal := hb.aligned
    have hsz' : sz.toNat % 4096 = 0 := by
      rw [hsz]
      unfold pageUp
      omega
    have hslot : ∀ j, j * 4096 < sz.toNat → pml4 (regionVa result j) ∈ S := fun j hj => by
      rw [(hb.slot (by omega)).2]
      exact hS
    obtain ⟨hm, -, hout⟩ := h.bootMapRegion hslot hsz' (by omega) hreg
    obtain ⟨⟨fl₁, ht₁⟩, hw₁, hboot⟩ := h.bootMapRegion_tree hw hslot hsz' (by omega) hreg
    rw [← hboot] at ht₁ hw₁
    obtain ⟨⟨hin, hap, hdev⟩, hres, hkeep⟩ := ih hb₁ ht₁ hw₁ hok' h3
    rw [hboot] at hdev hkeep hw₁
    refine ⟨⟨?_, ?_, ?_⟩, ?_, fun va hva1 hva2 hvaS => ?_⟩
    · refine List.forall_mem_cons.2 ⟨?_, hin⟩
      rw [mmiobase_toNat, mmiolim_toNat]
      dsimp only
      omega
    · refine List.pairwise_cons.2 ⟨fun c hc a ha ha' => ?_, hap⟩
      have h5 := hres c hc
      obtain ⟨-, h6⟩ := ha
      obtain ⟨h7, -⟩ := ha'
      dsimp only at h6
      omega
    · refine List.forall_mem_cons.2 ⟨?_, hdev⟩
      have hd : Device m₁ m.bootPml4e ⟨result, pa, size⟩ :=
        hw₁.device hb hS hpa (by omega) fun j hj => hm j (by omega) (by omega)
      -- the later calls map pages above
      refine hd.congr fun o ho => ?_
      dsimp only at ho ⊢
      have hva : (result + BitVec.ofNat 64 o).toNat = result.toNat + o := by
        rw [BitVec.toNat_add, BitVec.toNat_ofNat]
        omega
      refine hkeep _ (by omega) (by omega) ?_
      have hpg : pml4 (result + BitVec.ofNat 64 o) = pml4 mmiobase := by
        rw [Fin.ext_iff, pml4, pml4, field_val, field_val, hva, mmiobase_toNat]
        omega
      rw [hpg]
      exact hS
    · refine List.forall_mem_cons.2 ⟨le_rfl, fun c hc => ?_⟩
      have h5 := hres c hc
      omega
    · rw [hkeep va hva1 (by omega) hvaS]
      refine hout va hvaS fun j hj hv => ?_
      have h5 := page_of_vpn hv
      rw [(hb.slot (by omega)).1] at h5
      omega

/-- The results are page-aligned in any case, and the calls are the requests. -/
theorem mmioMapRegions_aligned (hb : base.toNat % 4096 = 0)
    (hrun : mmioMapRegions m base reqs = some (m', base', cs)) :
    (∀ c ∈ cs, c.result.toNat % 4096 = 0) ∧ ∀ q ∈ reqs, ∃ c ∈ cs, c.pa = q.1 ∧ c.size = q.2 := by
  induction reqs generalizing m base cs with
  | nil =>
    cases hrun
    exact ⟨nofun, nofun⟩
  | cons q reqs ih =>
    obtain ⟨m₁, base₁, result, cs', h1, h3, rfl⟩ := mmioMapRegions_cons hrun
    obtain ⟨rfl, hb₁⟩ := mmioMapRegion_base hb h1
    obtain ⟨h5, h6⟩ := ih hb₁ h3
    refine ⟨List.forall_mem_cons.2 ⟨hb, h5⟩, List.forall_mem_cons.2 ⟨⟨_, List.mem_cons_self, rfl, rfl⟩, fun q hq => ?_⟩⟩
    obtain ⟨c, hc, h7⟩ := h6 q hq
    exact ⟨c, List.mem_cons_of_mem _ hc, h7⟩

/-- **The reservations are disjoint and faithful**, for calls that return, exactly if every `pa` is
the start of a page, and no size is larger than the region. -/
theorem mmio_faithful (h : TreeOk S m.bootPml4e m fl) (hw : LinksW S m.bootPml4e m) (hS : pml4 mmiobase ∈ S)
    (hsize : ∀ q ∈ reqs, 1 ≤ q.2.toNat) (hrun : mmioMapRegions m mmiobase reqs = some (m', base', cs)) :
    Reserved m' m.bootPml4e cs ↔ ∀ q ∈ reqs, q.1.toNat % 4096 = 0 ∧ q.2.toNat ≤ ptsize.toNat := by
  have hpt : ptsize.toNat = 2 ^ 21 := by decide
  have hb : MmioBase mmiobase := ⟨by decide, by decide, by decide⟩
  rw [hpt]
  refine ⟨fun hr q hq => ?_, fun hok => (hb.calls h hw hS hok hrun).1⟩
  obtain ⟨hal, hreq⟩ := mmioMapRegions_aligned hb.aligned hrun
  obtain ⟨c, hc, h1, h2⟩ := hreq q hq
  rw [← h1, ← h2]
  have h0 := hsize q hq
  rw [← h2] at h0
  refine ⟨?_, ?_⟩
  · -- the first byte
    obtain ⟨x, -, hp, -⟩ := hr.device c hc 0 h0
    have h3 := hal c hc
    rw [BitVec.add_zero, BitVec.add_zero] at hp
    unfold physAddr at hp
    omega
  · have h3 := hr.inside c hc
    rw [mmiobase_toNat, mmiolim_toNat] at h3
    omega

theorem linksW_emptyRoot : LinksW Set.univ emptyRoot.bootPml4e emptyRoot := by
  intro π t i _ _ hp
  have h0 : flag (emptyRoot.mem t i) pteP = false := flag_zero _
  rw [h0] at hp
  exact absurd hp nofun

/-- A request for the page of the local APIC, or a part of it. -/
theorem mmioMapRegions_lapic (pa size : BitVec 64) (hs : roundUp (pa + size) pgsize - roundDown pa pgsize = 4096)
    (hp : roundDown pa pgsize = 0xFEE00000) :
    ∃ m' base', mmioMapRegions emptyRoot mmiobase [(pa, size)] = some (m', base', [⟨mmiobase, pa, size⟩]) := by
  obtain ⟨m', h⟩ := Option.isSome_iff_exists.1
    (show (bootMapRegion emptyRoot 1 0x8003c00000 4096 0xFEE00000 0x1A).isSome by decide)
  have hb : mmiobase = 0x8003c00000 := by decide
  have hlim : ¬ mmiobase + 4096 ≥ mmiolim := by decide
  have hcall : mmioMapRegion emptyRoot mmiobase pa size = some (m', mmiobase + 4096, mmiobase) := by
    unfold mmioMapRegion
    dsimp only
    rw [hs, hp, if_neg hlim, BitVec.add_sub_cancel, hb]
    exact congrArg (Option.map fun m => (m, (0x8003c00000 : VA) + 4096, (0x8003c00000 : VA))) h
  refine ⟨m', mmiobase + 4096, ?_⟩
  rw [mmioMapRegions, hcall]
  rfl

/-- The registers of the local APIC. -/
theorem mmio_faithful_lapic : ∃ m' base' cs,
    mmioMapRegions emptyRoot mmiobase [(0xFEE00000, 4096)] = some (m', base', cs) ∧ Reserved m' 1 cs := by
  obtain ⟨m', base', h⟩ := mmioMapRegions_lapic 0xFEE00000 4096 (by decide) (by decide)
  have h1 : ∀ q ∈ [((0xFEE00000 : BitVec 64), (4096 : BitVec 64))], 1 ≤ q.2.toNat :=
    List.forall_mem_singleton.2 (by decide)
  have h2 : ∀ q ∈ [((0xFEE00000 : BitVec 64), (4096 : BitVec 64))], q.1.toNat % 4096 = 0 ∧ q.2.toNat ≤ ptsize.toNat :=
    List.forall_mem_singleton.2 ⟨by decide, by decide⟩
  exact ⟨m', base', _, h, (mmio_faithful emptyRoot_tree linksW_emptyRoot (Set.mem_univ _) h1 h).2 h2⟩

/-- A device in the middle of a page: its first byte is not where the result points. -/
theorem mmio_faithful_counterexample : ¬ ∀ (S : Set Idx) (m : Pmap) (fl : List ℕ) reqs m' base' cs,
    TreeOk S m.bootPml4e m fl → LinksW S m.bootPml4e m → pml4 mmiobase ∈ S → (∀ q ∈ reqs, 1 ≤ q.2.toNat) →
    mmioMapRegions m mmiobase reqs = some (m', base', cs) → Reserved m' m.bootPml4e cs := by
  intro h
  obtain ⟨m', base', hrun⟩ := mmioMapRegions_lapic 0xFEE00010 4 (by decide) (by decide)
  have h1 : ∀ q ∈ [((0xFEE00010 : BitVec 64), (4 : BitVec 64))], 1 ≤ q.2.toNat :=
    List.forall_mem_singleton.2 (by decide)
  have hr := h Set.univ emptyRoot [2, 3, 4] _ m' base' _ emptyRoot_tree linksW_emptyRoot (Set.mem_univ _) h1 hrun
  obtain ⟨x, -, hp, -⟩ := hr.device _ (List.mem_singleton_self _) 0 (by decide)
  have h4 : (0xFEE00010 : BitVec 64).toNat = 0xFEE00010 := rfl
  rw [BitVec.add_zero, BitVec.add_zero] at hp
  dsimp only at hp
  rw [h4] at hp
  unfold physAddr at hp
  rw [mmiobase_toNat] at hp
  omega

end Jos
