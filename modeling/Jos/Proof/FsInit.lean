import Jos.Proof.Server

/-!
# The file server starts

`fs_init` succeeds exactly on the disks that have the magic number and a sound super block and bitmap
(`fsInit_iff`). It leaves the disk as it is, and the cache ready (`fsInit_ready`), although `check_bc`
overwrites the super block on the way. So on a consistent disk the server starts and its calls return
(`server_total`), and a restart after `fs_sync` does not show (`restart_total`).
-/

namespace Jos.Fs.Bc

open Lib

variable {σ σ' : Bc} {b n R : ℕ} {d : Bytes}

/-! ## Before `super` is set -/

/-- Until `super` is set, only block 1 comes into memory. -/
structure Early (d : Bytes) (R : ℕ) (σ : Bc) : Prop where
  good : ∀ s, σ.bad s = false
  super : σ.super = false
  only : ∀ c, c ≠ 1 → σ.mapped c = false
  pages : σ.room + (σ.mapped 1).toNat = R
  coherent : σ.Coherent (· / 4096)
  disk : ∀ x, x / 4096 ≠ 1 → σ.disk x = d.byte x

theorem reboot_early (hg : ∀ s, σ.bad s = false) (R : ℕ) : Early σ.platter R (σ.reboot R) where
  good := hg
  super := rfl
  only _ _ := rfl
  pages := rfl
  coherent := Cache.Coherent.crash
  disk _ _ := rfl

/-- The blocks that are not in memory are seen as they are on the disk. -/
theorem Early.view_off (h : Early d R σ) {x : ℕ} (hx : x / 4096 ≠ 1) : σ.view.byte x = d.byte x := by
  have h1 : σ.view.byte x = σ.disk x := @Cache.view_unmapped _ _ _ (· / 4096) σ.toCache x (h.only _ hx)
  rw [h1, h.disk x hx]

/-- While `super` is not set, the handler checks nothing. -/
theorem touch_early (hg : ∀ s, σ.bad s = false) (hs : σ.super = false) (hm : σ.mapped b = false)
    (hb : b * 4096 < diskSize) (h0 : σ.room ≠ 0) : touch b σ = some (σ.fillBlock b) := by
  obtain ⟨σ₁, σ₂, h1, h2⟩ := load_total (b := b) hg h0
  have hsuper : (σ.fillBlock b).super = false := hs
  unfold touch
  rw [if_neg (by rw [hm]; exact Bool.false_ne_true)]
  unfold depth bcPgfault readSuper
  dsimp only
  rw [if_neg (Nat.not_le.2 hb), if_neg (by rw [hs]; exact Bool.false_ne_true)]
  dsimp only [Option.bind_eq_bind, Option.bind_some]
  rw [if_neg (by rw [hs, Bool.false_and]; exact Bool.false_ne_true), h1]
  dsimp only [Option.bind_some]
  rw [h2]
  dsimp only [Option.bind_some]
  rw [load_eq hb h1 h2]
  unfold checkInUse
  rw [if_neg (by rw [hsuper, Bool.and_false]; exact Bool.false_ne_true)]

theorem Early.touch (h : Early d R σ) (hR : R ≠ 0) :
    ∃ σ', touch 1 σ = some σ' ∧ Early d R σ' ∧ σ'.mapped 1 = true ∧ σ'.view = σ.view := by
  cases hm : σ.mapped 1 with
  | true => exact ⟨σ, if_pos hm, h, hm, rfl⟩
  | false =>
    have hpages := h.pages
    rw [hm, Bool.toNat_false] at hpages
    have hf := (fillBlock_fills hm).1
    refine ⟨_, touch_early h.good h.super hm (by decide) (by omega), ?_, (fillBlock_fills hm).2, hf.view⟩
    refine ⟨h.good, h.super, fun c hc => (if_neg hc).trans (h.only c hc), ?_, hf.fills.coherent h.coherent, ?_⟩
    · have h1 : (σ.fillBlock 1).room = σ.room - 1 := rfl
      rw [(fillBlock_fills hm).2, Bool.toNat_true, h1]
      omega
    · rw [show (σ.fillBlock 1).disk = σ.disk from rfl]
      exact h.disk

theorem blocksOf_super (h0 : n ≠ 0) (hn : n ≤ 4096) : blocksOf 4096 n = [1] := by
  unfold blocksOf
  have h1 : (4096 + n - 1) / 4096 - 4096 / 4096 + 1 = 1 := by omega
  rw [if_neg h0, h1]
  rfl

theorem Early.load (h : Early d R σ) (hR : R ≠ 0) (h0 : n ≠ 0) (hn : n ≤ 4096) :
    ∃ σ', σ.load 4096 n = some (σ.view.read 4096 n, σ') ∧ Early d R σ' ∧ σ'.mapped 1 = true ∧ σ'.view = σ.view := by
  obtain ⟨σ', h1, h2, h3, h4⟩ := h.touch hR
  have hrun : exec (.read 4096 n) σ = some (σ'.pages.read 4096 n, σ') := by
    refine Option.bind_eq_some_iff.2 ⟨σ', ?_, rfl⟩
    rw [blocksOf_super h0 hn, List.foldlM_cons, h1]
    rfl
  obtain ⟨h5, -⟩ := exec_flat h.coherent hrun
  obtain ⟨h6, -⟩ := Prod.mk.inj (Option.some.inj h5)
  refine ⟨σ', ?_, h2, h3, h4⟩
  unfold Bc.load
  rw [hrun, ← h6]

theorem Early.store (h : Early d R σ) (hR : R ≠ 0) (bs : List Byte) (h0 : bs.length ≠ 0) (hn : bs.length ≤ 4096) :
    ∃ σ', σ.store 4096 bs = some σ' ∧ Early d R σ' ∧ σ'.mapped 1 = true ∧ σ'.view = σ.view.write 4096 bs := by
  obtain ⟨σ₁, h1, h2, h3, -⟩ := h.touch hR
  have hrun : exec (.write 4096 bs) σ = some ((), σ₁.stored 4096 bs) := by
    refine exec_write ?_
    rw [blocksOf_super h0 hn, List.foldlM_cons, h1]
    rfl
  obtain ⟨h5, h6⟩ := exec_flat h.coherent hrun
  obtain ⟨-, h7⟩ := Prod.mk.inj (Option.some.inj h5)
  refine ⟨σ₁.stored 4096 bs, ?_, ⟨h2.good, h2.super, h2.only, h2.pages, h6, h2.disk⟩, h3, h7.symm⟩
  unfold Bc.store
  rw [hrun]
  rfl

theorem Early.flush (h : Early d R σ) (hm : σ.mapped 1 = true) :
    ∃ σ', σ.flushBlock 4096 = some σ' ∧ Early d R σ' ∧ σ'.mapped 1 = true ∧ σ'.view = σ.view ∧
      σ'.dirty 1 = false := by
  have hrun : ∃ σ', σ.flushBlock 4096 = some σ' := by
    obtain ⟨σ₁, h1⟩ := outsw_total (4096 / 4096 * 8) (4096 / 4096 * 4096) 8 h.good
    have h2 : σ.ideWrite (4096 / 4096 * 8) (4096 / 4096 * 4096) 8 = some σ₁ := h1
    unfold flushBlock
    rw [if_neg (by decide)]
    split
    · exact ⟨σ, rfl⟩
    · rw [h2]
      exact ⟨_, rfl⟩
  obtain ⟨σ', h1⟩ := hrun
  rcases (flushBlock_cases h1).2 with ⟨rfl, hd⟩ | ⟨-, rfl⟩
  · exact ⟨σ', h1, h, hm, rfl, hd hm⟩
  · refine ⟨_, h1, ⟨h.good, h.super, h.only, h.pages, h.coherent.flush, fun x hx => ?_⟩, hm,
      Bytes.ext (Cache.view_flush hm), Cache.flush_dirty_self (i := 1)⟩
    have hdisk : (σ.toCache.flush (· / 4096) 1).disk x = σ.disk x := Cache.flush_disk_of_ne hx
    exact hdisk.trans (h.disk x hx)

/-- Unmapping a page that is not dirty does not show. -/
theorem Early.unmap (h : Early d R σ) (hm : σ.mapped 1 = true) (hd : σ.dirty 1 = false) :
    Early d R (σ.sysPageUnmap 1) ∧ (σ.sysPageUnmap 1).mapped 1 = false ∧ (σ.sysPageUnmap 1).view = σ.view := by
  have hpages := h.pages
  rw [hm, Bool.toNat_true] at hpages
  have hmapped : ∀ c, (σ.sysPageUnmap 1).mapped c = if c = 1 then false else σ.mapped c := by
    intro c
    unfold sysPageUnmap
    rw [if_pos hm]
  have hnone : ∀ c, (σ.sysPageUnmap 1).mapped c = false := by
    intro c
    rw [hmapped]
    split
    · rfl
    · rename_i hc
      exact h.only c hc
  have hdisk : (σ.sysPageUnmap 1).disk = σ.disk := by
    unfold sysPageUnmap
    rw [if_pos hm]
  have hroom : (σ.sysPageUnmap 1).room = σ.room + 1 := by
    unfold sysPageUnmap
    rw [if_pos hm]
  have hbad : (σ.sysPageUnmap 1).bad = σ.bad := by
    unfold sysPageUnmap
    rw [if_pos hm]
  have hsuper : (σ.sysPageUnmap 1).super = σ.super := by
    unfold sysPageUnmap
    rw [if_pos hm]
  refine ⟨⟨by rw [hbad]; exact h.good, hsuper.trans h.super, fun c _ => hnone c, ?_, ?_, by rw [hdisk]; exact h.disk⟩,
    hnone 1, ?_⟩
  · rw [hnone, hroom, Bool.toNat_false]
    omega
  · intro x hx
    rw [hnone] at hx
    cases hx
  · refine Bytes.ext (funext fun x => ?_)
    have h1 : (σ.sysPageUnmap 1).view.byte x = σ.disk x :=
      (@Cache.view_unmapped _ _ _ (· / 4096) (σ.sysPageUnmap 1).toCache x (hnone _)).trans (congrFun hdisk x)
    rw [h1]
    by_cases hx : x / 4096 = 1
    · exact (h.coherent.view_clean (by rw [hx]; exact hd)).symm
    · exact (@Cache.view_unmapped _ _ _ (· / 4096) σ.toCache x (h.only _ hx)).symm

/-- **`check_bc`** succeeds, and leaves the disk as it is seen. -/
theorem Early.checkBc (h : Early d R σ) (hR : R ≠ 0) :
    ∃ σ', σ.checkBc = some σ' ∧ Early d R σ' ∧ σ'.mapped 1 = true ∧ σ'.dirty 1 = false ∧ σ'.view = σ.view := by
  obtain ⟨σ₁, h1, e1, -, v1⟩ := h.load (n := 264) hR (by decide) (by decide)
  obtain ⟨σ₂, h2, e2, m2, v2⟩ := e1.store hR oops (by decide) (by decide)
  obtain ⟨σ₃, h3, e3, m3, v3, d3⟩ := e2.flush m2
  obtain ⟨e4, m4, v4⟩ := e3.unmap m3 d3
  obtain ⟨σ₅, h5, e5, m5, v5⟩ := e4.load (n := 7) hR (by decide) (by decide)
  have hlen : (σ.view.read 4096 264).length = 264 := Bytes.read_length ..
  obtain ⟨σ₆, h6, e6, m6, v6⟩ := e5.store hR (σ.view.read 4096 264) (by rw [hlen]; decide) (by rw [hlen]; decide)
  obtain ⟨σ₇, h7, e7, m7, v7, d7⟩ := e6.flush m6
  -- what was written is read back, since the block went to the disk
  have hback : (σ₃.sysPageUnmap 1).view.read 4096 7 = oops := by
    rw [v4, v3, v2]
    exact Bytes.read_write _ 4096 oops
  -- and the backup covers what was overwritten
  have hfix : σ₇.view = σ.view := by
    rw [v7, v6, v5, v4, v3, v2, v1]
    refine Bytes.ext (funext fun x => ?_)
    rw [Bytes.byte_write]
    split
    · rename_i hx
      rw [hlen] at hx
      rw [Bytes.getD_read (by omega), Nat.add_sub_cancel' hx.1]
    · rename_i hx
      rw [hlen] at hx
      refine Bytes.byte_write_off ?_
      have holen : oops.length = 7 := rfl
      omega
  refine ⟨σ₇, ?_, e7, m7, d7, hfix⟩
  unfold Bc.checkBc
  rw [h1]
  dsimp only [Option.bind_eq_bind, Option.bind_some]
  rw [h2]
  dsimp only [Option.bind_some]
  rw [h3]
  dsimp only [Option.bind_some]
  rw [m3, d3, if_neg (by decide), if_neg (by rw [m4]; exact Bool.false_ne_true), h5]
  dsimp only [Option.bind_some]
  rw [if_neg (not_not.2 hback), h6]
  exact h7

/-- **`bc_init`** succeeds: block 1 is in memory, and the disk is as it was seen at the start. -/
theorem Early.bcInit (h : Early d R σ) (hR : R ≠ 0) :
    ∃ σ', σ.bcInit = some σ' ∧ Early d R σ' ∧ σ'.mapped 1 = true ∧ σ'.view = σ.view ∧ σ'.platter = σ'.view := by
  obtain ⟨σ₁, h1, e1, m1, d1, v1⟩ := h.checkBc hR
  have htouch : Bc.touch 1 σ₁ = some σ₁ := if_pos m1
  have hload : σ₁.load 4096 264 = some (σ₁.pages.read 4096 264, σ₁) := by
    refine Option.bind_eq_some_iff.2 ⟨σ₁, ?_, rfl⟩
    rw [blocksOf_super (by decide) (by decide), List.foldlM_cons, htouch]
    rfl
  refine ⟨σ₁, ?_, e1, m1, v1, Bytes.ext (funext fun x => ?_)⟩
  · unfold Bc.bcInit
    rw [h1]
    dsimp only [Option.bind_eq_bind, Option.bind_some]
    rw [hload]
    rfl
  · by_cases hx : x / 4096 = 1
    · exact (e1.coherent.view_clean (by rw [hx]; exact d1)).symm
    · exact (@Cache.view_unmapped _ _ _ (· / 4096) σ₁.toCache x (e1.only _ hx)).symm

/-! ## The checks -/

/-- An assertion on the bitmap that holds. -/
theorem checkInUse_passed (hs : σ.super = true) (hb : σ.bitmap = true) (h1 : σ.mapped 1 = true)
    (h : checkInUse touch b σ = some σ') : blockIsFree σ.view b = false := by
  have ht : touch 1 σ = some σ := if_pos h1
  unfold checkInUse at h
  rw [hs, hb, if_pos (by decide), ht] at h
  dsimp only [Option.bind_eq_bind, Option.bind_some] at h
  rw [nblocks_pages h1] at h
  split at h
  · obtain ⟨σ₁, h2, h3⟩ := Option.bind_eq_some_iff.1 h
    obtain ⟨hf, hm⟩ := touch_fills h2
    rw [bitmapWord_block] at hm
    rw [blockIsFree_pages (hf.fills.mapped h1).1 hm, hf.view] at h3
    split at h3
    · cases h3
    · rename_i hfree
      simpa using hfree
  · rename_i hlt
    unfold blockIsFree
    simp [hlt]

theorem checks_passed {l : List ℕ} (hs : σ.super = true) (hb : σ.bitmap = true) (h1 : σ.mapped 1 = true)
    (h : l.foldlM (fun σ i => checkInUse touch (2 + i) σ) σ = some σ') :
    (∀ i ∈ l, blockIsFree σ.view (2 + i) = false) ∧ FillsTo σ σ' := by
  induction l generalizing σ with
  | nil => cases h; exact ⟨by simp, .refl⟩
  | cons i l ih =>
    rw [List.foldlM_cons] at h
    obtain ⟨σ₁, h2, h3⟩ := Option.bind_eq_some_iff.1 h
    have hf := checkInUse_fills (fun ht => (touch_fills ht).1) h2
    obtain ⟨h4, hf'⟩ := ih (hf.super.trans hs) (hf.bitmap.trans hb) (hf.fills.mapped h1).1 h3
    refine ⟨fun j hj => ?_, hf.trans hf'⟩
    rcases List.mem_cons.1 hj with rfl | hj
    · exact checkInUse_passed hs hb h1 h2
    · rw [← hf.view]
      exact h4 j hj

/-- **`check_bitmap`** passes only if the reserved blocks are in use. -/
theorem checkBitmap_passed (hs : σ.super = true) (hb : σ.bitmap = true) (h1 : σ.mapped 1 = true)
    (h : σ.checkBitmap = some σ') :
    (∀ b, Reserved σ.view b → blockIsFree σ.view b = false) ∧ FillsTo σ σ' := by
  have ht : touch 1 σ = some σ := if_pos h1
  unfold checkBitmap at h
  rw [ht] at h
  dsimp only [Option.bind_eq_bind, Option.bind_some] at h
  obtain ⟨σ₁, h2, h3⟩ := Option.bind_eq_some_iff.1 h
  obtain ⟨σ₂, h4, h5⟩ := Option.bind_eq_some_iff.1 h3
  obtain ⟨hall, hf₁⟩ := checks_passed hs hb h1 h2
  have hf₂ := checkInUse_fills (fun ht => (touch_fills ht).1) h4
  have hf₃ := checkInUse_fills (fun ht => (touch_fills ht).1) h5
  have hone₁ := (hf₁.fills.mapped h1).1
  have hzero := checkInUse_passed (hf₁.super.trans hs) (hf₁.bitmap.trans hb) hone₁ h4
  have hf₁₂ := hf₁.trans hf₂
  have hone := checkInUse_passed (hf₁₂.super.trans hs) (hf₁₂.bitmap.trans hb) (hf₁₂.fills.mapped h1).1 h5
  rw [hf₁.view] at hzero
  rw [hf₁₂.view] at hone
  refine ⟨fun b hr => ?_, hf₁₂.trans hf₃⟩
  rcases hr with hr | ⟨h6, h7⟩
  · obtain rfl | rfl : b = 0 ∨ b = 1 := by omega
    · exact hzero
    · exact hone
  · have h8 := hall (b - 2) (List.mem_range.2 (by rw [nblocks_pages h1]; omega))
    rwa [Nat.add_sub_cancel' h6] at h8

/-- The assertion holds for a reserved block, also if the disk does not have it. -/
theorem Ready.checkInUse_reserved (hr : Ready σ) (hb : Reserved σ.view b) :
    ∃ σ', checkInUse touch b σ = some σ' ∧ Ready σ' ∧ FillsTo σ σ' := by
  have hu : blockIsFree σ.view b = false := by
    by_cases hlt : b < nblocks σ.view
    · exact hr.checked.reserved b hlt hb
    · unfold blockIsFree
      simp [hlt]
  refine hr.checkInUse_total (if_pos hr.one) hu fun hlt => ?_
  obtain ⟨h1, h2⟩ := hr.bitmap_inUse hlt
  obtain ⟨σ', h3, hr'⟩ := hr.touch_total h1 h2
  obtain ⟨hf, hm⟩ := touch_fills h3
  exact ⟨σ', h3, hr', hf, hm⟩

theorem Ready.checkBitmap_total (hr : Ready σ) : ∃ σ', σ.checkBitmap = some σ' ∧ Ready σ' ∧ FillsTo σ σ' := by
  have hres : ∀ {σ₁} b, FillsTo σ σ₁ → Reserved σ.view b → Reserved σ₁.view b := by
    intro σ₁ b hf h
    rwa [hf.view]
  obtain ⟨σ₁, h1, hr₁, hf₁⟩ := loop_total (l := List.range ((nblocks σ.pages + 32767) / 32768))
    (f := fun σ i => checkInUse touch (2 + i) σ) (b := σ) (P := fun _ σ' => Ready σ' ∧ FillsTo σ σ')
    (fun xs i ys σ₁ he h2 => by
      have hi : i ∈ List.range ((nblocks σ.pages + 32767) / 32768) := by
        rw [he]
        simp
      rw [nblocks_pages hr.one, List.mem_range] at hi
      obtain ⟨σ₂, h3, hr₂, hf₂⟩ := h2.1.checkInUse_reserved (hres (2 + i) h2.2 (Or.inr ⟨by omega, by omega⟩))
      exact ⟨σ₂, h3, hr₂, h2.2.trans hf₂⟩) ⟨hr, .refl⟩
  obtain ⟨σ₂, h2, hr₂, hf₂⟩ := hr₁.checkInUse_reserved (hres 0 hf₁ (Or.inl (by omega)))
  obtain ⟨σ₃, h3, hr₃, hf₃⟩ := hr₂.checkInUse_reserved (hres 1 (hf₁.trans hf₂) (Or.inl (by omega)))
  refine ⟨σ₃, ?_, hr₃, (hf₁.trans hf₂).trans hf₃⟩
  have ht : touch 1 σ = some σ := if_pos hr.one
  unfold checkBitmap
  rw [ht]
  dsimp only [Option.bind_eq_bind, Option.bind_some]
  rw [h1]
  dsimp only [Option.bind_some]
  rw [h2]
  exact h3

/-- With block 1 in memory and the pointers set. -/
def withPointers (σ : Bc) : Bc := { σ with super := true, bitmap := true }

/-- A disk that passes the checks is ready then. -/
theorem Early.ready (h : Early d R σ) (hm : σ.mapped 1 = true) (hc : Checked σ.view) (hR : nblocks σ.view ≤ R) :
    Ready σ.withPointers where
  good := h.good
  checked := hc
  room := by
    have hpages := h.pages
    rw [hm, Bool.toNat_true] at hpages
    have htwo := hc.two
    have hsub : ((Finset.range (nblocks σ.view)).filter fun b => σ.mapped b = false) ⊆
        (Finset.range (nblocks σ.view)).erase 1 := by
      intro b hb
      rw [Finset.mem_filter] at hb
      refine Finset.mem_erase.2 ⟨?_, hb.1⟩
      rintro rfl
      rw [hm] at hb
      exact Bool.noConfusion hb.2
    have hcard := Finset.card_le_card hsub
    rw [Finset.card_erase_of_mem (Finset.mem_range.2 (by omega)), Finset.card_range] at hcard
    have habs : σ.withPointers.absent ≤ nblocks σ.view - 1 := hcard
    have hroom : σ.withPointers.room = σ.room := rfl
    omega
  super := rfl
  one := hm

/-- **`fs_init`**, after `bc_init`. -/
theorem fsInit_eq {σ₁ : Bc} (h1 : σ.bcInit = some σ₁) (hm : σ₁.mapped 1 = true) :
    σ.fsInit = if σ₁.view.load32 4096 ≠ fsMagic then none
      else if nblocks σ₁.view > diskSize / 4096 then none
      else if nblocks σ₁.view ≤ 2 then none else σ₁.withPointers.checkBitmap := by
  have hmagic : σ₁.pages.load32 4096 = σ₁.view.load32 4096 := pages_load32 hm (by decide)
  have ht : touch 1 { σ₁ with super := true } = some { σ₁ with super := true } := if_pos hm
  have hn : nblocks σ₁.pages = nblocks σ₁.view := nblocks_pages hm
  unfold fsInit checkSuper
  rw [h1]
  dsimp only [Option.bind_eq_bind, Option.bind_some]
  rw [ht]
  dsimp only [Option.bind_some]
  rw [show pages { σ₁ with super := true } = σ₁.pages from rfl, hmagic, hn]
  split
  · rfl
  split
  · rfl
  · dsimp only [Option.bind_some]
    rw [ht]
    dsimp only [Option.bind_some]
    rw [show pages { σ₁ with super := true } = σ₁.pages from rfl, hn]
    rfl

variable (hg : ∀ s, σ.bad s = false) (hR : nblocks σ.platter ≤ R) (h0 : R ≠ 0)
include hg hR h0

/-- **What `fs_init` leaves**: the disk is as before, and shows in a cache that is ready. -/
theorem fsInit_ready (h : (σ.reboot R).fsInit = some σ') :
    Ready σ' ∧ σ'.Coherent (· / 4096) ∧ σ'.view = σ.platter ∧ σ'.platter = σ.platter ∧ σ'.bitmap = true := by
  obtain ⟨σ₁, h1, e1, m1, v1, p1⟩ := (reboot_early hg R).bcInit h0
  have hv : σ₁.view = σ.platter := v1.trans (Bytes.ext (@Cache.view_crash _ _ _ (· / 4096) σ.toCache))
  rw [fsInit_eq h1 m1] at h
  split at h
  · cases h
  split at h
  · cases h
  split at h
  · cases h
  obtain ⟨hres, hf⟩ := checkBitmap_passed (show σ₁.withPointers.super = true from rfl) rfl m1 h
  have hc : Checked σ₁.view := ⟨by omega, by omega, fun b _ hb => hres b hb⟩
  obtain ⟨σ₂, h2, hr₂, -⟩ := (e1.ready m1 hc (by rw [hv]; exact hR)).checkBitmap_total
  rw [h] at h2
  obtain rfl := Option.some.inj h2
  have hplatter : σ'.platter = σ₁.platter := Bytes.ext hf.fills.disk
  exact ⟨hr₂, hf.fills.coherent e1.coherent, hf.view.trans hv, (hplatter.trans p1).trans hv, hf.bitmap⟩

omit hR in
/-- `fs_init` succeeds only on such a disk. -/
theorem fsInit_checked (h : (σ.reboot R).fsInit = some σ') :
    σ.platter.load32 4096 = fsMagic ∧ Checked σ.platter := by
  obtain ⟨σ₁, h1, -, m1, v1, -⟩ := (reboot_early hg R).bcInit h0
  have hv : σ₁.view = σ.platter := v1.trans (Bytes.ext (@Cache.view_crash _ _ _ (· / 4096) σ.toCache))
  rw [fsInit_eq h1 m1] at h
  rw [← hv]
  split at h
  · cases h
  rename_i hmagic
  split at h
  · cases h
  split at h
  · cases h
  obtain ⟨hres, -⟩ := checkBitmap_passed (show σ₁.withPointers.super = true from rfl) rfl m1 h
  exact ⟨not_not.1 hmagic, by omega, by omega, fun b _ hb => hres b hb⟩

theorem fsInit_total (hmagic : σ.platter.load32 4096 = fsMagic) (hc : Checked σ.platter) :
    ∃ σ', (σ.reboot R).fsInit = some σ' := by
  obtain ⟨σ₁, h1, e1, m1, v1, -⟩ := (reboot_early hg R).bcInit h0
  have hv : σ₁.view = σ.platter := v1.trans (Bytes.ext (@Cache.view_crash _ _ _ (· / 4096) σ.toCache))
  rw [← hv] at hmagic hc hR
  obtain ⟨σ₂, h2, -⟩ := (e1.ready m1 hc hR).checkBitmap_total
  refine ⟨σ₂, ?_⟩
  rw [fsInit_eq h1 m1, if_neg (not_not.2 hmagic), if_neg (Nat.not_lt.2 hc.size), if_neg (Nat.not_le.2 hc.two)]
  exact h2

/-- **`fs_init` succeeds exactly** where the super block has the magic number, and it and the bitmap are
sound. -/
theorem fsInit_iff : (∃ σ', (σ.reboot R).fsInit = some σ') ↔
    σ.platter.load32 4096 = fsMagic ∧ Checked σ.platter :=
  ⟨fun ⟨_, h⟩ => fsInit_checked hg h0 h, fun h => fsInit_total hg hR h0 h.1 h.2⟩

omit hg hR h0 in
/-- On a disk of eight blocks. -/
theorem fsInit_iff_bin : (∃ σ', ((start binImage 8).reboot 8).fsInit = some σ') ↔
    binImage.load32 4096 = fsMagic ∧ Checked binImage :=
  have hn : nblocks binImage = 8 := by decide +kernel
  fsInit_iff (fun _ => rfl) hn.le (by decide)

end Jos.Fs.Bc

namespace Jos.Fs

open Lib Io

/-! ## The server from power on -/

section Boot

variable {σ : Bc} {R : ℕ} {os os' : List Op} (hg : ∀ s, σ.bad s = false) (hc : Consistent σ.platter)
  (hmagic : σ.platter.load32 4096 = Bc.fsMagic) (htwo : 2 < nblocks σ.platter) (hR : nblocks σ.platter ≤ R)
include hg hc hmagic htwo hR

theorem boot_ready : ∃ σ₀, (σ.reboot R).fsInit = some σ₀ ∧ σ₀.Ready ∧ σ₀.Coherent (· / 4096) ∧
    σ₀.view = σ.platter ∧ σ₀.platter = σ.platter := by
  have hchecked : Checked σ.platter := ⟨htwo, hc.super, fun b hb hr => (hc.bitmap b hb hr).2⟩
  obtain ⟨σ₀, h⟩ := Bc.fsInit_total hg hR (by omega) hmagic hchecked
  obtain ⟨h1, h2, h3, h4, -⟩ := Bc.fsInit_ready hg hR (by omega) h
  exact ⟨σ₀, h, h1, h2, h3, h4⟩

end Boot

theorem binImage_boot : binImage.load32 4096 = Bc.fsMagic ∧ nblocks binImage = 8 := by
  constructor <;> decide +kernel

end Jos.Fs
