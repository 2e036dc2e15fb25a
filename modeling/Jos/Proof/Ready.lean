import Jos.Proof.Durable
import Jos.Spec.FsInit

/-!
# The block cache does not panic

A cache is `Ready` if the drive has no bad sectors, the kernel has a page for every block that is
not in memory, and the super block and the bitmap are sound. Then faults on blocks in use nest at
most three deep and do not panic (`touch_total`). `guardExec` is the plain memory that accepts only
accesses to blocks in use: what runs there runs on the cache (`guarded_total`).
-/

namespace Jos.Fs

open Lib

variable {σ σ' : Bc} {a b n k : ℕ} {d : Bytes}

/-- What `check_super` and `check_bitmap` check, but for the magic number. -/
structure Checked (d : Bytes) : Prop where
  two : 2 < nblocks d
  size : nblocks d ≤ diskSize / 4096
  reserved : ∀ b < nblocks d, Reserved d b → blockIsFree d b = false

namespace Bc

/-- The number of blocks that are not in memory. -/
def absent (σ : Bc) : ℕ := ((Finset.range (nblocks σ.view)).filter fun b => σ.mapped b = false).card

structure Ready (σ : Bc) : Prop where
  good : ∀ s, σ.bad s = false
  checked : Checked σ.view
  room : σ.absent ≤ σ.room
  super : σ.super = true
  one : σ.mapped 1 = true

/-! ## Faults -/

theorem insw_total (secno dst n : ℕ) (hg : ∀ s, σ.bad s = false) :
    ∃ σ', (List.range n).foldlM (insw secno dst) σ = some σ' := by
  obtain ⟨σ', h, -⟩ := range_total (n := n) (f := insw secno dst) (P := fun _ σ => ∀ s, σ.bad s = false)
    (fun i _ σ hσ => ⟨_, if_neg (by rw [hσ]; exact Bool.false_ne_true), hσ⟩) hg
  exact ⟨σ', h⟩

theorem outsw_total (secno src n : ℕ) (hg : ∀ s, σ.bad s = false) :
    ∃ σ', (List.range n).foldlM (outsw secno src) σ = some σ' := by
  obtain ⟨σ', h, -⟩ := range_total (n := n) (f := outsw secno src) (P := fun _ σ => ∀ s, σ.bad s = false)
    (fun i _ σ hσ => ⟨_, if_neg (by rw [hσ]; exact Bool.false_ne_true), hσ⟩) hg
  exact ⟨σ', h⟩

theorem load_total (hg : ∀ s, σ.bad s = false) (h0 : σ.room ≠ 0) :
    ∃ σ₁ σ₂, σ.sysPageAlloc b = some σ₁ ∧ σ₁.ideRead (b * 8) (b * 4096) 8 = some σ₂ := by
  obtain ⟨σ₁, h1, hg₁⟩ : ∃ σ₁, σ.sysPageAlloc b = some σ₁ ∧ ∀ s, σ₁.bad s = false := ⟨_, if_neg h0, hg⟩
  obtain ⟨σ₂, h2⟩ := insw_total (b * 8) (b * 4096) 8 hg₁
  exact ⟨σ₁, σ₂, h1, h2⟩

theorem fillBlock_absent (hm : σ.mapped b = false) (hb : b < nblocks σ.view) :
    (σ.fillBlock b).absent + 1 = σ.absent := by
  have hset : ((Finset.range (nblocks (σ.fillBlock b).view)).filter fun c => (σ.fillBlock b).mapped c = false) =
      ((Finset.range (nblocks σ.view)).filter fun c => σ.mapped c = false).erase b := by
    rw [(fillBlock_fills hm).1.view]
    ext c
    rw [Finset.mem_erase, Finset.mem_filter, Finset.mem_filter]
    by_cases hc : c = b
    · simp [hc, (fillBlock_fills hm).2]
    · have h1 : (σ.fillBlock b).mapped c = σ.mapped c := if_neg hc
      simp [hc, h1]
  unfold absent
  rw [hset]
  exact Finset.card_erase_add_one (Finset.mem_filter.2 ⟨Finset.mem_range.2 hb, hm⟩)

theorem Ready.fillBlock (hr : Ready σ) (hm : σ.mapped b = false) (hb : b < nblocks σ.view) :
    Ready (σ.fillBlock b) where
  good := hr.good
  checked := by
    rw [(fillBlock_fills hm).1.view]
    exact hr.checked
  room := by
    have h1 := fillBlock_absent hm hb
    have h2 := hr.room
    have h3 : (σ.fillBlock b).room = σ.room - 1 := rfl
    omega
  super := hr.super
  one := ((fillBlock_fills hm).1.fills.mapped hr.one).1

/-- The block of the bitmap that has the bit of a block. -/
theorem bitmapWord_block : bitmapWord (b / 32) / 4096 = 2 + b / 32768 := by
  unfold bitmapWord
  omega

theorem nblocks_pages (h1 : σ.mapped 1 = true) : nblocks σ.pages = nblocks σ.view :=
  congrArg BitVec.toNat (pages_load32 (a := 4100) h1 (by decide))

theorem blockIsFree_pages (h1 : σ.mapped 1 = true) (hm : σ.mapped (2 + b / 32768) = true) :
    blockIsFree σ.pages b = blockIsFree σ.view b := by
  have hw : σ.pages.load32 (bitmapWord (b / 32)) = σ.view.load32 (bitmapWord (b / 32)) :=
    pages_load32 (by rw [bitmapWord_block]; exact hm) (by unfold bitmapWord; omega)
  unfold blockIsFree
  rw [nblocks_pages h1, hw]

theorem Ready.readSuper_eq {touch : ℕ → Bc → Option Bc} (hr : Ready σ) (ht : touch 1 σ = some σ) :
    readSuper touch σ = some σ := by
  unfold readSuper
  rw [if_pos hr.super, ht]

/-- The test of a block in use passes. -/
theorem Ready.checkInUse_total {touch : ℕ → Bc → Option Bc} (hr : Ready σ) (ht : touch 1 σ = some σ)
    (hu : blockIsFree σ.view b = false)
    (hbit : b < nblocks σ.view → ∃ σ', touch (2 + b / 32768) σ = some σ' ∧ Ready σ' ∧ FillsTo σ σ' ∧
      σ'.mapped (2 + b / 32768) = true) :
    ∃ σ', checkInUse touch b σ = some σ' ∧ Ready σ' ∧ FillsTo σ σ' := by
  unfold checkInUse
  by_cases hbm : (σ.bitmap && σ.super) = true
  · rw [if_pos hbm, ht]
    dsimp only [Option.bind_eq_bind, Option.bind_some]
    by_cases hb : b < nblocks σ.view
    · obtain ⟨σ', h1, hr', hf, hm⟩ := hbit hb
      rw [if_pos (by rw [nblocks_pages hr.one]; exact hb), bitmapWord_block, h1]
      dsimp only [Option.bind_some]
      rw [blockIsFree_pages hr'.one hm, hf.view, hu, if_neg Bool.false_ne_true]
      exact ⟨σ', rfl, hr', hf⟩
    · rw [if_neg (by rw [nblocks_pages hr.one]; exact hb)]
      exact ⟨σ, rfl, hr, .refl⟩
  · rw [if_neg hbm]
    exact ⟨σ, rfl, hr, .refl⟩

/-- **A fault** on a block in use, if a fault on its bitmap block may nest. -/
theorem Ready.bcPgfault_total (hr : Ready σ) (hm : σ.mapped b = false) (hb : b < nblocks σ.view)
    (hu : blockIsFree σ.view b = false)
    (hbit : ∀ σ₁, Ready σ₁ → σ₁.view = σ.view → σ₁.mapped b = true → σ₁.mapped (2 + b / 32768) = false →
      ∃ σ₂, bcPgfault n (2 + b / 32768) σ₁ = some σ₂ ∧ Ready σ₂) :
    ∃ σ', bcPgfault (n + 1) b σ = some σ' ∧ Ready σ' := by
  have hsize := hr.checked.size
  have habs := fillBlock_absent hm hb
  obtain ⟨σ₁, σ₂, h1, h2⟩ := load_total (b := b) hr.good (by have := hr.room; omega)
  have hr' := hr.fillBlock hm hb
  have hcheck : ∃ σ', checkInUse (fun c σ => if σ.mapped c then some σ else bcPgfault n c σ) b (σ.fillBlock b) =
      some σ' ∧ Ready σ' ∧ FillsTo (σ.fillBlock b) σ' := by
    have hview := (fillBlock_fills hm).1.view
    refine hr'.checkInUse_total (if_pos hr'.one) (by rw [hview]; exact hu) fun _ => ?_
    cases hc : (σ.fillBlock b).mapped (2 + b / 32768) with
    | true => exact ⟨_, if_pos rfl, hr', .refl, hc⟩
    | false =>
      obtain ⟨σ₃, h3, hr₃⟩ := hbit _ hr' hview (fillBlock_fills hm).2 hc
      obtain ⟨hf, hm₃⟩ := bcPgfault_fills hc h3
      exact ⟨σ₃, (if_neg Bool.false_ne_true).trans h3, hr₃, hf, hm₃⟩
  obtain ⟨σ', h3, hr₃, -⟩ := hcheck
  refine ⟨σ', ?_, hr₃⟩
  have hsuper : ¬ (σ.super && decide (b ≥ nblocks σ.pages)) = true := by
    rw [nblocks_pages hr.one, decide_eq_false (by omega), Bool.and_false]
    exact Bool.false_ne_true
  unfold bcPgfault
  dsimp only
  unfold diskSize at hsize ⊢
  rw [if_neg (by omega), hr.readSuper_eq (if_pos hr.one)]
  dsimp only [Option.bind_eq_bind, Option.bind_some]
  rw [if_neg hsuper, h1]
  dsimp only [Option.bind_some]
  rw [h2]
  dsimp only [Option.bind_some]
  rw [load_eq (by unfold diskSize; omega) h1 h2]
  exact h3

/-- The blocks of the bitmap are in use. -/
theorem Ready.bitmap_inUse (hr : Ready σ) (hb : b < nblocks σ.view) :
    2 + b / 32768 < nblocks σ.view ∧ blockIsFree σ.view (2 + b / 32768) = false := by
  have htwo := hr.checked.two
  have hlt : 2 + b / 32768 < nblocks σ.view := by omega
  exact ⟨hlt, hr.checked.reserved _ hlt (Or.inr ⟨by omega, by omega⟩)⟩

/-- **An access to a block in use does not panic**: the fault, the one on the bitmap block that has
the bit of the block, and the one on the first bitmap block. -/
theorem Ready.touch_total (hr : Ready σ) (hb : b < nblocks σ.view) (hu : blockIsFree σ.view b = false) :
    ∃ σ', touch b σ = some σ' ∧ Ready σ' := by
  unfold touch
  cases hm : σ.mapped b with
  | true => exact ⟨σ, rfl, hr⟩
  | false =>
    have hsize : nblocks σ.view ≤ 0xC0000000 / 4096 := hr.checked.size
    refine hr.bcPgfault_total hm hb hu fun σ₁ hr₁ hv₁ _ hm₁ => ?_
    obtain ⟨hb₁, hu₁⟩ := hr₁.bitmap_inUse (by rw [hv₁]; exact hb)
    refine hr₁.bcPgfault_total hm₁ hb₁ hu₁ fun σ₂ hr₂ hv₂ _ hm₂ => ?_
    have htwo : 2 + (2 + b / 32768) / 32768 = 2 := by omega
    obtain ⟨hb₂, hu₂⟩ := hr₂.bitmap_inUse (by rw [hv₂]; exact hb₁)
    refine hr₂.bcPgfault_total hm₂ hb₂ hu₂ fun σ₃ _ _ h4 h5 => ?_
    rw [htwo] at h4 h5
    rw [h4] at h5
    cases h5

theorem Ready.touches_total {s : List ℕ} (hr : Ready σ) (hs : ∀ b ∈ s, InUse σ.view b) :
    ∃ σ', s.foldlM (fun σ b => touch b σ) σ = some σ' ∧ Ready σ' ∧ FillsTo σ σ' := by
  obtain ⟨σ', h, hr', hf⟩ := loop_total (l := s) (f := fun σ b => touch b σ) (b := σ)
    (P := fun _ σ' => Ready σ' ∧ FillsTo σ σ') (fun xs b ys σ₁ he h1 => by
      obtain ⟨hb, hu⟩ := hs b (by rw [he]; simp)
      obtain ⟨σ₂, h2, hr₂⟩ := h1.1.touch_total (by rw [h1.2.view]; exact hb) (by rw [h1.2.view]; exact hu)
      exact ⟨σ₂, h2, hr₂, h1.2.trans (touch_fills h2).1⟩) ⟨hr, .refl⟩
  exact ⟨σ', h, hr', hf⟩

/-! ## Accesses -/

/-- The accesses for which a cache that is ready does not panic. -/
def Good : Acc → Bytes → Prop
  | .read a n, d => ∀ b ∈ blocksOf a n, InUse d b
  | .write a bs, d => (∀ b ∈ blocksOf a bs.length, InUse d b) ∧ Checked (d.write a bs) ∧ 4104 ≤ a
  | .flush a, _ => a < diskSize
  | .panic, _ => False

/-- A store above the super block's first words does not change the number of blocks. -/
theorem nblocks_write {bs : List Byte} (ha : 4104 ≤ a) : nblocks (d.write a bs) = nblocks d := by
  unfold nblocks
  rw [Bytes.load32_write_off (by omega)]

/-- A state that differs in what it holds only. -/
theorem Ready.congr (hr : Ready σ) (hbad : σ'.bad = σ.bad) (hroom : σ'.room = σ.room)
    (hsuper : σ'.super = σ.super) (hmapped : σ'.mapped = σ.mapped) (hc : Checked σ'.view)
    (hn : nblocks σ'.view = nblocks σ.view) : Ready σ' where
  good := by
    rw [hbad]
    exact hr.good
  checked := hc
  room := by
    have h1 : σ'.absent = σ.absent := by
      unfold absent
      rw [hn, hmapped]
    rw [h1, hroom]
    exact hr.room
  super := hsuper.trans hr.super
  one := by
    rw [hmapped]
    exact hr.one

theorem Ready.flushBlock_total (hr : Ready σ) (ha : a < diskSize) :
    ∃ σ', σ.flushBlock a = some σ' ∧ Ready σ' := by
  have hrun : ∃ σ', σ.flushBlock a = some σ' := by
    obtain ⟨σ₁, h1⟩ := outsw_total (a / 4096 * 8) (a / 4096 * 4096) 8 hr.good
    have h2 : σ.ideWrite (a / 4096 * 8) (a / 4096 * 4096) 8 = some σ₁ := h1
    unfold flushBlock
    rw [if_neg (Nat.not_le.2 ha)]
    split
    · exact ⟨σ, rfl⟩
    · rw [h2]
      exact ⟨_, rfl⟩
  obtain ⟨σ', h⟩ := hrun
  refine ⟨σ', h, ?_⟩
  rcases (flushBlock_cases h).2 with ⟨rfl, -⟩ | ⟨hm, rfl⟩
  · exact hr
  · have hview : view { σ with toCache := σ.toCache.flush (· / 4096) (a / 4096) } = σ.view :=
      Bytes.ext (Cache.view_flush hm)
    exact hr.congr rfl rfl rfl rfl (by rw [hview]; exact hr.checked) (by rw [hview])

/-- **A good access does not panic.** -/
theorem Ready.exec_total {c : Acc} (hr : Ready σ) (hco : σ.Coherent (· / 4096)) (hg : Good c σ.view) :
    ∃ r σ', exec c σ = some (r, σ') ∧ Ready σ' := by
  cases c with
  | read a n =>
    obtain ⟨σ₁, h1, hr₁, -⟩ := hr.touches_total hg
    exact ⟨_, σ₁, Option.bind_eq_some_iff.2 ⟨σ₁, h1, rfl⟩, hr₁⟩
  | write a bs =>
    obtain ⟨σ₁, h1, hr₁, hf⟩ := hr.touches_total hg.1
    have h2 := exec_write h1
    obtain ⟨-, h3⟩ := Prod.mk.inj (Option.some.inj (exec_flat hco h2).1)
    refine ⟨_, σ₁.stored a bs, h2, hr₁.congr rfl rfl rfl rfl ?_ ?_⟩
    · rw [← h3]
      exact hg.2.1
    · rw [← h3, hf.view]
      exact nblocks_write hg.2.2
  | flush a =>
    obtain ⟨σ₁, h1, hr₁⟩ := hr.flushBlock_total hg
    exact ⟨(), σ₁, congrArg (Option.map fun σ => ((), σ)) h1, hr₁⟩
  | panic => exact hg.elim

/-- What is seen of the first words of the super block does not change, and block 0 and the blocks past
the end stay on the disk as they are seen. -/
structure Quiet (σ σ' : Bc) : Prop where
  low : ∀ x < 4104, σ'.view.byte x = σ.view.byte x
  off : ∀ b, b = 0 ∨ nblocks σ.view ≤ b → Io.OnDisk σ b → Io.OnDisk σ' b

theorem Quiet.refl : Quiet σ σ := ⟨fun _ _ => rfl, fun _ _ => id⟩

theorem Quiet.load32 (h : Quiet σ σ') (ha : a ≤ 4100) : σ'.view.load32 a = σ.view.load32 a :=
  Bytes.load32_congr fun i hi => h.low (a + i) (by omega)

theorem Quiet.nblocks_eq (h : Quiet σ σ') : nblocks σ'.view = nblocks σ.view :=
  congrArg BitVec.toNat (h.load32 le_rfl)

theorem Quiet.trans {σ₁ : Bc} (h : Quiet σ σ₁) (h' : Quiet σ₁ σ') : Quiet σ σ' :=
  ⟨fun x hx => (h'.low x hx).trans (h.low x hx),
    fun b hb h0 => h'.off b (by rwa [h.nblocks_eq]) (h.off b hb h0)⟩

theorem exec_quiet {c : Acc} {r : c.Result} (hco : σ.Coherent (· / 4096)) (hg : Good c σ.view)
    (h : exec c σ = some (r, σ')) : Quiet σ σ' := by
  have hflat := (exec_flat hco h).1
  cases c with
  | read a n =>
    obtain ⟨-, hv⟩ := Prod.mk.inj (Option.some.inj hflat)
    refine ⟨fun x _ => by rw [← hv], fun b _ h0 x hx => ?_⟩
    rw [← hv, ← h0 x hx]
    exact exec_disk h fun a' ha' => by cases ha'
  | write a bs =>
    obtain ⟨-, hv⟩ := Prod.mk.inj (Option.some.inj hflat)
    have hlow : ∀ x < 4104, σ'.view.byte x = σ.view.byte x := by
      intro x hx
      have ha := hg.2.2
      rw [← hv]
      exact Bytes.byte_write_off (by omega)
    refine ⟨hlow, fun b hb h0 x hx => ?_⟩
    have hoff : σ'.view.byte x = σ.view.byte x := by
      rcases hb with rfl | hb
      · exact hlow x (by omega)
      · rw [← hv]
        refine Bytes.byte_write_off ?_
        by_contra hin
        have hu := hg.1 (x / 4096) (mem_blocksOf.2 ⟨x, by omega, by omega, rfl⟩)
        exact absurd hu.1 (by omega)
    rw [hoff, ← h0 x hx]
    exact exec_disk h fun a' ha' => by cases ha'
  | flush a =>
    obtain ⟨-, hv⟩ := Prod.mk.inj (Option.some.inj hflat)
    refine ⟨fun x _ => by rw [← hv], fun b _ h0 x hx => ?_⟩
    rw [← hv]
    by_cases ha : a / 4096 = x / 4096
    · exact exec_flush hco h ha
    · rw [← h0 x hx]
      refine exec_disk h fun a' ha' => ?_
      cases ha'
      exact ha
  | panic => exact hg.elim

/-- **Programs of good accesses do not panic**, and compute on the cache what they compute on a plain
memory. -/
theorem guarded_total {α : Type} {p : Prog Acc Acc.Result α} {r : α} (hco : σ.Coherent (· / 4096))
    (hr : Ready σ) (h : p.interp (Prog.guarded Good flatExec) σ.view = some (r, d)) :
    ∃ σ', p.interp exec σ = some (r, σ') ∧ σ'.view = d ∧ σ'.Coherent (· / 4096) ∧ Ready σ' ∧ Quiet σ σ' := by
  have hstep : ∀ (c : Acc) (d : Bytes) (σ₁ : Bc) (r : c.Result) (d' : Bytes),
      σ₁.view = d ∧ σ₁.Coherent (· / 4096) ∧ Ready σ₁ ∧ Quiet σ σ₁ →
        Prog.guarded Good flatExec c d = some (r, d') →
          ∃ σ₂, exec c σ₁ = some (r, σ₂) ∧ σ₂.view = d' ∧ σ₂.Coherent (· / 4096) ∧ Ready σ₂ ∧ Quiet σ σ₂ := by
    rintro c d σ₁ r d' ⟨rfl, hco, hr, hq⟩ h1
    obtain ⟨hg, h2⟩ := Prog.of_guarded h1
    obtain ⟨r', σ₂, h3, hr'⟩ := hr.exec_total hco hg
    obtain ⟨h4, hco'⟩ := exec_flat hco h3
    rw [h2] at h4
    obtain ⟨rfl, rfl⟩ := Prod.mk.inj (Option.some.inj h4)
    exact ⟨σ₂, h3, rfl, hco', hr', hq.trans (exec_quiet hco hg h3)⟩
  exact Prog.interp_sim (E := fun d σ₁ => σ₁.view = d ∧ σ₁.Coherent (· / 4096) ∧ Ready σ₁ ∧ Quiet σ σ₁) hstep h
    ⟨rfl, hco, hr, .refl⟩

end Bc

end Jos.Fs
