import Jos.Proof.Leaks
import Jos.Proof.Orderly

/-!
# Unused entries

`dir_alloc_file` gives an entry as it was left, and `file_create` writes only the name to it. What a
created file is like is therefore decided by the calls before: `Vacant` says that each `struct File`
without a name is an empty regular file (`Blank`), and that no file has blocks past its size, which is
what `file_truncate_blocks` relies on. Adding blocks to files below their size, setting the size of a
file with a name, giving names, writing data and dropping blocks all keep it, and so does
`file_remove` where the file is a regular one.
-/

namespace Jos.Fs

open Lib

variable {d d' d₁ : Bytes} {s : Slot} {b f g m n q : ℕ} {z : ℤ} {bs : List Byte}

/-- `FTYPE_REG`. -/
def ftypeReg : BitVec 32 := 0

/-- **An empty regular file.** -/
structure Blank (d : Bytes) (f : ℕ) : Prop where
  size : fSize d f = 0
  type : fType d f = ftypeReg
  slot : ∀ s, slotBlock d f s = 0

theorem Blank.of_head (h : Blank d f) (hhd : SameHead f d d') (hs : ∀ s, slotBlock d' f s = slotBlock d f s) :
    Blank d' f :=
  ⟨hhd.fSize_eq.trans h.size, hhd.fType_eq.trans h.type, fun s => (hs s).trans (h.slot s)⟩

theorem fType_blank (h : ∀ x, f ≤ x → x < f + 256 → d.byte x = 0) : fType d f = ftypeReg := by
  have h1 : d.load32 (f + 132) = (d.zero f 256).load32 (f + 132) :=
    Bytes.load32_congr fun i hi => by
      rw [h _ (by omega) (by omega), Bytes.byte_zero_in (by omega) (by omega)]
  unfold fType
  rw [h1, Bytes.load32_zero_in (by omega) (by omega)]
  rfl

/-- The entries without a name are empty regular files, and no file has blocks past its size. -/
structure Vacant (d : Bytes) : Prop where
  valid : Valid sRoot true d
  size : ∀ f, (tree sRoot true d).Linked (.file f) → 0 ≤ fSize d f
  past : ∀ f n, (tree sRoot true d).Linked (.file f) → sizeBlocks (fSize d f) ≤ n → fileBlock d f n = 0
  unused : ∀ f, (tree sRoot true d).Linked (.file f) → ¬ Named d f → Blank d f

namespace Vacant

/-- A write that misses the layout: only names and sizes are left to check. -/
theorem same (h : Same sRoot true d d') (hv : Valid sRoot true d')
    (h0 : ∀ f, (tree sRoot true d).Linked (.file f) → 0 ≤ fSize d' f)
    (h1 : ∀ f n, (tree sRoot true d).Linked (.file f) → sizeBlocks (fSize d' f) ≤ n → fileBlock d f n = 0)
    (h2 : ∀ f, (tree sRoot true d).Linked (.file f) → ¬ Named d' f →
      fSize d' f = 0 ∧ fType d f = ftypeReg ∧ ∀ s, slotBlock d f s = 0) : Vacant d' where
  valid := hv
  size f hf := h0 f (h.linked.1 hf)
  past f n hf hn := by
    have hf' := h.linked.1 hf
    exact (h.slotBlock_eq hf').trans (h1 f n hf' hn)
  unused f hf hn := by
    have hf' := h.linked.1 hf
    obtain ⟨h3, h4, h5⟩ := h2 f hf' hn
    exact ⟨h3, (h.type hf').trans h4, fun s => (h.slotBlock_eq hf').trans (h5 s)⟩

variable (hv : Vacant d)
include hv

/-! ## Adding blocks -/

/-- **A block may be added to a file with a name, below its size.** The entries in it are blank. -/
theorem add (h : AddStep Below sRoot true d d') : Vacant d' := by
  have hs := hv.valid.sound
  obtain ⟨g, m, t, -, ⟨hgn, -⟩, -, hsame⟩ := h.slot_new hs
  refine ⟨h.valid hv.valid, ?_, ?_, ?_⟩
  · intro f hf
    rcases h.blank hs hf with hf' | ⟨-, h1⟩
    · rw [(h.head hs hf').fSize_eq]
      exact hv.size f hf'
    · have h2 : fSize d' f = 0 := fSize_blank h1
      rw [h2]
  · intro f n hf hn
    by_contra h0
    obtain ⟨hf', h1⟩ := h.fileBlock_new hs hf h0
    rw [(h.head hs hf').fSize_eq] at hn
    rcases h1 with h1 | ⟨-, h1⟩
    · exact h1 (hv.past f n hf' hn)
    · omega
  · intro f hf hn
    rcases h.blank hs hf with hf' | ⟨h1, h2⟩
    · have hhd := h.head hs hf'
      unfold Named at hn
      rw [hhd.nameFree_eq] at hn
      apply (hv.unused f hf' hn).of_head hhd
      -- the block went to a file with a name
      intro s
      apply hsame f s hf'
      rintro ⟨rfl, -⟩
      exact hn hgn
    · exact ⟨fSize_blank h2, fType_blank h2, fun _ => slots_of_val h1⟩

theorem adds (h : Adds Below sRoot true d d') : Vacant d' :=
  (h.rule hv.valid (I := Vacant) hv fun _ _ _ h1 h2 => h1.add h2).2

/-! ## Sizes, names and data -/

/-- Setting the size of a file with a name, which has no block past it. -/
theorem setFSize (hf : (tree sRoot true d).Linked (.file f)) (hn : Named d f) (h0 : 0 ≤ z) (h1 : z < 2 ^ 31)
    (hz : ∀ n, sizeBlocks z ≤ n → fileBlock d f n = 0) : Vacant (Fs.setFSize d f z) := by
  have hother : ∀ {g}, (tree sRoot true d).Linked (.file g) → g ≠ f → SameHead g d (Fs.setFSize d f z) :=
    fun hg hne => hv.valid.sound.head_write hf (by omega) (by simp) hg hne
  refine same (hv.valid.sound.same_size hf) (hv.valid.setFSize hf fun _ => ⟨h0, h1⟩) ?_ ?_ ?_
  · intro g hg
    by_cases he : g = f
    · rw [he, fSize_setFSize h0 h1]
      exact h0
    · rw [(hother hg he).fSize_eq]
      exact hv.size g hg
  · intro g n hg hm
    by_cases he : g = f
    · rw [he, fSize_setFSize h0 h1] at hm
      rw [he]
      exact hz n hm
    · rw [(hother hg he).fSize_eq] at hm
      exact hv.past g n hg hm
  · intro g hg hm
    have hne : g ≠ f := by
      rintro rfl
      exact hm (named_setFSize hv.valid.sound hf hf hn)
    have hhd := hother hg hne
    unfold Named at hm
    rw [hhd.nameFree_eq] at hm
    have h2 := hv.unused g hg hm
    exact ⟨hhd.fSize_eq.trans h2.size, h2.type, h2.slot⟩

/-- Writing a name. It may be cleared where the file is blank. -/
theorem setName (hf : (tree sRoot true d).Linked (.file f)) (hl : bs.length ≤ 128)
    (hn : Named (d.write f bs) f ∨ Blank d f) : Vacant (d.write f bs) := by
  have hother : ∀ {g}, (tree sRoot true d).Linked (.file g) → g ≠ f → SameHead g d (d.write f bs) :=
    fun hg hne => hv.valid.sound.head_write hf le_rfl (by omega) hg hne
  have hsize : ∀ {g}, (tree sRoot true d).Linked (.file g) → fSize (d.write f bs) g = fSize d g := by
    intro g hg
    by_cases he : g = f
    · rw [he]
      unfold fSize
      rw [Bytes.load32_write_off (by omega)]
    · exact (hother hg he).fSize_eq
  refine same (hv.valid.sound.same_head hf le_rfl (by omega)) (hv.valid.setName hf hl) ?_ ?_ ?_
  · intro g hg
    rw [hsize hg]
    exact hv.size g hg
  · intro g n hg hm
    rw [hsize hg] at hm
    exact hv.past g n hg hm
  · intro g hg hm
    rw [hsize hg]
    have h1 : Blank d g := by
      by_cases he : g = f
      · rw [he] at hm ⊢
        exact hn.resolve_left hm
      · unfold Named at hm
        rw [(hother hg he).nameFree_eq] at hm
        exact hv.unused g hg hm
    exact ⟨h1.size, h1.type, h1.slot⟩

/-- Writing to a data block. -/
theorem data (hf : (tree sRoot true d).Linked (.file f)) (ho : opens true d f = false) (h0 : fileBlock d f n ≠ 0)
    (h1 : fileBlock d f n * 4096 ≤ q) (h2 : q + bs.length ≤ (fileBlock d f n + 1) * 4096) :
    Vacant (d.write q bs) := by
  have hhd : ∀ {g}, (tree sRoot true d).Linked (.file g) → SameHead g d (d.write q bs) :=
    fun hg => hv.valid.sound.head_block hf ho h0 h1 h2 hg
  refine same (hv.valid.sound.same_block hf ho h0 h1 h2)
    ((Move.data (P := Below) hf ho h0 h1 h2).valid hv.valid) ?_ ?_ ?_
  · intro g hg
    rw [(hhd hg).fSize_eq]
    exact hv.size g hg
  · intro g m hg hm
    rw [(hhd hg).fSize_eq] at hm
    exact hv.past g m hg hm
  · intro g hg hm
    unfold Named at hm
    rw [(hhd hg).nameFree_eq] at hm
    have h3 := hv.unused g hg hm
    exact ⟨(hhd hg).fSize_eq.trans h3.size, h3.type, h3.slot⟩

/-! ## Dropping blocks -/

theorem drops (hf : (tree sRoot true d).Linked (.file f)) (h : Drops f m d d') : Vacant d' := by
  refine (h.rule hv.valid hf (I := Vacant) hv ?_).2.2
  intro d₁ d₂ hv₁ hf₁ h1 h2
  have hs := hv₁.sound
  have hmono : ∀ {g}, (tree sRoot true d₂).Linked (.file g) → (tree sRoot true d₁).Linked (.file g) :=
    fun hg => h2.linked_mono hs hf₁ hg
  have hzero : ∀ {g s}, (tree sRoot true d₂).Linked (.file g) → slotBlock d₁ g s = 0 → slotBlock d₂ g s = 0 := by
    intro g s hg h3
    by_contra h4
    exact h4 ((h2.slot_mono hs hf₁ hg h4).symm.trans h3)
  refine ⟨h2.valid hs hf₁ hv₁, ?_, ?_, ?_⟩
  · intro g hg
    rw [(h2.head hs hf₁ (hmono hg)).fSize_eq]
    exact h1.size g (hmono hg)
  · intro g n hg hn
    rw [(h2.head hs hf₁ (hmono hg)).fSize_eq] at hn
    exact hzero hg (h1.past g n (hmono hg) hn)
  · intro g hg hn
    have hhd := h2.head hs hf₁ (hmono hg)
    unfold Named at hn
    rw [hhd.nameFree_eq] at hn
    have h3 := h1.unused g (hmono hg) hn
    exact ⟨hhd.fSize_eq.trans h3.size, hhd.fType_eq.trans h3.type, fun s => hzero hg (h3.slot s)⟩

/-- **`file_set_size`** of a file with a name. -/
theorem fileSetSize (hf : (tree sRoot true d).Linked (.file f)) (hn : Named d f) (h0 : 0 ≤ z) (h1 : z < 2 ^ 31)
    (h : Fs.fileSetSize d f z = some d') : Vacant d' := by
  unfold Fs.fileSetSize at h
  split at h
  · obtain ⟨d₁, h2, rfl⟩ := Option.map_eq_some_iff.1 h
    obtain ⟨hD, h3, -⟩ := fileTruncateBlocks_drops hv.valid hf h2
    have hn₁ : Named d₁ f := by
      unfold Named at *
      rw [(hD.head hv.valid hf).nameFree_eq]
      exact hn
    apply (hv.drops hf hD).setFSize (hD.valid hv.valid hf).2 hn₁ h0 h1
    intro n hm
    by_cases h4 : n < sizeBlocks (fSize d f)
    · exact h3 n hm h4
    · exact hD.slot_zero hv.valid hf (hv.past f n hf (by omega))
  · obtain rfl := Option.some.inj h
    apply hv.setFSize hf hn h0 h1
    intro n hm
    apply hv.past f n hf
    rw [sizeBlocks_eq (hv.size f hf) (fSize_lt d f)]
    rw [sizeBlocks_eq h0 h1] at hm
    omega

/-- **After `file_truncate_blocks` to nothing** no slot of the file holds a block. -/
theorem truncated (hf : (tree sRoot true d).Linked (.file f)) (h : fileTruncateBlocks d f 0 = some d')
    (s : Slot) : slotBlock d' f s = 0 := by
  obtain ⟨hD, h1, h2⟩ := fileTruncateBlocks_drops hv.valid hf h
  by_contra h3
  by_cases hs : s = .fIndirect
  · subst hs
    exact h3 (h2 (Nat.zero_le 10))
  · obtain ⟨n, rfl⟩ := data_of_slot h3 hs
    apply h3
    by_cases h4 : n < sizeBlocks (fSize d f)
    · exact h1 n (Nat.zero_le n) h4
    · exact hD.slot_zero hv.valid hf (hv.past f n hf (by omega))

end Vacant

end Jos.Fs
