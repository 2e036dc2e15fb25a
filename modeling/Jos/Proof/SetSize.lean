import Jos.Proof.Exclusive
import Jos.Proof.Others

/-!
# Setting a size

The exact effect of `file_truncate_blocks`: which places of the file become empty, and which
blocks become free (`fileTruncateBlocks_exact`). From it, `setSize_resized` says for which
32-bit sizes `file_set_size` leaves a file of that size.

`file_set_size` and `serve_set_size` do not check the size, so a negative one and one above
`MAXFILESIZE` are stored as they are.
-/

namespace Jos.Fs

open Lib

variable {root : ℕ} {dirs : Bool} {d d' d₁ : Bytes} {s t : Slot} {b c f m n p : ℕ} {z : ℤ}

/-! ## One block -/

/-- A change of one slot of a file leaves the other slots of the file, except those of an
indirect block that is dropped. -/
theorem slot_off_own (hf : (tree root dirs d).Linked (.file f))
    (ho : Owners.Off (tree root dirs d) (tree root dirs d') (slotRec dirs d f t) t)
    (hst : s ≠ t) (hi : t = .fIndirect → ∀ j, s ≠ .indirect j) :
    slotBlock d' f s = slotBlock d f s := by
  have h2 : slotAddr d' f s = slotAddr d f s := by
    cases s with
    | direct i => rfl
    | fIndirect => rfl
    | indirect j =>
      have h1 : d'.load32 (fIndirect f) = d.load32 (fIndirect f) := by
        refine load32_of_val_eq (r := .file f) (s := .fIndirect) (ho.val _ _ hf ?_) rfl
        rintro ⟨-, h1⟩
        exact hi h1.symm j rfl
      simp only [slotAddr, h1]
  unfold slotBlock
  rw [h2]
  rcases hq : slotAddr d f s with _ | q
  · rfl
  refine congrArg BitVec.toNat (load32_of_val_eq (ho.val _ _ (linked_slotRec hf hq) ?_) (word_of_slotAddr hq))
  exact fun h => hst h.2

/-- What dropping the block in a slot of a file does to the file and to the bitmap. -/
structure Dropped (f : ℕ) (s : Slot) (d d' : Bytes) : Prop where
  empty : slotBlock d' f s = 0
  keep : ∀ t, t ≠ s → (s = .fIndirect → ∀ j, t ≠ .indirect j) → slotBlock d' f t = slotBlock d f t
  free : ∀ c, blockIsFree d' c = true ↔ blockIsFree d c = true ∨ c = slotBlock d f s

theorem DropStep.dropped (hs : Sound root dirs d) (hf : (tree root dirs d).Linked (.file f))
    (ha : slotAddr d f s = some p) (h0 : d.load32 p ≠ 0) (h : DropStep f m d (dropBlock d p)) :
    Dropped f s d (dropBlock d p) := by
  have h1 : (d.load32 p).toNat ≠ 0 := fun h1 => h0 (BitVec.eq_of_toNat_eq h1)
  have hr := linked_slotRec hf ha
  have hp : (slotRec dirs d f s).word s = some p := word_of_slotAddr ha
  have hv : (tree root dirs d).val (slotRec dirs d f s) s = some (d.load32 p).toNat :=
    val_eq_some.2 ⟨p, hp, rfl, h1⟩
  refine ⟨slotBlock_dropBlock hs hf ha h h0,
    fun t ht hi => slot_off_own hf (hs.off_dropBlock hr hp hv) ht hi, fun c => ?_⟩
  rw [hs.blockIsFree_dropBlock hr hp hv, slotBlock_eq ha]
  split <;> simp_all

/-! ## Truncation -/

/-- **The loop of `file_truncate_blocks`** empties the places of the list. -/
theorem freeLoop_exact {is : List ℕ} (hv : Valid root dirs d) (hf : (tree root dirs d).Linked (.file f))
    (h : is.foldlM (fun d bno => (fileFreeBlock d f bno).map (·.2)) d = some d') :
    (∀ n, fileBlock d' f n = if n ∈ is then 0 else fileBlock d f n) ∧
      slotBlock d' f .fIndirect = slotBlock d f .fIndirect ∧
      ∀ c, blockIsFree d' c = true ↔
        blockIsFree d c = true ∨ ∃ n ∈ is, fileBlock d f n = c ∧ c ≠ 0 := by
  induction is generalizing d with
  | nil =>
    cases h
    simp
  | cons i is ih =>
    rw [List.foldlM_cons] at h
    obtain ⟨d₁, h1, h2⟩ := Option.bind_eq_some_iff.1 h
    obtain ⟨⟨res, d₂⟩, h3, rfl⟩ := Option.map_eq_some_iff.1 h1
    rcases fileFreeBlock_cases h3 with ⟨rfl, h4⟩ | ⟨p, hi, ha, h0, rfl⟩
    · have h5 : fileBlock d₂ f i = 0 := by
        by_cases hi : i < 10 + 1024
        · exact h4 hi
        · exact fileBlock_out (by omega)
      obtain ⟨h6, h7, h8⟩ := ih hv hf h2
      refine ⟨fun n => ?_, h7, fun c => (h8 c).trans (or_congr_right ?_)⟩
      · rw [h6]
        by_cases hn : n = i
        · subst hn
          simp [h5]
        · simp [hn]
      · constructor
        · rintro ⟨n, hn, hc⟩
          exact ⟨n, List.mem_cons_of_mem _ hn, hc⟩
        · rintro ⟨n, hn, hc, hc0⟩
          rcases List.mem_cons.1 hn with rfl | hn
          · exact absurd (hc.symm.trans h5) hc0
          · exact ⟨n, hn, hc, hc0⟩
    · have h5 : DropStep f 0 d (dropBlock d p) := .mk ha h0 (Or.inl ⟨i, Nat.zero_le _, rfl⟩)
      have hd := h5.dropped hv.sound hf ha h0
      obtain ⟨h6, h7, h8⟩ := ih (h5.valid hv.sound hf hv) (h5.linked hv.sound hf) h2
      have hne : fileBlock d f i ≠ 0 := by
        unfold fileBlock
        rw [slotBlock_eq ha]
        exact fun h1 => h0 (BitVec.eq_of_toNat_eq h1)
      have hkeep : ∀ n, n ≠ i → fileBlock (dropBlock d p) f n = fileBlock d f n := fun n hn =>
        hd.keep _ (fun h => hn (dataSlot_inj h)) fun h => absurd h dataSlot_ne
      have hi0 : fileBlock (dropBlock d p) f i = 0 := hd.empty
      refine ⟨fun n => ?_, h7.trans (hd.keep _ (Ne.symm dataSlot_ne) fun h => absurd h dataSlot_ne),
        fun c => ?_⟩
      · rw [h6]
        by_cases hn : n = i
        · subst hn
          simp [hi0]
        · simp [hn, hkeep n hn]
      · rw [h8, hd.free]
        constructor
        · rintro ((h9 | rfl) | ⟨n, hn, hc, hc0⟩)
          · exact Or.inl h9
          · exact Or.inr ⟨i, List.mem_cons_self, rfl, hne⟩
          · have hni : n ≠ i := by
              rintro rfl
              exact hc0 (hc.symm.trans hi0)
            exact Or.inr ⟨n, List.mem_cons_of_mem _ hn, (hkeep n hni).symm.trans hc, hc0⟩
        · rintro (h9 | ⟨n, hn, hc, hc0⟩)
          · exact Or.inl (Or.inl h9)
          · by_cases hni : n = i
            · exact Or.inl (Or.inr (by rw [← hc, hni]; rfl))
            · exact Or.inr ⟨n, (List.mem_cons.1 hn).resolve_left hni, (hkeep n hni).trans hc, hc0⟩

/-- An empty `f_indirect` holds no place. -/
theorem fileBlock_of_indirect (h : slotBlock d f .fIndirect = 0) (hn : 10 ≤ n) : fileBlock d f n = 0 := by
  have h1 : d.load32 (fIndirect f) = 0 := BitVec.eq_of_toNat_eq h
  unfold fileBlock slotBlock dataSlot slotAddr
  rw [if_neg (by omega)]
  simp [h1]

/-- **The effect of `file_truncate_blocks`** on the file and on the bitmap. -/
theorem fileTruncateBlocks_exact (hv : Valid root dirs d) (hf : (tree root dirs d).Linked (.file f))
    (h : fileTruncateBlocks d f z = some d') :
    (∀ n, fileBlock d' f n =
      if sizeBlocks z ≤ n ∧ n < sizeBlocks (fSize d f) ∨ sizeBlocks z ≤ 10 ∧ 10 ≤ n then 0 else fileBlock d f n) ∧
    (slotBlock d' f .fIndirect = if sizeBlocks z ≤ 10 then 0 else slotBlock d f .fIndirect) ∧
    ∀ c, blockIsFree d' c = true ↔ blockIsFree d c = true ∨
      (∃ n, sizeBlocks z ≤ n ∧ n < sizeBlocks (fSize d f) ∧ fileBlock d f n = c ∧ c ≠ 0) ∨
      sizeBlocks z ≤ 10 ∧ slotBlock d f .fIndirect = c ∧ c ≠ 0 := by
  obtain ⟨d₁, h1, h2⟩ := Option.bind_eq_some_iff.1 h
  generalize hnew : sizeBlocks z = new at h1 h2 ⊢
  generalize hold : sizeBlocks (fSize d f) = old at h1 ⊢
  have hmem : ∀ n, n ∈ List.range' new (old - new) ↔ new ≤ n ∧ n < old := fun n => by
    rw [List.mem_range'_1]
    omega
  obtain ⟨h3, h4, h5⟩ := freeLoop_exact hv hf h1
  simp only [hmem] at h3 h5
  obtain ⟨hD, -⟩ := freeLoop_drops (m := 0) hv hf (fun _ _ => Nat.zero_le _) h1
  obtain ⟨hv₁, hf₁⟩ := hD.valid hv hf
  -- the indirect block goes last, when no block behind the tenth is left
  by_cases h6 : new ≤ 10 ∧ d₁.load32 (fIndirect f) ≠ 0
  · simp only [if_pos h6] at h2
    obtain ⟨d₂, h7, h8⟩ := Option.bind_eq_some_iff.1 h2
    have h9 : d' = dropBlock d₁ (fIndirect f) := by
      unfold freeBlock at h7
      split at h7
      · cases h7
      · rw [← Option.some.inj h8, ← Option.some.inj h7]
        rfl
    subst h9
    have h10 : DropStep f 0 d₁ (dropBlock d₁ (fIndirect f)) := by
      refine .mk (s := .fIndirect) rfl h6.2 (Or.inr ⟨rfl, by omega, fun n hn hn' => ?_⟩)
      rw [(hD.head hv hf).fSize_eq, hold] at hn'
      rw [h3, if_pos ⟨by omega, hn'⟩]
    have hd := h10.dropped (s := .fIndirect) hv₁.sound hf₁ rfl h6.2
    have hind : slotBlock d f .fIndirect ≠ 0 := by
      rw [← h4]
      exact fun h8 => h6.2 (BitVec.eq_of_toNat_eq h8)
    refine ⟨fun n => ?_, by rw [if_pos h6.1]; exact hd.empty, fun c => ?_⟩
    · by_cases hn : 10 ≤ n
      · rw [if_pos (Or.inr ⟨h6.1, hn⟩)]
        exact fileBlock_of_indirect hd.empty hn
      · have h11 : fileBlock (dropBlock d₁ (fIndirect f)) f n = fileBlock d₁ f n := by
          refine hd.keep _ dataSlot_ne fun _ j => ?_
          unfold dataSlot
          rw [if_pos (by omega)]
          exact nofun
        rw [h11, h3]
        simp [hn]
    · rw [hd.free, h5, h4]
      constructor
      · rintro ((h8 | ⟨n, hn, h8⟩) | rfl)
        · exact Or.inl h8
        · exact Or.inr (Or.inl ⟨n, hn.1, hn.2, h8⟩)
        · exact Or.inr (Or.inr ⟨h6.1, rfl, hind⟩)
      · rintro (h8 | ⟨n, hn, hn', h8⟩ | ⟨-, h8, -⟩)
        · exact Or.inl (Or.inl h8)
        · exact Or.inl (Or.inr ⟨n, ⟨hn, hn'⟩, h8⟩)
        · exact Or.inr h8.symm
  · simp only [if_neg h6] at h2
    obtain rfl := Option.some.inj h2
    have h7 : new ≤ 10 → slotBlock d f .fIndirect = 0 := fun h7 => by
      rw [← h4]
      by_contra h8
      exact h6 ⟨h7, fun h9 => h8 (by show (d₁.load32 (fIndirect f)).toNat = 0; rw [h9]; rfl)⟩
    refine ⟨fun n => ?_, ?_, fun c => ?_⟩
    · rw [h3]
      by_cases h8 : new ≤ n ∧ n < old
      · simp [h8]
      · by_cases h9 : new ≤ 10 ∧ 10 ≤ n
        · simp [h8, h9, fileBlock_of_indirect (h7 h9.1) h9.2]
        · simp [h8, h9]
    · rw [h4]
      split
      · exact h7 (by assumption)
      · rfl
    · rw [h5]
      constructor
      · rintro (h8 | ⟨n, hn, h8⟩)
        · exact Or.inl h8
        · exact Or.inr (Or.inl ⟨n, hn.1, hn.2, h8⟩)
      · rintro (h8 | ⟨n, hn, hn', h8⟩ | ⟨h8, h9, h10⟩)
        · exact Or.inl h8
        · exact Or.inr ⟨n, ⟨hn, hn'⟩, h8⟩
        · exact absurd (h9.symm.trans (h7 h8)) h10

/-! ## Setting a size -/

/-- The number of blocks that a file of size `z` needs. -/
def blocksFor (z : ℤ) : ℕ := (z.toNat + 4095) / 4096

/-- **What `file_set_size` is to do**: the file has the size `z`, the places that it does not
need are empty and their blocks are free, the places that it needs are as they were, and so is
the indirect block if it needs one. -/
structure Resized (d d' : Bytes) (f : ℕ) (z : ℤ) : Prop where
  size : fSize d' f = z
  range : InRange z
  past : ∀ n, blocksFor z ≤ n → fileBlock d' f n = 0 ∧
    (fileBlock d f n ≠ 0 → blockIsFree d' (fileBlock d f n) = true)
  below : ∀ n < blocksFor z, fileBlock d' f n = fileBlock d f n
  table : slotBlock d' f .fIndirect = if 10 < blocksFor z then slotBlock d f .fIndirect else 0

/-- `file_set_size(f, newsize)` gives an error and changes nothing, or does what it is to do.
(It gives 0 always.) -/
def SetSizeOk (d : Bytes) (f : ℕ) (newsize : BitVec 32) : Prop :=
  ∃ r d', (fileSetSize d f newsize.toInt).map (fun d' => ((0 : ℤ), d')) = some (r, d') ∧
    (r < 0 ∧ d' = d ∨ r = 0 ∧ Resized d d' f newsize.toInt)

/-- The size is in range, and the file has no block that the change of size does not see: no
block past both sizes, nor an indirect block at a size that needs none and is not smaller. -/
def SizeFits (d : Bytes) (f : ℕ) (newsize : BitVec 32) : Prop :=
  InRange newsize.toInt ∧
    (∀ n, blocksFor (fSize d f) ≤ n → blocksFor newsize.toInt ≤ n → fileBlock d f n = 0) ∧
    (fSize d f ≤ newsize.toInt → blocksFor newsize.toInt ≤ 10 → slotBlock d f .fIndirect = 0)

/-- What a size in range means for the effect of truncation. -/
theorem fileSetSize_exact (hv : Valid root dirs d) (hf : (tree root dirs d).Linked (.file f))
    (h0 : 0 ≤ fSize d f) (hz : InRange z) (h : fileSetSize d f z = some d') :
    fSize d' f = z ∧
    (∀ n, fileBlock d' f n = if z < fSize d f ∧ (blocksFor z ≤ n ∧ n < blocksFor (fSize d f) ∨
      blocksFor z ≤ 10 ∧ 10 ≤ n) then 0 else fileBlock d f n) ∧
    (slotBlock d' f .fIndirect =
      if z < fSize d f ∧ blocksFor z ≤ 10 then 0 else slotBlock d f .fIndirect) ∧
    ∀ c, blockIsFree d' c = true ↔ blockIsFree d c = true ∨ z < fSize d f ∧
      ((∃ n, blocksFor z ≤ n ∧ n < blocksFor (fSize d f) ∧ fileBlock d f n = c ∧ c ≠ 0) ∨
        blocksFor z ≤ 10 ∧ slotBlock d f .fIndirect = c ∧ c ≠ 0) := by
  obtain ⟨hz0, hz1⟩ := hz
  have hz2 : z < 2 ^ 31 := lt_of_le_of_lt hz1 (by decide)
  unfold fileSetSize at h
  split at h
  · rename_i hlt
    obtain ⟨d₁, h1, rfl⟩ := Option.map_eq_some_iff.1 h
    obtain ⟨h2, h3, h4⟩ := fileTruncateBlocks_exact hv hf h1
    obtain ⟨hD, -, -⟩ := fileTruncateBlocks_drops hv hf h1
    obtain ⟨hv₁, hf₁⟩ := hD.valid hv hf
    have hsame : Same root dirs d₁ (setFSize d₁ f z) := hv₁.sound.same_size hf₁
    rw [sizeBlocks_eq hz0 hz2, sizeBlocks_eq h0 (fSize_lt d f)] at h2 h4
    rw [sizeBlocks_eq hz0 hz2] at h3
    unfold blocksFor
    refine ⟨fSize_setFSize hz0 hz2, fun n => ?_, ?_, fun c => ?_⟩
    · rw [show fileBlock (setFSize d₁ f z) f n = fileBlock d₁ f n from hsame.slotBlock_eq hf₁, h2]
      simp [hlt]
    · rw [hsame.slotBlock_eq hf₁, h3]
      simp [hlt]
    · rw [hsame.free, h4]
      simp [hlt]
  · rename_i hlt
    obtain rfl := Option.some.inj h
    have hsame : Same root dirs d (setFSize d f z) := hv.sound.same_size hf
    refine ⟨fSize_setFSize hz0 hz2, fun n => ?_, ?_, fun c => ?_⟩
    · rw [show fileBlock (setFSize d f z) f n = fileBlock d f n from hsame.slotBlock_eq hf]
      simp [hlt]
    · rw [hsame.slotBlock_eq hf]
      simp [hlt]
    · rw [hsame.free]
      simp [hlt]

/-- **Which sizes `file_set_size` handles**, for a file with a valid size in any sound layout. -/
theorem setSize_resized (newsize : BitVec 32) (hv : Valid root dirs d)
    (hf : (tree root dirs d).Linked (.file f)) (hsz : InRange (fSize d f)) :
    SetSizeOk d f newsize ↔ SizeFits d f newsize := by
  obtain ⟨d', h⟩ := fileSetSize_total hv hf newsize.toInt
  unfold SetSizeOk SizeFits
  rw [h]
  generalize newsize.toInt = z at h ⊢
  simp only [Option.map_some, Option.some.injEq, Prod.mk.injEq]
  constructor
  · rintro ⟨r, d₁, ⟨rfl, rfl⟩, h1 | ⟨-, h1⟩⟩
    · exact absurd h1.1 (by omega)
    obtain ⟨-, h3, h4, h5⟩ := fileSetSize_exact hv hf hsz.1 h1.range h
    refine ⟨h1.range, fun n hn hn' => ?_, fun hle h10 => ?_⟩
    · by_contra h0
      obtain ⟨h6, h7⟩ := h1.past n hn'
      have h8 := hv.sound.good (held_slotBlock hf h0)
      -- the block was in use, and only the blocks of other places were made free
      rcases (h5 _).1 (h7 h0) with h9 | ⟨-, ⟨k, -, hk, h9, -⟩ | ⟨-, h9, -⟩⟩
      · exact not_inUse_of_free h9 h8.1
      · have h10 := (hv.sound.slot_unique hf hf h0 h9).2
        have h11 := dataSlot_inj h10
        omega
      · exact dataSlot_ne (hv.sound.slot_unique hf hf h0 h9).2.symm
    · have h6 := h1.table
      rw [if_neg (by omega), h4, if_neg (by omega)] at h6
      exact h6
  · rintro ⟨h1, h2, h3⟩
    obtain ⟨h4, h5, h6, h7⟩ := fileSetSize_exact hv hf hsz.1 h1 h
    refine ⟨0, d', ⟨rfl, rfl⟩, Or.inr ⟨rfl, h4, h1, fun n hn => ?_, fun n hn => ?_, ?_⟩⟩
    · have h8 : ∀ n, blocksFor z ≤ n → fileBlock d f n ≠ 0 → z < fSize d f ∧ n < blocksFor (fSize d f) := by
        intro n hn h0
        have h8 : n < blocksFor (fSize d f) := by
          by_contra h9
          exact h0 (h2 n (by omega) hn)
        refine ⟨?_, h8⟩
        unfold blocksFor at *
        omega
      refine ⟨?_, fun h0 => (h7 _).2 ?_⟩
      · rw [h5]
        split
        · rfl
        · by_contra h0
          have h9 := h8 n hn h0
          omega
      · have h9 := h8 n hn h0
        exact Or.inr ⟨h9.1, Or.inl ⟨n, hn, h9.2, rfl, h0⟩⟩
    · rw [h5, if_neg]
      rintro ⟨-, h8 | h8⟩ <;> omega
    · rw [h6]
      by_cases h8 : 10 < blocksFor z
      · rw [if_pos h8, if_neg (by omega)]
      · rw [if_neg h8]
        split
        · rfl
        · exact h3 (by omega) (by omega)

/-- The root directory of the image loses its only block. -/
theorem setSize_resized_root : SetSizeOk binImage sRoot 0 := by
  refine (setSize_resized 0 binImage_consistent.valid .refl (binImage_consistent.size _ .root)).2
    ⟨⟨by decide, by decide⟩, fun n hn _ => ?_, fun h => absurd h (by decide +kernel)⟩
  have h1 : fSize binImage sRoot = 4096 := by decide +kernel
  rw [h1] at hn
  by_contra h0
  rw [(binImage_one.rootBlock h0).1] at hn
  exact absurd hn (by decide)

/-- **This fails** for the size -1, which is stored. -/
theorem setSize_resized_counterexample :
    ¬ ∀ d f newsize, Consistent d → Reachable d f → SetSizeOk d f newsize := by
  intro h
  obtain ⟨r, d', h1, h2⟩ := h binImage sRoot (-1) binImage_consistent .root
  obtain ⟨d₁, -, h3⟩ := Option.map_eq_some_iff.1 h1
  rcases h2 with ⟨h4, -⟩ | ⟨-, h4⟩
  · rw [← (Prod.mk.inj h3).1] at h4
    omega
  · exact absurd h4.range.1 (by decide)

end Jos.Fs
