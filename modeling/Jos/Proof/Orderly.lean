import Jos.Proof.Others
import Jos.Proof.Requests

/-!
# Directories without blocks past their size

On an `Orderly` disk no directory has blocks past its size, so `file_create` gives an entry
that had no name (`fileCreate_fresh`), and no file that is open and named can be its result.
-/

namespace Jos.Fs

open Lib

variable {d d' d₁ : Bytes} {c : Rec} {s : Slot} {f g m n : ℕ} {z pos : ℤ} {bs buf : List Byte}
  {path : CString} {P : ℕ → ℕ → Bool → ℤ → Prop}

/-- A file that is found from the root by a path: the root, or an entry with a name. -/
def Named (d : Bytes) (f : ℕ) : Prop := f = sRoot ∨ nameFree d f = false

theorem named_setFSize (hs : Sound sRoot true d) (hf : (tree sRoot true d).Linked (.file f))
    (hg : (tree sRoot true d).Linked (.file g)) (h : Named d g) : Named (setFSize d f z) g := by
  unfold Named at *
  by_cases he : g = f
  · rw [he] at h ⊢
    unfold nameFree setFSize at *
    rw [Bytes.byte_store32_off (by omega)]
    exact h
  · have h2 : SameHead g d (setFSize d f z) := hs.head_write hf (by omega) (by simp) hg he
    rw [h2.nameFree_eq]
    exact h

theorem named_write (h2 : bs.head? ≠ none) (h3 : bs.head? ≠ some 0) : Named (d.write f bs) f := by
  obtain ⟨c, cs, rfl⟩ := List.exists_cons_of_ne_nil (l := bs) (by rintro rfl; exact h2 rfl)
  have h4 : c ≠ 0 := fun h4 => h3 (by rw [h4]; rfl)
  have h5 : (d.write f (c :: cs)).byte (f + 0) = c := Bytes.byte_write_in (by simp)
  right
  unfold nameFree
  rw [Nat.add_zero] at h5
  rw [h5]
  simpa using h4

/-- **Moves keep names.** -/
theorem Move.named (h : Move P sRoot true d d') (hv : Valid sRoot true d)
    (hg : (tree sRoot true d).Linked (.file g)) (hn : Named d g) : Named d' g := by
  have hs := hv.sound
  cases h with
  | add h => unfold Named at *; rw [(h.head hs hg).nameFree_eq]; exact hn
  | grow hf _ _ _ => exact named_setFSize hs hf hg hn
  | @name f bs hf hl h2 h3 =>
    by_cases he : g = f
    · rw [he]
      exact named_write h2 h3
    · unfold Named at *
      rw [(hs.head_write hf le_rfl (by omega) hg he).nameFree_eq]
      exact hn
  | data hf hop h0 h2 h3 => unfold Named at *; rw [(hs.head_block hf hop h0 h2 h3 hg).nameFree_eq]; exact hn

theorem Moves.named (h : Moves P sRoot true d d') (hv : Valid sRoot true d)
    (hg : (tree sRoot true d).Linked (.file g)) (hn : Named d g) : Named d' g :=
  (h.rule hv (I := fun d₁ => (tree sRoot true d₁).Linked (.file g) ∧ Named d₁ g) ⟨hg, hn⟩
    fun _ _ hv₁ h1 h2 => ⟨h2.linked hv₁.sound h1.1, h2.named hv₁ h1.1 h1.2⟩).2.2

/-- A directory has no blocks past its size, and none without a name. -/
structure Orderly (d : Bytes) : Prop extends Whole d where
  short : ∀ {f n}, (tree sRoot true d).Linked (.file f) → fType d f = ftypeDir →
    dirBlocks d f ≤ n → fileBlock d f n = 0
  bare : ∀ {f}, (tree sRoot true d).Linked (.file f) → fType d f = ftypeDir → ¬ Named d f →
    ∀ n, fileBlock d f n = 0

theorem Consistent.orderly (h : Consistent d) : Orderly d := by
  refine ⟨h.whole, fun {f n} hf ht hn => ?_, fun {f} hf ht hn n => ?_⟩
  · rcases h.linked hf with h1 | h1
    · refine h.short f n h1 ?_
      have h2 := (h.size f h1).1
      have h3 := h.dirSize f h1 ht
      rw [Int.tmod_eq_emod_of_nonneg h2] at h3
      rw [dirBlocks_eq h2] at hn
      rw [sizeBlocks_eq h2 (fSize_lt d f)]
      omega
    · exact h1.2 _
  · rcases h.linked hf with h1 | h1
    · cases h1 with
      | root => exact absurd (Or.inl rfl) hn
      | entry _ _ _ _ _ h2 => exact absurd (Or.inr h2) hn
    · exact h1.2 _

theorem dirBlocks_congr (h : fSize d' f = fSize d f) : dirBlocks d' f = dirBlocks d f := by
  unfold dirBlocks
  rw [h]

/-- Blocks are added to named files, below the size. -/
def Within (f n : ℕ) (free : Bool) (z : ℤ) : Prop := (f = sRoot ∨ free = false) ∧ n < u32 (z.tdiv 4096)

theorem dirsIn_within : DirsIn Within sRoot := fun h _ _ h1 => ⟨h, h1⟩

/-- Blocks are added to file `f`, below its size in bytes. -/
def Under (f k n : ℕ) (_ : Bool) (z : ℤ) : Prop := k = f ∧ n * 4096 < z.toNat

/-- A block that a step added is one it may add. -/
theorem AddStep.fileBlock_new (h : AddStep P sRoot true d d') (hs : Sound sRoot true d)
    (hg : (tree sRoot true d').Linked (.file g)) (h0 : fileBlock d' g n ≠ 0) :
    (tree sRoot true d).Linked (.file g) ∧ (fileBlock d g n ≠ 0 ∨ P g n (nameFree d g) (fSize d g)) := by
  rcases h.blank hs hg with h1 | ⟨h1, -⟩
  · refine ⟨h1, ?_⟩
    obtain ⟨k, m, t, hk, hPk, hmt, hslot⟩ := h.slot_new hs
    by_cases he : g = k ∧ dataSlot n = t
    · obtain ⟨rfl, rfl⟩ := he
      rcases hmt with h2 | h2
      · exact absurd h2 dataSlot_ne
      · rw [dataSlot_inj h2]
        exact Or.inr hPk
    · have h3 : fileBlock d' g n = fileBlock d g n := hslot g (dataSlot n) h1 he
      rw [← h3]
      exact Or.inl h0
  · -- the records in the new block are empty
    exfalso
    obtain ⟨p, ha⟩ := slotAddr_of_slotBlock h0
    have h3 := held_slotBlock hg h0
    cases hds : dataSlot n with
    | direct i =>
      rw [hds] at h3
      have h4 := h3.2.symm.trans (h1 (.direct i))
      cases h4
    | indirect j =>
      rw [hds] at ha
      simp only [slotAddr] at ha
      split at ha
      · rename_i h5
        have h6 := h1 .fIndirect
        rw [val_eq_none (p := fIndirect g) rfl] at h6
        exact h5.2 h6
      · cases ha
    | fIndirect => exact dataSlot_ne hds

namespace Orderly

variable (ho : Orderly d)
include ho

/-- A block may be added to a regular file, and to a directory with a name below its size. -/
theorem add (h : AddStep P sRoot true d d') (hP : ∀ k n, (tree sRoot true d).Linked (.file k) →
    fType d k = ftypeDir → P k n (nameFree d k) (fSize d k) → Named d k ∧ n < dirBlocks d k) : Orderly d' := by
  have hs := ho.valid.sound
  refine ⟨ho.toWhole.add h, fun {g n} hg ht hn => ?_, fun {g} hg ht hn n => ?_⟩
  · by_contra h0
    obtain ⟨h1, h2⟩ := h.fileBlock_new hs hg h0
    have hhd := h.head hs h1
    rw [hhd.fType_eq] at ht
    rw [dirBlocks_congr hhd.fSize_eq] at hn
    rcases h2 with h2 | h2
    · exact h2 (ho.short h1 ht hn)
    · have := (hP _ _ h1 ht h2).2
      omega
  · by_contra h0
    obtain ⟨h1, h2⟩ := h.fileBlock_new hs hg h0
    have hhd := h.head hs h1
    rw [hhd.fType_eq] at ht
    unfold Named at hn
    rw [hhd.nameFree_eq] at hn
    rcases h2 with h2 | h2
    · exact h2 (ho.bare h1 ht hn n)
    · exact hn (hP _ _ h1 ht h2).1

/-- A write that misses the layout. -/
theorem same (h : Same sRoot true d d') (hw : Whole d')
    (h1 : ∀ g n, (tree sRoot true d).Linked (.file g) → fType d g = ftypeDir → dirBlocks d' g ≤ n →
      dirBlocks d g ≤ n ∨ fileBlock d g n = 0)
    (h2 : ∀ g, (tree sRoot true d).Linked (.file g) → fType d g = ftypeDir → Named d g →
      Named d' g ∨ ∀ n, fileBlock d g n = 0) : Orderly d' := by
  refine ⟨hw, fun {g n} hg ht hn => ?_, fun {g} hg ht hn n => ?_⟩
  · rw [h.linked] at hg
    rw [h.type hg] at ht
    refine (h.slotBlock_eq hg).trans ?_
    rcases h1 g n hg ht hn with h3 | h3
    · exact ho.short hg ht h3
    · exact h3
  · rw [h.linked] at hg
    rw [h.type hg] at ht
    refine (h.slotBlock_eq hg).trans ?_
    by_cases h3 : Named d g
    · exact (h2 g hg ht h3).resolve_left hn n
    · exact ho.bare hg ht h3 n

theorem setFSize (hf : (tree sRoot true d).Linked (.file f))
    (hz : fType d f = ftypeDir → 0 ≤ z ∧ z < 2 ^ 31 ∧ z % 4096 = 0)
    (hn : fType d f = ftypeDir → ∀ n, z.toNat / 4096 ≤ n → fileBlock d f n = 0) :
    Orderly (Fs.setFSize d f z) := by
  refine ho.same (ho.valid.sound.same_size hf) (ho.toWhole.setFSize hf hz) (fun g n hg ht h1 => ?_)
    fun g hg _ h1 => Or.inl (named_setFSize ho.valid.sound hf hg h1)
  by_cases he : g = f
  · subst he
    obtain ⟨h2, h3, -⟩ := hz ht
    have h4 : fSize (Fs.setFSize d g z) g = z := fSize_setFSize h2 h3
    rw [dirBlocks_eq (by rw [h4]; exact h2), h4] at h1
    exact Or.inr (hn ht n h1)
  · have h2 : SameHead g d (Fs.setFSize d f z) :=
      ho.valid.sound.head_write hf (by omega) (by simp) hg he
    rw [dirBlocks_congr h2.fSize_eq] at h1
    exact Or.inl h1

/-- The name of a directory may be cleared when it has no blocks. -/
theorem setName (hf : (tree sRoot true d).Linked (.file f)) (hl : bs.length ≤ 128)
    (hb : fType d f = ftypeDir → Named (d.write f bs) f ∨ ∀ n, fileBlock d f n = 0) :
    Orderly (d.write f bs) := by
  refine ho.same (ho.valid.sound.same_head hf le_rfl (by omega)) (ho.toWhole.setName hf hl)
    (fun g n hg ht h1 => Or.inl ?_) fun g hg ht h1 => ?_
  · have h2 : fSize (d.write f bs) g = fSize d g := by
      by_cases he : g = f
      · rw [he]
        unfold fSize
        rw [Bytes.load32_write_off (by omega)]
      · exact (ho.valid.sound.head_write hf le_rfl (by omega) hg he).fSize_eq
    rw [← dirBlocks_congr h2]
    exact h1
  · by_cases he : g = f
    · rw [he] at ht ⊢
      exact hb ht
    · unfold Named at *
      rw [(ho.valid.sound.head_write hf le_rfl (by omega) hg he).nameFree_eq]
      exact Or.inl h1

theorem move (h : Move P sRoot true d d') (hP : ∀ k n, (tree sRoot true d).Linked (.file k) →
    fType d k = ftypeDir → P k n (nameFree d k) (fSize d k) → Named d k ∧ n < dirBlocks d k) : Orderly d' := by
  cases h with
  | add h => exact ho.add h hP
  | @grow f z hf h0 h1 h2 =>
    have hz : fType d f = ftypeDir → 0 ≤ z ∧ z < 2 ^ 31 ∧ z % 4096 = 0 := fun ht =>
      ⟨le_trans (ho.valid.size hf (opens_dir ht)) h0, h1, h2 (opens_dir ht) (ho.dirSize hf ht)⟩
    refine ho.setFSize hf hz fun ht n hn => ho.short hf ht ?_
    have h3 := ho.valid.size hf (opens_dir ht)
    rw [dirBlocks_eq h3]
    omega
  | name hf hl h2 h3 => exact ho.setName hf hl fun _ => Or.inl (named_write h2 h3)
  | @data f n q bs hf hop h0 h1 h2 =>
    refine ho.same (ho.valid.sound.same_block hf hop h0 h1 h2)
      (ho.toWhole.move (Move.data (P := P) hf hop h0 h1 h2)) (fun g n hg ht h3 => Or.inl ?_)
      fun g hg _ h3 => Or.inl ?_
    · rw [dirBlocks_congr (ho.valid.sound.head_block hf hop h0 h1 h2 hg).fSize_eq] at h3
      exact h3
    · unfold Named
      rw [(ho.valid.sound.head_block hf hop h0 h1 h2 hg).nameFree_eq]
      exact h3

theorem moves (h : Moves Within sRoot true d d') : Orderly d' :=
  (h.rule ho.valid (I := Orderly) ho fun _ _ _ h1 h2 => h1.move h2 fun _ _ _ _ h => h).2

/-- Reading a file adds blocks below its size. -/
theorem adds_under (hf : (tree sRoot true d).Linked (.file f)) (hn : Named d f)
    (h : Adds (Under f) sRoot true d d') : Orderly d' := by
  refine (h.rule ho.valid (I := fun d₁ => Orderly d₁ ∧ (tree sRoot true d₁).Linked (.file f) ∧ Named d₁ f)
    ⟨ho, hf, hn⟩ fun d₁ d₂ hv₁ h1 h2 => ?_).2.1
  obtain ⟨ho₁, hf₁, hn₁⟩ := h1
  refine ⟨ho₁.add h2 fun k n hk ht hP => ?_, h2.linked hv₁.sound hf₁,
    (Move.add h2).named hv₁ hf₁ hn₁⟩
  have h3 := hv₁.size hk (opens_dir ht)
  have h4 := ho₁.dirSize hk ht
  have h5 := hP.2
  refine ⟨by rw [hP.1]; exact hn₁, ?_⟩
  rw [dirBlocks_eq h3]
  omega

/-- Writing to a regular file. -/
theorem moves_only (hf : (tree sRoot true d).Linked (.file f)) (ht : fType d f ≠ ftypeDir)
    (h : Moves (Only f) sRoot true d d') : Orderly d' := by
  refine (h.rule ho.valid (I := fun d₁ => Orderly d₁ ∧ (tree sRoot true d₁).Linked (.file f) ∧
    fType d₁ f ≠ ftypeDir) ⟨ho, hf, ht⟩ fun d₁ d₂ hv₁ h1 h2 => ?_).2.1
  obtain ⟨ho₁, hf₁, ht₁⟩ := h1
  refine ⟨ho₁.move h2 fun k n _ htk hk => ?_, h2.linked hv₁.sound hf₁, ?_⟩
  · rw [hk] at htk
    exact absurd htk ht₁
  · cases h2 with
    | add h => rw [(h.head hv₁.sound hf₁).fType_eq]; exact ht₁
    | grow hg _ _ _ => rw [(hv₁.sound.same_size hg).type hf₁]; exact ht₁
    | name hg hl _ _ => rw [(hv₁.sound.same_head hg le_rfl (by omega)).type hf₁]; exact ht₁
    | data hg hop h0 h1 h2 => rw [(hv₁.sound.same_block hg hop h0 h1 h2).type hf₁]; exact ht₁

theorem drops (hf : (tree sRoot true d).Linked (.file f)) (h : Drops f m d d') : Orderly d' := by
  refine (h.rule ho.valid hf (I := Orderly) ho fun d₁ d₂ hv₁ hf₁ h1 h2 => ?_).2.2
  refine ⟨h1.toWhole.drops hf₁ (.single h2), fun {g n} hg ht hn => ?_, fun {g} hg ht hn n => ?_⟩
  · have hg' := h2.linked_mono hv₁.sound hf₁ hg
    have hhd := h2.head hv₁.sound hf₁ hg'
    rw [hhd.fType_eq] at ht
    rw [dirBlocks_congr hhd.fSize_eq] at hn
    by_contra h0
    have h3 := h2.slot_mono hv₁.sound hf₁ hg h0
    exact h0 (h3.symm.trans (h1.short hg' ht hn))
  · have hg' := h2.linked_mono hv₁.sound hf₁ hg
    have hhd := h2.head hv₁.sound hf₁ hg'
    rw [hhd.fType_eq] at ht
    unfold Named at hn
    rw [hhd.nameFree_eq] at hn
    by_contra h0
    have h3 := h2.slot_mono hv₁.sound hf₁ hg h0
    exact h0 (h3.symm.trans (h1.bare hg' ht hn n))

theorem fileSetSize (hf : (tree sRoot true d).Linked (.file f))
    (hz : fType d f = ftypeDir → 0 ≤ z ∧ z < 2 ^ 31 ∧ z % 4096 = 0)
    (h : Fs.fileSetSize d f z = some d') : Orderly d' := by
  unfold Fs.fileSetSize at h
  split at h
  · obtain ⟨d₁, h2, rfl⟩ := Option.map_eq_some_iff.1 h
    obtain ⟨hD, h3, -⟩ := fileTruncateBlocks_drops ho.valid hf h2
    obtain ⟨hv₁, hf₁⟩ := hD.valid ho.valid hf
    have hty : fType d₁ f = fType d f := (hD.head ho.valid hf).fType_eq
    refine (ho.drops hf hD).setFSize hf₁ (by rw [hty]; exact hz) fun ht n hn => ?_
    rw [hty] at ht
    obtain ⟨h4, h5, h6⟩ := hz ht
    have h7 := ho.valid.size hf (opens_dir ht)
    have h8 := ho.dirSize hf ht
    by_cases hlt : n < sizeBlocks (fSize d f)
    · refine h3 n ?_ hlt
      rw [sizeBlocks_eq h4 h5]
      omega
    · refine hD.slot_zero ho.valid hf (ho.short hf ht ?_)
      rw [sizeBlocks_eq h7 (fSize_lt d f)] at hlt
      rw [dirBlocks_eq h7]
      omega
  · obtain rfl := Option.some.inj h
    refine ho.setFSize hf hz fun ht n hn => ho.short hf ht ?_
    have h7 := ho.valid.size hf (opens_dir ht)
    rw [dirBlocks_eq h7]
    omega

theorem fileWrite {res : ℤ} (hf : (tree sRoot true d).Linked (.file f))
    (ht : fType d f ≠ ftypeDir) (h1 : -2 ^ 31 ≤ pos) (hl : buf.length < 2 ^ 32)
    (hok : WriteOk pos buf.length) (h : Fs.fileWrite d f buf pos = some (res, d')) : Orderly d' := by
  obtain ⟨d₁, h2, h3⟩ := Option.bind_eq_some_iff.1 h
  obtain ⟨⟨r₁, d₂⟩, h4, h5⟩ := Option.bind_eq_some_iff.1 h3
  simp only [Option.some.injEq, Prod.mk.injEq] at h5
  rw [← h5.2]
  have ho₁ : Orderly d₁ := by
    unfold extendTo at h2
    split at h2
    · exact ho.fileSetSize hf (fun h => absurd h ht) h2
    · obtain rfl := Option.some.inj h2
      exact ho
  obtain ⟨hv₁, hf₁, hop₁⟩ := extendTo_valid ho.valid hf (opens_regular ht) h2
  by_cases h0 : 0 ≤ pos
  · refine ho₁.moves_only hf₁ (by simpa [opens] using hop₁)
      (fileWriteLoop_moves (P := Only f) hv₁ hf₁ hop₁ h0 (fun _ _ => rfl) h4)
  · obtain ⟨res, h6, -⟩ := fileWriteLoop_skip (f := f) (d := d₁) _ (by omega) h1 hok hl
    rw [h6] at h4
    simp only [Option.some.injEq, Prod.mk.injEq] at h4
    rw [← h4.2]
    exact ho₁

theorem fileRemove {res : ℤ} (h : Fs.fileRemove d path = some (res, d')) : Orderly d' := by
  obtain ⟨⟨w, d₁⟩, h1, h2⟩ := Option.bind_eq_some_iff.1 h
  obtain ⟨hA, hok⟩ := walkPath_adds dirsIn_within ho.valid h1
  have ho₁ := ho.moves hA.moves
  rcases w with ⟨dir, f⟩ | ⟨r, last⟩
  · obtain ⟨d₂, h3, h4⟩ := Option.bind_eq_some_iff.1 h2
    simp only [Option.some.injEq, Prod.mk.injEq] at h4
    obtain ⟨hD, h5, -⟩ := fileTruncateBlocks_drops ho₁.valid hok.1 h3
    obtain ⟨hv₂, hf₂⟩ := hD.valid ho₁.valid hok.1
    have hsame : Same sRoot true d₂ (d₂.write f [0]) := hv₂.sound.same_head hf₂ le_rfl (by simp)
    rw [← h4.2]
    -- the blocks of a directory are dropped, and it had none past its size
    have hz : fType d₂ f = ftypeDir → ∀ n, fileBlock d₂ f n = 0 := fun ht n => by
      rw [(hD.head ho₁.valid hok.1).fType_eq] at ht
      have h7 := ho₁.valid.size hok.1 (opens_dir ht)
      have h8 := ho₁.dirSize hok.1 ht
      by_cases hlt : n < sizeBlocks (fSize d₁ f)
      · exact h5 n (Nat.zero_le _) hlt
      · refine hD.slot_zero ho₁.valid hok.1 (ho₁.short hok.1 ht ?_)
        rw [sizeBlocks_eq h7 (fSize_lt d₁ f)] at hlt
        rw [dirBlocks_eq h7]
        omega
    refine ((ho₁.drops hok.1 hD).setName hf₂ (by simp) fun ht => Or.inr (hz ht)).setFSize
      (hsame.linked.2 hf₂) (fun _ => ⟨le_rfl, by omega, rfl⟩) fun ht n _ => (hsame.slotBlock_eq hf₂).trans ?_
    rw [hsame.type hf₂] at ht
    exact hz ht n
  · simp only [Option.some.injEq, Prod.mk.injEq] at h2
    rw [← h2.2]
    exact ho₁

end Orderly

/-! ## New entries -/

/-- An entry of a directory is not the root, which is in the super block. -/
theorem entry_ne_root (hs : Sound sRoot true d) (hf : (tree sRoot true d).Linked (.file f))
    (h0 : fileBlock d f n ≠ 0) {j : ℕ} : fileBlock d f n * 4096 + 256 * j ≠ sRoot := by
  have h1 := (hs.good (held_slotBlock hf h0)).2.1
  have h2 : ¬ fileBlock d f n < 2 := fun h2 => h1 (Or.inl h2)
  unfold sRoot
  omega

/-- **The entry that `dir_alloc_file` gives** has no name. -/
theorem dirAllocFile_free (ho : Orderly d) (hf : (tree sRoot true d).Linked (.file f))
    (hname : f = sRoot ∨ nameFree d f = false) (ht : fType d f = ftypeDir)
    (h : dirAllocFile d f = some (.ok g, d')) : ¬ Named d' g := by
  unfold dirAllocFile at h
  split at h
  · cases h
  obtain ⟨⟨r₁, d₁⟩, h1, h2⟩ := Option.bind_eq_some_iff.1 h
  have h6 := ho.valid.size hf (opens_dir ht)
  obtain ⟨hA, -, h3, h4⟩ := dirScan_adds ho.valid hf
    (fun i hi => dirsIn_within hname h6 (fSize_lt d f) (List.mem_range.1 hi)) h1
  have ho₁ := ho.moves hA.moves
  have hf₁ := hA.linked ho.valid hf
  have hhd := hA.head ho.valid hf
  rcases r₁ with e | _ | k
  · cases h2
  · -- a block is added at the end of the directory, where there was none
    have h5 : dirBlocks d f ≤ 1034 := by
      by_contra h5
      have := h3 rfl 1034 (List.mem_range.2 (show 1034 < dirBlocks d f by omega))
      omega
    rw [dirBlocks_eq h6] at h5
    have h7 : fSize d₁ f = fSize d f := hhd.fSize_eq
    have hM : Move Within sRoot true d₁ (setFSize d₁ f (fSize d₁ f + 4096)) :=
      .grow hf₁ (by omega) (by omega) fun _ h => by omega
    have hv₂ := hM.valid ho₁.valid
    have hsame : Same sRoot true d₁ (setFSize d₁ f (fSize d₁ f + 4096)) := ho₁.valid.sound.same_size hf₁
    have hf₂ := hsame.linked.2 hf₁
    have hz : fileBlock (setFSize d₁ f (fSize d₁ f + 4096)) f (dirBlocks d f) = 0 :=
      (hsame.slotBlock_eq hf₁).trans
        (ho₁.short hf₁ (by rw [hhd.fType_eq]; exact ht) (dirBlocks_congr hhd.fSize_eq).le)
    obtain ⟨hA', -, h8⟩ := fileGetBlock_adds (P := Only f) hv₂.sound hf₂ rfl h2
    obtain ⟨-, h9, rfl⟩ := h8 g rfl
    rw [show fileBlock d' f (dirBlocks d f) * 4096 = fileBlock d' f (dirBlocks d f) * 4096 + 256 * 0 by omega]
    rintro (h10 | h10)
    · exact entry_ne_root (hA'.valid hv₂).sound (hA'.linked hv₂ hf₂) h9 h10
    · have h11 := hA'.block_old hv₂ hf₂ (by rw [hsame.type hf₁, hhd.fType_eq, ht]) h9 (show 0 < 16 by omega) h10
      exact h9 (h11.symm.trans hz)
  · simp only [Option.some.injEq, Prod.mk.injEq, Except.ok.injEq] at h2
    obtain ⟨rfl, rfl⟩ := h2
    obtain ⟨h5, i, -, -, h6, j, -, rfl⟩ := h4 k rfl
    rintro (h7 | h7)
    · exact entry_ne_root ho₁.valid.sound hf₁ h6 h7
    · rw [h5] at h7
      cases h7

end Jos.Fs
