import Jos.Proof.Moves

/-!
# Exclusive ownership of blocks

From a consistent image, every run in which no directory is written to as a file keeps the
layout sound (`exec_valid`), so every block number stored by a reachable file is that of a
block in use, and is stored once (`blocks_exclusive`).

A write to a directory is not refused, and the entry of a removed directory stays a
directory when its name is given to a new file. So a client can write any `struct File` it
likes where the next walk finds it (`blocks_exclusive_counterexample`).
-/

namespace Jos.Fs

open Lib

variable {d d' d₁ : Bytes} {r c : Rec} {s : Slot} {b f g n : ℕ} {z : ℤ}

/-! ## Reachable files and linked records -/

theorem reachable_linked (h : Reachable d f) : (tree sRoot true d).Linked (.file f) := by
  induction h with
  | root => exact .refl
  | entry _ ht _ h0 hj _ ih => exact linked_entry ih (by unfold opens; simp [ht]) h0 hj

theorem reachable_named (h : Reachable d f) : f = sRoot ∨ nameFree d f = false := by
  cases h with
  | root => exact Or.inl rfl
  | entry _ _ _ _ _ hn => exact Or.inr hn

/-- **Sound layouts are exclusive.** -/
theorem exclusive_of_sound (hs : Sound sRoot true d) : Exclusive d := by
  intro f s hf h0
  have h1 := hs.good (held_slotBlock (reachable_linked hf) h0)
  exact ⟨h1.1, h1.2.1, fun g t hg he => hs.slot_unique (reachable_linked hf) (reachable_linked hg) h0 he⟩

/-- A file that is linked without being reachable is an unused entry. -/
def Unused (d : Bytes) (f : ℕ) : Prop := fSize d f = 0 ∧ ∀ s, slotBlock d f s = 0

/-- A record of a reachable file, or an unused entry. -/
def Known (d : Bytes) : Rec → Prop
  | .file f => Reachable d f ∨ Unused d f
  | .table t dir => ∃ f, Reachable d f ∧ (d.load32 (fIndirect f)).toNat = t ∧ t ≠ 0 ∧
      dir = opens true d f

theorem Consistent.entry (h : Consistent d) (hf : Reachable d f) (ht : fType d f = ftypeDir) {j : ℕ}
    (h0 : fileBlock d f n ≠ 0) (hj : j < 16) :
    Reachable d (fileBlock d f n * 4096 + 256 * j) ∨ Unused d (fileBlock d f n * 4096 + 256 * j) := by
  rcases hn : nameFree d (fileBlock d f n * 4096 + 256 * j) with _ | _
  · left
    refine .entry hf ht ?_ h0 hj hn
    have h1 : ¬ sizeBlocks (fSize d f) ≤ n := fun h1 => h0 (h.short f n hf h1)
    have h2 := (h.size f hf).1
    have h3 := h.dirSize f hf ht
    rw [Int.tmod_eq_emod_of_nonneg h2] at h3
    rw [sizeBlocks_eq h2 (fSize_lt d f)] at h1
    rw [dirBlocks_eq h2]
    omega
  · exact Or.inr (h.unused f n j hf ht h0 hj hn)

/-- In a consistent image, the linked records are those of reachable files and unused
entries. -/
theorem Consistent.linked (h : Consistent d) (hr : (tree sRoot true d).Linked r) : Known d r := by
  induction hr with
  | refl => exact Or.inl .root
  | @kid r s b c hr hv hk ih =>
    obtain ⟨p, hp, h1, h2⟩ := val_eq_some.1 hv
    have hopen : ∀ {f}, opens true d f = true → fType d f = ftypeDir := by
      intro f h3
      simpa [opens] using h3
    rcases word_cases hp with ⟨f, i, hi, rfl, rfl, rfl⟩ | ⟨f, rfl, rfl, rfl⟩ |
      ⟨t, dir, j, hj, rfl, rfl, rfl⟩
    · have h3 : fileBlock d f i = b := by
        unfold fileBlock
        rw [slotBlock_eq (slotAddr_direct hi)]
        exact h1
      have hf : Reachable d f := by
        refine ih.resolve_right fun h4 => h2 ?_
        rw [← h3]
        exact h4.2 _
      simp only [tree, kids] at hk
      split at hk
      · rename_i ho
        obtain ⟨j, hj, rfl⟩ := hk
        rw [← h3]
        exact h.entry hf (hopen ho) (by rw [h3]; exact h2) hj
      · exact absurd hk (Set.notMem_empty _)
    · have hf : Reachable d f := by
        refine ih.resolve_right fun h4 => h2 ?_
        rw [← h1]
        exact h4.2 .fIndirect
      rw [Set.mem_singleton_iff.1 hk]
      exact ⟨f, hf, h1, h2, rfl⟩
    · obtain ⟨f, hf, h3, h4, rfl⟩ := ih
      have h5 : fileBlock d f (10 + j) = b := by
        unfold fileBlock
        rw [slotBlock_eq (slotAddr_indirect (by omega) (by omega) ?_), h3, Nat.add_sub_cancel_left]
        · exact h1
        · intro h6
          rw [h6] at h3
          exact h4 h3.symm
      simp only [tree, kids] at hk
      split at hk
      · rename_i ho
        obtain ⟨k, hk, rfl⟩ := hk
        rw [← h5]
        exact h.entry hf (hopen ho) (by rw [h5]; exact h2) hk
      · exact absurd hk (Set.notMem_empty _)

/-- A held block is in a slot of a reachable file. -/
theorem Consistent.held (h : Consistent d) (hh : (tree sRoot true d).Held r s b) :
    ∃ f, Reachable d f ∧ r = slotRec true d f s ∧ slotBlock d f s = b ∧ b ≠ 0 := by
  obtain ⟨f, hf, h1, h2, h3⟩ := slot_of_held hh
  refine ⟨f, (h.linked hf).resolve_right fun h4 => h3 ?_, h1, h2, h3⟩
  rw [← h2]
  exact h4.2 s

/-- **A consistent image is laid out soundly.** -/
theorem Consistent.valid (h : Consistent d) : Valid sRoot true d := by
  have hres : ∀ b, Reserved d b → blockIsFree d b = false := by
    intro b hb
    by_cases hlt : b < nblocks d
    · exact (h.bitmap b hlt hb).2
    · rw [blockIsFree_eq]
      simp [hlt]
  refine ⟨⟨?_, ?_, le_rfl, by decide, hres 1 (Or.inl (by omega)), ?_, hres⟩, ?_⟩
  · intro r s r' s' b h1 h2
    obtain ⟨f, hf, rfl, h3, h4⟩ := h.held h1
    obtain ⟨g, hg, rfl, h5, -⟩ := h.held h2
    obtain ⟨rfl, rfl⟩ := (h.exclusive f s hf (by rw [h3]; exact h4)).2.2 g s' hg (by rw [h3]; exact h5)
    exact ⟨rfl, rfl⟩
  · intro r s b h1
    obtain ⟨f, hf, -, rfl, h4⟩ := h.held h1
    obtain ⟨h5, h6, -⟩ := h.exclusive f s hf h4
    exact ⟨h5, h6, fun h7 => h6 (Or.inl (by rw [h7]; decide))⟩
  · intro b _
    unfold bitmapWord sRoot
    omega
  · intro f hf _
    rcases h.linked hf with h1 | h1
    · exact (h.size f h1).1
    · exact h1.1.ge

/-! ## Runs -/

/-- No directory is written to as a file. -/
def NoDirWrite (d : Bytes) : Call → Prop
  | .write f _ _ => fType d f ≠ ftypeDir
  | _ => True

/-- Any block may be added. -/
def Anywhere (_ _ : ℕ) (_ : Bool) (_ : ℤ) : Prop := True

theorem dirsIn_anywhere {root : ℕ} : DirsIn Anywhere root := fun _ _ _ _ => trivial

theorem fileRemove_valid {path : CString} {res : ℤ} (hv : Valid sRoot true d)
    (h : fileRemove d path = some (res, d')) : Valid sRoot true d' := by
  obtain ⟨⟨w, d₁⟩, h1, h2⟩ := Option.bind_eq_some_iff.1 h
  obtain ⟨hA, hw⟩ := walkPath_adds dirsIn_anywhere hv h1
  have hv₁ := hA.valid hv
  rcases w with ⟨dir, f⟩ | ⟨r, last⟩
  · obtain ⟨d₂, h3, h4⟩ := Option.bind_eq_some_iff.1 h2
    simp only [Option.some.injEq, Prod.mk.injEq] at h4
    obtain ⟨hv₂, hf₂⟩ := (fileTruncateBlocks_drops hv₁ hw.1 h3).1.valid hv₁ hw.1
    have hf₃ : (tree sRoot true (d₂.write f [0])).Linked (.file f) :=
      (hv₂.sound.same_head hf₂ le_rfl (by simp)).linked.2 hf₂
    rw [← h4.2]
    exact (hv₂.setName hf₂ (by simp)).setFSize hf₃ fun _ => ⟨le_rfl, by omega⟩
  · simp only [Option.some.injEq, Prod.mk.injEq] at h2
    rw [← h2.2]
    exact hv₁

/-- **One call** keeps the layout sound, unless it writes to a directory. -/
theorem exec_valid {c : Call} (hv : Valid sRoot true d) (ha : Allowed d c) (hc : NoDirWrite d c)
    (h : exec d c = some d') : Valid sRoot true d' := by
  cases c with
  | create path =>
    obtain ⟨⟨r, d₁⟩, h1, rfl⟩ := Option.map_eq_some_iff.1 h
    exact (fileCreate_moves dirsIn_anywhere hv h1).1.valid hv
  | «open» path =>
    obtain ⟨⟨r, d₁⟩, h1, rfl⟩ := Option.map_eq_some_iff.1 h
    exact (fileOpen_adds dirsIn_anywhere hv h1).1.valid hv
  | read f count offset =>
    obtain ⟨⟨r, d₁⟩, h1, rfl⟩ := Option.map_eq_some_iff.1 h
    exact (fileRead_adds (P := Anywhere) hv (reachable_linked ha.1) (fun _ _ => trivial) h1).valid hv
  | write f buf offset =>
    obtain ⟨⟨r, d₁⟩, h1, rfl⟩ := Option.map_eq_some_iff.1 h
    have ho : opens true d f = false := by simpa [opens, NoDirWrite] using hc
    exact (fileWrite_valid hv (reachable_linked ha.1) ho ha.2.2.1 h1).1
  | setSize f size =>
    obtain ⟨hf, h0, h1⟩ := ha
    unfold maxFileSize at *
    exact (fileSetSize_valid hv (reachable_linked hf) (fun _ => ⟨h0, by omega⟩) h).1
  | remove path =>
    obtain ⟨⟨r, d₁⟩, h1, rfl⟩ := Option.map_eq_some_iff.1 h
    exact fileRemove_valid hv h1

/-- The layout stays sound in every run without writes to directories. -/
theorem run_valid (hv : Valid sRoot true d) (hr : Run NoDirWrite d d') : Valid sRoot true d' := by
  induction hr with
  | refl => exact hv
  | tail _ h ih =>
    obtain ⟨c, ha, hc, hx⟩ := h
    exact exec_valid ih ha hc hx

/-- **Block ownership is exclusive** in every run from a consistent image in which no
directory is written to as a file. -/
theorem blocks_exclusive (h : Consistent d) (hr : Run NoDirWrite d d') : Exclusive d' :=
  exclusive_of_sound (run_valid h.valid hr).sound

/-! ## A directory that is written to -/

/-- An image of eight blocks: the root directory, in block 3, has an empty directory `bin`. -/
def binImage : Bytes :=
  ((((((((⟨fun _ => 0⟩ : Bytes).store32 4096 0x4A0530AE).store32 4100 8).write sRoot [0x2F]).store32
    (sRoot + 128) 4096).store32 (sRoot + 132) 1).store32 (fDirect sRoot 0) 3).store32 8192
    0xF0).write 12288 [0x62, 0x69, 0x6E] |>.store32 (12288 + 132) 1

theorem slots_zero (h : ∀ i < 10, d.load32 (fDirect f i) = 0) (h' : d.load32 (fIndirect f) = 0) :
    ∀ s, slotBlock d f s = 0 := by
  intro s
  cases s with
  | direct i =>
    by_cases hi : i < 10
    · have h1 : slotAddr d f (.direct i) = some (fDirect f i) := if_pos hi
      rw [slotBlock_eq h1, h i hi]
      rfl
    · unfold slotBlock slotAddr
      simp [hi]
  | indirect j =>
    unfold slotBlock slotAddr
    simp [h']
  | fIndirect =>
    show (d.load32 (fIndirect f)).toNat = 0
    rw [h']
    rfl

/-- A file with one block, at its first place. -/
theorem single_slot (h1 : ∀ i < 10, (d.load32 (fDirect f i)).toNat = if i = 0 then b else 0)
    (h2 : d.load32 (fIndirect f) = 0) (h0 : slotBlock d f s ≠ 0) :
    s = .direct 0 ∧ slotBlock d f s = b := by
  cases s with
  | direct i =>
    by_cases hi : i < 10
    · have h3 : slotAddr d f (.direct i) = some (fDirect f i) := if_pos hi
      rw [slotBlock_eq h3, h1 i hi] at h0 ⊢
      by_cases he : i = 0
      · subst he
        exact ⟨rfl, rfl⟩
      · rw [if_neg he] at h0
        exact absurd rfl h0
    · exact absurd (by unfold slotBlock slotAddr; simp [hi]) h0
  | indirect j => exact absurd (by unfold slotBlock slotAddr; simp [h2]) h0
  | fIndirect =>
    refine absurd ?_ h0
    show (d.load32 (fIndirect f)).toNat = 0
    rw [h2]
    rfl

/-- **An image with one directory block**, block 3 of the root directory, whose entries are empty. -/
structure OneBlock (d : Bytes) : Prop where
  super : nblocks d ≤ 0xC0000000 / 4096
  bitmap : ∀ b < nblocks d, Reserved d b → InUse d b
  root : fType d sRoot = ftypeDir
  size : fSize d sRoot = 4096
  direct : ∀ i < 10, (d.load32 (fDirect sRoot i)).toNat = if i = 0 then 3 else 0
  indirect : d.load32 (fIndirect sRoot) = 0
  empty : ∀ j < 16, fSize d (12288 + 256 * j) = 0 ∧ d.load32 (fIndirect (12288 + 256 * j)) = 0 ∧
    ∀ i < 10, d.load32 (fDirect (12288 + 256 * j) i) = 0
  own : InUse d 3 ∧ ¬ Reserved d 3
  used : ∀ b < nblocks d, blockIsFree d b = false → Reserved d b ∨ b = 3

namespace OneBlock

variable (h : OneBlock d)
include h

/-- The entries of the root directory own no block. -/
theorem entry {j : ℕ} (hj : j < 16) :
    fSize d (12288 + 256 * j) = 0 ∧ ∀ s, slotBlock d (12288 + 256 * j) s = 0 := by
  obtain ⟨h1, h2, h3⟩ := h.empty j hj
  exact ⟨h1, slots_zero h3 h2⟩

theorem rootSlot (h0 : slotBlock d sRoot s ≠ 0) : s = .direct 0 ∧ slotBlock d sRoot s = 3 :=
  single_slot h.direct h.indirect h0

theorem rootBlock (h0 : fileBlock d sRoot n ≠ 0) : n = 0 ∧ fileBlock d sRoot n = 3 := by
  obtain ⟨h1, h2⟩ := h.rootSlot h0
  refine ⟨?_, h2⟩
  unfold dataSlot at h1
  split at h1
  · exact Slot.direct.inj h1
  · cases h1

theorem rootStored : slotBlock d sRoot (.direct 0) = 3 := by
  have h1 : slotAddr d sRoot (.direct 0) = some (fDirect sRoot 0) := rfl
  rw [slotBlock_eq h1, h.direct 0 (by omega), if_pos rfl]

/-- The files of the image are the root directory and its entries. -/
theorem reachable (hf : Reachable d f) : f = sRoot ∨ ∃ j < 16, f = 12288 + 256 * j := by
  induction hf with
  | root => exact Or.inl rfl
  | @entry dir i j _ _ hi h0 hj hn ih =>
    rcases ih with rfl | ⟨k, hk, rfl⟩
    · rw [(h.rootBlock h0).2]
      exact Or.inr ⟨j, hj, rfl⟩
    · exact absurd ((h.entry hk).2 _) h0

/-- The image is consistent. -/
theorem consistent : Consistent d where
  super := h.super
  bitmap := h.bitmap
  root := h.root
  size f hf := by
    rcases h.reachable hf with rfl | ⟨k, hk, rfl⟩
    · rw [h.size]
      exact ⟨by decide, by decide⟩
    · rw [(h.entry hk).1]
      exact ⟨by decide, by decide⟩
  dirSize f hf _ := by
    rcases h.reachable hf with rfl | ⟨k, hk, rfl⟩
    · rw [h.size]
      decide
    · rw [(h.entry hk).1]
      decide
  short f n hf hn := by
    by_contra h0
    rcases h.reachable hf with rfl | ⟨k, hk, rfl⟩
    · rw [(h.rootBlock h0).1, h.size] at hn
      exact absurd hn (by decide)
    · exact h0 ((h.entry hk).2 _)
  unused f i j hf _ h0 hj _ := by
    rcases h.reachable hf with rfl | ⟨k, hk, rfl⟩
    · rw [(h.rootBlock h0).2]
      exact h.entry hj
    · exact absurd ((h.entry hk).2 _) h0
  exclusive f s hf h0 := by
    rcases h.reachable hf with rfl | ⟨k, hk, rfl⟩
    · obtain ⟨rfl, h1⟩ := h.rootSlot h0
      rw [h1]
      refine ⟨h.own.1, h.own.2, fun g t hg he => ?_⟩
      rcases h.reachable hg with rfl | ⟨k, hk, rfl⟩
      · exact ⟨rfl, (h.rootSlot (by rw [he]; decide)).1⟩
      · rw [(h.entry hk).2 t] at he
        cases he
    · exact absurd ((h.entry hk).2 s) h0
  noLeak b hb := by
    rcases h.used b hb.1 hb.2 with h1 | rfl
    · exact Or.inl h1
    · exact Or.inr ⟨sRoot, .direct 0, .root, h.rootStored⟩

end OneBlock

theorem binImage_one : OneBlock binImage := by
  constructor <;> decide +kernel

/-- The files of the image. -/
theorem binImage_reachable (h : Reachable binImage f) : f = sRoot ∨ f = 12288 := by
  have h1 : ∀ j < 16, nameFree binImage (3 * 4096 + 256 * j) = false → j = 0 := by decide +kernel
  cases h with
  | root => exact Or.inl rfl
  | @entry dir i j hd _ _ h0 hj hn =>
    rcases binImage_one.reachable hd with rfl | ⟨k, hk, rfl⟩
    · rw [(binImage_one.rootBlock h0).2] at hn ⊢
      rw [h1 j hj hn]
      exact Or.inr rfl
    · exact absurd ((binImage_one.entry hk).2 _) h0

theorem binImage_consistent : Consistent binImage :=
  binImage_one.consistent

/-- The paths `/bin` and `/a`. -/
def binPath : CString := ⟨[0x2F, 0x62, 0x69, 0x6E], by decide⟩

def pathA : CString := ⟨[0x2F, 0x61], by decide⟩

/-- A `struct File` named `x` whose first direct slot is 1, the super block. -/
def forgedFile : List Byte := [0x78] ++ List.replicate 135 0 ++ [1] ++ List.replicate 119 0

theorem forgedFile_inRange : InRange forgedFile.length := by
  have h : forgedFile.length = 256 := by decide +kernel
  rw [h]
  exact ⟨by decide, by decide⟩

/-- Entry `j` of the block 3 of the root directory has a name. -/
def hasEntry (d : Bytes) (j : ℕ) : Bool :=
  decide (fType d sRoot = ftypeDir) && decide (0 < dirBlocks d sRoot) &&
    decide (fileBlock d sRoot 0 = 3) && !nameFree d (3 * 4096 + 256 * j)

theorem hasEntry_reachable {j : ℕ} (h : hasEntry d j = true) (hj : j < 16) :
    Reachable d (3 * 4096 + 256 * j) := by
  simp only [hasEntry, Bool.and_eq_true, decide_eq_true_eq, Bool.not_eq_true'] at h
  obtain ⟨⟨⟨h1, h2⟩, h3⟩, h4⟩ := h
  have h5 := Reachable.entry (j := j) .root h1 h2 (by rw [h3]; decide) hj (by rw [h3]; exact h4)
  rw [h3] at h5
  exact h5

/-- **This fails**: `/bin` is removed and created again, and the forged entry is
written to it as its last. Then the super block is in a slot of a reachable file. -/
theorem blocks_exclusive_counterexample :
    ¬ ∀ d d', Consistent d → Run (fun _ _ => True) d d' → Exclusive d' := by
  intro h
  have hrun : ((exec binImage (.remove binPath)).any fun d₁ =>
      (exec d₁ (.create binPath)).any fun d₂ => hasEntry d₂ 0 &&
        (exec d₂ (.write (3 * 4096 + 256 * 0) forgedFile 3840)).any fun d₃ => hasEntry d₃ 0 &&
          decide (fType d₃ (3 * 4096 + 256 * 0) = ftypeDir ∧ 0 < dirBlocks d₃ (3 * 4096 + 256 * 0) ∧
            fileBlock d₃ (3 * 4096 + 256 * 0) 0 = 4 ∧ nameFree d₃ (4 * 4096 + 256 * 15) = false ∧
            slotBlock d₃ (4 * 4096 + 256 * 15) (.direct 0) = 1)) = true := by decide +kernel
  obtain ⟨d₁, hx₁, h1⟩ := (Option.any_eq_true _ _).1 hrun
  obtain ⟨d₂, hx₂, h2⟩ := (Option.any_eq_true _ _).1 h1
  obtain ⟨hb₂, h2⟩ := Bool.and_eq_true_iff.1 h2
  obtain ⟨d₃, hx₃, h3⟩ := (Option.any_eq_true _ _).1 h2
  obtain ⟨hb₃, h3⟩ := Bool.and_eq_true_iff.1 h3
  obtain ⟨ht, hd, hfb, hn, hs⟩ := of_decide_eq_true h3
  have hr : Run (fun _ _ => True) binImage d₃ := by
    refine .tail (b := d₂) (.tail (b := d₁) (.single ⟨.remove binPath, trivial, trivial, hx₁⟩)
      ⟨.create binPath, trivial, trivial, hx₂⟩) ⟨.write _ forgedFile 3840, ?_, trivial, hx₃⟩
    exact ⟨hasEntry_reachable hb₂ (by omega), forgedFile_inRange, by decide, by decide⟩
  have hf := Reachable.entry (j := 15) (hasEntry_reachable hb₃ (by omega)) ht hd (by rw [hfb]; decide)
    (by omega) (by rw [hfb]; exact hn)
  rw [hfb] at hf
  have h4 := (h _ _ binImage_consistent hr _ (.direct 0) hf (by rw [hs]; decide)).2.1
  rw [hs] at h4
  exact h4 (Or.inl (by omega))

/-- A run that creates `/a` and writes to it. -/
theorem blocks_exclusive_create :
    ∃ d', Run NoDirWrite binImage d' ∧ fileBlock d' (3 * 4096 + 256 * 1) 0 = 4 ∧ Exclusive d' := by
  have hrun : ((exec binImage (.create ⟨[0x61], by decide⟩)).any fun d₁ => hasEntry d₁ 1 &&
      decide (fType d₁ (3 * 4096 + 256 * 1) ≠ ftypeDir) &&
      (exec d₁ (.write (3 * 4096 + 256 * 1) [0x68, 0x69] 0)).any fun d₂ =>
        decide (fileBlock d₂ (3 * 4096 + 256 * 1) 0 = 4)) = true := by decide +kernel
  obtain ⟨d₁, hx₁, h1⟩ := (Option.any_eq_true _ _).1 hrun
  simp only [Bool.and_eq_true, decide_eq_true_eq] at h1
  obtain ⟨⟨hb, ht⟩, h1⟩ := h1
  obtain ⟨d₂, hx₂, h2⟩ := (Option.any_eq_true _ _).1 h1
  have hr : Run NoDirWrite binImage d₂ := by
    refine .tail (b := d₁) (.single ⟨.create ⟨[0x61], by decide⟩, trivial, trivial, hx₁⟩)
      ⟨.write (3 * 4096 + 256 * 1) [0x68, 0x69] 0, ?_, ht, hx₂⟩
    exact ⟨hasEntry_reachable hb (by omega), ⟨by decide, by decide⟩, by decide, by decide⟩
  exact ⟨d₂, hr, of_decide_eq_true h2, blocks_exclusive binImage_consistent hr⟩

end Jos.Fs
