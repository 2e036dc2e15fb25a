import Jos.Proof.Exclusive

/-!
# Leaks

`Tidy` says that every block in use is held by a linked record, and what makes a record
with blocks a reachable file: no file has blocks past its size, an entry without a name
has none, and the sizes of directories are multiples of the block size. Every call keeps
it, as long as no directory is written to and no directory drops an entry that owns blocks
(`exec_tidy`), so nothing leaks (`no_leak`).

`file_remove` does not look at the entries of a directory, so the blocks of the files in it
stay in use without an owner (`no_leak_counterexample`).
-/

namespace Jos.Fs

open Lib

variable {d d' d₁ : Bytes} {r c : Rec} {s : Slot} {b e f g m n p : ℕ} {z : ℤ} {bs : List Byte}

/-- Blocks are added to files with a name, below their size. -/
def Below (f n : ℕ) (free : Bool) (size : ℤ) : Prop := (f = sRoot ∨ free = false) ∧ n < sizeBlocks size

theorem dirsIn_below : DirsIn Below sRoot := by
  intro f n free size hname h0 h1 hn
  refine ⟨hname, lt_of_lt_of_le hn ?_⟩
  rw [sizeBlocks_eq h0 h1, Int.tdiv_eq_ediv_of_nonneg h0, u32_of_nonneg (by omega) (by omega)]
  omega

/-! ## Slots -/

/-- A slot with a block number, other than `f_indirect`, is that of some place. -/
theorem data_of_slot (h0 : slotBlock d f s ≠ 0) (hs : s ≠ .fIndirect) : ∃ n, s = dataSlot n := by
  cases s with
  | direct i =>
    by_cases hi : i < 10
    · exact ⟨i, by simp [dataSlot, hi]⟩
    · exact absurd (by unfold slotBlock slotAddr; simp [hi]) h0
  | indirect j => exact ⟨10 + j, by simp [dataSlot]⟩
  | fIndirect => exact absurd rfl hs

/-- A file that owns no block has no block in its record. -/
theorem val_of_slots (h : ∀ s, slotBlock d e s = 0) : (tree sRoot true d).val (.file e) s = none := by
  rcases hv : (tree sRoot true d).val (.file e) s with _ | b
  · rfl
  · obtain ⟨p, hp, h1, h2⟩ := val_eq_some.1 hv
    have ha : slotAddr d e s = some p := by
      cases s with
      | direct i => exact hp
      | indirect j => cases hp
      | fIndirect => exact hp
    rw [← h1, ← slotBlock_eq ha] at h2
    exact absurd (h s) h2

/-- A file with no block in its record owns none. -/
theorem slots_of_val (h : ∀ s, (tree sRoot true d).val (.file e) s = none) : slotBlock d e s = 0 := by
  have h1 : ∀ {t p}, (Rec.file e).word t = some p → d.load32 p = 0 := fun hp => (val_eq_none hp).1 (h _)
  have h2 : ∀ i < 10, d.load32 (fDirect e i) = 0 := fun i hi =>
    h1 (t := .direct i) (if_pos hi)
  have h3 : d.load32 (fIndirect e) = 0 := h1 (t := .fIndirect) rfl
  exact slots_zero h2 h3 s

/-- A file in a block held for file `g`: the block is one of the data of a directory. -/
theorem kid_entry {dirs : Bool} (h : Rec.file f ∈ kids dirs d (slotRec dirs d g s) s b) :
    opens dirs d g = true ∧ s ≠ .fIndirect ∧ ∃ j < 16, f = b * 4096 + 256 * j := by
  cases s with
  | direct i =>
    simp only [slotRec, kids] at h
    split at h
    · rename_i ho
      obtain ⟨j, hj, he⟩ := h
      exact ⟨ho, by simp, j, hj, Rec.file.inj he⟩
    · exact absurd h (Set.notMem_empty _)
  | indirect k =>
    simp only [slotRec, kids] at h
    split at h
    · rename_i ho
      obtain ⟨j, hj, he⟩ := h
      exact ⟨ho, by simp, j, hj, Rec.file.inj he⟩
    · exact absurd h (Set.notMem_empty _)
  | fIndirect => cases h

/-! ## Tidy disks -/

structure Tidy (d : Bytes) : Prop where
  valid : Valid sRoot true d
  size : ∀ f, (tree sRoot true d).Linked (.file f) → 0 ≤ fSize d f
  held : ∀ b, InUse d b → Reserved d b ∨ ∃ r s, (tree sRoot true d).Held r s b
  short : ∀ f n, (tree sRoot true d).Linked (.file f) → sizeBlocks (fSize d f) ≤ n → fileBlock d f n = 0
  named : ∀ f s, (tree sRoot true d).Linked (.file f) → slotBlock d f s ≠ 0 →
    f = sRoot ∨ nameFree d f = false
  dirSize : ∀ f, (tree sRoot true d).Linked (.file f) → fType d f = ftypeDir → fSize d f % 4096 = 0

/-- **A file that owns a block is reachable.** The induction is on how its record is found. -/
theorem Tidy.reachable (ht : Tidy d) (hf : (tree sRoot true d).Linked (.file f))
    (h0 : slotBlock d f s ≠ 0) : Reachable d f := by
  have key : ∀ r, (tree sRoot true d).Linked r → ∀ f s, r = slotRec true d f s →
      (tree sRoot true d).Linked (.file f) → slotBlock d f s ≠ 0 → Reachable d f := by
    intro r hr
    induction hr with
    | refl =>
      intro f s he _ _
      cases s with
      | direct i => rw [← Rec.file.inj he]; exact .root
      | indirect j => cases he
      | fIndirect => rw [← Rec.file.inj he]; exact .root
    | @kid r t b c hr hv hk ih =>
      rintro f s rfl hf h0
      obtain ⟨g, hg, rfl, h1, h2⟩ := slot_of_held ⟨hr, hv⟩
      have hgr := ih g t rfl hg (by rw [h1]; exact h2)
      by_cases hs : slotRec true d f s = .file f
      · rw [hs] at hk
        obtain ⟨ho, hti, j, hj, rfl⟩ := kid_entry hk
        obtain ⟨n, rfl⟩ := data_of_slot (by rw [h1]; exact h2) hti
        have hty : fType d g = ftypeDir := by simpa [opens] using ho
        rcases ht.named _ s hf h0 with h3 | h3
        · rw [h3]; exact .root
        · have h4 : fileBlock d g n = b := h1
          rw [← h4] at h2 h3 ⊢
          refine .entry hgr hty ?_ h2 hj h3
          have h5 : ¬ sizeBlocks (fSize d g) ≤ n := fun h5 => h2 (ht.short g n hg h5)
          have h6 := ht.size g hg
          have h7 := ht.dirSize g hg hty
          rw [sizeBlocks_eq h6 (fSize_lt d g)] at h5
          rw [dirBlocks_eq h6]
          omega
      · -- a slot of the indirect block, which is held for one file only
        have h3 : ∃ j, s = .indirect j := by
          cases s with
          | direct i => exact absurd rfl hs
          | indirect j => exact ⟨j, rfl⟩
          | fIndirect => exact absurd rfl hs
        obtain ⟨j, rfl⟩ := h3
        have h4 : t = .fIndirect ∧ (d.load32 (fIndirect f)).toNat = b := by
          cases t with
          | direct i =>
            simp only [tree, slotRec, kids] at hk
            split at hk
            · obtain ⟨k, -, h5⟩ := hk
              cases h5
            · exact absurd hk (Set.notMem_empty _)
          | indirect i =>
            simp only [tree, slotRec, kids] at hk
            split at hk
            · obtain ⟨k, -, h5⟩ := hk
              cases h5
            · exact absurd hk (Set.notMem_empty _)
          | fIndirect => exact ⟨rfl, (Rec.table.inj (Set.mem_singleton_iff.1 hk)).1⟩
        obtain ⟨rfl, h4⟩ := h4
        have h6 : slotBlock d f .fIndirect = slotBlock d g .fIndirect := h4.trans h1.symm
        have h5 := ht.valid.sound.slot_unique hg hf (by rw [h1]; exact h2) h6
        rw [h5.1]
        exact hgr
  obtain ⟨p, ha⟩ := slotAddr_of_slotBlock h0
  exact key _ (linked_slotRec hf ha) f s rfl hf h0

/-- **Tidy disks have no leaks.** -/
theorem Tidy.noLeak (ht : Tidy d) : NoLeak d := by
  intro b hb
  refine (ht.held b hb).imp_right ?_
  rintro ⟨r, s, hh⟩
  obtain ⟨f, hf, -, h1, h2⟩ := slot_of_held hh
  exact ⟨f, s, ht.reachable hf (by rw [h1]; exact h2), h1⟩

/-- A consistent image is tidy. -/
theorem Consistent.tidy (h : Consistent d) : Tidy d where
  valid := h.valid
  size f hf := by
    rcases h.linked hf with h1 | h1
    · exact (h.size f h1).1
    · exact h1.1.ge
  held b hb := by
    rcases h.noLeak b hb with h1 | ⟨f, s, hf, rfl⟩
    · exact Or.inl h1
    · by_cases h0 : slotBlock d f s = 0
      · -- block 0 is reserved, and not that of a slot
        rw [h0]
        exact Or.inl (Or.inl (by omega))
      · exact Or.inr ⟨_, s, held_slotBlock (reachable_linked hf) h0⟩
  short f n hf hn := by
    rcases h.linked hf with h1 | h1
    · exact h.short f n h1 hn
    · exact h1.2 _
  named f s hf h0 := by
    rcases h.linked hf with h1 | h1
    · exact reachable_named h1
    · exact absurd (h1.2 s) h0
  dirSize f hf ht := by
    rcases h.linked hf with h1 | h1
    · have h2 := h.dirSize f h1 ht
      rw [Int.tmod_eq_emod_of_nonneg (h.size f h1).1] at h2
      exact h2
    · rw [h1.1]
      rfl

namespace Tidy

variable (ht : Tidy d)
include ht

/-- A write that misses the layout: only names and sizes are left to check. -/
theorem same (h : Same sRoot true d d') (hv : Valid sRoot true d')
    (h0 : ∀ f, (tree sRoot true d).Linked (.file f) → 0 ≤ fSize d' f)
    (h1 : ∀ f n, (tree sRoot true d).Linked (.file f) → sizeBlocks (fSize d' f) ≤ n → fileBlock d f n = 0)
    (h2 : ∀ f s, (tree sRoot true d).Linked (.file f) → slotBlock d f s ≠ 0 →
      f = sRoot ∨ nameFree d' f = false)
    (h3 : ∀ f, (tree sRoot true d).Linked (.file f) → fType d f = ftypeDir → fSize d' f % 4096 = 0) :
    Tidy d' where
  valid := hv
  size f hf := h0 f (h.linked.1 hf)
  held b hb := by
    rw [h.reserved]
    refine (ht.held b (h.inUse.1 hb)).imp_right ?_
    rintro ⟨r, s, hh⟩
    exact ⟨r, s, h.held.2 hh⟩
  short f n hf hn := by
    have hf' := h.linked.1 hf
    exact (h.slotBlock_eq hf').trans (h1 f n hf' hn)
  named f s hf h0 := by
    have hf' := h.linked.1 hf
    rw [h.slotBlock_eq hf'] at h0
    exact h2 f s hf' h0
  dirSize f hf hd := by
    have hf' := h.linked.1 hf
    rw [h.type hf'] at hd
    exact h3 f hf' hd

/-- Setting the size of a file that has no block past it. -/
theorem setFSize (hf : (tree sRoot true d).Linked (.file f)) (h0 : 0 ≤ z) (h1 : z < 2 ^ 31)
    (hd : fType d f = ftypeDir → z % 4096 = 0) (hz : ∀ n, sizeBlocks z ≤ n → fileBlock d f n = 0) :
    Tidy (Fs.setFSize d f z) := by
  have hother : ∀ {g}, (tree sRoot true d).Linked (.file g) → g ≠ f → SameHead g d (Fs.setFSize d f z) :=
    fun hg hne => ht.valid.sound.head_write hf (by omega) (by simp) hg hne
  refine ht.same (ht.valid.sound.same_size hf) (ht.valid.setFSize hf fun _ => ⟨h0, h1⟩) ?_ ?_ ?_ ?_
  · intro g hg
    by_cases he : g = f
    · subst he
      rw [fSize_setFSize h0 h1]
      exact h0
    · rw [(hother hg he).fSize_eq]
      exact ht.size g hg
  · intro g n hg hn
    by_cases he : g = f
    · subst he
      rw [fSize_setFSize h0 h1] at hn
      exact hz n hn
    · rw [(hother hg he).fSize_eq] at hn
      exact ht.short g n hg hn
  · intro g s hg hs
    refine (ht.named g s hg hs).imp_right fun h2 => ?_
    by_cases he : g = f
    · subst he
      unfold nameFree Fs.setFSize at *
      rw [Bytes.byte_store32_off (by omega)]
      exact h2
    · rw [(hother hg he).nameFree_eq]
      exact h2
  · intro g hg hty
    by_cases he : g = f
    · subst he
      rw [fSize_setFSize h0 h1]
      exact hd hty
    · rw [(hother hg he).fSize_eq]
      exact ht.dirSize g hg hty

/-- Writing a name, to a file that has a name then or owns no block. -/
theorem setName (hf : (tree sRoot true d).Linked (.file f)) (hl : bs.length ≤ 128)
    (hn : nameFree (d.write f bs) f = false ∨ ∀ s, slotBlock d f s = 0) : Tidy (d.write f bs) := by
  have hother : ∀ {g}, (tree sRoot true d).Linked (.file g) → g ≠ f → SameHead g d (d.write f bs) :=
    fun hg hne => ht.valid.sound.head_write hf le_rfl (by omega) hg hne
  have hsize : ∀ {g}, (tree sRoot true d).Linked (.file g) → fSize (d.write f bs) g = fSize d g := by
    intro g hg
    by_cases he : g = f
    · rw [he]
      unfold fSize
      rw [Bytes.load32_write_off (by omega)]
    · exact (hother hg he).fSize_eq
  refine ht.same (ht.valid.sound.same_head hf le_rfl (by omega)) (ht.valid.setName hf hl) ?_ ?_ ?_ ?_
  · intro g hg
    rw [hsize hg]
    exact ht.size g hg
  · intro g n hg h1
    rw [hsize hg] at h1
    exact ht.short g n hg h1
  · intro g s hg hs
    by_cases he : g = f
    · subst he
      exact Or.inr (hn.resolve_right fun h1 => hs (h1 s))
    · rw [(hother hg he).nameFree_eq]
      exact ht.named g s hg hs
  · intro g hg hty
    rw [hsize hg]
    exact ht.dirSize g hg hty

/-! ## Adding and dropping blocks -/

theorem add (h : AddStep Below sRoot true d d') : Tidy d' := by
  have hs := ht.valid.sound
  have hslot : ∀ f s, (tree sRoot true d').Linked (.file f) → slotBlock d' f s ≠ 0 →
      (tree sRoot true d).Linked (.file f) := by
    intro f s hf h0
    exact (h.blank hs hf).resolve_right fun h1 => h0 (slots_of_val h1.1)
  obtain ⟨g, m, t, hg, ⟨hgn, hm⟩, hgt, hsame⟩ := h.slot_new hs
  refine ⟨h.valid ht.valid, ?_, ?_, ?_, ?_, ?_⟩
  · intro f hf
    rcases h.blank hs hf with hf' | ⟨-, h1⟩
    · rw [(h.head hs hf').fSize_eq]
      exact ht.size f hf'
    · have h2 : fSize d' f = 0 := fSize_blank h1
      rw [h2]
  · intro b hb
    have h1 : Reserved d' b ↔ Reserved d b := by unfold Reserved; rw [h.nblocks_eq hs]
    rw [h1]
    cases h with
    | @mk e n p b' s he _ _ _ ha h0 hb' =>
      have hr := linked_slotRec he ha
      have hp : (slotRec true d e s).word s = some p := word_of_slotAddr ha
      by_cases hbb : b = b'
      · exact Or.inr ⟨_, s, (hs.held_addBlock hr hp hb' h0).2 (Or.inr ⟨rfl, rfl, hbb⟩)⟩
      · have h2 : InUse d b := by
          obtain ⟨h3, h4⟩ := hb
          rw [hs.nblocks_addBlock hr hp hb'] at h3
          rw [hs.blockIsFree_addBlock hr hp hb', if_neg hbb] at h4
          exact ⟨h3, h4⟩
        refine (ht.held b h2).imp_right ?_
        rintro ⟨r, s', hh⟩
        exact ⟨r, s', (hs.held_addBlock hr hp hb' h0).2 (Or.inl hh)⟩
  · intro f n hf hn
    by_contra h0
    have hf' := hslot f _ hf h0
    rw [(h.head hs hf').fSize_eq] at hn
    refine h0 ((hsame f _ hf' ?_).trans (ht.short f n hf' hn))
    rintro ⟨rfl, rfl⟩
    rcases hgt with h1 | h1
    · exact dataSlot_ne h1
    · have := dataSlot_inj h1
      omega
  · intro f s hf h0
    have hf' := hslot f s hf h0
    rw [(h.head hs hf').nameFree_eq]
    by_cases he : f = g ∧ s = t
    · rw [he.1]
      exact hgn
    · rw [hsame f s hf' he] at h0
      exact ht.named f s hf' h0
  · intro f hf hty
    rcases h.blank hs hf with hf' | ⟨-, h1⟩
    · rw [(h.head hs hf').fType_eq] at hty
      rw [(h.head hs hf').fSize_eq]
      exact ht.dirSize f hf' hty
    · have h2 : fSize d' f = 0 := fSize_blank h1
      rw [h2]
      rfl

/-- Moves lose no block. -/
theorem move (h : Move Below sRoot true d d') : Tidy d' := by
  cases h with
  | add h => exact ht.add h
  | @grow f z hf h0 h1 hz =>
    have h2 := ht.size f hf
    refine ht.setFSize hf (le_trans h2 h0) h1 (fun hty => ?_) fun n hn => ht.short f n hf ?_
    · exact hz (by simpa [opens] using hty) (ht.dirSize f hf hty)
    · rw [sizeBlocks_eq h2 (fSize_lt d f)]
      rw [sizeBlocks_eq (le_trans h2 h0) h1] at hn
      omega
  | @name f bs hf hl h1 h2 =>
    refine ht.setName hf hl (Or.inl ?_)
    obtain ⟨c, cs, rfl⟩ := List.exists_cons_of_ne_nil (l := bs) (by rintro rfl; exact h1 rfl)
    have h3 : c ≠ 0 := fun h3 => h2 (by rw [h3]; rfl)
    have h4 : (d.write f (c :: cs)).byte (f + 0) = c := Bytes.byte_write_in (by simp)
    unfold nameFree
    rw [Nat.add_zero] at h4
    rw [h4]
    simpa using h3
  | @data f n q bs hf ho h0 h1 h2 =>
    have hs := ht.valid.sound
    have hhd : ∀ {g}, (tree sRoot true d).Linked (.file g) → SameHead g d (d.write q bs) :=
      fun hg => hs.head_block hf ho h0 h1 h2 hg
    refine ht.same (hs.same_block hf ho h0 h1 h2)
      ((Move.data (P := Below) hf ho h0 h1 h2).valid ht.valid) ?_ ?_ ?_ ?_
    · intro g hg
      rw [(hhd hg).fSize_eq]
      exact ht.size g hg
    · intro g m hg hm
      rw [(hhd hg).fSize_eq] at hm
      exact ht.short g m hg hm
    · intro g s hg h3
      rw [(hhd hg).nameFree_eq]
      exact ht.named g s hg h3
    · intro g hg hty
      rw [(hhd hg).fSize_eq]
      exact ht.dirSize g hg hty

theorem moves (h : Moves Below sRoot true d d') : Tidy d' :=
  (h.rule ht.valid (I := Tidy) ht fun _ _ _ h1 h2 => h1.move h2).2

/-- The records in a dropped block own no blocks. -/
theorem drop_kids (hf : (tree sRoot true d).Linked (.file f)) (hc : Childless d f m)
    (h0 : slotBlock d f s = b) (hb : b ≠ 0) (hm : (∃ n, m ≤ n ∧ s = dataSlot n) ∨ s = .fIndirect ∧
      m ≤ 10 ∧ ∀ n, 10 ≤ n → n < sizeBlocks (fSize d f) → fileBlock d f n = 0)
    (hk : c ∈ kids true d (slotRec true d f s) s b) (t : Slot) : (tree sRoot true d).val c t = none := by
  rcases hm with ⟨n, hn, rfl⟩ | ⟨rfl, -, hz⟩
  · have h1 : ∃ e, c = .file e := by
      rcases kid_layout hk with ⟨j, hj, h1⟩ | ⟨dir, rfl⟩
      · exact ⟨_, h1⟩
      · exfalso
        unfold dataSlot at hk
        split at hk
        · simp only [slotRec, kids] at hk
          split at hk
          · obtain ⟨j, -, h1⟩ := hk
            cases h1
          · exact absurd hk (Set.notMem_empty _)
        · simp only [slotRec, kids] at hk
          split at hk
          · obtain ⟨j, -, h1⟩ := hk
            cases h1
          · exact absurd hk (Set.notMem_empty _)
    obtain ⟨e, rfl⟩ := h1
    obtain ⟨ho, -, j, hj, rfl⟩ := kid_entry hk
    refine val_of_slots (fun s => ?_)
    rw [← h0]
    refine hc (by simpa [opens] using ho) n j s hn ?_ hj
    rw [← h0] at hb
    exact hb
  · rw [Set.mem_singleton_iff.1 hk]
    rcases hv : (tree sRoot true d).val (.table b (opens true d f)) t with _ | b'
    · rfl
    · -- the entries of the indirect block are the places from 10 on
      obtain ⟨p, hp, h1, h2⟩ := val_eq_some.1 hv
      obtain ⟨j, hj, rfl, rfl⟩ : ∃ j < 1024, t = .indirect j ∧ p = b * 4096 + 4 * j := by
        rcases word_cases hp with ⟨f', i, hi, he, -, -⟩ | ⟨f', he, -, -⟩ | ⟨t', dir, j, hj, he, rfl, rfl⟩
        · cases he
        · cases he
        · exact ⟨j, hj, rfl, by rw [(Rec.table.inj he).1]⟩
      have h3 : (d.load32 (fIndirect f)).toNat = b := h0
      have h4 : fileBlock d f (10 + j) = b' := by
        unfold fileBlock dataSlot
        rw [if_neg (by omega), slotBlock_eq (p := b * 4096 + 4 * j)]
        · exact h1
        · rw [← h3, Nat.add_sub_cancel_left]
          refine if_pos ⟨hj, fun h5 => hb ?_⟩
          rw [← h3, h5]
          rfl
      refine absurd (h4.symm.trans ?_) h2
      by_cases h5 : 10 + j < sizeBlocks (fSize d f)
      · exact hz _ (by omega) h5
      · exact ht.short f _ hf (by omega)

theorem drop (hf : (tree sRoot true d).Linked (.file f)) (h : DropStep f m d d') (hc : Childless d f m) :
    Tidy d' := by
  have hs := ht.valid.sound
  have hmono : ∀ {g}, (tree sRoot true d').Linked (.file g) → (tree sRoot true d).Linked (.file g) :=
    fun hg => h.linked_mono hs hf hg
  refine ⟨h.valid hs hf ht.valid, ?_, ?_, ?_, ?_, ?_⟩
  · intro g hg
    rw [(h.head hs hf (hmono hg)).fSize_eq]
    exact ht.size g (hmono hg)
  · intro b hb
    cases h with
    | @mk s p ha h0 hm =>
      have hr := linked_slotRec hf ha
      have hp : (slotRec true d f s).word s = some p := word_of_slotAddr ha
      have h1 : (d.load32 p).toNat ≠ 0 := fun h1 => h0 (BitVec.eq_of_toNat_eq h1)
      have hv : (tree sRoot true d).val (slotRec true d f s) s = some (d.load32 p).toNat :=
        val_eq_some.2 ⟨p, hp, rfl, h1⟩
      have hn := hs.nblocks_dropBlock hr hp
      obtain ⟨h2, h3⟩ := hb
      rw [hn] at h2
      rw [hs.blockIsFree_dropBlock hr hp hv] at h3
      have h4 : b ≠ (d.load32 p).toNat := by
        rintro rfl
        simp at h3
      rw [if_neg h4] at h3
      have h5 : Reserved (dropBlock d p) b ↔ Reserved d b := by unfold Reserved; rw [hn]
      rw [h5]
      refine (ht.held b ⟨h2, h3⟩).imp_right ?_
      rintro ⟨r', s', hh⟩
      refine ⟨r', s', (Owners.unlink_held (hs.off_dropBlock hr hp hv) hv ?_ (Sound.val_dropBlock hp)).2 ⟨hh, ?_⟩⟩
      · exact fun c hk t => ht.drop_kids hf hc (slotBlock_eq ha) h1 hm hk t
      · rintro ⟨rfl, rfl⟩
        exact h4 (Option.some.inj (hh.2.symm.trans hv))
  · intro g n hg hn
    by_contra h0
    rw [(h.head hs hf (hmono hg)).fSize_eq] at hn
    have h1 := h.slot_mono hs hf hg h0
    exact h0 (h1.symm.trans (ht.short g n (hmono hg) hn))
  · intro g s hg h0
    rw [(h.head hs hf (hmono hg)).nameFree_eq]
    refine ht.named g s (hmono hg) ?_
    rw [h.slot_mono hs hf hg h0]
    exact h0
  · intro g hg hty
    rw [(h.head hs hf (hmono hg)).fType_eq] at hty
    rw [(h.head hs hf (hmono hg)).fSize_eq]
    exact ht.dirSize g (hmono hg) hty

/-- Truncating a file whose dropped blocks hold no files with blocks. -/
theorem drops (hf : (tree sRoot true d).Linked (.file f)) (hc : Childless d f m) (h : Drops f m d d') :
    Tidy d' := by
  refine (h.rule ht.valid hf (I := fun d => Tidy d ∧ Childless d f m) ⟨ht, hc⟩ ?_).2.2.1
  intro d₁ d₂ hv hf ⟨ht, hc⟩ h
  refine ⟨ht.drop hf h hc, fun hty n j s hn h0 hj => ?_⟩
  have hf' := h.linked hv.sound hf
  have h1 := h.slot_mono hv.sound hf hf' h0
  by_contra h2
  have h3 := linked_entry hf' (by unfold opens; simp [hty]) h0 hj
  have h4 := h.slot_mono hv.sound hf h3 h2
  rw [(h.head hv.sound hf hf).fType_eq] at hty
  have h5 : fileBlock d₁ f n = fileBlock d₂ f n := h1
  rw [← h5] at h0 h2 h4
  exact h2 (h4.symm.trans (hc hty n j s hn h0 hj))

/-! ## The calls -/

/-- `file_set_size`. -/
theorem fileSetSize (hf : (tree sRoot true d).Linked (.file f)) (h0 : 0 ≤ z) (h1 : z < 2 ^ 31)
    (hd : fType d f = ftypeDir → z % 4096 = 0) (hc : Childless d f (sizeBlocks z))
    (h : Fs.fileSetSize d f z = some d') : Tidy d' := by
  have h2 := fSize_lt d f
  unfold Fs.fileSetSize at h
  split at h
  · obtain ⟨d₁, h3, rfl⟩ := Option.map_eq_some_iff.1 h
    obtain ⟨hD, h4, -⟩ := fileTruncateBlocks_drops ht.valid hf h3
    refine (ht.drops hf hc hD).setFSize (hD.valid ht.valid hf).2 h0 h1 (fun hty => ?_) fun n hn => ?_
    · rw [(hD.head ht.valid hf).fType_eq] at hty
      exact hd hty
    · by_cases h5 : n < sizeBlocks (fSize d f)
      · exact h4 n hn h5
      · exact hD.slot_zero ht.valid hf (ht.short f n hf (by omega))
  · obtain rfl := Option.some.inj h
    refine ht.setFSize hf h0 h1 hd fun n hn => ht.short f n hf ?_
    rw [sizeBlocks_eq (ht.size f hf) h2]
    rw [sizeBlocks_eq h0 h1] at hn
    omega

end Tidy

/-- A file with a path is linked. -/
theorem names_linked {els : List (List Byte)} (hf : (tree sRoot true d).Linked (.file f))
    (h : Names d els f g) : (tree sRoot true d).Linked (.file g) := by
  induction els generalizing f with
  | nil =>
    rw [show g = f from h]
    exact hf
  | cons name rest ih =>
    obtain ⟨ht, i, -, h0, j, hj, -, h1⟩ := h
    exact ih (linked_entry hf (by unfold opens; simp [ht]) h0 hj) h1

/-- The walk to a file adds no blocks to its entries. -/
theorem childless_of_walk {els : List (List Byte)} {dir dir' : Option ℕ} (ht : Tidy d)
    (hels : ∀ name ∈ els, GoodName name) (hc : ∀ f, Names d els sRoot f → Childless d f m)
    (h : walkElements els dir sRoot d = some (.found dir' f, d')) : Childless d' f m := by
  obtain ⟨hA, -, -, hn, -⟩ := walkElements_adds dirsIn_below ht.valid .refl (Or.inl rfl) hels h
  have hf : (tree sRoot true d).Linked (.file f) := names_linked .refl hn
  have hhd := hA.head ht.valid hf
  have ht' := ht.moves hA.moves
  intro hty n j s hm h0 hj
  by_contra h1
  have hf' := hA.linked ht.valid hf
  have ho : opens true d' f = true := by unfold opens; simp [hty]
  have h2 := linked_entry hf' ho h0 hj
  have hheld := held_slotBlock hf' h0
  -- the entry has a name, since it has a block
  have h3 : nameFree d' (fileBlock d' f n * 4096 + 256 * j) = false := by
    refine (ht'.named _ s h2 h1).resolve_left fun h4 => (ht'.valid.sound.good hheld).2.2 ?_
    rw [← h4]
    unfold fileBlock
    omega
  have h4 := hA.block_old ht.valid hf (by rw [← hhd.fType_eq]; exact hty) h0 hj h3
  rw [hhd.fType_eq] at hty
  have h5 := hc f hn hty n j s hm (by rw [h4]; exact h0) hj
  rw [h4] at h5
  have h6 := linked_entry (d := d) (i := n) hf (by unfold opens; simp [hty]) (by rw [h4]; exact h0) hj
  rw [h4] at h6
  refine h1 (((walkElements_others (s := s) ht.valid .refl (Or.inl rfl) hels h).2 _ h6 fun h7 => ?_).trans h5)
  -- the file would lie below its own entry
  obtain ⟨p, ha⟩ := slotAddr_of_slotBlock h0
  exact Owners.not_below ht'.valid.sound.alone ht'.valid.sound.apart hheld (entry_kid ho hj)
    (h7.trans (from_slotRec ha)) hheld.2

/-- No directory is written to, and none loses an entry that owns blocks: the entries of a
directory that is removed own none, nor do those past a smaller size, which is a multiple of
the block size. -/
def NoOrphan (d : Bytes) : Call → Prop
  | .write f _ _ => fType d f ≠ ftypeDir
  | .setSize f size => (fType d f = ftypeDir → size % 4096 = 0) ∧ Childless d f (sizeBlocks size)
  | .remove path => ∀ f, Names d (elements path) sRoot f → Childless d f 0
  | _ => True

theorem fileRemove_tidy {path : CString} {res : ℤ} (ht : Tidy d)
    (hc : ∀ f, Names d (elements path) sRoot f → Childless d f 0)
    (h : fileRemove d path = some (res, d')) : Tidy d' := by
  obtain ⟨⟨w, d₁⟩, h1, h2⟩ := Option.bind_eq_some_iff.1 h
  obtain ⟨hA, hw⟩ := walkPath_adds dirsIn_below ht.valid h1
  have ht₁ := ht.moves hA.moves
  rcases w with ⟨dir, f⟩ | ⟨r, last⟩
  · have hc₁ := childless_of_walk ht (elements_good path) hc h1
    obtain ⟨d₂, h3, h4⟩ := Option.bind_eq_some_iff.1 h2
    simp only [Option.some.injEq, Prod.mk.injEq] at h4
    obtain ⟨hD, h5, h6⟩ := fileTruncateBlocks_drops ht₁.valid hw.1 h3
    have ht₂ := ht₁.drops hw.1 hc₁ hD
    have hf₂ := (hD.valid ht₁.valid hw.1).2
    -- no slot of the file is set any more
    have h7 : ∀ n, fileBlock d₂ f n = 0 := by
      intro n
      by_cases h8 : n < sizeBlocks (fSize d₁ f)
      · exact h5 n (Nat.zero_le n) h8
      · exact hD.slot_zero ht₁.valid hw.1 (ht₁.short f n hw.1 (by omega))
    have h8 : ∀ s, slotBlock d₂ f s = 0 := by
      intro s
      by_contra h9
      by_cases hs : s = .fIndirect
      · subst hs
        exact h9 (h6 (Nat.zero_le 10))
      · obtain ⟨n, rfl⟩ := data_of_slot h9 hs
        exact h9 (h7 n)
    have hsame : Same sRoot true d₂ (d₂.write f [0]) := ht₂.valid.sound.same_head hf₂ le_rfl (by simp)
    rw [← h4.2]
    refine (ht₂.setName hf₂ (by simp) (Or.inr h8)).setFSize (hsame.linked.2 hf₂) le_rfl (by omega)
      (fun _ => rfl) fun n _ => ?_
    exact (hsame.slotBlock_eq hf₂).trans (h7 n)
  · simp only [Option.some.injEq, Prod.mk.injEq] at h2
    rw [← h2.2]
    exact ht₁

/-- **One call** leaks no block, if it leaves none without an owner. -/
theorem exec_tidy {c : Call} (ht : Tidy d) (ha : Allowed d c) (hc : NoOrphan d c)
    (h : exec d c = some d') : Tidy d' := by
  cases c with
  | create path =>
    obtain ⟨⟨r, d₁⟩, h1, rfl⟩ := Option.map_eq_some_iff.1 h
    exact ht.moves (fileCreate_moves dirsIn_below ht.valid h1).1
  | «open» path =>
    obtain ⟨⟨r, d₁⟩, h1, rfl⟩ := Option.map_eq_some_iff.1 h
    exact ht.moves (fileOpen_adds dirsIn_below ht.valid h1).1.moves
  | read f count offset =>
    obtain ⟨⟨r, d₁⟩, h1, rfl⟩ := Option.map_eq_some_iff.1 h
    obtain ⟨hf, -, h0, -⟩ := ha
    have hl := reachable_linked hf
    refine ht.moves (fileRead_adds ht.valid hl (fun n hn => ⟨reachable_named hf, ?_⟩) h1).moves
    have h2 := hn h0
    rw [sizeBlocks_eq (ht.size f hl) (fSize_lt d f)]
    omega
  | write f buf offset =>
    obtain ⟨⟨r, d₁⟩, h1, rfl⟩ := Option.map_eq_some_iff.1 h
    obtain ⟨hf, ⟨-, h2⟩, h0, h3⟩ := ha
    have hl := reachable_linked hf
    have ho : opens true d f = false := by simpa [opens, NoOrphan] using hc
    unfold maxFileSize at *
    refine ht.moves (fileWrite_moves ht.valid hl (ht.size f hl) ho h0 (by omega)
      (fun n z hz hz' hn => ⟨reachable_named hf, ?_⟩) h1)
    rw [sizeBlocks_eq hz hz']
    omega
  | setSize f size =>
    obtain ⟨hf, h0, h1⟩ := ha
    unfold maxFileSize at *
    exact ht.fileSetSize (reachable_linked hf) h0 (by omega) hc.1 hc.2 h
  | remove path =>
    obtain ⟨⟨r, d₁⟩, h1, rfl⟩ := Option.map_eq_some_iff.1 h
    exact fileRemove_tidy ht hc h1

theorem run_tidy (ht : Tidy d) (hr : Run NoOrphan d d') : Tidy d' := by
  induction hr with
  | refl => exact ht
  | tail _ h ih =>
    obtain ⟨c, ha, hc, hx⟩ := h
    exact exec_tidy ih ha hc hx

/-- The path `/bin/a`. -/
def binFilePath : CString := ⟨[0x2F, 0x62, 0x69, 0x6E, 0x2F, 0x61], by decide⟩

/-- The first block of `/bin` is block 4, and its first entry has a name. -/
def binEntry (d : Bytes) : Bool :=
  decide (fType d (3 * 4096 + 256 * 0) = ftypeDir ∧ 0 < dirBlocks d (3 * 4096 + 256 * 0) ∧
    fileBlock d (3 * 4096 + 256 * 0) 0 = 4 ∧ nameFree d (4 * 4096 + 256 * 0) = false)

theorem binEntry_reachable (h : hasEntry d 0 = true) (hb : binEntry d = true) :
    Reachable d (4 * 4096 + 256 * 0) := by
  obtain ⟨h1, h2, h3, h4⟩ := of_decide_eq_true hb
  have h5 := Reachable.entry (j := 0) (hasEntry_reachable h (by omega)) h1 h2 (by rw [h3]; decide)
    (by omega) (by rw [h3]; exact h4)
  rw [h3] at h5
  exact h5

/-- The root directory has block 3 only, and no entry there has a name. -/
def rootEmpty (d : Bytes) : Bool :=
  (List.range 16).all (fun j => nameFree d (3 * 4096 + 256 * j)) &&
    (List.range 10).all (fun i => (d.load32 (fDirect sRoot i)).toNat == if i = 0 then 3 else 0) &&
    d.load32 (fIndirect sRoot) == 0

theorem rootEmpty_slot (h : rootEmpty d = true) (hf : Reachable d f) (h0 : slotBlock d f s ≠ 0) :
    slotBlock d f s = 3 := by
  simp only [rootEmpty, Bool.and_eq_true, beq_iff_eq, List.all_eq_true, List.mem_range] at h
  obtain ⟨⟨hfree, hroot⟩, hind⟩ := h
  have hreach : ∀ f, Reachable d f → f = sRoot := by
    intro f hf
    induction hf with
    | root => rfl
    | @entry dir i j _ _ _ h0 hj hname ih =>
      subst ih
      have h1 : fileBlock d sRoot i = 3 := (single_slot hroot hind h0).2
      rw [h1, hfree j hj] at hname
      cases hname
  rw [hreach f hf] at h0 ⊢
  exact (single_slot hroot hind h0).2

end Jos.Fs
