import Jos.Proof.Moves

/-!
# Where the file system does not panic

A disk is `Whole` if its layout is valid and the sizes of its directories are multiples of
the block size. There no function of `fs/fs.c` panics: every block number it follows is that
of a block in use, and the assertions of `dir_lookup` and `dir_alloc_file` hold. Adding and
dropping blocks keeps a disk whole.
-/

namespace Jos.Fs

open Lib

variable {root : ℕ} {dirs : Bool} {d d' d₁ : Bytes} {r c : Rec} {s : Slot} {b f g m n p x : ℕ}
  {bs buf : List Byte} {name : List Byte} {els : List (List Byte)} {z pos : ℤ} {fin k : ℕ}
  {P : ℕ → ℕ → Bool → ℤ → Prop}

/-! ## Blocks -/

/-- The number of free blocks. -/
def room (d : Bytes) : ℕ := ((Finset.range (nblocks d)).filter fun b => blockIsFree d b = true).card

theorem room_eq_zero (h : ∀ b, blockIsFree d b = false) : room d = 0 := by
  unfold room
  rw [Finset.card_eq_zero, Finset.filter_eq_empty_iff]
  intro b _
  rw [h b]
  exact nofun

theorem Same.room_eq (h : Same root dirs d d') : room d' = room d := by
  unfold room
  rw [h.nblocks]
  refine congrArg Finset.card (Finset.filter_congr fun b _ => ?_)
  rw [h.free]

namespace Sound

variable (hs : Sound root dirs d)
include hs

/-- The block number in a slot can be followed. -/
theorem diskaddr_slot (hf : (tree root dirs d).Linked (.file f)) (ha : slotAddr d f s = some p)
    (h0 : d.load32 p ≠ 0) : diskaddr d (d.load32 p).toNat = some ((d.load32 p).toNat * 4096) := by
  have h1 : slotBlock d f s ≠ 0 := by
    rw [slotBlock_eq ha]
    exact fun h1 => h0 (BitVec.eq_of_toNat_eq h1)
  have h2 := (hs.good (held_slotBlock hf h1)).1.1
  rw [slotBlock_eq ha] at h1 h2
  unfold diskaddr
  rw [if_neg (by omega)]

/-- Adding a block takes one. -/
theorem room_addBlock (hr : (tree root dirs d).Linked r) (hp : r.word s = some p)
    (hb : blockIsFree d b = true) : room (addBlock d p b) + 1 = room d := by
  have h1 : ((Finset.range (nblocks d)).filter fun c => blockIsFree (addBlock d p b) c = true) =
      ((Finset.range (nblocks d)).filter fun c => blockIsFree d c = true).erase b := by
    ext c
    rw [Finset.mem_erase, Finset.mem_filter, Finset.mem_filter, hs.blockIsFree_addBlock hr hp hb]
    by_cases hc : c = b
    · simp [hc]
    · simp [hc]
  unfold room
  rw [hs.nblocks_addBlock hr hp hb, h1]
  exact Finset.card_erase_add_one (Finset.mem_filter.2 ⟨Finset.mem_range.2 (blockIsFree_lt hb), hb⟩)

/-- Allocating a block for a slot. -/
theorem allocAt_total (hf : (tree root dirs d).Linked (.file f)) (ha : slotAddr d f s = some p) :
    (allocAt d p = some (false, d) ∧ room d = 0) ∨
    (d.load32 p ≠ 0 ∧ allocAt d p = some (true, d)) ∨
    (d.load32 p = 0 ∧ ∃ b, blockIsFree d b = true ∧ allocAt d p = some (true, addBlock d p b)) := by
  by_cases h0 : d.load32 p ≠ 0
  · refine Or.inr (Or.inl ⟨h0, ?_⟩)
    unfold allocAt
    rw [if_pos h0]
  · rcases hb : (List.range (nblocks d)).find? (blockIsFree d) with _ | b
    · refine Or.inl ⟨?_, room_eq_zero fun b => ?_⟩
      · unfold allocAt allocBlock
        rw [if_neg h0, hb]
      · by_cases hlt : b < nblocks d
        · simpa using List.find?_eq_none.1 hb b (List.mem_range.2 hlt)
        · rw [blockIsFree_eq]
          simp [hlt]
    · refine Or.inr (Or.inr ⟨not_not.1 h0, b, List.find?_some hb, ?_⟩)
      have hfree : blockIsFree d b = true := List.find?_some hb
      have h1 := hs.nblocks_mark (linked_slotRec hf ha) (word_of_slotAddr ha) (b := b) (u := false)
        (w := BitVec.ofNat 32 b)
      have h2 := (hs.free_apart hfree).1
      have h3 := blockIsFree_lt hfree
      have h4 : diskaddr ((markBlock d b false).store32 p (BitVec.ofNat 32 b)) b = some (b * 4096) := by
        unfold diskaddr
        rw [h1, if_neg (by omega)]
      unfold allocAt allocBlock
      rw [if_neg h0, hb]
      dsimp only
      exact Option.bind_eq_some_iff.2 ⟨_, h4, rfl⟩

theorem fileBlockWalk_total (hf : (tree root dirs d).Linked (.file f)) (n : ℕ) (alloc : Bool) :
    ∃ res d', fileBlockWalk d f n alloc = some (res, d') ∧ Sound root dirs d' ∧
      (tree root dirs d').Linked (.file f) ∧ room d ≤ room d' + 1 ∧
      (alloc = true → ∀ e, res = .error e → 10 + 1024 ≤ n ∨ room d = 0) := by
  unfold fileBlockWalk
  by_cases h1 : n ≥ 10 + 1024
  · rw [if_pos h1]
    exact ⟨_, _, rfl, hs, hf, Nat.le_succ _, fun _ _ _ => Or.inl h1⟩
  rw [if_neg h1]
  by_cases h2 : n < 10
  · rw [if_pos h2]
    exact ⟨_, _, rfl, hs, hf, Nat.le_succ _, fun _ => nofun⟩
  rw [if_neg h2]
  by_cases h3 : d.load32 (fIndirect f) = 0 ∧ alloc = false
  · rw [if_pos h3]
    refine ⟨_, _, rfl, hs, hf, Nat.le_succ _, fun h4 => ?_⟩
    rw [h3.2] at h4
    cases h4
  rw [if_neg h3]
  have ha : slotAddr d f .fIndirect = some (fIndirect f) := rfl
  rcases hs.allocAt_total hf ha with ⟨h4, h5⟩ | ⟨h0, h4⟩ | ⟨h0, b, hb, h4⟩
  · rw [h4]
    exact ⟨_, _, rfl, hs, hf, Nat.le_succ _, fun _ _ _ => Or.inr h5⟩
  · rw [h4]
    simp only [Option.bind_eq_bind, Option.bind_some, if_true, hs.diskaddr_slot hf ha h0]
    exact ⟨_, _, rfl, hs, hf, Nat.le_succ _, fun _ => nofun⟩
  · rw [h4]
    have hA : AddStep (fun _ _ _ _ => True) root dirs d (addBlock d (fIndirect f) b) :=
      .mk (n := 10) hf trivial (by omega) (Or.inr ⟨le_rfl, rfl⟩) ha h0 hb
    have hs' := hA.sound hs
    have hf' := hA.linked hs hf
    have h5 : (addBlock d (fIndirect f) b).load32 (fIndirect f) ≠ 0 := by
      intro h5
      have h6 := (hs.slot_add hf ha h0 hb).1
      have h7 := (hs.free_apart hb).1
      rw [slotBlock_eq (f := f) (s := .fIndirect) (p := fIndirect f) rfl, h5] at h6
      rw [← h6] at h7
      exact absurd h7 (by decide)
    have h6 := hs'.diskaddr_slot hf' (s := .fIndirect) rfl h5
    simp only [Option.bind_eq_bind, Option.bind_some, if_true, h6]
    exact ⟨_, _, rfl, hs', hf', (hs.room_addBlock (linked_slotRec hf ha) (word_of_slotAddr ha) hb).ge,
      fun _ => nofun⟩

/-- **`file_get_block` does not panic**, and takes at most two blocks. It fails only past the
last place of a file or where the disk is full. -/
theorem fileGetBlock_total (hf : (tree root dirs d).Linked (.file f)) (n : ℕ) :
    ∃ res d', fileGetBlock d f n = some (res, d') ∧ room d ≤ room d' + 2 ∧
      ∀ e, res = .error e → 10 + 1024 ≤ n ∨ room d ≤ 1 := by
  obtain ⟨res, d₁, h1, hs₁, hf₁, hr₁, he⟩ := hs.fileBlockWalk_total hf n true
  have he := he rfl
  unfold fileGetBlock
  rw [h1]
  rcases res with e | p
  · exact ⟨_, _, rfl, by omega, fun e' _ => (he e rfl).imp_right fun h => by omega⟩
  have ha : slotAddr d₁ f (dataSlot n) = some p := by
    rcases fileBlockWalk_cases h1 with ⟨e, -, h2, -⟩ | ⟨p', h2, -, h3, -⟩
    · cases h2
    · cases h2
      exact h3
  dsimp only [Option.bind_eq_bind, Option.bind_some]
  rcases hs₁.allocAt_total hf₁ ha with ⟨h4, h5⟩ | ⟨h0, h4⟩ | ⟨h0, b, hb, h4⟩
  · rw [h4]
    exact ⟨_, _, rfl, by omega, fun _ _ => Or.inr (by omega)⟩
  · rw [h4]
    simp only [Option.bind_some, if_true, hs₁.diskaddr_slot hf₁ ha h0]
    exact ⟨_, _, rfl, by omega, nofun⟩
  · have hr := linked_slotRec hf₁ ha
    have hp : (slotRec dirs d₁ f (dataSlot n)).word (dataSlot n) = some p := word_of_slotAddr ha
    have hs' := hs₁.add hr hp hb h0
    have hf' : (tree root dirs (addBlock d₁ p b)).Linked (.file f) :=
      (hs₁.linked_addBlock hr hp hb h0).2 (Or.inl hf₁)
    have ha' := hs₁.slotAddr_addBlock hr hp hb h0 hf₁ ha
    have h5 : (addBlock d₁ p b).load32 p ≠ 0 := by
      intro h5
      have h6 := (hs₁.slot_add hf₁ ha h0 hb).1
      have h7 := (hs₁.free_apart hb).1
      rw [slotBlock_eq ha', h5] at h6
      rw [← h6] at h7
      exact absurd h7 (by decide)
    have h6 := hs₁.room_addBlock hr hp hb
    rw [h4]
    simp only [Option.bind_some, if_true, hs'.diskaddr_slot hf' ha' h5]
    exact ⟨_, _, rfl, by omega, nofun⟩

theorem fileFreeBlock_total (hf : (tree root dirs d).Linked (.file f)) (n : ℕ) :
    ∃ res d', fileFreeBlock d f n = some (res, d') := by
  obtain ⟨res, d₁, h1, -⟩ := hs.fileBlockWalk_total hf n false
  unfold fileFreeBlock
  rw [h1]
  rcases res with e | p
  · exact ⟨_, _, rfl⟩
  dsimp only [Option.bind_eq_bind, Option.bind_some]
  by_cases h0 : d₁.load32 p ≠ 0
  · rw [if_pos h0]
    have h2 : ¬ (d₁.load32 p).toNat = 0 := fun h2 => h0 (BitVec.eq_of_toNat_eq h2)
    unfold freeBlock
    rw [if_neg h2]
    exact ⟨_, _, rfl⟩
  · rw [if_neg h0]
    exact ⟨_, _, rfl⟩

end Sound

/-! ## Whole disks -/

/-- The layout is valid, and the sizes of directories are multiples of the block size. -/
structure Whole (d : Bytes) : Prop where
  valid : Valid sRoot true d
  dirSize : ∀ {f}, (tree sRoot true d).Linked (.file f) → fType d f = ftypeDir → fSize d f % 4096 = 0

namespace Whole

variable (hw : Whole d)
include hw

theorem add (h : AddStep P sRoot true d d') : Whole d' := by
  refine ⟨h.valid hw.valid, fun {g} hg ht => ?_⟩
  rcases h.blank hw.valid.sound hg with h1 | ⟨-, h1⟩
  · have hhd := h.head hw.valid.sound h1
    rw [hhd.fType_eq] at ht
    rw [hhd.fSize_eq]
    exact hw.dirSize h1 ht
  · have h2 : fSize d' g = 0 := fSize_blank h1
    rw [h2]
    rfl

theorem adds (h : Adds P sRoot true d d') : Whole d' :=
  (h.rule hw.valid (I := Whole) hw fun _ _ _ h1 h2 => h1.add h2).2

omit hw in
/-- A write that misses the layout: only sizes are left to check. -/
theorem same (h : Same sRoot true d d') (hv : Valid sRoot true d')
    (h1 : ∀ g, (tree sRoot true d).Linked (.file g) → fType d g = ftypeDir → fSize d' g % 4096 = 0) :
    Whole d' := by
  refine ⟨hv, fun {g} hg ht => ?_⟩
  rw [h.linked] at hg
  rw [h.type hg] at ht
  exact h1 g hg ht

theorem setFSize (hf : (tree sRoot true d).Linked (.file f))
    (hz : fType d f = ftypeDir → 0 ≤ z ∧ z < 2 ^ 31 ∧ z % 4096 = 0) : Whole (Fs.setFSize d f z) := by
  have hopen : opens true d f = true → fType d f = ftypeDir := fun h => by simpa [opens] using h
  refine .same (hw.valid.sound.same_size hf)
    (hw.valid.setFSize hf fun ho => ⟨(hz (hopen ho)).1, (hz (hopen ho)).2.1⟩) fun g hg ht => ?_
  by_cases he : g = f
  · subst he
    obtain ⟨h0, h1, h2⟩ := hz ht
    rw [fSize_setFSize h0 h1]
    exact h2
  · have h2 : SameHead g d (Fs.setFSize d f z) :=
      hw.valid.sound.head_write hf (by omega) (by simp) hg he
    rw [h2.fSize_eq]
    exact hw.dirSize hg ht

theorem setName (hf : (tree sRoot true d).Linked (.file f)) (hl : bs.length ≤ 128) :
    Whole (d.write f bs) := by
  refine .same (hw.valid.sound.same_head hf le_rfl (by omega)) (hw.valid.setName hf hl) fun g hg ht => ?_
  have h1 : fSize (d.write f bs) g = fSize d g := by
    by_cases he : g = f
    · rw [he]
      unfold fSize
      rw [Bytes.load32_write_off (by omega)]
    · exact (hw.valid.sound.head_write hf le_rfl (by omega) hg he).fSize_eq
  rw [h1]
  exact hw.dirSize hg ht

/-- **Moves keep a disk whole.** -/
theorem move (h : Move P sRoot true d d') : Whole d' := by
  cases h with
  | add h => exact hw.add h
  | @grow f z hf h0 h1 h2 =>
    refine hw.setFSize hf fun ht => ?_
    have h3 := hw.valid.size hf (opens_dir ht)
    exact ⟨le_trans h3 h0, h1, h2 (opens_dir ht) (hw.dirSize hf ht)⟩
  | name hf hl _ _ => exact hw.setName hf hl
  | data hf ho h0 h1 h2 =>
    have hv := (Move.data (P := P) hf ho h0 h1 h2).valid hw.valid
    refine .same (hw.valid.sound.same_block hf ho h0 h1 h2) hv fun g hg ht => ?_
    rw [(hw.valid.sound.head_block hf ho h0 h1 h2 hg).fSize_eq]
    exact hw.dirSize hg ht

theorem moves (h : Moves P sRoot true d d') : Whole d' :=
  (h.rule hw.valid (I := Whole) hw fun _ _ _ h1 h2 => h1.move h2).2

/-- Dropping blocks keeps a disk whole. -/
theorem drops (hf : (tree sRoot true d).Linked (.file f)) (h : Drops f m d d') : Whole d' := by
  refine (h.rule hw.valid hf (I := Whole) hw fun d₁ d₂ hv₁ hf₁ h1 h2 => ?_).2.2
  refine ⟨h2.valid hv₁.sound hf₁ hv₁, fun {g} hg ht => ?_⟩
  have hg' := h2.linked_mono hv₁.sound hf₁ hg
  have hhd := h2.head hv₁.sound hf₁ hg'
  rw [hhd.fType_eq] at ht
  rw [hhd.fSize_eq]
  exact h1.dirSize hg' ht

/-- The assertion at the start of `dir_lookup` and `dir_alloc_file`. -/
theorem assertion (hf : (tree sRoot true d).Linked (.file f)) (ht : fType d f = ftypeDir) :
    (fSize d f).tmod 4096 = 0 := by
  rw [Int.tmod_eq_emod_of_nonneg (hw.valid.size hf (opens_dir ht))]
  exact hw.dirSize hf ht

end Whole

/-! ## Directories and paths -/

theorem dirScan_total (test : Bytes → ℕ → Bool) (is : List ℕ) (hv : Valid root dirs d)
    (hf : (tree root dirs d).Linked (.file f)) : ∃ res d', dirScan test f is d = some (res, d') := by
  induction is generalizing d with
  | nil => exact ⟨_, _, rfl⟩
  | cons i is ih =>
    obtain ⟨res, d₁, h1, -⟩ := hv.sound.fileGetBlock_total hf i
    unfold dirScan
    rw [h1]
    rcases res with e | blk
    · exact ⟨_, _, rfl⟩
    · dsimp only [Option.bind_eq_bind, Option.bind_some]
      rcases hj : (List.range 16).find? fun j => test d₁ (blk + 256 * j) with _ | j
      · obtain ⟨hA, -⟩ := fileGetBlock_adds (P := fun _ _ _ _ => True) hv.sound hf trivial h1
        exact ih (hA.valid hv) (hA.linked hv hf)
      · exact ⟨_, _, rfl⟩

namespace Whole

variable (hw : Whole d) (hf : (tree sRoot true d).Linked (.file f)) (ht : fType d f = ftypeDir)
include hw hf ht

theorem dirLookup_total (name : List Byte) : ∃ res d', dirLookup d f name = some (res, d') := by
  obtain ⟨res, d₁, h1⟩ := dirScan_total (nameEq name) (List.range (dirBlocks d f)) hw.valid hf
  unfold dirLookup
  rw [if_neg (not_not.2 (hw.assertion hf ht)), h1]
  rcases res with e | _ | g
  · exact ⟨_, _, rfl⟩
  · exact ⟨_, _, rfl⟩
  · exact ⟨_, _, rfl⟩

theorem dirAllocFile_total : ∃ res d', dirAllocFile d f = some (res, d') := by
  obtain ⟨res, d₁, h1⟩ := dirScan_total nameFree (List.range (dirBlocks d f)) hw.valid hf
  unfold dirAllocFile
  rw [if_neg (not_not.2 (hw.assertion hf ht))]
  dsimp only
  rw [h1]
  rcases res with e | _ | g
  · exact ⟨_, _, rfl⟩
  · obtain ⟨hA, -⟩ := dirScan_adds (P := fun _ _ _ _ => True) hw.valid hf (fun _ _ => trivial) h1
    have hs₁ := (hA.valid hw.valid).sound
    have hf₁ := hA.linked hw.valid hf
    have hsame : Same sRoot true d₁ (Fs.setFSize d₁ f (fSize d₁ f + 4096)) := hs₁.same_size hf₁
    obtain ⟨res, d₂, h2, -⟩ := (hsame.sound hs₁).fileGetBlock_total (hsame.linked.2 hf₁) (dirBlocks d f)
    exact ⟨res, d₂, h2⟩
  · exact ⟨_, _, rfl⟩

end Whole

/-- The walk looks up names in linked directories only. -/
theorem walkElements_total {dir : Option ℕ} (hw : Whole d) (hf : (tree sRoot true d).Linked (.file f))
    (hname : f = sRoot ∨ nameFree d f = false) (hg : ∀ name ∈ els, GoodName name) :
    ∃ w d', walkElements els dir f d = some (w, d') := by
  induction els generalizing d f dir with
  | nil => exact ⟨_, _, rfl⟩
  | cons name rest ih =>
    unfold walkElements
    split
    · exact ⟨_, _, rfl⟩
    split
    · exact ⟨_, _, rfl⟩
    rename_i ht
    have ht := not_not.1 ht
    obtain ⟨res, d₁, h1⟩ := hw.dirLookup_total hf ht name
    rw [h1]
    rcases res with e | g
    · exact ⟨_, _, rfl⟩
    · obtain ⟨hA, -, hok⟩ := dirLookup_adds (P := fun _ _ _ _ => True) (fun _ _ _ _ => trivial)
        hw.valid hf hname ht h1
      obtain ⟨hlg, heq, -⟩ := hok g rfl
      exact ih (hw.adds hA) hlg (Or.inr (nameFree_of_nameEq (hg name List.mem_cons_self) heq))
        fun k hk => hg k (List.mem_cons_of_mem _ hk)

/-- Blocks may be added anywhere. -/
theorem dirsIn_true {root : ℕ} : DirsIn (fun _ _ _ _ => True) root := fun _ _ _ _ => trivial

namespace Whole

variable (hw : Whole d)
include hw

theorem walkPath_total (path : CString) : ∃ w d', walkPath d path = some (w, d') :=
  walkElements_total hw .refl (Or.inl rfl) (elements_good path)

theorem fileOpen_total (path : CString) : ∃ res d', fileOpen d path = some (res, d') := by
  obtain ⟨w, d₁, h1⟩ := hw.walkPath_total path
  unfold fileOpen
  rw [h1]
  rcases w with ⟨dir, g⟩ | ⟨r, last⟩
  · exact ⟨_, _, rfl⟩
  · exact ⟨_, _, rfl⟩

theorem fileCreate_total (path : CString) : ∃ res d', fileCreate d path = some (res, d') := by
  obtain ⟨w, d₁, h1⟩ := hw.walkPath_total path
  obtain ⟨hA, hok⟩ := walkPath_adds dirsIn_true hw.valid h1
  unfold fileCreate
  rw [h1]
  rcases w with ⟨dir, g⟩ | ⟨r, _ | ⟨dir, name⟩⟩
  · exact ⟨_, _, rfl⟩
  · exact ⟨_, _, rfl⟩
  · obtain ⟨hf, -, ht, -⟩ := hok.2 dir name rfl
    dsimp only [Option.bind_eq_bind, Option.bind_some]
    split
    · exact ⟨_, _, rfl⟩
    · obtain ⟨res, d₂, h2⟩ := (hw.adds hA).dirAllocFile_total hf ht
      rw [h2]
      rcases res with e | g
      · exact ⟨_, _, rfl⟩
      · exact ⟨_, _, rfl⟩

end Whole

/-! ## Reading and truncating -/

theorem fileReadLoop_total (fin : ℕ) (pos : ℤ) (hv : Valid root dirs d)
    (hf : (tree root dirs d).Linked (.file f)) :
    ∃ res d', fileReadLoop f fin k pos d = some (res, d') := by
  induction k generalizing d pos with
  | zero => exact ⟨_, _, rfl⟩
  | succ k ih =>
    unfold fileReadLoop
    split
    · obtain ⟨res, d₁, h1, -⟩ := hv.sound.fileGetBlock_total hf (u32 (pos.tdiv 4096))
      obtain ⟨hA, -⟩ := fileGetBlock_adds (P := fun _ _ _ _ => True) hv.sound hf trivial h1
      rw [h1]
      rcases res with e | blk
      · exact ⟨_, _, rfl⟩
      · obtain ⟨⟨r, bs⟩, d₂, h2⟩ := ih (pos + chunk fin pos) (hA.valid hv) (hA.linked hv hf)
        dsimp only [Option.bind_eq_bind, Option.bind_some]
        rw [h2]
        exact ⟨_, _, rfl⟩
    · exact ⟨_, _, rfl⟩

theorem fileRead_total (count : ℕ) (offset : ℤ) (hv : Valid root dirs d)
    (hf : (tree root dirs d).Linked (.file f)) : ∃ res d', fileRead d f count offset = some (res, d') := by
  unfold fileRead
  split
  · exact ⟨_, _, rfl⟩
  · obtain ⟨⟨r, bs⟩, d₁, h1⟩ := fileReadLoop_total (k := min count (u64 (fSize d f - offset)))
      (u64 (offset + (min count (u64 (fSize d f - offset)) : ℕ))) offset hv hf
    dsimp only
    rw [h1]
    exact ⟨_, _, rfl⟩

theorem freeLoop_total (is : List ℕ) (hv : Valid root dirs d) (hf : (tree root dirs d).Linked (.file f)) :
    ∃ d', is.foldlM (fun d bno => (fileFreeBlock d f bno).map (·.2)) d = some d' := by
  induction is generalizing d with
  | nil => exact ⟨_, rfl⟩
  | cons i is ih =>
    obtain ⟨res, d₁, h1⟩ := hv.sound.fileFreeBlock_total hf i
    have h2 : [i].foldlM (fun d bno => (fileFreeBlock d f bno).map (·.2)) d = some d₁ := by
      rw [List.foldlM_cons, h1]
      rfl
    obtain ⟨hD, -⟩ := freeLoop_drops (m := 0) hv hf (fun _ _ => Nat.zero_le _) h2
    obtain ⟨hv₁, hf₁⟩ := hD.valid hv hf
    rw [List.foldlM_cons, h1]
    exact ih hv₁ hf₁

theorem fileTruncateBlocks_total (hv : Valid root dirs d) (hf : (tree root dirs d).Linked (.file f))
    (z : ℤ) : ∃ d', fileTruncateBlocks d f z = some d' := by
  obtain ⟨d₁, h1⟩ := freeLoop_total (List.range' (sizeBlocks z) (sizeBlocks (fSize d f) - sizeBlocks z)) hv hf
  unfold fileTruncateBlocks
  dsimp only
  rw [h1]
  dsimp only [Option.bind_eq_bind, Option.bind_some]
  split
  · rename_i h2
    have h3 : ¬ (d₁.load32 (fIndirect f)).toNat = 0 := fun h3 => h2.2 (BitVec.eq_of_toNat_eq h3)
    unfold freeBlock
    rw [if_neg h3]
    exact ⟨_, rfl⟩
  · exact ⟨_, rfl⟩

theorem fileSetSize_total (hv : Valid root dirs d) (hf : (tree root dirs d).Linked (.file f))
    (z : ℤ) : ∃ d', fileSetSize d f z = some d' := by
  unfold fileSetSize
  split
  · obtain ⟨d₁, h1⟩ := fileTruncateBlocks_total hv hf z
    rw [h1]
    exact ⟨_, rfl⟩
  · exact ⟨_, rfl⟩

theorem extendTo_total (hv : Valid root dirs d) (hf : (tree root dirs d).Linked (.file f))
    (fin : ℕ) : ∃ d', extendTo d f fin = some d' := by
  unfold extendTo
  split
  · exact fileSetSize_total hv hf _
  · exact ⟨_, rfl⟩

theorem Whole.fileRemove_total (hw : Whole d) (path : CString) :
    ∃ res d', fileRemove d path = some (res, d') := by
  obtain ⟨w, d₁, h1⟩ := hw.walkPath_total path
  obtain ⟨hA, hok⟩ := walkPath_adds dirsIn_true hw.valid h1
  unfold fileRemove
  rw [h1]
  rcases w with ⟨dir, g⟩ | ⟨r, last⟩
  · obtain ⟨d₂, h2⟩ := fileTruncateBlocks_total (hA.valid hw.valid) hok.1 0
    dsimp only [Option.bind_eq_bind, Option.bind_some]
    rw [h2]
    exact ⟨_, _, rfl⟩
  · exact ⟨_, _, rfl⟩

/-- Dropping a block frees one. -/
theorem DropStep.room_le (h : DropStep f m d d') (hs : Sound root dirs d)
    (hf : (tree root dirs d).Linked (.file f)) : room d ≤ room d' := by
  obtain ⟨r, s, p, b, -, hr, hp, hv, rfl⟩ := h.slot hf
  unfold room
  rw [hs.nblocks_dropBlock hr hp]
  refine Finset.card_le_card fun c hc => ?_
  rw [Finset.mem_filter] at hc ⊢
  refine ⟨hc.1, ?_⟩
  rw [hs.blockIsFree_dropBlock hr hp hv]
  split
  · rfl
  · exact hc.2

/-- So setting a size takes no block. -/
theorem fileSetSize_room (hv : Valid root dirs d) (hf : (tree root dirs d).Linked (.file f))
    (h : fileSetSize d f z = some d') : room d ≤ room d' := by
  unfold fileSetSize at h
  split at h
  · obtain ⟨d₁, h2, rfl⟩ := Option.map_eq_some_iff.1 h
    obtain ⟨hD, -, -⟩ := fileTruncateBlocks_drops hv hf h2
    obtain ⟨hv₁, hf₁, h3⟩ := hD.rule hv hf (I := fun d₁ => room d ≤ room d₁) le_rfl
      fun d₁ d₂ hv₁ hf₁ h1 h2 => le_trans h1 (h2.room_le hv₁.sound hf₁)
    have hsame : Same root dirs d₁ (setFSize d₁ f z) := hv₁.sound.same_size hf₁
    rw [hsame.room_eq]
    exact h3
  · obtain rfl := Option.some.inj h
    have hsame : Same root dirs d (setFSize d f z) := hv.sound.same_size hf
    exact hsame.room_eq.ge

theorem extendTo_room (hv : Valid root dirs d) (hf : (tree root dirs d).Linked (.file f))
    (h : extendTo d f fin = some d') : room d ≤ room d' := by
  unfold extendTo at h
  split at h
  · exact fileSetSize_room hv hf h
  · obtain rfl := Option.some.inj h
    exact le_rfl

/-! ## Positions before a file -/

/-- A read or a write of `n` bytes at this position stays inside the blocks of the file. -/
def WriteOk (offset : ℤ) (n : ℕ) : Prop := 0 ≤ offset ∨ offset ≤ -4096 ∨ 0 ≤ offset + n ∨ n = 0

section Skip

variable {k : ℕ} (h0 : pos < 0) (h1 : -2 ^ 31 ≤ pos) (hok : WriteOk pos k) (hl : k < 2 ^ 32)
include h0 h1 hok hl

/-- Where a loop is entered at a position before the file, there is no such block. -/
theorem fileGetBlock_before (hlt : u64 pos < u64 (pos + k)) :
    pos ≤ -4096 ∧ fileGetBlock d f (u32 (pos.tdiv 4096)) = some (.error (-eInval), d) := by
  unfold WriteOk at hok
  have hpos : pos ≤ -4096 := by
    rw [u64_eq, u64_eq] at hlt
    omega
  have h2 : u32 (pos.tdiv 4096) ≥ 10 + 1024 := by
    rw [u32_eq]
    have h4 : pos.tdiv 4096 = -((-pos) / 4096) := by
      rw [← Int.neg_neg pos, Int.neg_tdiv, Int.tdiv_eq_ediv_of_nonneg (by omega), Int.neg_neg]
    omega
  refine ⟨hpos, ?_⟩
  unfold fileGetBlock fileBlockWalk
  rw [if_pos h2]
  rfl

/-- Such a read copies nothing. -/
theorem fileReadLoop_skip : ∃ r, fileReadLoop f (u64 (pos + k)) k pos d = some ((r, []), d) ∧
    (r < 0 ∧ pos ≤ -4096 ∨ r = 0 ∧ (0 ≤ pos + k ∨ k = 0)) := by
  rcases k with _ | k
  · exact ⟨_, rfl, Or.inr ⟨rfl, Or.inr rfl⟩⟩
  unfold fileReadLoop
  split
  · rename_i hlt
    obtain ⟨hpos, h2⟩ := fileGetBlock_before (f := f) (d := d) h0 h1 hok hl hlt
    rw [h2]
    exact ⟨_, rfl, Or.inl ⟨by decide, hpos⟩⟩
  · rename_i hge
    refine ⟨_, rfl, Or.inr ⟨rfl, Or.inl ?_⟩⟩
    rw [u64_eq, u64_eq] at hge
    omega

end Skip

/-- Such a write puts no byte in place. -/
theorem fileWriteLoop_skip (buf : List Byte) (h0 : pos < 0) (h1 : -2 ^ 31 ≤ pos)
    (hok : WriteOk pos buf.length) (hl : buf.length < 2 ^ 32) :
    ∃ res, fileWriteLoop f (u64 (pos + buf.length)) buf.length pos buf d = some (res, d) ∧
      (res < 0 ∧ pos ≤ -4096 ∨ res = 0 ∧ (0 ≤ pos + buf.length ∨ buf.length = 0)) := by
  generalize hk : buf.length = k at hok hl
  rcases k with _ | k
  · exact ⟨_, rfl, Or.inr ⟨rfl, Or.inr rfl⟩⟩
  unfold fileWriteLoop
  split
  · rename_i hlt
    obtain ⟨hpos, h2⟩ := fileGetBlock_before (f := f) (d := d) h0 h1 hok hl hlt
    rw [h2]
    exact ⟨_, rfl, Or.inl ⟨by decide, hpos⟩⟩
  · rename_i hge
    refine ⟨_, rfl, Or.inr ⟨rfl, Or.inl ?_⟩⟩
    rw [u64_eq, u64_eq] at hge
    omega

/-! ## Writing -/

theorem fileWriteLoop_total (fin k : ℕ) (buf : List Byte) (hv : Valid root dirs d)
    (hf : (tree root dirs d).Linked (.file f)) (ho : opens dirs d f = false) (h0 : 0 ≤ pos) :
    ∃ res d', fileWriteLoop f fin k pos buf d = some (res, d') := by
  induction k generalizing d pos buf with
  | zero => exact ⟨_, _, rfl⟩
  | succ k ih =>
    unfold fileWriteLoop
    split
    · obtain ⟨res, d₁, h1, -⟩ := hv.sound.fileGetBlock_total hf (u32 (pos.tdiv 4096))
      rw [h1]
      rcases res with e | blk
      · exact ⟨_, _, rfl⟩
      · obtain ⟨hA, -, -, hM, hhd⟩ := write_turn (P := fun _ _ _ _ => True) buf fin
          hv hf ho h0 trivial h1
        have hv₁ := hA.valid hv
        exact ih _ (hM.valid hv₁) (hM.linked hv₁.sound (hA.linked hv hf)) (by rw [hhd.opens_eq]; exact ho)
          (by omega)
    · exact ⟨_, _, rfl⟩

/-- **Writing** to a file whose contents do not count, at a position that stays inside its
blocks, does not panic and keeps the layout valid. -/
theorem fileWrite_total {offset : ℤ} (hv : Valid root dirs d) (hf : (tree root dirs d).Linked (.file f))
    (ho : opens dirs d f = false) (h1 : -2 ^ 31 ≤ offset) (hl : buf.length < 2 ^ 32)
    (hok : WriteOk offset buf.length) : ∃ res d', fileWrite d f buf offset = some (res, d') := by
  obtain ⟨d₁, h2⟩ := extendTo_total hv hf (u64 (offset + buf.length))
  obtain ⟨hv₁, hf₁, ho₁⟩ := extendTo_valid hv hf ho h2
  unfold fileWrite
  dsimp only
  rw [h2]
  by_cases h0 : 0 ≤ offset
  · obtain ⟨res, d₂, h3⟩ := fileWriteLoop_total (u64 (offset + buf.length)) buf.length buf hv₁ hf₁ ho₁ h0
    dsimp only [Option.bind_eq_bind, Option.bind_some]
    rw [h3]
    exact ⟨_, _, rfl⟩
  · obtain ⟨res, h3, -⟩ := fileWriteLoop_skip (f := f) (d := d₁) _ (by omega) h1 hok hl
    dsimp only [Option.bind_eq_bind, Option.bind_some]
    rw [h3]
    exact ⟨_, _, rfl⟩

end Jos.Fs
