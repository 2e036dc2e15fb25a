import Jos.Proof.Blocks

/-!
# What the functions of the file system do

`file_get_block` and all that is built on it add blocks to linked files, one at a time
(`AddStep`), at or below their size; `file_truncate_blocks` drops blocks. Each function of
`fs/fs.c` is brought down to runs of these steps, on disks where the layout is sound and no
size is negative (`Valid`).
-/

namespace Jos.Fs

open Lib

variable {root : ℕ} {dirs : Bool} {d d' d₁ : Bytes} {r r' c : Rec} {s s' : Slot} {b f g m n p q x : ℕ}
  {P : ℕ → ℕ → Bool → ℤ → Prop}

/-! ## Slots and records -/

theorem dataSlot_inj (h : dataSlot m = dataSlot n) : m = n := by
  unfold dataSlot at h
  split at h <;> split at h
  · exact Slot.direct.inj h
  · cases h
  · cases h
  · have := Slot.indirect.inj h
    omega

theorem dataSlot_ne : dataSlot n ≠ .fIndirect := by
  unfold dataSlot
  split <;> exact nofun

/-- The record that a slot of a file is in. -/
def slotRec (dirs : Bool) (d : Bytes) (f : ℕ) : Slot → Rec
  | .indirect _ => .table (d.load32 (fIndirect f)).toNat (opens dirs d f)
  | _ => .file f

theorem slotBlock_eq (h : slotAddr d f s = some p) : slotBlock d f s = (d.load32 p).toNat := by
  unfold slotBlock
  rw [h]

theorem word_of_slotAddr (h : slotAddr d f s = some p) : (slotRec dirs d f s).word s = some p := by
  cases s with
  | direct i => exact h
  | indirect j =>
    simp only [slotAddr] at h
    split at h
    · rename_i h1
      rw [← h]
      exact if_pos h1.1
    · cases h
  | fIndirect => exact h

theorem linked_slotRec (hf : (tree root dirs d).Linked (.file f)) (h : slotAddr d f s = some p) :
    (tree root dirs d).Linked (slotRec dirs d f s) := by
  cases s with
  | direct i => exact hf
  | indirect j =>
    simp only [slotAddr] at h
    split at h
    · rename_i h1
      have h2 : (d.load32 (fIndirect f)).toNat ≠ 0 := fun h2 => h1.2 (BitVec.eq_of_toNat_eq h2)
      have h3 : (tree root dirs d).val (.file f) .fIndirect = some (d.load32 (fIndirect f)).toNat :=
        val_eq_some.2 ⟨fIndirect f, rfl, rfl, h2⟩
      exact Owners.Linked.kid hf h3 (Set.mem_singleton _)
    · cases h
  | fIndirect => exact hf

/-- The blocks below a file are those of its own record or its indirect block. -/
theorem from_slotRec (ha : slotAddr d f s = some p) :
    (tree root dirs d).From (.file f) (slotRec dirs d f s) := by
  cases s with
  | direct i => exact .refl
  | indirect j =>
    simp only [slotAddr] at ha
    split at ha
    · rename_i h1
      have h2 : (d.load32 (fIndirect f)).toNat ≠ 0 := fun h2 => h1.2 (BitVec.eq_of_toNat_eq h2)
      have h3 : (tree root dirs d).val (.file f) .fIndirect = some (d.load32 (fIndirect f)).toNat :=
        val_eq_some.2 ⟨fIndirect f, rfl, rfl, h2⟩
      exact Owners.From.kid .refl h3 (Set.mem_singleton _)
    · cases ha
  | fIndirect => exact .refl

/-- The block number in a slot of a linked file is held by the record of the slot. -/
theorem held_slotBlock (hf : (tree root dirs d).Linked (.file f)) (h0 : slotBlock d f s ≠ 0) :
    (tree root dirs d).Held (slotRec dirs d f s) s (slotBlock d f s) := by
  unfold slotBlock at *
  rcases ha : slotAddr d f s with _ | p
  · rw [ha] at h0
    exact absurd rfl h0
  · rw [ha] at h0
    exact ⟨linked_slotRec hf ha, val_eq_some.2 ⟨p, word_of_slotAddr ha, rfl, h0⟩⟩

/-- A block held by a linked record is in a slot of a linked file. -/
theorem slot_of_held (h : (tree root dirs d).Held r s b) :
    ∃ f, (tree root dirs d).Linked (.file f) ∧ r = slotRec dirs d f s ∧ slotBlock d f s = b ∧ b ≠ 0 := by
  obtain ⟨hr, hv⟩ := h
  obtain ⟨p, hp, h1, h2⟩ := val_eq_some.1 hv
  rcases word_cases hp with ⟨f, i, hi, rfl, rfl, rfl⟩ | ⟨f, rfl, rfl, rfl⟩ | ⟨t, dir, j, hj, rfl, rfl, rfl⟩
  · have h3 : slotAddr d f (.direct i) = some (f + 136 + 4 * i) := if_pos hi
    exact ⟨f, hr, rfl, by rw [slotBlock_eq h3]; exact h1, h2⟩
  · exact ⟨f, hr, rfl, h1, h2⟩
  · rcases Owners.Linked.cases hr with h3 | ⟨q, t', b', h4, h5⟩
    · cases h3
    · have h6 : ∃ f, q = .file f ∧ t' = .fIndirect ∧ t = b' ∧ dir = opens dirs d f := by
        cases q with
        | file f =>
          cases t' with
          | direct i =>
            simp only [tree, kids] at h5
            split at h5
            · obtain ⟨k, -, h6⟩ := h5
              cases h6
            · exact absurd h5 (Set.notMem_empty _)
          | indirect j => exact absurd h5 (Set.notMem_empty _)
          | fIndirect =>
            obtain ⟨rfl, rfl⟩ := Rec.table.inj (Set.mem_singleton_iff.1 h5)
            exact ⟨f, rfl, rfl, rfl, rfl⟩
        | table t'' dir' =>
          simp only [tree, kids] at h5
          split at h5
          · obtain ⟨k, -, h6⟩ := h5
            cases h6
          · exact absurd h5 (Set.notMem_empty _)
      obtain ⟨f, rfl, rfl, rfl, rfl⟩ := h6
      obtain ⟨p', hp', h7, h8⟩ := val_eq_some.1 h4.2
      cases hp'
      have h9 : d.load32 (fIndirect f) ≠ 0 := by
        intro h9
        rw [h9] at h7
        exact h8 h7.symm
      have h10 : slotAddr d f (.indirect j) = some ((d.load32 (fIndirect f)).toNat * 4096 + 4 * j) :=
        if_pos ⟨hj, h9⟩
      refine ⟨f, h4.1, ?_, ?_, h2⟩
      · simp only [slotRec, h7]
      · rw [slotBlock_eq h10, h7]
        exact h1

/-- A write that misses the layout leaves the slots of linked files. -/
theorem Same.slotBlock_eq (h : Same root dirs d d') (hf : (tree root dirs d).Linked (.file f)) :
    slotBlock d' f s = slotBlock d f s := by
  have h1 : d'.load32 (fIndirect f) = d.load32 (fIndirect f) := h.slot (s := .fIndirect) hf rfl
  have h2 : slotAddr d' f s = slotAddr d f s := by
    cases s with
    | direct i => rfl
    | indirect j => simp only [slotAddr, h1]
    | fIndirect => rfl
  unfold slotBlock
  rw [h2]
  rcases ha : slotAddr d f s with _ | p
  · rfl
  · show (d'.load32 p).toNat = (d.load32 p).toNat
    rw [h.slot (linked_slotRec hf ha) (word_of_slotAddr ha)]

/-- **Exclusive slots.** A block number is stored by linked files in one slot. -/
theorem Sound.slot_unique (hs : Sound root dirs d) (hf : (tree root dirs d).Linked (.file f))
    (hg : (tree root dirs d).Linked (.file g)) (h0 : slotBlock d f s ≠ 0)
    (he : slotBlock d g s' = slotBlock d f s) : g = f ∧ s' = s := by
  have h1 := held_slotBlock hf h0
  have h2 := held_slotBlock (s := s') hg (by rw [he]; exact h0)
  rw [he] at h2
  obtain ⟨h3, rfl⟩ := hs.alone h2 h1
  refine ⟨?_, rfl⟩
  cases s' with
  | direct i => exact Rec.file.inj h3
  | indirect j =>
    -- the two files have one indirect block
    have h4 := (Rec.table.inj h3).1
    have key : ∀ {k}, (tree root dirs d).Linked (.file k) → slotBlock d k (.indirect j) ≠ 0 →
        (tree root dirs d).Held (.file k) .fIndirect (d.load32 (fIndirect k)).toNat := by
      intro k hk h5
      refine held_slotBlock (s := .fIndirect) hk fun h6 => h5 ?_
      have h7 : d.load32 (fIndirect k) = 0 := BitVec.eq_of_toNat_eq h6
      unfold slotBlock slotAddr
      simp [h7]
    have h5 := key hf h0
    have h6 := key hg (by rw [he]; exact h0)
    rw [h4] at h6
    exact Rec.file.inj (hs.alone h6 h5).1
  | fIndirect => exact Rec.file.inj h3

/-- Where every block held in `d'` is held in `d`, so are the block numbers in slots. -/
theorem Sound.slot_mono (hs : Sound root dirs d)
    (h : ∀ r s b, (tree root dirs d').Held r s b → (tree root dirs d).Held r s b)
    (hg : (tree root dirs d').Linked (.file g)) (h0 : slotBlock d' g s ≠ 0) :
    slotBlock d g s = slotBlock d' g s := by
  have h1 := held_slotBlock hg h0
  obtain ⟨k, hk, h2, h3, -⟩ := slot_of_held (h _ _ _ h1)
  have hkg : k = g := by
    cases s with
    | direct i => exact (Rec.file.inj h2).symm
    | indirect j =>
      -- both files have the same indirect block, and it is held once
      have h4 := (Rec.table.inj h2).1
      have h5 : slotBlock d' g .fIndirect ≠ 0 := by
        intro h6
        have h7 : d'.load32 (fIndirect g) = 0 := BitVec.eq_of_toNat_eq h6
        exact h0 (by unfold slotBlock slotAddr; simp [h7])
      have h6 : slotBlock d k .fIndirect ≠ 0 := fun h6 => h5 (h4.trans h6)
      have h7 := held_slotBlock hk h6
      have h8 := h _ _ _ (held_slotBlock hg h5)
      rw [show slotBlock d' g .fIndirect = slotBlock d k .fIndirect from h4] at h8
      exact Rec.file.inj (hs.alone h7 h8).1
    | fIndirect => exact (Rec.file.inj h2).symm
  rw [← hkg, h3, hkg]

/-! ## Steps that add a block -/

/-- One block is added to a linked file: the block at some place, or the indirect block that
place needs. `P` says which places of which files, given whether they have no name and their
size. -/
inductive AddStep (P : ℕ → ℕ → Bool → ℤ → Prop) (root : ℕ) (dirs : Bool) : Bytes → Bytes → Prop
  | mk {d : Bytes} {f n p b : ℕ} {s : Slot} : (tree root dirs d).Linked (.file f) →
      P f n (nameFree d f) (fSize d f) → n < 10 + 1024 → (s = dataSlot n ∨ 10 ≤ n ∧ s = .fIndirect) →
      slotAddr d f s = some p → d.load32 p = 0 → blockIsFree d b = true →
      AddStep P root dirs d (addBlock d p b)

abbrev Adds (P : ℕ → ℕ → Bool → ℤ → Prop) (root : ℕ) (dirs : Bool) : Bytes → Bytes → Prop :=
  Relation.ReflTransGen (AddStep P root dirs)

/-- The layout is sound and no directory whose contents count has a negative size. -/
structure Valid (root : ℕ) (dirs : Bool) (d : Bytes) : Prop where
  sound : Sound root dirs d
  size : ∀ {f}, (tree root dirs d).Linked (.file f) → opens dirs d f = true → 0 ≤ fSize d f

/-- The name, the size and the type of a file. -/
def SameHead (f : ℕ) (d d' : Bytes) : Prop := ∀ x, f ≤ x → x < f + 136 → d'.byte x = d.byte x

namespace SameHead

variable (h : SameHead f d d')
include h

theorem load32 (h1 : f ≤ p) (h2 : p + 4 ≤ f + 136) : d'.load32 p = d.load32 p :=
  Bytes.load32_congr fun i hi => h (p + i) (by omega) (by omega)

theorem fSize_eq : fSize d' f = fSize d f := by
  unfold fSize
  rw [h.load32 (by omega) (by omega)]

theorem fType_eq : fType d' f = fType d f := h.load32 (by omega) (by omega)

theorem opens_eq : opens dirs d' f = opens dirs d f := by
  unfold opens
  rw [h.fType_eq]

theorem nameFree_eq : nameFree d' f = nameFree d f := by
  unfold nameFree
  rw [h f le_rfl (by omega)]

theorem nameEq_eq {name : List Byte} (hl : name.length < 128) : nameEq name d' f = nameEq name d f := by
  unfold nameEq
  rw [Bool.eq_iff_iff, List.all_eq_true, List.all_eq_true]
  refine forall₂_congr fun k hk => ?_
  have := List.mem_range.1 hk
  rw [h (f + k) (by omega) (by omega)]

end SameHead

namespace Sound

variable (hs : Sound root dirs d)
include hs

/-- Adding a block changes no name, size or type. -/
theorem head_addBlock (hr : (tree root dirs d).Linked r) (hp : r.word s = some p)
    (hb : blockIsFree d b = true) (hg : (tree root dirs d).Linked (.file g)) :
    SameHead g d (addBlock d p b) := by
  intro x h1 h2
  have h3 := hs.fits_block hg
  have h4 := (hs.free_apart hb).2.2 _ hg
  have h5 : x < p ∨ p + 4 ≤ x := by
    by_cases he : r = .file g
    · subst he
      have := fType_apart hp
      omega
    · have h6 := word_fits hp
      rcases hs.records_apart hr hg he with h7 | h7 <;> simp only [Rec.base, Rec.size] at h6 h7 <;> omega
  simp only [Rec.base, Rec.size] at h3
  unfold addBlock
  rw [Bytes.byte_zero_off (by omega)]
  refine hs.byte_mark hg (blockIsFree_lt hb) ?_ ?_ h5
  · exact h1
  · simp only [Rec.base, Rec.size]; omega

/-- The address of a slot stays where it is when a block is added. -/
theorem slotAddr_addBlock (hr : (tree root dirs d).Linked r) (hp : r.word s = some p)
    (hb : blockIsFree d b = true) (h0 : d.load32 p = 0) (hf : (tree root dirs d).Linked (.file f))
    (ha : slotAddr d f s' = some q) : slotAddr (addBlock d p b) f s' = some q := by
  cases s' with
  | direct i => exact ha
  | indirect j =>
    simp only [slotAddr] at ha
    split at ha
    · rename_i h1
      have h2 : (d.load32 (fIndirect f)).toNat ≠ 0 := fun h2 => h1.2 (BitVec.eq_of_toNat_eq h2)
      have hv : (tree root dirs d).val (.file f) .fIndirect = some (d.load32 (fIndirect f)).toNat :=
        val_eq_some.2 ⟨fIndirect f, rfl, rfl, h2⟩
      have hne : ¬ (Rec.file f = r ∧ Slot.fIndirect = s) := by
        rintro ⟨rfl, rfl⟩
        rw [← Option.some.inj hp] at h0
        exact h1.2 h0
      obtain ⟨q', hq', h3, -⟩ := val_eq_some.1 (((hs.off_addBlock hr hp hb).val _ _ hf hne).trans hv)
      have h4 : (addBlock d p b).load32 (fIndirect f) = d.load32 (fIndirect f) := by
        rw [← Option.some.inj hq'] at h3
        exact BitVec.eq_of_toNat_eq h3
      simp only [slotAddr, h4, if_pos h1]
      exact ha
    · cases ha
  | fIndirect => exact ha

/-- **Adding a block to a file** fills one slot and leaves the others. -/
theorem slot_add (hf : (tree root dirs d).Linked (.file f)) (ha : slotAddr d f s = some p)
    (h0 : d.load32 p = 0) (hb : blockIsFree d b = true) :
    slotBlock (addBlock d p b) f s = b ∧
      ∀ g t, (tree root dirs d).Linked (.file g) → ¬ (g = f ∧ t = s) →
        slotBlock (addBlock d p b) g t = slotBlock d g t := by
  have hr := linked_slotRec hf ha
  have hp : (slotRec dirs d f s).word s = some p := word_of_slotAddr ha
  have hs' := hs.add hr hp hb h0
  have hnew : slotBlock (addBlock d p b) f s = b := by
    obtain ⟨q, hq, h1, -⟩ := val_eq_some.1 (hs.val_addBlock hr hp hb)
    rw [hp] at hq
    rw [slotBlock_eq (hs.slotAddr_addBlock hr hp hb h0 hf ha)]
    rw [← Option.some.inj hq] at h1
    exact h1
  have hup : ∀ r t c, (tree root dirs d).Held r t c → (tree root dirs (addBlock d p b)).Held r t c :=
    fun r t c h => (hs.held_addBlock hr hp hb h0).2 (Or.inl h)
  have hlink : ∀ {k}, (tree root dirs d).Linked (.file k) → (tree root dirs (addBlock d p b)).Linked (.file k) :=
    fun h => (hs.linked_addBlock hr hp hb h0).2 (Or.inl h)
  refine ⟨hnew, fun g t hg hne => ?_⟩
  by_cases h1 : slotBlock d g t = 0
  · by_contra h2
    rw [h1] at h2
    rcases (hs.held_addBlock hr hp hb h0).1 (held_slotBlock (hlink hg) h2) with h3 | ⟨-, rfl, h3⟩
    · -- the file that held the block before holds it still
      obtain ⟨k, hk, -, h4, h5⟩ := slot_of_held h3
      have h6 := hs'.slot_mono hup hk (by rw [h4]; exact h5)
      have h7 := (hs'.slot_unique (hlink hg) (hlink hk) h2 (h6.trans h4)).1
      rw [h7, h1] at h4
      exact h5 h4.symm
    · exact hne ⟨(hs'.slot_unique (hlink hf) (hlink hg) (by rw [hnew, ← h3]; exact h2)
        (h3.trans hnew.symm)).1, rfl⟩
  · exact hs'.slot_mono hup hg h1

end Sound

namespace AddStep

variable (h : AddStep P root dirs d d') (hs : Sound root dirs d)
include h hs

theorem sound : Sound root dirs d' := by
  cases h with
  | mk hf _ _ _ ha h0 hb => exact hs.add (linked_slotRec hf ha) (word_of_slotAddr ha) hb h0

theorem linked (hc : (tree root dirs d).Linked c) : (tree root dirs d').Linked c := by
  cases h with
  | mk hf _ _ _ ha h0 hb =>
    exact (hs.linked_addBlock (linked_slotRec hf ha) (word_of_slotAddr ha) hb h0).2 (Or.inl hc)

theorem head (hg : (tree root dirs d).Linked (.file g)) : SameHead g d d' := by
  cases h with
  | mk hf _ _ _ ha h0 hb => exact hs.head_addBlock (linked_slotRec hf ha) (word_of_slotAddr ha) hb hg

theorem nblocks_eq : nblocks d' = nblocks d := by
  cases h with
  | mk hf _ _ _ ha h0 hb => exact hs.nblocks_addBlock (linked_slotRec hf ha) (word_of_slotAddr ha) hb

/-- A record that was not linked before is blank. -/
theorem blank (hc : (tree root dirs d').Linked c) :
    (tree root dirs d).Linked c ∨
      ((∀ t, (tree root dirs d').val c t = none) ∧ ∀ x, c.base ≤ x → x < c.base + c.size → d'.byte x = 0) := by
  cases h with
  | mk hf _ _ _ ha h0 hb =>
    refine ((hs.linked_addBlock (linked_slotRec hf ha) (word_of_slotAddr ha) hb h0).1 hc).imp_right fun hk => ?_
    have h1 := kid_fits hk
    exact ⟨fun t => Sound.val_cleared hk, fun x h2 h3 => Bytes.byte_zero_in (by omega) (by omega)⟩

theorem held (h1 : (tree root dirs d).Held r s b) : (tree root dirs d').Held r s b := by
  cases h with
  | mk hf _ _ _ ha h0 hb =>
    exact (hs.held_addBlock (linked_slotRec hf ha) (word_of_slotAddr ha) hb h0).2 (Or.inl h1)

/-- The block numbers in slots stay. -/
theorem slot_keep (hf : (tree root dirs d).Linked (.file f)) (h0 : slotBlock d f s ≠ 0) :
    slotBlock d' f s = slotBlock d f s :=
  (h.sound hs).slot_mono (fun _ _ _ => h.held hs) hf h0

/-- A block in a slot was there before, or it is cleared. -/
theorem slot_cases (hf : (tree root dirs d).Linked (.file f)) (s : Slot) :
    slotBlock d' f s = slotBlock d f s ∨
      ∀ x, slotBlock d' f s * 4096 ≤ x → x < (slotBlock d' f s + 1) * 4096 → d'.byte x = 0 := by
  cases h with
  | @mk g n p b t hg _ _ _ ha h0 hb =>
    by_cases he : f = g ∧ s = t
    · obtain ⟨rfl, rfl⟩ := he
      rw [(hs.slot_add hg ha h0 hb).1]
      exact Or.inr fun x h3 h4 => Bytes.byte_zero_in h3 (by omega)
    · exact Or.inl ((hs.slot_add hg ha h0 hb).2 f s hf he)

/-- The one slot that a step fills. -/
theorem slot_new : ∃ g n t, (tree root dirs d).Linked (.file g) ∧ P g n (nameFree d g) (fSize d g) ∧
    (t = .fIndirect ∨ t = dataSlot n) ∧
    ∀ f s, (tree root dirs d).Linked (.file f) → ¬ (f = g ∧ s = t) → slotBlock d' f s = slotBlock d f s := by
  cases h with
  | @mk g n p b t hg hP _ ht ha h0 hb =>
    exact ⟨g, n, t, hg, hP, ht.symm.imp_left fun h1 => h1.2, (hs.slot_add hg ha h0 hb).2⟩

end AddStep

theorem fSize_blank (h : ∀ x, f ≤ x → x < f + 256 → d.byte x = 0) : fSize d f = 0 := by
  have h1 : d.load32 (f + 128) = (d.zero f 256).load32 (f + 128) :=
    Bytes.load32_congr fun i hi => by
      rw [h _ (by omega) (by omega), Bytes.byte_zero_in (by omega) (by omega)]
  unfold fSize
  rw [h1, Bytes.load32_zero_in (by omega) (by omega)]
  rfl

theorem AddStep.valid (h : AddStep P root dirs d d') (hv : Valid root dirs d) : Valid root dirs d' := by
  refine ⟨h.sound hv.sound, fun {g} hg ho => ?_⟩
  rcases h.blank hv.sound hg with h1 | ⟨-, h1⟩
  · have hhd := h.head hv.sound h1
    rw [hhd.opens_eq] at ho
    rw [hhd.fSize_eq]
    exact hv.size h1 ho
  · have h2 : fSize d' g = 0 := fSize_blank h1
    rw [h2]

/-- **What adding blocks keeps.** -/
theorem Adds.rule (h : Adds P root dirs d d') (hv : Valid root dirs d) {I : Bytes → Prop} (h0 : I d)
    (hI : ∀ d d', Valid root dirs d → I d → AddStep P root dirs d d' → I d') :
    Valid root dirs d' ∧ I d' := by
  induction h with
  | refl => exact ⟨hv, h0⟩
  | tail _ h1 ih => exact ⟨h1.valid ih.1, hI _ _ ih.1 ih.2 h1⟩

theorem Adds.valid (h : Adds P root dirs d d') (hv : Valid root dirs d) : Valid root dirs d' :=
  (h.rule hv (I := fun _ => True) trivial fun _ _ _ _ _ => trivial).1

theorem Adds.linked (h : Adds P root dirs d d') (hv : Valid root dirs d)
    (hc : (tree root dirs d).Linked c) : (tree root dirs d').Linked c :=
  (h.rule hv (I := fun d => (tree root dirs d).Linked c) hc fun _ _ hv h1 h2 => h2.linked hv.sound h1).2

theorem Adds.head (h : Adds P root dirs d d') (hv : Valid root dirs d)
    (hg : (tree root dirs d).Linked (.file g)) : SameHead g d d' := by
  refine (h.rule hv (I := fun d₁ => (tree root dirs d₁).Linked (.file g) ∧ SameHead g d d₁)
    ⟨hg, fun _ _ _ => rfl⟩ fun d₁ d₂ hv h1 h2 => ⟨h2.linked hv.sound h1.1, fun x h3 h4 => ?_⟩).2.2
  rw [h2.head hv.sound h1.1 x h3 h4, h1.2 x h3 h4]

/-! ## Getting blocks -/

/-- **`file_get_block` adds blocks** to the file it is called on, and its result is the block
that the file has at that place then. -/
theorem fileGetBlock_adds {res : Except ℤ ℕ} (hs : Sound root dirs d)
    (hf : (tree root dirs d).Linked (.file f)) (hP : P f n (nameFree d f) (fSize d f))
    (h : fileGetBlock d f n = some (res, d')) :
    Adds P root dirs d d' ∧ (∀ e, res = .error e → e < 0) ∧
      ∀ blk, res = .ok blk → n < 10 + 1024 ∧ fileBlock d' f n ≠ 0 ∧ blk = fileBlock d' f n * 4096 := by
  rcases fileGetBlock_cases h with ⟨e, he, rfl, rfl⟩ | ⟨d₁, p, hn', hp, h1, h2⟩
  · exact ⟨.refl, fun e' h1 => by cases h1; exact he, nofun⟩
  -- the step that allocates the indirect block, if it was needed
  have hd₁ : Adds P root dirs d d₁ ∧ Sound root dirs d₁ ∧ (tree root dirs d₁).Linked (.file f) ∧
      SameHead f d d₁ := by
    rcases h1 with rfl | ⟨h10, h0, b, hb, rfl⟩
    · exact ⟨.refl, hs, hf, fun _ _ _ => rfl⟩
    · have h3 : AddStep P root dirs d (addBlock d (fIndirect f) b) :=
        .mk hf hP hn' (Or.inr ⟨h10, rfl⟩) rfl h0 hb
      exact ⟨.single h3, h3.sound hs, h3.linked hs hf, h3.head hs hf⟩
  obtain ⟨hA, hs₁, hf₁, hhd⟩ := hd₁
  rcases h2 with ⟨e, he, rfl, rfl⟩ | ⟨rfl, h3, h4, h5⟩
  · exact ⟨hA, fun e' h2 => by cases h2; exact he, nofun⟩
  have hd' : Adds P root dirs d d' ∧ slotAddr d' f (dataSlot n) = some p := by
    rcases h5 with rfl | ⟨h0, b, hb, rfl⟩
    · exact ⟨hA, hp⟩
    · have h6 : AddStep P root dirs d₁ (addBlock d₁ p b) :=
        .mk hf₁ (by rw [hhd.nameFree_eq, hhd.fSize_eq]; exact hP) hn' (Or.inl rfl) hp h0 hb
      exact ⟨hA.tail h6, hs₁.slotAddr_addBlock (linked_slotRec hf₁ hp) (word_of_slotAddr hp) hb h0 hf₁ hp⟩
  have he : fileBlock d' f n = (d'.load32 p).toNat := slotBlock_eq hd'.2
  refine ⟨hd'.1, nofun, fun blk h2 => ⟨hn', ?_, ?_⟩⟩
  · rw [he]; exact h3
  · rw [he]; exact (Except.ok.inj h2).symm

/-- The errors of `file_get_block`. -/
theorem fileGetBlock_codes {e : ℤ} (h : fileGetBlock d f n = some (.error e, d')) : e = -eInval ∨ e = -eNoDisk := by
  obtain ⟨⟨r₁, d₁⟩, h1, h2⟩ := Option.bind_eq_some_iff.1 h
  rcases r₁ with e₁ | p
  · cases h2
    unfold fileBlockWalk at h1
    split at h1
    · cases h1
      exact Or.inl rfl
    split at h1
    · cases h1
    rw [if_neg fun hc => by cases hc.2] at h1
    obtain ⟨⟨ok, d₂⟩, -, h3⟩ := Option.bind_eq_some_iff.1 h1
    cases ok with
    | true =>
      obtain ⟨a, -, h4⟩ := Option.bind_eq_some_iff.1 h3
      cases h4
    | false =>
      cases h3
      exact Or.inr rfl
  · obtain ⟨⟨ok, d₂⟩, -, h3⟩ := Option.bind_eq_some_iff.1 h2
    cases ok with
    | true =>
      obtain ⟨a, -, h4⟩ := Option.bind_eq_some_iff.1 h3
      cases h4
    | false =>
      cases h3
      exact Or.inr rfl

/-- The slots of other files stay as they are. -/
theorem fileGetBlock_others {res : Except ℤ ℕ} (hs : Sound root dirs d)
    (hf : (tree root dirs d).Linked (.file f)) (h : fileGetBlock d f n = some (res, d'))
    (hg : (tree root dirs d).Linked (.file g)) (hne : g ≠ f) : slotBlock d' g s = slotBlock d g s := by
  rcases fileGetBlock_cases h with ⟨e, he, rfl, rfl⟩ | ⟨d₁, p, hn', hp, h1, h2⟩
  · rfl
  have hd₁ : Sound root dirs d₁ ∧ (tree root dirs d₁).Linked (.file f) ∧
      (tree root dirs d₁).Linked (.file g) ∧ slotBlock d₁ g s = slotBlock d g s := by
    rcases h1 with rfl | ⟨-, h0, b, hb, rfl⟩
    · exact ⟨hs, hf, hg, rfl⟩
    · have ha : slotAddr d f .fIndirect = some (fIndirect f) := rfl
      have hr := linked_slotRec hf ha
      have hp : (slotRec dirs d f .fIndirect).word .fIndirect = some (fIndirect f) := rfl
      exact ⟨hs.add hr hp hb h0, (hs.linked_addBlock hr hp hb h0).2 (Or.inl hf),
        (hs.linked_addBlock hr hp hb h0).2 (Or.inl hg),
        (hs.slot_add hf ha h0 hb).2 g s hg fun h => hne h.1⟩
  obtain ⟨hs₁, hf₁, hg₁, h3⟩ := hd₁
  rw [← h3]
  rcases h2 with ⟨e, he, rfl, rfl⟩ | ⟨-, -, -, rfl | ⟨h0, b, hb, rfl⟩⟩
  · rfl
  · rfl
  · exact (hs₁.slot_add hf₁ hp h0 hb).2 g s hg₁ fun h => hne h.1

/-! ## Sizes in blocks -/

theorem u32_of_nonneg {z : ℤ} (h0 : 0 ≤ z) (h1 : z < 2 ^ 32) : u32 z = z.toNat := by
  unfold u32
  rw [BitVec.toNat_ofInt]
  omega

theorem u64_of_nonneg {z : ℤ} (h0 : 0 ≤ z) (h1 : z < 2 ^ 64) : u64 z = z.toNat := by
  unfold u64
  rw [BitVec.toNat_ofInt]
  omega

theorem fSize_lt (d : Bytes) (f : ℕ) : fSize d f < 2 ^ 31 := by
  have := (d.load32 (f + 128)).toInt_lt
  exact this

theorem sizeBlocks_eq {z : ℤ} (h0 : 0 ≤ z) (h1 : z < 2 ^ 31) : sizeBlocks z = (z.toNat + 4095) / 4096 := by
  unfold sizeBlocks
  rw [Int.tdiv_eq_ediv_of_nonneg (by omega), u32_of_nonneg (by omega) (by omega)]
  omega

theorem dirBlocks_eq (h0 : 0 ≤ fSize d f) : dirBlocks d f = (fSize d f).toNat / 4096 := by
  have := fSize_lt d f
  unfold dirBlocks
  rw [Int.tdiv_eq_ediv_of_nonneg h0, u32_of_nonneg (by omega) (by omega)]
  omega

/-! ## Directories -/

/-- **Searching a directory** adds blocks to it only. A file that is found is in a block of
the directory, and satisfies the test. -/
theorem dirScan_adds {test : Bytes → ℕ → Bool} {is : List ℕ} {res : Except ℤ (Option ℕ)}
    (hv : Valid root dirs d) (hf : (tree root dirs d).Linked (.file f))
    (hP : ∀ i ∈ is, P f i (nameFree d f) (fSize d f)) (h : dirScan test f is d = some (res, d')) :
    Adds P root dirs d d' ∧ (∀ e, res = .error e → e < 0) ∧
      (res = .ok none → ∀ i ∈ is, i < 10 + 1024) ∧
      ∀ g, res = .ok (some g) → test d' g = true ∧ ∃ i ∈ is, i < 10 + 1024 ∧ fileBlock d' f i ≠ 0 ∧
        ∃ j < 16, g = fileBlock d' f i * 4096 + 256 * j := by
  induction is generalizing d with
  | nil =>
    simp only [dirScan, Option.some.injEq, Prod.mk.injEq] at h
    obtain ⟨rfl, rfl⟩ := h
    exact ⟨.refl, nofun, fun _ i hi => absurd hi (by simp), nofun⟩
  | cons i is ih =>
    obtain ⟨⟨r₁, d₁⟩, h1, h2⟩ := Option.bind_eq_some_iff.1 h
    obtain ⟨hA, herr, hok⟩ := fileGetBlock_adds hv.sound hf (hP i List.mem_cons_self) h1
    have hhd := hA.head hv hf
    rcases r₁ with e | blk
    · simp only [Option.some.injEq, Prod.mk.injEq] at h2
      obtain ⟨rfl, rfl⟩ := h2
      exact ⟨hA, fun e' h3 => by cases h3; exact herr e rfl, nofun, nofun⟩
    obtain ⟨h3, h4, rfl⟩ := hok blk rfl
    rcases hj : (List.range 16).find? fun j => test d₁ (fileBlock d₁ f i * 4096 + 256 * j) with _ | j
    · simp only [hj] at h2
      obtain ⟨h5, h6, h7, h8⟩ := ih (hA.valid hv) (hA.linked hv hf)
        (fun k hk => by rw [hhd.nameFree_eq, hhd.fSize_eq]; exact hP k (List.mem_cons_of_mem _ hk)) h2
      refine ⟨hA.trans h5, h6, fun h9 k hk => ?_, fun g hg => ?_⟩
      · rcases List.mem_cons.1 hk with rfl | hk
        · exact h3
        · exact h7 h9 k hk
      · obtain ⟨h9, k, hk, h10⟩ := h8 g hg
        exact ⟨h9, k, List.mem_cons_of_mem _ hk, h10⟩
    · simp only [hj, Option.some.injEq, Prod.mk.injEq] at h2
      obtain ⟨rfl, rfl⟩ := h2
      refine ⟨hA, nofun, nofun, fun g hg => ?_⟩
      cases hg
      have h5 : test d₁ (fileBlock d₁ f i * 4096 + 256 * j) = true := by simpa using List.find?_some hj
      exact ⟨h5, i, List.mem_cons_self, h3, h4, j,
        List.mem_range.1 (List.mem_of_find?_eq_some hj), rfl⟩

/-- The errors of a search are those of `file_get_block`. -/
theorem dirScan_codes {test : Bytes → ℕ → Bool} {is : List ℕ} {e : ℤ}
    (h : dirScan test f is d = some (.error e, d')) : e = -eInval ∨ e = -eNoDisk := by
  induction is generalizing d with
  | nil => cases h
  | cons i is ih =>
    obtain ⟨⟨r₁, d₁⟩, h1, h2⟩ := Option.bind_eq_some_iff.1 h
    rcases r₁ with e₁ | blk
    · cases h2
      exact fileGetBlock_codes h1
    · dsimp only at h2
      split at h2
      · cases h2
      · exact ih h2

theorem dirScan_others {test : Bytes → ℕ → Bool} {is : List ℕ} {res : Except ℤ (Option ℕ)}
    (hv : Valid root dirs d) (hf : (tree root dirs d).Linked (.file f))
    (h : dirScan test f is d = some (res, d')) (hg : (tree root dirs d).Linked (.file g))
    (hne : g ≠ f) : slotBlock d' g s = slotBlock d g s := by
  induction is generalizing d with
  | nil =>
    simp only [dirScan, Option.some.injEq, Prod.mk.injEq] at h
    rw [← h.2]
  | cons i is ih =>
    obtain ⟨⟨r₁, d₁⟩, h1, h2⟩ := Option.bind_eq_some_iff.1 h
    obtain ⟨hA, -, -⟩ := fileGetBlock_adds (P := fun _ _ _ _ => True) hv.sound hf trivial h1
    have h3 := fileGetBlock_others (s := s) hv.sound hf h1 hg hne
    rcases r₁ with e | blk
    · simp only [Option.some.injEq, Prod.mk.injEq] at h2
      rw [← h2.2, h3]
    · rcases hj : (List.range 16).find? fun j => test d₁ (blk + 256 * j) with _ | j
      · simp only [hj] at h2
        rw [← h3]
        exact ih (hA.valid hv) (hA.linked hv hf) h2 (hA.linked hv hg)
      · simp only [hj, Option.some.injEq, Prod.mk.injEq] at h2
        rw [← h2.2, h3]

/-- A file in a block of a directory is one of the records held there. -/
theorem entry_kid {i j : ℕ} (ht : opens dirs d f = true) (hj : j < 16) :
    Rec.file (fileBlock d f i * 4096 + 256 * j) ∈
      kids dirs d (slotRec dirs d f (dataSlot i)) (dataSlot i) (fileBlock d f i) := by
  have h2 : (Rec.file (fileBlock d f i * 4096 + 256 * j)) ∈ entries (fileBlock d f i) := ⟨j, hj, rfl⟩
  unfold dataSlot at *
  by_cases hi : i < 10
  · simp only [if_pos hi, slotRec, kids, ht, if_true]
    simpa only [fileBlock, dataSlot, if_pos hi] using h2
  · simp only [if_neg hi, slotRec, kids, ht, if_true]
    simpa only [fileBlock, dataSlot, if_neg hi] using h2

/-- A file with a block number in a slot has that slot. -/
theorem slotAddr_of_slotBlock (h0 : slotBlock d f s ≠ 0) : ∃ p, slotAddr d f s = some p := by
  unfold slotBlock at h0
  rcases ha : slotAddr d f s with _ | p
  · rw [ha] at h0
    exact absurd rfl h0
  · exact ⟨p, rfl⟩

/-- A file in a block of a directory is found from it. -/
theorem from_entry {i j : ℕ} (hf : (tree root dirs d).Linked (.file f)) (ht : opens dirs d f = true)
    (h0 : fileBlock d f i ≠ 0) (hj : j < 16) :
    (tree root dirs d).From (.file f) (.file (fileBlock d f i * 4096 + 256 * j)) := by
  obtain ⟨p, ha⟩ := slotAddr_of_slotBlock h0
  exact (from_slotRec ha).kid (held_slotBlock hf h0).2 (entry_kid ht hj)

/-- A file in a block of a linked directory is linked. -/
theorem linked_entry {i j : ℕ} (hf : (tree root dirs d).Linked (.file f)) (ht : opens dirs d f = true)
    (h0 : fileBlock d f i ≠ 0) (hj : j < 16) :
    (tree root dirs d).Linked (.file (fileBlock d f i * 4096 + 256 * j)) :=
  hf.trans (from_entry hf ht h0 hj)

end Jos.Fs
