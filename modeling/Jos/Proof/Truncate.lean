import Jos.Proof.Files

/-!
# Truncating a file

`file_truncate_blocks` drops the blocks of a file from some place on, and then the indirect
block if no place needs it (`DropStep`). The file stays linked, since no record lies below
itself, and so do its name, size and type.
-/

namespace Jos.Fs

open Lib

variable {root : ℕ} {dirs : Bool} {d d' d₁ : Bytes} {r r' c : Rec} {s s' : Slot}
  {b f g m n p q x : ℕ} {z : ℤ}

/-- One block of file `f` is dropped: that of place `m` or later, or the indirect block,
when no place below the size needs it. -/
inductive DropStep (f m : ℕ) : Bytes → Bytes → Prop
  | mk {d : Bytes} {s : Slot} {p : ℕ} : slotAddr d f s = some p → d.load32 p ≠ 0 →
      ((∃ n, m ≤ n ∧ s = dataSlot n) ∨
        s = .fIndirect ∧ m ≤ 10 ∧ ∀ n, 10 ≤ n → n < sizeBlocks (fSize d f) → fileBlock d f n = 0) →
      DropStep f m d (dropBlock d p)

abbrev Drops (f m : ℕ) : Bytes → Bytes → Prop :=
  Relation.ReflTransGen (DropStep f m)

namespace Sound

variable (hs : Sound root dirs d)
include hs

theorem head_dropBlock (hr : (tree root dirs d).Linked r) (hp : r.word s = some p)
    (hv : (tree root dirs d).val r s = some b) (hg : (tree root dirs d).Linked (.file g)) :
    SameHead g d (dropBlock d p) := by
  intro x h1 h2
  have h5 : x < p ∨ p + 4 ≤ x := by
    by_cases he : r = .file g
    · subst he
      have := fType_apart hp
      omega
    · have h6 := word_fits hp
      rcases hs.records_apart hr hg he with h7 | h7 <;> simp only [Rec.base, Rec.size] at h6 h7 <;> omega
  unfold dropBlock
  rw [load32_of_val hp hv]
  refine hs.byte_mark hg (hs.good ⟨hr, hv⟩).1.1 ?_ ?_ h5
  · exact h1
  · simp only [Rec.base, Rec.size]; omega

end Sound

namespace DropStep

variable (h : DropStep f m d d') (hs : Sound root dirs d)
  (hf : (tree root dirs d).Linked (.file f))
include h hs hf

omit hs in
/-- The slot that is cleared, as one of a linked record. -/
theorem slot : ∃ r s p b, (tree root dirs d).From (.file f) r ∧ (tree root dirs d).Linked r ∧
    r.word s = some p ∧ (tree root dirs d).val r s = some b ∧ d' = dropBlock d p := by
  cases h with
  | @mk s p ha h0 _ =>
    have h1 : (d.load32 p).toNat ≠ 0 := fun h1 => h0 (BitVec.eq_of_toNat_eq h1)
    exact ⟨slotRec dirs d f s, s, p, (d.load32 p).toNat, from_slotRec ha, linked_slotRec hf ha,
      word_of_slotAddr ha, val_eq_some.2 ⟨p, word_of_slotAddr ha, rfl, h1⟩, rfl⟩

theorem sound : Sound root dirs d' := by
  obtain ⟨r, s, p, b, -, hr, hp, hv, rfl⟩ := h.slot hf
  exact hs.drop hr hp hv

theorem held_mono (h1 : (tree root dirs d').Held r s b) : (tree root dirs d).Held r s b := by
  obtain ⟨r', s', p, b', -, hr, hp, hv, rfl⟩ := h.slot hf
  exact (hs.held_dropBlock hr hp hv h1).1

theorem linked_mono (h1 : (tree root dirs d').Linked c) : (tree root dirs d).Linked c := by
  obtain ⟨r', s', p, b', -, hr, hp, hv, rfl⟩ := h.slot hf
  exact hs.linked_dropBlock hr hp hv h1

/-- The file stays linked. -/
theorem linked : (tree root dirs d').Linked (.file f) := by
  obtain ⟨r, s, p, b, hfr, hr, hp, hv, rfl⟩ := h.slot hf
  exact Owners.unlink_above hs.alone hs.apart (hs.off_dropBlock hr hp hv) hfr hf .refl

theorem head (hg : (tree root dirs d).Linked (.file g)) : SameHead g d d' := by
  obtain ⟨r, s, p, b, -, hr, hp, hv, rfl⟩ := h.slot hf
  exact hs.head_dropBlock hr hp hv hg

theorem valid (hv : Valid root dirs d) : Valid root dirs d' where
  sound := h.sound hs hf
  size hg ho := by
    have hhd := h.head hs hf (h.linked_mono hs hf hg)
    rw [hhd.opens_eq] at ho
    rw [hhd.fSize_eq]
    exact hv.size (h.linked_mono hs hf hg) ho

/-- A slot of a file that is still linked is as it was, or cleared. -/
theorem slot_mono (hg : (tree root dirs d').Linked (.file g)) (h0 : slotBlock d' g s ≠ 0) :
    slotBlock d g s = slotBlock d' g s :=
  hs.slot_mono (fun _ _ _ => h.held_mono hs hf) hg h0

end DropStep

/-- **What dropping blocks keeps.** -/
theorem Drops.rule (h : Drops f m d d') (hv : Valid root dirs d)
    (hf : (tree root dirs d).Linked (.file f)) {I : Bytes → Prop} (h0 : I d)
    (hI : ∀ d d', Valid root dirs d → (tree root dirs d).Linked (.file f) → I d →
      DropStep f m d d' → I d') :
    Valid root dirs d' ∧ (tree root dirs d').Linked (.file f) ∧ I d' := by
  induction h with
  | refl => exact ⟨hv, hf, h0⟩
  | tail _ h1 ih =>
    obtain ⟨hv₁, hf₁, h2⟩ := ih
    exact ⟨h1.valid hv₁.sound hf₁ hv₁, h1.linked hv₁.sound hf₁, hI _ _ hv₁ hf₁ h2 h1⟩

section Drops

variable (h : Drops f m d d') (hv : Valid root dirs d) (hf : (tree root dirs d).Linked (.file f))
include h hv hf

theorem Drops.valid : Valid root dirs d' ∧ (tree root dirs d').Linked (.file f) := by
  obtain ⟨h1, h2, -⟩ := h.rule hv hf (I := fun _ => True) trivial fun _ _ _ _ _ _ => trivial
  exact ⟨h1, h2⟩

theorem Drops.head : SameHead f d d' := by
  refine (h.rule hv hf (I := fun d₁ => SameHead f d d₁) (fun _ _ _ => rfl)
    fun d₁ d₂ hv₁ hf₁ h1 h2 x h3 h4 => ?_).2.2
  rw [h2.head hv₁.sound hf₁ hf₁ x h3 h4, h1 x h3 h4]

/-- A slot of the file that was empty stays empty. -/
theorem Drops.slot_zero (h0 : slotBlock d f s = 0) : slotBlock d' f s = 0 := by
  refine (h.rule hv hf (I := fun d₁ => slotBlock d₁ f s = 0) h0 fun d₁ d₂ hv₁ hf₁ h1 h2 => ?_).2.2
  by_contra h3
  rw [← h2.slot_mono hv₁.sound hf₁ (h2.linked hv₁.sound hf₁) h3] at h3
  exact h3 h1

end Drops

/-- The slot of a dropped block is empty. -/
theorem slotBlock_dropBlock (hs : Sound root dirs d) (hf : (tree root dirs d).Linked (.file f))
    (ha : slotAddr d f s = some p) (h : DropStep f m d (dropBlock d p)) (h0 : d.load32 p ≠ 0) :
    slotBlock (dropBlock d p) f s = 0 := by
  by_contra h1
  have hp : (slotRec dirs d f s).word s = some p := word_of_slotAddr ha
  have h2 : (d.load32 p).toNat ≠ 0 := fun h2 => h0 (BitVec.eq_of_toNat_eq h2)
  have hr : (tree root dirs d).Linked (slotRec dirs d f s) := linked_slotRec hf ha
  have hv : (tree root dirs d).val (slotRec dirs d f s) s = some (d.load32 p).toNat :=
    val_eq_some.2 ⟨p, hp, rfl, h2⟩
  -- the block would be in use again, but it was marked free
  have h3 := ((h.sound hs hf).good (held_slotBlock (h.linked hs hf) h1)).1.2
  rw [← h.slot_mono hs hf (h.linked hs hf) h1, slotBlock_eq ha, hs.blockIsFree_dropBlock hr hp hv,
    if_pos rfl] at h3
  cases h3

theorem fileBlock_out (hn : 10 + 1024 ≤ n) : fileBlock d f n = 0 := by
  unfold fileBlock slotBlock dataSlot slotAddr
  rw [if_neg (by omega)]
  simp only [if_neg (show ¬ (n - 10 < 1024 ∧ d.load32 (fIndirect f) ≠ 0) by omega)]

/-- The loop of `file_truncate_blocks`. -/
theorem freeLoop_drops {is : List ℕ} (hv : Valid root dirs d) (hf : (tree root dirs d).Linked (.file f))
    (his : ∀ i ∈ is, m ≤ i)
    (h : is.foldlM (fun d bno => (fileFreeBlock d f bno).map (·.2)) d = some d') :
    Drops f m d d' ∧ ∀ i ∈ is, fileBlock d' f i = 0 := by
  induction is generalizing d with
  | nil =>
    cases h
    exact ⟨.refl, fun i hi => absurd hi (by simp)⟩
  | cons i is ih =>
    rw [List.foldlM_cons] at h
    obtain ⟨d₁, h1, h2⟩ := Option.bind_eq_some_iff.1 h
    obtain ⟨⟨res, d₂⟩, h3, rfl⟩ := Option.map_eq_some_iff.1 h1
    have hd : Drops f m d d₂ ∧ fileBlock d₂ f i = 0 := by
      rcases fileFreeBlock_cases h3 with ⟨rfl, h4⟩ | ⟨p, hi, ha, h0, rfl⟩
      · refine ⟨.refl, ?_⟩
        by_cases hi : i < 10 + 1024
        · exact h4 hi
        · exact fileBlock_out (by omega)
      · have h5 : DropStep f m d (dropBlock d p) :=
          .mk ha h0 (Or.inl ⟨i, his i List.mem_cons_self, rfl⟩)
        exact ⟨.single h5, slotBlock_dropBlock hv.sound hf ha h5 h0⟩
    obtain ⟨hv₂, hf₂⟩ := hd.1.valid hv hf
    obtain ⟨h6, h7⟩ := ih hv₂ hf₂ (fun k hk => his k (List.mem_cons_of_mem _ hk)) h2
    refine ⟨hd.1.trans h6, fun k hk => ?_⟩
    rcases List.mem_cons.1 hk with rfl | hk
    · exact h6.slot_zero hv₂ hf₂ hd.2
    · exact h7 k hk

/-- **Truncation** drops blocks from the new size on: all up to the old size, and the
indirect block if the direct slots are enough. -/
theorem fileTruncateBlocks_drops (hv : Valid root dirs d) (hf : (tree root dirs d).Linked (.file f))
    (h : fileTruncateBlocks d f z = some d') :
    Drops f (sizeBlocks z) d d' ∧
      (∀ n, sizeBlocks z ≤ n → n < sizeBlocks (fSize d f) → fileBlock d' f n = 0) ∧
      (sizeBlocks z ≤ 10 → slotBlock d' f .fIndirect = 0) := by
  obtain ⟨d₁, h1, h2⟩ := Option.bind_eq_some_iff.1 h
  obtain ⟨hD, h3⟩ := freeLoop_drops hv hf (fun i hi => (List.mem_range'_1.1 hi).1) h1
  obtain ⟨hv₁, hf₁⟩ := hD.valid hv hf
  have h4 : ∀ n, sizeBlocks z ≤ n → n < sizeBlocks (fSize d f) → fileBlock d₁ f n = 0 :=
    fun n hn hn' => h3 n (List.mem_range'_1.2 ⟨hn, by omega⟩)
  by_cases h5 : sizeBlocks z ≤ 10 ∧ d₁.load32 (fIndirect f) ≠ 0
  · simp only [if_pos h5] at h2
    obtain ⟨d₂, h6, h7⟩ := Option.bind_eq_some_iff.1 h2
    have h8 : d' = dropBlock d₁ (fIndirect f) := by
      unfold freeBlock at h6
      split at h6
      · cases h6
      · rw [← Option.some.inj h7, ← Option.some.inj h6]
        rfl
    have h9 : DropStep f (sizeBlocks z) d₁ d' := by
      rw [h8]
      refine .mk (s := .fIndirect) rfl h5.2 (Or.inr ⟨rfl, h5.1, fun n hn hn' => ?_⟩)
      rw [(hD.head hv hf).fSize_eq] at hn'
      exact h4 n (by omega) hn'
    refine ⟨hD.tail h9, fun n hn hn' => ?_, fun _ => ?_⟩
    · exact Drops.slot_zero (.single h9) hv₁ hf₁ (h4 n hn hn')
    · rw [h8] at h9 ⊢
      exact slotBlock_dropBlock hv₁.sound hf₁ rfl h9 h5.2
  · simp only [if_neg h5] at h2
    obtain rfl := Option.some.inj h2
    refine ⟨hD, h4, fun h6 => ?_⟩
    have h7 : d₁.load32 (fIndirect f) = 0 := by
      by_contra h7
      exact h5 ⟨h6, h7⟩
    show (d₁.load32 (fIndirect f)).toNat = 0
    rw [h7]
    rfl

end Jos.Fs
