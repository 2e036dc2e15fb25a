import Jos.Spec.Fsck

/-!
# What the allocator and the block walk do to the disk

A call that allocates sets one slot to the number of a free block and clears that block
(`addBlock`); a call that frees sets a bit of the bitmap and clears a slot (`dropBlock`).
`fileGetBlock_cases` and `fileFreeBlock_cases` reduce the functions of `fs/fs.c` to these
two changes, and the lemmas before them say which bytes each change leaves.
-/

namespace Jos.Fs

open Lib

variable {d d' : Bytes} {a b c f p n : ℕ} {w : BitVec 32} {s : Slot}

/-! ## The bitmap -/

/-- The test of one bit, as the code writes it. -/
theorem and_one_shiftLeft (w : BitVec 32) (k : ℕ) :
    (w &&& 1#32 <<< k != 0) = w.getLsbD k := by
  rw [← BitVec.twoPow_eq, BitVec.and_twoPow]
  by_cases h : w.getLsbD k = true
  · have hk : k < 32 := BitVec.lt_of_getLsbD h
    have h0 : BitVec.twoPow 32 k ≠ 0#32 := by
      intro e
      have h1 := congrArg (·.getLsbD k) e
      simp [hk] at h1
    simp [h, h0]
  · simp [h]

theorem getLsbD_mark {u : Bool} {j k : ℕ} (hj : j < 32) :
    (if u then w ||| 1#32 <<< k else w &&& ~~~(1#32 <<< k)).getLsbD j =
      if j = k then u else w.getLsbD j := by
  rw [← BitVec.twoPow_eq]
  cases u
  · by_cases h : k = j
    · subst h; simp [hj]
    · simp [hj, Ne.symm h]
  · by_cases h : k = j
    · subst h; simp [hj]
    · simp [hj, Ne.symm h]

theorem blockIsFree_eq (d : Bytes) (b : ℕ) :
    blockIsFree d b = (decide (b < nblocks d) && (d.load32 (bitmapWord (b / 32))).getLsbD (b % 32)) := by
  unfold blockIsFree
  rw [and_one_shiftLeft]

theorem blockIsFree_lt (h : blockIsFree d b = true) : b < nblocks d := by
  unfold blockIsFree at h
  simp only [Bool.and_eq_true, decide_eq_true_eq] at h
  exact h.1

theorem not_inUse_of_free (h : blockIsFree d b = true) : ¬ InUse d b := by
  rintro ⟨-, h1⟩
  rw [h] at h1
  cases h1

theorem lt_of_diskaddr (h : diskaddr d b = some a) : b ≠ 0 ∧ b < nblocks d ∧ a = b * 4096 := by
  unfold diskaddr at h
  split at h
  · cases h
  · rename_i h0
    simp only [not_or] at h0
    exact ⟨h0.1, by omega, (Option.some.inj h).symm⟩

/-- The words of the bitmap that say which blocks of the disk are free lie in reserved
blocks. -/
theorem reserved_bitmapWord (hb : b < nblocks d) : Reserved d (bitmapWord (b / 32) / 4096) := by
  unfold bitmapWord
  exact Or.inr ⟨by omega, by omega⟩

/-- The bitmap with the bit of block `b` set or cleared. -/
def markBlock (d : Bytes) (b : ℕ) (u : Bool) : Bytes :=
  d.store32 (bitmapWord (b / 32))
    (if u then d.load32 (bitmapWord (b / 32)) ||| 1#32 <<< (b % 32)
     else d.load32 (bitmapWord (b / 32)) &&& ~~~(1#32 <<< (b % 32)))

variable {u : Bool}

@[simp] theorem nblocks_markBlock : nblocks (markBlock d b u) = nblocks d := by
  unfold nblocks markBlock
  rw [Bytes.load32_store32_off (by unfold bitmapWord; omega)]

/-- **Marking a block** changes the state of that block only. -/
theorem blockIsFree_markBlock : blockIsFree (markBlock d b u) c =
    if c = b then decide (b < nblocks d) && u else blockIsFree d c := by
  rw [blockIsFree_eq, blockIsFree_eq, nblocks_markBlock]
  unfold markBlock
  by_cases hw : c / 32 = b / 32
  · rw [hw, Bytes.load32_store32]
    have hc : c % 32 < 32 := Nat.mod_lt _ (by omega)
    by_cases he : c = b
    · subst he
      rw [getLsbD_mark hc, if_pos rfl, if_pos rfl]
    · have hne : ¬ c % 32 = b % 32 := by omega
      rw [getLsbD_mark hc, if_neg he, if_neg hne]
  · have he : c ≠ b := by rintro rfl; exact hw rfl
    rw [if_neg he, Bytes.load32_store32_off (by unfold bitmapWord; omega)]

theorem byte_markBlock (hp : p / 4096 ≠ bitmapWord (b / 32) / 4096) :
    (markBlock d b u).byte p = d.byte p := by
  unfold markBlock
  refine Bytes.byte_store32_off ?_
  unfold bitmapWord at *
  omega

/-! ## The two changes -/

/-- A slot at `p` is set to block `b`, which is cleared and marked in use. -/
def addBlock (d : Bytes) (p b : ℕ) : Bytes :=
  ((markBlock d b false).store32 p (BitVec.ofNat 32 b)).zero (b * 4096) 4096

/-- The block in the slot at `p` is marked free, and the slot is cleared. -/
def dropBlock (d : Bytes) (p : ℕ) : Bytes := (markBlock d (d.load32 p).toNat true).store32 p 0

theorem allocAt_cases {ok : Bool} (h : allocAt d p = some (ok, d')) :
    (ok = false ∧ d' = d) ∨ (ok = true ∧ (d' = d ∨
      (d.load32 p = 0 ∧ ∃ b, blockIsFree d b = true ∧ d' = addBlock d p b))) := by
  unfold allocAt allocBlock at h
  by_cases h0 : d.load32 p ≠ 0
  · rw [if_pos h0] at h
    simp only [Option.some.injEq, Prod.mk.injEq] at h
    exact Or.inr ⟨h.1.symm, Or.inl h.2.symm⟩
  rw [if_neg h0] at h
  rcases hb : (List.range (nblocks d)).find? (blockIsFree d) with _ | b
  · rw [hb] at h
    simp only [Option.some.injEq, Prod.mk.injEq] at h
    exact Or.inl ⟨h.1.symm, h.2.symm⟩
  · rw [hb] at h
    obtain ⟨a, ha, h⟩ := Option.bind_eq_some_iff.1 h
    simp only [Option.some.injEq, Prod.mk.injEq] at h
    obtain ⟨-, -, rfl⟩ := lt_of_diskaddr ha
    exact Or.inr ⟨h.1.symm, Or.inr ⟨not_not.1 h0, b, List.find?_some hb, h.2.symm⟩⟩

theorem slotAddr_direct (hn : n < 10) : slotAddr d f (dataSlot n) = some (fDirect f n) := by
  simp [slotAddr, dataSlot, hn]

theorem slotAddr_indirect (h1 : 10 ≤ n) (h2 : n < 10 + 1024) (h0 : d.load32 (fIndirect f) ≠ 0) :
    slotAddr d f (dataSlot n) =
      some ((d.load32 (fIndirect f)).toNat * 4096 + 4 * (n - 10)) := by
  unfold dataSlot slotAddr
  rw [if_neg (by omega)]
  exact if_pos ⟨by omega, h0⟩

/-- **The block walk** finds the address of a slot; it may have allocated the indirect
block for it. -/
theorem fileBlockWalk_cases {r : Except ℤ ℕ} {alloc : Bool}
    (h : fileBlockWalk d f n alloc = some (r, d')) :
    (∃ e < 0, r = .error e ∧ d' = d ∧ (alloc = false → n < 10 + 1024 → 10 ≤ n ∧ d.load32 (fIndirect f) = 0)) ∨
    (∃ p, r = .ok p ∧ n < 10 + 1024 ∧ slotAddr d' f (dataSlot n) = some p ∧
      (d' = d ∨ (alloc = true ∧ 10 ≤ n ∧ d.load32 (fIndirect f) = 0 ∧
        ∃ b, blockIsFree d b = true ∧ d' = addBlock d (fIndirect f) b))) := by
  unfold fileBlockWalk at h
  by_cases h1 : n ≥ 10 + 1024
  · rw [if_pos h1] at h
    simp only [Option.some.injEq, Prod.mk.injEq] at h
    exact Or.inl ⟨_, by decide, h.1.symm, h.2.symm, fun _ h2 => by omega⟩
  rw [if_neg h1] at h
  by_cases h2 : n < 10
  · rw [if_pos h2] at h
    simp only [Option.some.injEq, Prod.mk.injEq] at h
    exact Or.inr ⟨_, h.1.symm, by omega, by rw [← h.2]; exact slotAddr_direct h2, Or.inl h.2.symm⟩
  rw [if_neg h2] at h
  by_cases h3 : d.load32 (fIndirect f) = 0 ∧ alloc = false
  · rw [if_pos h3] at h
    simp only [Option.some.injEq, Prod.mk.injEq] at h
    exact Or.inl ⟨_, by decide, h.1.symm, h.2.symm, fun _ _ => ⟨by omega, h3.1⟩⟩
  rw [if_neg h3] at h
  obtain ⟨⟨ok, d₁⟩, h4, h5⟩ := Option.bind_eq_some_iff.1 h
  have hd : (ok = false ∧ d₁ = d ∧ d.load32 (fIndirect f) = 0) ∨
      (ok = true ∧ (d₁ = d ∨ (d.load32 (fIndirect f) = 0 ∧
        ∃ b, blockIsFree d b = true ∧ d₁ = addBlock d (fIndirect f) b))) := by
    rcases allocAt_cases h4 with ⟨h6, h7⟩ | h6
    · refine Or.inl ⟨h6, h7, ?_⟩
      by_contra h0
      unfold allocAt at h4
      rw [if_pos h0] at h4
      simp only [Option.some.injEq, Prod.mk.injEq] at h4
      rw [h6] at h4
      cases h4.1
    · exact Or.inr h6
  rcases hd with ⟨rfl, rfl, h0⟩ | ⟨rfl, hd⟩
  · simp only [Bool.false_eq_true, if_false, Option.some.injEq, Prod.mk.injEq] at h5
    exact Or.inl ⟨_, by decide, h5.1.symm, h5.2.symm, fun h6 => absurd ⟨h0, h6⟩ h3⟩
  · simp only [if_true] at h5
    obtain ⟨a, ha, h6⟩ := Option.bind_eq_some_iff.1 h5
    simp only [Option.some.injEq, Prod.mk.injEq] at h6
    obtain ⟨h7, -, rfl⟩ := lt_of_diskaddr ha
    obtain ⟨h6, rfl⟩ := h6
    refine Or.inr ⟨_, h6.symm, by omega, slotAddr_indirect (by omega) (by omega) ?_, ?_⟩
    · intro h8
      rw [h8] at h7
      exact h7 rfl
    · refine hd.imp_right fun h8 => ⟨?_, by omega, h8⟩
      cases alloc
      · exact absurd ⟨h8.1, rfl⟩ h3
      · rfl

/-- **Getting a block**: at most two blocks are added, the indirect block and the block
itself, and the block is the one that the slot holds then. -/
theorem fileGetBlock_cases {r : Except ℤ ℕ} (h : fileGetBlock d f n = some (r, d')) :
    (∃ e < 0, r = .error e ∧ d' = d) ∨
    ∃ d₁ p, n < 10 + 1024 ∧ slotAddr d₁ f (dataSlot n) = some p ∧
      (d₁ = d ∨ (10 ≤ n ∧ d.load32 (fIndirect f) = 0 ∧
        ∃ b, blockIsFree d b = true ∧ d₁ = addBlock d (fIndirect f) b)) ∧
      ((∃ e < 0, r = .error e ∧ d' = d₁) ∨
        (r = .ok ((d'.load32 p).toNat * 4096) ∧ (d'.load32 p).toNat ≠ 0 ∧
          (d'.load32 p).toNat < nblocks d' ∧
          (d' = d₁ ∨ (d₁.load32 p = 0 ∧ ∃ b, blockIsFree d₁ b = true ∧ d' = addBlock d₁ p b)))) := by
  unfold fileGetBlock at h
  obtain ⟨⟨r₁, d₁⟩, h1, h2⟩ := Option.bind_eq_some_iff.1 h
  rcases fileBlockWalk_cases h1 with ⟨e, he, rfl, rfl, -⟩ | ⟨p, rfl, hn, hp, hd⟩
  · simp only [Option.some.injEq, Prod.mk.injEq] at h2
    exact Or.inl ⟨e, he, h2.1.symm, h2.2.symm⟩
  refine Or.inr ⟨d₁, p, hn, hp, hd.imp_right fun h3 => h3.2, ?_⟩
  obtain ⟨⟨ok, d₂⟩, h3, h4⟩ := Option.bind_eq_some_iff.1 h2
  rcases allocAt_cases h3 with ⟨rfl, rfl⟩ | ⟨rfl, hd₂⟩
  · simp only [Bool.false_eq_true, if_false, Option.some.injEq, Prod.mk.injEq] at h4
    exact Or.inl ⟨_, by decide, h4.1.symm, h4.2.symm⟩
  · simp only [if_true] at h4
    obtain ⟨a, ha, h5⟩ := Option.bind_eq_some_iff.1 h4
    simp only [Option.some.injEq, Prod.mk.injEq] at h5
    obtain ⟨h6, h7, rfl⟩ := lt_of_diskaddr ha
    obtain ⟨h5, rfl⟩ := h5
    exact Or.inr ⟨h5.symm, h6, h7, hd₂⟩

/-- **Freeing a block of a file** drops the block of its slot, or does nothing. -/
theorem fileFreeBlock_cases {r : ℤ} (h : fileFreeBlock d f n = some (r, d')) :
    (d' = d ∧ (n < 10 + 1024 → fileBlock d f n = 0)) ∨
    ∃ p, n < 10 + 1024 ∧ slotAddr d f (dataSlot n) = some p ∧ d.load32 p ≠ 0 ∧ d' = dropBlock d p := by
  unfold fileFreeBlock at h
  obtain ⟨⟨r₁, d₁⟩, h1, h2⟩ := Option.bind_eq_some_iff.1 h
  rcases fileBlockWalk_cases h1 with ⟨e, -, rfl, rfl, h0⟩ | ⟨p, rfl, hn, hp, hd⟩
  · simp only [Option.some.injEq, Prod.mk.injEq] at h2
    refine Or.inl ⟨h2.2.symm, fun h3 => ?_⟩
    obtain ⟨h4, h5⟩ := h0 rfl h3
    unfold fileBlock slotBlock dataSlot slotAddr
    rw [if_neg (by omega)]
    simp [h5]
  · rcases hd with rfl | ⟨h3, -⟩
    · by_cases h0 : d₁.load32 p ≠ 0
      · simp only [if_pos h0] at h2
        obtain ⟨d₂, h3, h4⟩ := Option.bind_eq_some_iff.1 h2
        simp only [Option.some.injEq, Prod.mk.injEq] at h4
        refine Or.inr ⟨p, hn, hp, h0, ?_⟩
        unfold freeBlock at h3
        split at h3
        · cases h3
        · rw [← h4.2, ← Option.some.inj h3]
          rfl
      · simp only [if_neg h0, Option.some.injEq, Prod.mk.injEq] at h2
        refine Or.inl ⟨h2.2.symm, fun _ => ?_⟩
        unfold fileBlock slotBlock
        rw [hp]
        simp [not_not.1 h0]
    · cases h3

end Jos.Fs
