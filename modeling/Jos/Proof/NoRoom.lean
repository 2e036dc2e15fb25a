import Jos.Proof.ReadBack
import Jos.Proof.SetSize

/-!
# Out of blocks

Which blocks `file_get_block` gets, by the number of free blocks (`fileGetBlock_room`), and what the loop
of `file_write` leaves when it fails: no block is free any more, and there is none at some place of the
range (`fileWriteLoop_fails`). Blocks that it took are in slots of the file that were empty
(`fileWriteLoop_added`), and up to the first place without a block the bytes are written
(`fileWriteLoop_reaches`).
-/

namespace Jos.Fs

open Lib

variable {root : ℕ} {dirs : Bool} {d d' d₁ : Bytes} {s : Slot} {b f k n p x : ℕ} {buf : List Byte} {pos : ℤ}
  {fin : ℕ} {res : ℤ} {P : ℕ → ℕ → Bool → ℤ → Prop}

/-! ## One block -/

theorem fileBlock_of_slot (hf : slotAddr d f (dataSlot n) = some p) : fileBlock d f n = (d.load32 p).toNat :=
  slotBlock_eq hf

/-- **Getting a block** whose slot is there takes one block, if none is in it. -/
theorem fileGetBlock_slot (hs : Sound root dirs d) (hf : (tree root dirs d).Linked (.file f)) (hn : n < 10 + 1024)
    (hind : n < 10 ∨ slotBlock d f .fIndirect ≠ 0) :
    (fileGetBlock d f n = some (.error (-eNoDisk), d) ∧ room d = 0 ∧ fileBlock d f n = 0) ∨
      ∃ d', fileGetBlock d f n = some (.ok (fileBlock d' f n * 4096), d') ∧ fileBlock d' f n ≠ 0 ∧
        (fileBlock d f n ≠ 0 ∨ 0 < room d) := by
  by_cases h0 : fileBlock d f n ≠ 0
  · exact Or.inr ⟨d, fileGetBlock_present hs hf h0, h0, Or.inl h0⟩
  have h0 := not_not.1 h0
  obtain ⟨p, ha, hw⟩ := @fileBlockWalk_there _ _ _ _ _ true hs hf hn hind
  have hp : d.load32 p = 0 := by
    apply BitVec.eq_of_toNat_eq
    rw [← fileBlock_of_slot ha, h0]
    rfl
  unfold fileGetBlock
  rw [hw]
  simp only [Option.bind_eq_bind, Option.bind_some]
  rcases hs.allocAt_total hf ha with ⟨h1, h2⟩ | ⟨h1, -⟩ | ⟨-, b, hb, h1⟩
  · rw [h1]
    exact Or.inl ⟨rfl, h2, h0⟩
  · exact absurd hp h1
  · -- the new block is in the slot then
    have hr := linked_slotRec hf ha
    have hword : (slotRec dirs d f (dataSlot n)).word (dataSlot n) = some p := word_of_slotAddr ha
    have hnew : fileBlock (addBlock d p b) f n = b := (hs.slot_add hf ha hp hb).1
    have hb0 : b ≠ 0 := by
      have := (hs.free_apart hb).1
      omega
    have hs' := hs.add hr hword hb hp
    have hf' : (tree root dirs (addBlock d p b)).Linked (.file f) :=
      (hs.linked_addBlock hr hword hb hp).2 (Or.inl hf)
    have hnz : fileBlock (addBlock d p b) f n ≠ 0 := by
      rw [hnew]
      exact hb0
    have hload := fileBlock_of_slot (hs.slotAddr_addBlock hr hword hb hp hf ha)
    refine Or.inr ⟨addBlock d p b, ?_, hnz, Or.inr ?_⟩
    · rw [h1]
      simp only [Option.bind_some, if_true]
      rw [← hload]
      unfold fileBlock
      rw [diskaddr_good hs' hf' hnz]
      rfl
    · have := hs.room_addBlock hr hword hb
      omega

/-- **Getting a block**: it fails where no block is free, or where one is and the indirect block takes it. -/
theorem fileGetBlock_room (hs : Sound root dirs d) (hf : (tree root dirs d).Linked (.file f))
    (hn : n < 10 + 1024) :
    (∃ d', fileGetBlock d f n = some (.error (-eNoDisk), d') ∧ room d' = 0 ∧ fileBlock d' f n = 0 ∧
      (d' = d ∧ room d = 0 ∨ 0 < room d ∧ 10 ≤ n ∧ slotBlock d f .fIndirect = 0)) ∨
      ∃ d', fileGetBlock d f n = some (.ok (fileBlock d' f n * 4096), d') ∧ fileBlock d' f n ≠ 0 ∧
        (fileBlock d f n ≠ 0 ∨ 0 < room d) := by
  by_cases hind : n < 10 ∨ slotBlock d f .fIndirect ≠ 0
  · rcases fileGetBlock_slot hs hf hn hind with ⟨h1, h2, h3⟩ | h1
    · exact Or.inl ⟨d, h1, h2, h3, Or.inl ⟨rfl, h2⟩⟩
    · exact Or.inr h1
  obtain ⟨h1, h2⟩ := not_or.1 hind
  have h2 := not_not.1 h2
  have hz : d.load32 (fIndirect f) = 0 := BitVec.eq_of_toNat_eq h2
  have ha : slotAddr d f .fIndirect = some (fIndirect f) := rfl
  rcases hs.allocAt_total hf ha with ⟨h3, h4⟩ | ⟨h3, -⟩ | ⟨-, b, hb, h3⟩
  · -- there is none for the indirect block
    refine Or.inl ⟨d, ?_, h4, fileBlock_of_indirect h2 (by omega), Or.inl ⟨rfl, h4⟩⟩
    unfold fileGetBlock fileBlockWalk
    rw [if_neg (by omega), if_neg h1, if_neg (fun h => by cases h.2), h3]
    rfl
  · exact absurd hz h3
  · have hr := linked_slotRec hf ha
    have hword : (slotRec dirs d f .fIndirect).word .fIndirect = some (fIndirect f) := rfl
    have hs₁ := hs.add hr hword hb hz
    have hf₁ : (tree root dirs (addBlock d (fIndirect f) b)).Linked (.file f) :=
      (hs.linked_addBlock hr hword hb hz).2 (Or.inl hf)
    have hroom := hs.room_addBlock hr hword hb
    have hnew : slotBlock (addBlock d (fIndirect f) b) f .fIndirect ≠ 0 := by
      rw [(hs.slot_add hf ha hz hb).1]
      have := (hs.free_apart hb).1
      omega
    -- with the indirect block there, the rest is as for any file that has one
    have hsame : fileGetBlock d f n = fileGetBlock (addBlock d (fIndirect f) b) f n := by
      obtain ⟨p, -, hw⟩ := @fileBlockWalk_there _ _ _ _ _ true hs₁ hf₁ hn (Or.inr hnew)
      have hw' : fileBlockWalk d f n true = some (.ok p, addBlock d (fIndirect f) b) := by
        rw [← hw]
        unfold fileBlockWalk
        have hne : (addBlock d (fIndirect f) b).load32 (fIndirect f) ≠ 0 := fun h => hnew (congrArg BitVec.toNat h)
        rw [if_neg (by omega), if_neg h1, if_neg (fun h => by cases h.2), h3, if_neg (by omega), if_neg h1,
          if_neg (fun h => by cases h.2)]
        unfold allocAt
        rw [if_pos hne]
      unfold fileGetBlock
      rw [hw, hw']
    rw [hsame]
    rcases fileGetBlock_slot hs₁ hf₁ hn (Or.inr hnew) with ⟨h4, h5, h6⟩ | ⟨d', h4, h5, -⟩
    · exact Or.inl ⟨_, h4, h5, h6, Or.inr ⟨by omega, by omega, h2⟩⟩
    · exact Or.inr ⟨d', h4, h5, Or.inr (by omega)⟩

/-! ## The loop of `file_write` -/

/-- **A write that fails** has used up all blocks, and there is none at some place of its range. -/
theorem fileWriteLoop_fails (hv : Valid root dirs d) (hf : (tree root dirs d).Linked (.file f))
    (ho : opens dirs d f = false) (h0 : 0 ≤ pos) (h1 : pos ≤ fin) (hle : fin ≤ 1034 * 4096)
    (h : fileWriteLoop f fin k pos buf d = some (res, d')) (hr : res < 0) :
    room d' = 0 ∧ ∃ n, n * 4096 < fin ∧ fileBlock d' f n = 0 := by
  induction k generalizing d pos buf with
  | zero =>
    cases h
    omega
  | succ k ih =>
    unfold fileWriteLoop at h
    split at h
    · rename_i hlt
      rw [u64_of_nonneg h0 (by omega)] at hlt
      have hn := place_eq h0 (show pos < 2 ^ 32 by omega)
      rcases fileGetBlock_room hv.sound hf (show pos.toNat / 4096 < 10 + 1024 by omega) with
        ⟨d₁, h3, h4, h5, -⟩ | ⟨d₁, h3, -, -⟩
      · rw [hn, h3] at h
        cases h
        exact ⟨h4, pos.toNat / 4096, by omega, h5⟩
      · rw [← hn] at h3
        obtain ⟨hA, -, -, hM, hhd⟩ := write_turn (P := Only f) buf fin hv hf ho h0 rfl h3
        have hv₁ := hA.valid hv
        have hc := chunk_eq h0 h1 (show fin < 2 ^ 32 by omega)
        rw [h3] at h
        exact ih (hM.valid hv₁) (hM.linked hv₁.sound (hA.linked hv hf)) (by rw [hhd.opens_eq]; exact ho)
          (by omega) (by omega) h
    · cases h
      omega

/-- The loop of `file_write` empties no slot, and each block that it took is in a slot that was empty. -/
theorem fileWriteLoop_added (hv : Valid root dirs d) (hf : (tree root dirs d).Linked (.file f))
    (ho : opens dirs d f = false) (h0 : 0 ≤ pos) (h : fileWriteLoop f fin k pos buf d = some (res, d')) :
    (∀ s, slotBlock d f s ≠ 0 → slotBlock d' f s ≠ 0) ∧
      (room d' = room d ∨ ∃ s, slotBlock d f s = 0 ∧ slotBlock d' f s ≠ 0) := by
  refine fileWriteLoop_rule (P := Only f) (I := fun d₁ => (∀ s, slotBlock d f s ≠ 0 → slotBlock d₁ f s ≠ 0) ∧
    (room d₁ = room d ∨ ∃ s, slotBlock d f s = 0 ∧ slotBlock d₁ f s ≠ 0)) hv hf ho h0 (fun _ _ => rfl)
    ⟨fun _ h => h, Or.inl rfl⟩ ?_ ?_ h
  · intro d₁ d₂ hv₁ hf₁ h1 h2
    refine ⟨fun s hs => ?_, Or.inr ?_⟩
    · rw [h2.slot_keep hv₁.sound hf₁ (h1.1 s hs)]
      exact h1.1 s hs
    · cases h2 with
      | @mk g n p b s hg hP _ _ ha hz hb =>
        obtain rfl : g = f := hP
        refine ⟨s, ?_, ?_⟩
        · by_contra h3
          apply h1.1 s h3
          rw [slotBlock_eq ha, hz]
          rfl
        · rw [(hv₁.sound.slot_add hf₁ ha hz hb).1]
          have := (hv₁.sound.free_apart hb).1
          omega
  · intro d₁ n q bs hv₁ hf₁ ho₁ h1 h2 h3 h4
    have hsame := hv₁.sound.same_block hf₁ ho₁ h2 h3 h4
    refine ⟨fun s hs => ?_, ?_⟩
    · rw [hsame.slotBlock_eq hf₁]
      exact h1.1 s hs
    · rw [hsame.room_eq]
      apply h1.2.imp_right
      rintro ⟨s, h5, h6⟩
      exact ⟨s, h5, by rw [hsame.slotBlock_eq hf₁]; exact h6⟩

/-- **Where no place before is empty** the bytes are written, also when the write fails later. -/
theorem fileWriteLoop_reaches (hv : Valid root dirs d) (hf : (tree root dirs d).Linked (.file f))
    (ho : opens dirs d f = false) (h0 : 0 ≤ pos) (h2 : fin < 2 ^ 32) (hk : buf.length ≤ k)
    (hlen : pos + buf.length = fin) (h3 : pos.toNat ≤ x) (h4 : x < fin)
    (hx : ∀ n, pos.toNat / 4096 ≤ n → n ≤ x / 4096 → fileBlock d f n ≠ 0)
    (h : fileWriteLoop f fin k pos buf d = some (res, d')) :
    fileByte d' f x = buf.getD (x - pos.toNat) 0 := by
  induction k generalizing d pos buf with
  | zero => omega
  | succ k ih =>
    unfold fileWriteLoop at h
    rw [if_pos (by rw [u64_of_nonneg h0 (by omega)]; omega)] at h
    have hn := place_eq h0 (show pos < 2 ^ 32 by omega)
    have hb := hx _ le_rfl (by omega)
    have h5 := fileGetBlock_present hv.sound hf hb
    rw [← hn] at h5
    obtain ⟨-, -, h6, hM, hhd⟩ := write_turn (P := Only f) buf fin hv hf ho h0 rfl h5
    have hc := chunk_eq h0 (show pos ≤ fin by omega) h2
    rw [h5] at h
    simp only [Option.bind_eq_bind, Option.bind_some] at h
    rw [hn] at h6 h hM hhd
    rw [h6] at h hM hhd
    generalize chunk fin pos = c at h hM hhd hc
    have hcl : (buf.take c).length = c := by
      rw [List.length_take]
      omega
    have hsame : Same root dirs d (d.write (fileBlock d f (pos.toNat / 4096) * 4096 + pos.toNat % 4096) (buf.take c)) :=
      hv.sound.same_block hf ho hb (by omega) (by omega)
    have hv₁ := hM.valid hv
    have hf₁ := hM.linked hv.sound hf
    have ho₁ : opens dirs (d.write (fileBlock d f (pos.toNat / 4096) * 4096 + pos.toNat % 4096) (buf.take c)) f = false := by
      rw [hhd.opens_eq]
      exact ho
    by_cases hxc : x < pos.toNat + c
    · -- the byte is written in this turn, and not again
      obtain ⟨-, -, -, h7⟩ := fileWriteLoop_copied hv₁ hf₁ ho₁ (by omega) h2 (by simp; omega) (by simp; omega) h rfl
      rw [h7, if_neg (by omega), fileByte_data hv.sound hf ho hb (by omega), hcl, if_pos (by omega),
        List.getD_eq_getElem?_getD, List.getElem?_take_of_lt (by omega), List.getD_eq_getElem?_getD]
      congr 2
      omega
    · have h7 := ih hv₁ hf₁ ho₁ (by omega) (by simp; omega) (by simp; omega) (by omega) (fun n h8 h9 => by
        rw [show fileBlock _ f n = fileBlock d f n from hsame.slotBlock_eq hf]
        exact hx n (by omega) h9) h
      rw [h7, List.getD_eq_getElem?_getD, List.getElem?_drop, List.getD_eq_getElem?_getD]
      congr 2
      omega

/-- **Where no block is free** and the bytes are there, up to the first empty place, nothing changes. -/
theorem fileWriteLoop_none (hs : Sound root dirs d) (hf : (tree root dirs d).Linked (.file f)) (hroom : room d = 0)
    (h0 : 0 ≤ pos) (hle : fin ≤ 1034 * 4096) (hlen : pos + buf.length = fin)
    (hx : ∀ x, pos.toNat ≤ x → x < fin → (∀ n, pos.toNat / 4096 ≤ n → n ≤ x / 4096 → fileBlock d f n ≠ 0) →
      fileByte d f x = buf.getD (x - pos.toNat) 0)
    (h : fileWriteLoop f fin k pos buf d = some (res, d')) : d' = d := by
  induction k generalizing pos buf with
  | zero =>
    cases h
    rfl
  | succ k ih =>
    unfold fileWriteLoop at h
    split at h
    · rename_i hlt
      rw [u64_of_nonneg h0 (by omega)] at hlt
      have hn := place_eq h0 (show pos < 2 ^ 32 by omega)
      have hc := chunk_eq h0 (show pos ≤ fin by omega) (show fin < 2 ^ 32 by omega)
      rcases fileGetBlock_room hs hf (show pos.toNat / 4096 < 10 + 1024 by omega) with
        ⟨d₁, h3, -, -, ⟨rfl, -⟩ | ⟨h4, -⟩⟩ | ⟨d₁, -, -, h3⟩
      · rw [hn, h3] at h
        cases h
        rfl
      · omega
      · have hb : fileBlock d f (pos.toNat / 4096) ≠ 0 := h3.resolve_right (by omega)
        rw [hn, fileGetBlock_present hs hf hb] at h
        simp only [Option.bind_eq_bind, Option.bind_some] at h
        have ha : ((fileBlock d f (pos.toNat / 4096) * 4096 : ℕ) + pos.tmod 4096).toNat =
            fileBlock d f (pos.toNat / 4096) * 4096 + pos.toNat % 4096 := by
          rw [Int.tmod_eq_emod_of_nonneg h0]
          omega
        rw [ha] at h
        generalize chunk fin pos = c at h hc
        -- the bytes of this turn are there
        have hw : d.write (fileBlock d f (pos.toNat / 4096) * 4096 + pos.toNat % 4096) (buf.take c) = d := by
          refine Bytes.ext (funext fun y => ?_)
          rw [Bytes.byte_write, List.length_take]
          split
          · rename_i hy
            obtain ⟨i, rfl⟩ := Nat.exists_eq_add_of_le hy.1
            have hi : i < c := by omega
            have h5 := hx (pos.toNat + i) (by omega) (by omega) (fun n h6 h7 => by
              rw [show n = pos.toNat / 4096 by omega]
              exact hb)
            unfold fileByte at h5
            rw [show (pos.toNat + i) / 4096 = pos.toNat / 4096 by omega, if_neg hb, Nat.add_sub_cancel_left] at h5
            rw [Nat.add_sub_cancel_left, List.getD_eq_getElem?_getD, List.getElem?_take_of_lt hi,
              ← List.getD_eq_getElem?_getD, ← h5]
            exact congrArg d.byte (by omega)
          · rfl
        rw [hw] at h
        refine ih (by omega) (by simp; omega) (fun x h5 h6 h7 => ?_) h
        rw [hx x (by omega) h6 (fun n h8 h9 => ?_), List.getD_eq_getElem?_getD, List.getD_eq_getElem?_getD,
          List.getElem?_drop]
        · congr 2
          omega
        · by_cases he : n = pos.toNat / 4096
          · rw [he]
            exact hb
          · exact h7 n (by omega) h9
    · cases h
      rfl

/-! ## Reading one byte -/

/-- `file_read` of one byte. -/
theorem fileRead_one (hx : (x : ℤ) < fSize d f) :
    fileRead d f 1 x = (fileGetBlock d f (x / 4096)).map fun (r, d) =>
      match r with
      | .error e => ((if e < 0 then e else 1, []), d)
      | .ok blk => ((1, [d.byte (blk + x % 4096)]), d) := by
  have hsz := fSize_lt d f
  have hcount : min 1 (u64 (fSize d f - x)) = 1 := by
    rw [u64_of_nonneg (by omega) (by omega)]
    omega
  have hfin : u64 (x + ((1 : ℕ) : ℤ)) = x + 1 := by
    rw [u64_of_nonneg (by omega) (by omega)]
    omega
  have hc : chunk (x + 1) x = 1 := by
    rw [chunk_eq (by omega) (by omega) (by omega)]
    omega
  unfold fileRead
  rw [if_neg (by omega)]
  dsimp only
  rw [hcount, hfin]
  unfold fileReadLoop
  rw [if_pos (by rw [u64_of_nonneg (by omega) (by omega)]; omega), place_eq (by omega) (by omega)]
  have hnat : ((x : ℤ)).toNat = x := rfl
  rw [hnat]
  rcases fileGetBlock d f (x / 4096) with _ | ⟨e | blk, d₁⟩
  · rfl
  · rfl
  · simp only [Option.bind_eq_bind, Option.bind_some, Option.map_some, hc, fileReadLoop]
    rw [Int.tmod_eq_emod_of_nonneg (by omega)]
    have ha : ((blk : ℤ) + (x : ℤ) % 4096).toNat = blk + x % 4096 := by omega
    rw [ha]
    simp [Bytes.read]

end Jos.Fs
