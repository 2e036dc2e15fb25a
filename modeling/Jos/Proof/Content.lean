import Jos.Proof.Moves

/-!
# The contents of files

Adding blocks changes no byte of a file whose contents do not count (`fileByte_add`), and a
write to one of its blocks changes the bytes there (`fileByte_data`). So the loops of
`file_read` and `file_write` give, and put in place, the bytes between two positions.
-/

namespace Jos.Fs

open Lib

variable {root : ℕ} {dirs : Bool} {d d' d₁ : Bytes} {r : Rec} {s : Slot} {b f g m n p q x : ℕ}
  {bs buf : List Byte} {pos z : ℤ} {fin : ℕ} {P : ℕ → ℕ → Bool → ℤ → Prop}

theorem contents_getElem? (d : Bytes) (f x : ℕ) :
    (contents d f)[x]? = if x < (fSize d f).toNat then some (fileByte d f x) else none := by
  unfold contents
  rw [List.getElem?_map]
  by_cases h : x < (fSize d f).toNat
  · rw [if_pos h, List.getElem?_range h]
    rfl
  · rw [if_neg h, List.getElem?_eq_none (by simpa using h)]
    rfl

namespace Sound

variable (hs : Sound root dirs d)
include hs

/-- The blocks of a file do not hold the slots of the file. -/
theorem own_apart (hf : (tree root dirs d).Linked (.file f)) (ha : slotAddr d f s = some p)
    (h0 : fileBlock d f n ≠ 0) : (slotRec dirs d f s).block ≠ fileBlock d f n := by
  intro he
  have hh := held_slotBlock hf h0
  rcases linked_block (linked_slotRec hf ha) with h | ⟨q, t, h, hk⟩
  · rw [h] at he
    exact (hs.good hh).2.2 he.symm
  · rw [he] at h hk
    obtain ⟨rfl, rfl⟩ := hs.alone h hh
    cases s with
    | direct i => exact Owners.not_below hs.alone hs.apart hh hk (from_slotRec ((slotAddr_of_slotBlock h0).choose_spec)) hh.2
    | fIndirect => exact Owners.not_below hs.alone hs.apart hh hk (from_slotRec ((slotAddr_of_slotBlock h0).choose_spec)) hh.2
    | indirect j =>
      -- the entries of a block are files
      unfold dataSlot at hk
      split at hk
      · simp only [slotRec, kids] at hk
        split at hk
        · obtain ⟨_, _, h1⟩ := hk
          cases h1
        · exact hk
      · simp only [slotRec, kids] at hk
        split at hk
        · obtain ⟨_, _, h1⟩ := hk
          cases h1
        · exact hk

/-- Adding a block leaves the blocks that do not hold the slot. -/
theorem byte_addBlock (hr : (tree root dirs d).Linked r) (hp : r.word s = some p)
    (hb : blockIsFree d b = true) (hf : (tree root dirs d).Linked (.file f)) (h6 : r.block ≠ fileBlock d f n)
    (h0 : fileBlock d f n ≠ 0) (h1 : x / 4096 = fileBlock d f n) : (addBlock d p b).byte x = d.byte x := by
  have h2 := hs.good (held_slotBlock hf h0)
  have h3 : fileBlock d f n ≠ b := by
    intro he
    have h4 := h2.1.2
    rw [show slotBlock d f (dataSlot n) = b from he, hb] at h4
    cases h4
  have h5 := hs.word_block hr hp
  have h7 : bitmapWord (b / 32) / 4096 ≠ fileBlock d f n := by
    intro he
    have h8 := reserved_bitmapWord (blockIsFree_lt hb)
    rw [he] at h8
    exact h2.2.1 h8
  unfold addBlock
  rw [Bytes.byte_zero_off (by omega), Bytes.byte_store32_off (by omega), byte_markBlock (by omega)]

end Sound

/-- **Adding a block changes no contents** of a file whose blocks do not hold the slot. -/
theorem AddStep.fileByte_apart (h : AddStep P root dirs d d') (hs : Sound root dirs d)
    (hf : (tree root dirs d).Linked (.file f))
    (hne : ∀ g m t p n, P g m (nameFree d g) (fSize d g) → (tree root dirs d).Linked (.file g) →
      slotAddr d g t = some p → fileBlock d f n ≠ 0 → (slotRec dirs d g t).block ≠ fileBlock d f n) :
    fileByte d' f x = fileByte d f x := by
  unfold fileByte
  by_cases h0 : fileBlock d f (x / 4096) = 0
  · rw [if_pos h0]
    by_cases h1 : fileBlock d' f (x / 4096) = 0
    · rw [if_pos h1]
    · -- the block is new, so it is clear
      rw [if_neg h1]
      rcases h.slot_cases hs hf (dataSlot (x / 4096)) with h2 | h2
      · exact absurd (h2.trans h0) h1
      · exact h2 _ (by unfold fileBlock; omega) (by unfold fileBlock; omega)
  · have h1 : fileBlock d' f (x / 4096) = fileBlock d f (x / 4096) := h.slot_keep hs hf h0
    rw [h1, if_neg h0, if_neg h0]
    cases h with
    | mk hg hP _ _ ha _ hb =>
      exact hs.byte_addBlock (linked_slotRec hg ha) (word_of_slotAddr ha) hb hf (hne _ _ _ _ _ hP hg ha h0) h0 (by omega)

/-- **Adding a block changes no contents** of a regular file. -/
theorem AddStep.fileByte_eq (h : AddStep P root dirs d d') (hs : Sound root dirs d)
    (hf : (tree root dirs d).Linked (.file f)) (ho : opens dirs d f = false) :
    fileByte d' f x = fileByte d f x :=
  h.fileByte_apart hs hf fun _ _ _ _ _ _ hg ha h0 => hs.data_apart hf ho h0 (linked_slotRec hg ha)

theorem Adds.fileByte_eq (h : Adds P root dirs d d') (hv : Valid root dirs d)
    (hf : (tree root dirs d).Linked (.file f)) (ho : opens dirs d f = false) :
    fileByte d' f x = fileByte d f x := by
  refine (h.rule hv (I := fun d₁ => (tree root dirs d₁).Linked (.file f) ∧ opens dirs d₁ f = false ∧
    fileByte d₁ f x = fileByte d f x) ⟨hf, ho, rfl⟩ fun d₁ d₂ hv₁ h1 h2 => ?_).2.2.2
  obtain ⟨hf₁, ho₁, h3⟩ := h1
  refine ⟨h2.linked hv₁.sound hf₁, ?_, (h2.fileByte_eq hv₁.sound hf₁ ho₁).trans h3⟩
  rw [(h2.head hv₁.sound hf₁).opens_eq]
  exact ho₁

/-- Blocks are added to file `f`. -/
def Only (f : ℕ) (k _ : ℕ) (_ : Bool) (_ : ℤ) : Prop := k = f

/-- Adding blocks to a file does not change its contents. -/
theorem Adds.fileByte_own (h : Adds (Only f) root dirs d d') (hv : Valid root dirs d)
    (hf : (tree root dirs d).Linked (.file f)) : fileByte d' f x = fileByte d f x := by
  refine (h.rule hv (I := fun d₁ => (tree root dirs d₁).Linked (.file f) ∧ fileByte d₁ f x = fileByte d f x)
    ⟨hf, rfl⟩ fun d₁ d₂ hv₁ h1 h2 => ?_).2.2
  obtain ⟨hf₁, h3⟩ := h1
  refine ⟨h2.linked hv₁.sound hf₁, (h2.fileByte_apart hv₁.sound hf₁ ?_).trans h3⟩
  intro g m t p n hg _ ha h0
  obtain rfl : g = f := hg
  exact hv₁.sound.own_apart hf₁ ha h0

/-- **A write to a block of a file** changes the bytes at that place. -/
theorem fileByte_data {off : ℕ} (hs : Sound root dirs d) (hf : (tree root dirs d).Linked (.file f))
    (ho : opens dirs d f = false) (h0 : fileBlock d f n ≠ 0) (h1 : off + bs.length ≤ 4096) (x : ℕ) :
    fileByte (d.write (fileBlock d f n * 4096 + off) bs) f x =
      if n * 4096 + off ≤ x ∧ x < n * 4096 + off + bs.length then bs.getD (x - (n * 4096 + off)) 0
      else fileByte d f x := by
  have hsame : Same root dirs d (d.write (fileBlock d f n * 4096 + off) bs) :=
    hs.same_block hf ho h0 (by omega) (by omega)
  have hblk : ∀ k, fileBlock (d.write (fileBlock d f n * 4096 + off) bs) f k = fileBlock d f k :=
    fun k => hsame.slotBlock_eq hf
  unfold fileByte
  rw [hblk]
  by_cases hx : x / 4096 = n
  · rw [hx, if_neg h0, if_neg h0, Bytes.byte_write]
    have hmod : x = n * 4096 + x % 4096 := by omega
    generalize x % 4096 = y at hmod ⊢
    generalize fileBlock d f n = b
    clear hsame hblk hx h0
    subst hmod
    simp only [Nat.add_assoc, Nat.add_le_add_iff_left, Nat.add_lt_add_iff_left, Nat.add_sub_add_left]
  · rw [if_neg (show ¬ (n * 4096 + off ≤ x ∧ x < n * 4096 + off + bs.length) by omega)]
    by_cases h2 : fileBlock d f (x / 4096) = 0
    · rw [if_pos h2, if_pos h2]
    · rw [if_neg h2, if_neg h2]
      -- the other blocks of the file are other blocks of the disk
      have h3 : fileBlock d f (x / 4096) ≠ fileBlock d f n := fun h3 =>
        hx (dataSlot_inj (hs.slot_unique hf hf h0 h3).2)
      refine Bytes.byte_write_off ?_
      omega

/-! ## The loops -/

/-- **The loop of `file_read`** copies bytes of the file, also when it fails. -/
theorem fileReadLoop_slice {k : ℕ} {r : ℤ} (hv : Valid root dirs d)
    (hf : (tree root dirs d).Linked (.file f)) (h0 : 0 ≤ pos)
    (h1 : pos ≤ fin) (h2 : fin < 2 ^ 32) (hk : fin ≤ pos.toNat + k)
    (h : fileReadLoop f fin k pos d = some ((r, bs), d')) :
    bs = (List.range bs.length).map (fun i => fileByte d f (pos.toNat + i)) ∧
      (r < 0 ∨ r = 0 ∧ bs.length = fin - pos.toNat) := by
  induction k generalizing d pos r bs with
  | zero =>
    simp only [fileReadLoop, Option.some.injEq, Prod.mk.injEq] at h
    rw [← h.1.2]
    exact ⟨rfl, Or.inr ⟨h.1.1.symm, by rw [List.length_nil]; omega⟩⟩
  | succ k ih =>
    unfold fileReadLoop at h
    rw [u64_of_nonneg h0 (by omega)] at h
    by_cases hlt : pos.toNat < fin
    · rw [if_pos hlt] at h
      obtain ⟨⟨r₁, d₁⟩, h3, h4⟩ := Option.bind_eq_some_iff.1 h
      obtain ⟨hA, herr, hok⟩ := fileGetBlock_adds (P := Only f) hv.sound hf rfl h3
      rcases r₁ with e | blk
      · simp only [Option.some.injEq, Prod.mk.injEq] at h4
        rw [← h4.1.1, ← h4.1.2]
        exact ⟨rfl, Or.inl (herr e rfl)⟩
      · obtain ⟨-, h5, rfl⟩ := hok blk rfl
        obtain ⟨⟨⟨r₂, bs₂⟩, d₂⟩, h6, h7⟩ := Option.bind_eq_some_iff.1 h4
        simp only [Option.some.injEq, Prod.mk.injEq] at h7
        obtain ⟨⟨rfl, rfl⟩, rfl⟩ := h7
        have hn := place_eq h0 (show pos < 2 ^ 32 by omega)
        have hc := chunk_eq h0 (show pos ≤ fin by omega) (show fin < 2 ^ 32 by omega)
        have hv₁ := hA.valid hv
        have hf₁ := hA.linked hv hf
        generalize hcn : chunk fin pos = c at h6 hc ⊢
        obtain ⟨h8, h9⟩ := ih hv₁ hf₁ (by omega) (by omega) (by omega) h6
        refine ⟨?_, h9.imp_right fun h9 => ⟨h9.1, ?_⟩⟩
        · rw [List.length_append, Bytes.read_length, List.range_add, List.map_append, List.map_map]
          congr 1
          · unfold Bytes.read
            refine List.map_congr_left fun i hi => ?_
            have hi := List.mem_range.1 hi
            have h9 : (pos.toNat + i) / 4096 = pos.toNat / 4096 := by omega
            rw [← hA.fileByte_own (x := pos.toNat + i) hv hf]
            unfold fileByte
            rw [h9, ← hn, if_neg h5, Int.tmod_eq_emod_of_nonneg h0]
            congr 1
            omega
          · rw [h8, List.length_map, List.length_range]
            refine List.map_congr_left fun i _ => ?_
            rw [hA.fileByte_own hv hf, Function.comp_apply]
            congr 1
            omega
        · rw [List.length_append, Bytes.read_length, h9.2]
          omega
    · rw [if_neg hlt] at h
      simp only [Option.some.injEq, Prod.mk.injEq] at h
      rw [← h.1.2]
      exact ⟨rfl, Or.inr ⟨h.1.1.symm, by rw [List.length_nil]; omega⟩⟩

theorem fileReadLoop_bytes {k : ℕ} {r : ℤ} (hv : Valid root dirs d)
    (hf : (tree root dirs d).Linked (.file f)) (h0 : 0 ≤ pos)
    (h1 : pos ≤ fin) (h2 : fin < 2 ^ 32) (hk : fin ≤ pos.toNat + k)
    (h : fileReadLoop f fin k pos d = some ((r, bs), d')) :
    r < 0 ∨ r = 0 ∧ bs = (List.range (fin - pos.toNat)).map fun i => fileByte d f (pos.toNat + i) := by
  obtain ⟨h3, h4⟩ := fileReadLoop_slice hv hf h0 h1 h2 hk h
  refine h4.imp_right fun h4 => ⟨h4.1, ?_⟩
  rw [h4.2] at h3
  exact h3

/-- The number of bytes that the loop of `file_write` puts in place. -/
def copied (f fin : ℕ) : ℕ → ℤ → List Byte → Bytes → ℕ
  | 0, _, _, _ => 0
  | n + 1, pos, buf, d =>
    if u64 pos < fin then
      match fileGetBlock d f (u32 (pos.tdiv 4096)) with
      | some (.ok blk, d) => chunk fin pos + copied f fin n (pos + chunk fin pos) (buf.drop (chunk fin pos))
          (d.write (blk + pos.tmod 4096).toNat (buf.take (chunk fin pos)))
      | _ => 0
    else 0

/-- **The loop of `file_write`** puts bytes in place, also when it fails. -/
theorem fileWriteLoop_copied {k : ℕ} {res : ℤ} (hv : Valid root dirs d)
    (hf : (tree root dirs d).Linked (.file f)) (ho : opens dirs d f = false) (h0 : 0 ≤ pos)
    (h2 : fin < 2 ^ 32) (hk : buf.length ≤ k) (hlen : pos + buf.length = fin)
    (h : fileWriteLoop f fin k pos buf d = some (res, d')) (hm : copied f fin k pos buf d = m) :
    fSize d' f = fSize d f ∧ m ≤ buf.length ∧ (res < 0 ∨ res = 0 ∧ m = buf.length) ∧
      ∀ x, fileByte d' f x = if pos.toNat ≤ x ∧ x < pos.toNat + m then
        buf.getD (x - pos.toNat) 0 else fileByte d f x := by
  induction k generalizing d pos buf m with
  | zero =>
    simp only [fileWriteLoop, Option.some.injEq, Prod.mk.injEq] at h
    obtain ⟨rfl, rfl⟩ := h
    obtain rfl : 0 = m := hm
    refine ⟨rfl, Nat.zero_le _, Or.inr ⟨rfl, by omega⟩, fun x => ?_⟩
    rw [if_neg (by omega)]
  | succ k ih =>
    unfold fileWriteLoop at h
    unfold copied at hm
    rw [u64_of_nonneg h0 (by omega)] at h hm
    by_cases hlt : pos.toNat < fin
    · rw [if_pos hlt] at h hm
      obtain ⟨⟨r₁, d₁⟩, h3, h4⟩ := Option.bind_eq_some_iff.1 h
      rw [h3] at hm
      rcases r₁ with e | blk
      · obtain ⟨hA, herr, -⟩ := fileGetBlock_adds (P := fun _ _ _ _ => True) hv.sound hf trivial h3
        simp only [Option.some.injEq, Prod.mk.injEq] at h4
        obtain rfl : 0 = m := hm
        rw [← h4.1, ← h4.2, (hA.head hv hf).fSize_eq]
        refine ⟨rfl, Nat.zero_le _, Or.inl (herr e rfl), fun x => ?_⟩
        rw [if_neg (by omega)]
        exact hA.fileByte_eq hv hf ho
      · obtain ⟨hA, h5, h9, hM, hhd⟩ := write_turn (P := fun _ _ _ _ => True) buf fin
          hv hf ho h0 trivial h3
        have hn := place_eq h0 (show pos < 2 ^ 32 by omega)
        have hc := chunk_eq h0 (show pos ≤ fin by omega) (show fin < 2 ^ 32 by omega)
        rw [hn] at h5 h9
        have hv₁ := hA.valid hv
        have hf₁ := hA.linked hv hf
        have ho₁ : opens dirs d₁ f = false := by rw [(hA.head hv hf).opens_eq]; exact ho
        dsimp only at h4 hm
        rw [h9] at h4 hm hM hhd
        generalize chunk fin pos = c at h4 hm hc hM hhd
        have hcl : (buf.take c).length = c := by
          rw [List.length_take]
          omega
        generalize hd₂ : d₁.write (fileBlock d₁ f (pos.toNat / 4096) * 4096 + pos.toNat % 4096)
          (buf.take c) = d₂ at h4 hm hM hhd
        have hbyte : ∀ x, fileByte d₂ f x = if pos.toNat ≤ x ∧ x < pos.toNat + c then
            (buf.take c).getD (x - pos.toNat) 0 else fileByte d f x := by
          intro x
          rw [← hd₂, fileByte_data hv₁.sound hf₁ ho₁ h5 (by omega), hA.fileByte_eq hv hf ho, hcl]
          rw [show pos.toNat / 4096 * 4096 + pos.toNat % 4096 = pos.toNat by omega]
        obtain ⟨h10, h11, h12, h13⟩ := ih (hM.valid hv₁) (hM.linked hv₁.sound hf₁)
          (by rw [hhd.opens_eq]; exact ho) (by omega) (by simp; omega) (by simp; omega) h4 rfl
        rw [List.length_drop] at h11 h12
        generalize copied f fin k (pos + c) (buf.drop c) d₂ = l at hm h11 h12 h13
        subst hm
        refine ⟨by rw [h10, hhd.fSize_eq], by omega, h12.imp_right fun h12 => ⟨h12.1, by omega⟩, fun x => ?_⟩
        rw [h13, hbyte]
        by_cases hx : pos.toNat ≤ x ∧ x < pos.toNat + (c + l)
        · rw [if_pos hx]
          by_cases hx' : x < pos.toNat + c
          · rw [if_neg (by omega), if_pos ⟨hx.1, hx'⟩, List.getD_eq_getElem?_getD,
              List.getElem?_take_of_lt (by omega), List.getD_eq_getElem?_getD]
          · rw [if_pos (by omega), List.getD_eq_getElem?_getD, List.getElem?_drop, List.getD_eq_getElem?_getD,
              show c + (x - (pos + c).toNat) = x - pos.toNat by omega]
        · rw [if_neg hx, if_neg (by omega), if_neg (by omega)]
    · rw [if_neg hlt] at h hm
      simp only [Option.some.injEq, Prod.mk.injEq] at h
      obtain ⟨rfl, rfl⟩ := h
      subst hm
      refine ⟨rfl, Nat.zero_le _, Or.inr ⟨rfl, by omega⟩, fun x => ?_⟩
      rw [if_neg (by omega)]

theorem fileWriteLoop_bytes {k : ℕ} {res : ℤ} (hv : Valid root dirs d)
    (hf : (tree root dirs d).Linked (.file f)) (ho : opens dirs d f = false) (h0 : 0 ≤ pos)
    (h2 : fin < 2 ^ 32) (hk : buf.length ≤ k) (hlen : pos + buf.length = fin)
    (h : fileWriteLoop f fin k pos buf d = some (res, d')) :
    fSize d' f = fSize d f ∧ (res < 0 ∨ res = 0 ∧ ∀ x, fileByte d' f x =
      if pos.toNat ≤ x ∧ x < fin then buf.getD (x - pos.toNat) 0 else fileByte d f x) := by
  obtain ⟨h3, -, h4, h5⟩ := fileWriteLoop_copied hv hf ho h0 h2 hk hlen h rfl
  refine ⟨h3, h4.imp_right fun h4 => ⟨h4.1, fun x => ?_⟩⟩
  rw [h5, h4.2, show pos.toNat + buf.length = fin by omega]

end Jos.Fs
