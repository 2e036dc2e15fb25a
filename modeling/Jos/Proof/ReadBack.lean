import Jos.Proof.Write
import Jos.Proof.Others

/-!
# What is written is what is read

A write that succeeds is read back and leaves the rest of the file, and one to a regular file
leaves the other files (`write_reads`). The blocks of the range are there then, so `file_read` needs no
free block for it (`fileReadLoop_present`).

A directory is a file too, and its contents are the `struct File`s in it: the directory that
has an entry for the file shows its new size (`write_reads_counterexample`).
-/

namespace Jos.Fs

open Lib

variable {root : ℕ} {dirs : Bool} {d d' d₁ : Bytes} {s : Slot} {b f g k m n p q x : ℕ}
  {bs buf : List Byte} {pos offset : ℤ} {fin : ℕ} {res : ℤ}

/-! ## Blocks that are there -/

theorem diskaddr_good (hs : Sound root dirs d) (hf : (tree root dirs d).Linked (.file f))
    (h0 : slotBlock d f s ≠ 0) : diskaddr d (slotBlock d f s) = some (slotBlock d f s * 4096) := by
  have h1 := (hs.good (held_slotBlock hf h0)).1.1
  unfold diskaddr
  rw [if_neg (by omega)]

/-- A slot that is in the file, or in an indirect block that is there, is found without allocating. -/
theorem fileBlockWalk_there {alloc : Bool} (hs : Sound root dirs d) (hf : (tree root dirs d).Linked (.file f))
    (hn : n < 10 + 1024) (h : n < 10 ∨ slotBlock d f .fIndirect ≠ 0) :
    ∃ p, slotAddr d f (dataSlot n) = some p ∧ fileBlockWalk d f n alloc = some (.ok p, d) := by
  unfold fileBlockWalk
  rw [if_neg (by omega)]
  by_cases h1 : n < 10
  · rw [if_pos h1]
    exact ⟨_, slotAddr_direct h1, rfl⟩
  · have h2 := h.resolve_left h1
    have h3 : d.load32 (fIndirect f) ≠ 0 := fun h3 => h2 (congrArg BitVec.toNat h3)
    have h4 : diskaddr d (d.load32 (fIndirect f)).toNat = some ((d.load32 (fIndirect f)).toNat * 4096) :=
      diskaddr_good hs hf h2
    refine ⟨_, slotAddr_indirect (by omega) hn h3, ?_⟩
    rw [if_neg h1, if_neg (fun h => h3 h.1)]
    unfold allocAt
    rw [if_pos h3]
    simp only [Option.bind_eq_bind, Option.bind_some, if_true, h4]

/-- **A block that is there** is found, and nothing changes. -/
theorem fileGetBlock_present (hs : Sound root dirs d) (hf : (tree root dirs d).Linked (.file f))
    (h0 : fileBlock d f n ≠ 0) : fileGetBlock d f n = some (.ok (fileBlock d f n * 4096), d) := by
  have hn : n < 10 + 1024 := by
    by_contra h1
    exact h0 (fileBlock_out (by omega))
  have hind : n < 10 ∨ slotBlock d f .fIndirect ≠ 0 := by
    refine or_iff_not_imp_left.2 fun h1 h2 => h0 ?_
    have h3 : d.load32 (fIndirect f) = 0 := BitVec.eq_of_toNat_eq h2
    unfold fileBlock slotBlock dataSlot slotAddr
    rw [if_neg h1]
    simp [h3]
  obtain ⟨p, ha, hw⟩ := @fileBlockWalk_there _ _ _ _ _ true hs hf hn hind
  have hp : (d.load32 p).toNat = fileBlock d f n := (slotBlock_eq ha).symm
  have h1 : d.load32 p ≠ 0 := fun h1 => h0 (by rw [← hp, h1]; rfl)
  unfold fileGetBlock allocAt
  rw [hw]
  simp only [Option.bind_eq_bind, Option.bind_some, if_pos h1, if_true, hp]
  unfold fileBlock
  rw [diskaddr_good hs hf h0]
  rfl

/-- The loop of `file_read` over blocks that are there succeeds, and nothing changes. -/
theorem fileReadLoop_present (hs : Sound root dirs d) (hf : (tree root dirs d).Linked (.file f))
    (h0 : 0 ≤ pos) (h1 : pos ≤ fin) (h2 : fin < 2 ^ 32)
    (hx : ∀ x, pos.toNat ≤ x → x < fin → fileBlock d f (x / 4096) ≠ 0) :
    ∃ bs, fileReadLoop f fin k pos d = some ((0, bs), d) := by
  induction k generalizing pos with
  | zero => exact ⟨_, rfl⟩
  | succ k ih =>
    unfold fileReadLoop
    split
    · rename_i hlt
      rw [u64_of_nonneg h0 (by omega)] at hlt
      have hn := place_eq h0 (show pos < 2 ^ 32 by omega)
      have hc : chunk fin pos ≤ fin - pos.toNat := by
        unfold chunk
        rw [u64_of_nonneg (z := fin - pos) (by omega) (by omega)]
        omega
      rw [hn, fileGetBlock_present hs hf (hx _ le_rfl hlt)]
      obtain ⟨bs, h3⟩ := @ih (pos + chunk fin pos) (by omega) (by omega)
        fun x h4 h5 => hx x (by omega) h5
      simp only [Option.bind_eq_bind, Option.bind_some, h3]
      exact ⟨_, rfl⟩
    · exact ⟨_, rfl⟩

/-! ## The blocks of a write -/

/-- **A write that succeeds** has put a block at every place of its range. -/
theorem fileWriteLoop_blocks (hv : Valid root dirs d)
    (hf : (tree root dirs d).Linked (.file f)) (ho : opens dirs d f = false) (h0 : 0 ≤ pos)
    (h1 : pos ≤ fin) (h2 : fin < 2 ^ 32) (hk : fin ≤ pos.toNat + k)
    (h : fileWriteLoop f fin k pos buf d = some (res, d')) (hr : 0 ≤ res) :
    ∀ x, pos.toNat ≤ x → x < fin → fileBlock d' f (x / 4096) ≠ 0 := by
  induction k generalizing d pos buf with
  | zero => intro x h3 h4; omega
  | succ k ih =>
    unfold fileWriteLoop at h
    split at h
    · rename_i hlt
      rw [u64_of_nonneg h0 (by omega)] at hlt
      obtain ⟨⟨r₁, d₁⟩, h3, h4⟩ := Option.bind_eq_some_iff.1 h
      rcases r₁ with e | blk
      · obtain ⟨-, herr, -⟩ := fileGetBlock_adds (P := Only f) hv.sound hf rfl h3
        simp only [Option.some.injEq, Prod.mk.injEq] at h4
        have := herr e rfl
        omega
      · obtain ⟨hA, h5, h9, hM, hhd⟩ := write_turn (P := Only f) buf fin hv hf ho h0 rfl h3
        have hn := place_eq h0 (show pos < 2 ^ 32 by omega)
        rw [hn] at h5 h9
        have hc := chunk_eq h0 (show pos ≤ fin by omega) (show fin < 2 ^ 32 by omega)
        have hv₁ := hA.valid hv
        have hf₁ := hA.linked hv hf
        have ho₁ : opens dirs d₁ f = false := by rw [(hA.head hv hf).opens_eq]; exact ho
        have hlen : (buf.take (chunk fin pos)).length ≤ chunk fin pos := List.length_take_le _ _
        have hsame : Same root dirs d₁ (d₁.write (blk + pos.tmod 4096).toNat (buf.take (chunk fin pos))) := by
          rw [h9]
          exact hv₁.sound.same_block hf₁ ho₁ h5 (by omega) (by omega)
        have h6 : fileBlock (d₁.write (blk + pos.tmod 4096).toNat (buf.take (chunk fin pos))) f
            (pos.toNat / 4096) ≠ 0 := by
          rw [show fileBlock _ f _ = fileBlock d₁ f _ from hsame.slotBlock_eq hf₁]
          exact h5
        have hv₂ := hM.valid hv₁
        have hf₂ := hM.linked hv₁.sound hf₁
        have ho₂ : opens dirs (d₁.write (blk + pos.tmod 4096).toNat (buf.take (chunk fin pos))) f = false := by
          rw [hhd.opens_eq]
          exact ho
        intro x h7 h8
        by_cases hx : x < pos.toNat + chunk fin pos
        · -- the block of this turn stays to the end
          rw [show x / 4096 = pos.toNat / 4096 by omega]
          refine fileWriteLoop_rule (I := fun d => fileBlock d f (pos.toNat / 4096) ≠ 0) hv₂ hf₂ ho₂
            (by omega) (P := Only f) (fun _ _ => rfl) h6 (fun d d' hv hf h1 h2 => ?_)
            (fun d n q bs hv hf ho h1 h2 h3 h4 => ?_) h4
          · rw [show fileBlock d' f _ = fileBlock d f _ from h2.slot_keep hv.sound hf h1]
            exact h1
          · rw [show fileBlock (d.write q bs) f _ = fileBlock d f _ from
              (hv.sound.same_block hf ho h2 h3 h4).slotBlock_eq hf]
            exact h1
        · exact ih hv₂ hf₂ ho₂ (by omega) (by omega) (by omega) h4 x (by omega) h8
    · rename_i hlt
      rw [u64_of_nonneg h0 (by omega)] at hlt
      intro x h3 h4
      omega

/-! ## Other files -/

/-- The address of the byte of a file at position `x`, if its block is there. -/
def byteAddr (d : Bytes) (f x : ℕ) : ℕ := fileBlock d f (x / 4096) * 4096 + x % 4096

/-- `struct File` of file `f`. -/
def fileStruct (f : ℕ) : Set ℕ := {a | f ≤ a ∧ a < f + 256}

/-- File `g`, a directory or not, has the same blocks, and the same bytes in them outside the
`struct File` of `f`. -/
structure Beside (f g : ℕ) (d d' : Bytes) : Prop where
  size : fSize d' g = fSize d g
  slot : ∀ s, slotBlock d' g s = slotBlock d g s
  byte : ∀ n a, fileBlock d g n ≠ 0 → a / 4096 = fileBlock d g n → a ∉ fileStruct f → d'.byte a = d.byte a

theorem Beside.refl : Beside f g d d := ⟨rfl, fun _ => rfl, fun _ _ _ _ _ => rfl⟩

theorem Beside.trans (h : Beside f g d d₁) (h' : Beside f g d₁ d') : Beside f g d d' := by
  refine ⟨h'.size.trans h.size, fun s => (h'.slot s).trans (h.slot s), fun n a h0 ha hf => ?_⟩
  have h1 : fileBlock d₁ g n = fileBlock d g n := h.slot _
  exact (h'.byte n a (by rw [h1]; exact h0) (by rw [h1]; exact ha) hf).trans (h.byte n a h0 ha hf)

theorem Beside.fileByte_eq (h : Beside f g d d') (ha : byteAddr d g x ∉ fileStruct f) :
    fileByte d' g x = fileByte d g x := by
  have h1 : fileBlock d' g (x / 4096) = fileBlock d g (x / 4096) := h.slot _
  unfold fileByte
  rw [h1]
  split
  · rfl
  · rename_i h0
    refine h.byte _ _ h0 (by omega) ?_
    exact ha

section Step

variable (hs : Sound root dirs d) (hf : (tree root dirs d).Linked (.file f))
  (hg : (tree root dirs d).Linked (.file g)) (hne : g ≠ f)
include hs hf hg hne

theorem beside_size {z : ℤ} : Beside f g d (setFSize d f z) := by
  have h1 := keeps_size (z := z) hs hf hg hne
  refine ⟨h1.head.fSize_eq, h1.slot, fun n a _ _ ha => Bytes.byte_store32_off ?_⟩
  simp only [fileStruct, Set.mem_ofPred_eq] at ha
  omega

theorem beside_data (ho : opens dirs d f = false) (h0 : fileBlock d f n ≠ 0) (h1 : fileBlock d f n * 4096 ≤ q)
    (h2 : q + bs.length ≤ (fileBlock d f n + 1) * 4096) : Beside f g d (d.write q bs) := by
  have h3 := keeps_data hs hf hg hne ho h0 h1 h2
  refine ⟨h3.head.fSize_eq, h3.slot, fun m a h4 ha _ => Bytes.byte_write_off ?_⟩
  have h5 : fileBlock d g m ≠ fileBlock d f n := fun h5 => hne (hs.slot_unique hf hg h0 h5).1
  omega

/-- The slots of a file lie in its `struct File` or in its indirect block. -/
theorem beside_add (h : AddStep (Only f) root dirs d d') : Beside f g d d' := by
  have h1 := h.keeps (fun _ _ _ _ h => h) hs hg hne
  refine ⟨h1.head.fSize_eq, h1.slot, fun n a h0 ha hout => ?_⟩
  cases h with
  | @mk e k p b s he hP _ _ hp _ hb =>
    obtain rfl : e = f := hP
    have hh := hs.good (held_slotBlock hg h0)
    have hr := linked_slotRec he hp
    have hw : (slotRec dirs d e s).word s = some p := word_of_slotAddr hp
    by_cases hblk : (slotRec dirs d e s).block = fileBlock d g n
    · -- then the slot is in `struct File`
      have hin : e ≤ p ∧ p + 4 ≤ e + 256 := by
        cases s with
        | direct i => exact word_fits hw
        | fIndirect => exact word_fits hw
        | indirect j =>
          exfalso
          have h2 : slotBlock d e .fIndirect ≠ 0 := by
            intro h2
            have h3 : d.load32 (fIndirect e) = 0 := BitVec.eq_of_toNat_eq h2
            simp [slotAddr, h3] at hp
          have h3 : fileBlock d g n = slotBlock d e .fIndirect := by
            rw [← hblk]
            show (d.load32 (fIndirect e)).toNat * 4096 / 4096 = (d.load32 (fIndirect e)).toNat
            omega
          exact dataSlot_ne (hs.slot_unique he hg h2 h3).2
      have h3 : fileBlock d g n ≠ b := by
        intro h3
        have h4 := hh.1.2
        rw [show slotBlock d g (dataSlot n) = b from h3, hb] at h4
        cases h4
      have h7 : bitmapWord (b / 32) / 4096 ≠ fileBlock d g n := by
        intro h4
        have h8 := reserved_bitmapWord (blockIsFree_lt hb)
        rw [h4] at h8
        exact hh.2.1 h8
      simp only [fileStruct, Set.mem_ofPred_eq] at hout
      unfold addBlock
      rw [Bytes.byte_zero_off (by omega), Bytes.byte_store32_off (by omega), byte_markBlock (by omega)]
    · exact hs.byte_addBlock hr hw hb hg hblk h0 ha

end Step

/-- **Writing to a regular file** leaves every other file, but for the `struct File` in it. -/
theorem fileWrite_beside (hv : Valid root dirs d) (hf : (tree root dirs d).Linked (.file f))
    (ho : opens dirs d f = false) (hsz : 0 ≤ fSize d f) (h0 : 0 ≤ offset)
    (h1 : offset + buf.length < 2 ^ 31) (hg : (tree root dirs d).Linked (.file g)) (hne : g ≠ f)
    (h : fileWrite d f buf offset = some (res, d')) :
    (tree root dirs d').Linked (.file g) ∧ Beside f g d d' := by
  obtain ⟨d₁, h2, h3⟩ := Option.bind_eq_some_iff.1 h
  obtain ⟨⟨r₁, d₂⟩, h4, h5⟩ := Option.bind_eq_some_iff.1 h3
  simp only [Option.some.injEq, Prod.mk.injEq] at h5
  rw [← h5.2]
  obtain ⟨hM, -⟩ := growTo (P := Only f) hf hsz ho h0 h1 h2
  have hb : Beside f g d d₁ := by
    unfold extendTo fileSetSize at h2
    split at h2
    · split at h2
      · rename_i h6 h7
        rw [u64_of_nonneg hsz (by have := fSize_lt d f; omega), u64_of_nonneg (by omega) (by omega)] at h6
        rw [u64_of_nonneg (by omega) (by omega)] at h7
        unfold i32 at h7
        rw [BitVec.toInt_ofInt, Int.bmod_eq_of_le (by omega) (by omega)] at h7
        omega
      · obtain rfl := Option.some.inj h2
        exact beside_size hv.sound hf hg hne
    · obtain rfl := Option.some.inj h2
      exact .refl
  obtain ⟨hv₁, hf₁, ho₁⟩ := extendTo_valid hv hf ho h2
  have hg₁ : (tree root dirs d₁).Linked (.file g) := hM.linked hv hg
  refine fileWriteLoop_rule (I := fun d₂ => (tree root dirs d₂).Linked (.file g) ∧ Beside f g d d₂)
    hv₁ hf₁ ho₁ h0 (P := Only f) (fun _ _ => rfl) ⟨hg₁, hb⟩ (fun d₃ d₄ hv hf h1 h2 => ?_)
    (fun d₃ n q bs hv hf ho h1 h2 h3 h4 => ?_) h4
  · exact ⟨h2.linked hv.sound h1.1, h1.2.trans (beside_add hv.sound hf h1.1 hne h2)⟩
  · exact ⟨(hv.sound.same_block hf ho h2 h3 h4).linked.2 h1.1,
      h1.2.trans (beside_data hv.sound hf h1.1 hne ho h2 h3 h4)⟩

/-! ## One write -/

/-- **What a write is to do to the file**: `f_size` grows to its end, `file_read` gives the
bytes back, and the other bytes of the file are as they were. -/
structure ReadsBack (d d' : Bytes) (f : ℕ) (buf : List Byte) (offset : ℤ) : Prop where
  size : fSize d' f = max (fSize d f) (offset + buf.length)
  back : ∃ d₁, fileRead d' f buf.length offset = some (((buf.length : ℤ), buf), d₁)
  rest : ∀ x : ℕ, x < fSize d f → ¬ (offset ≤ x ∧ x < offset + buf.length) →
    fileByte d' f x = fileByte d f x

/-- Every other file reads as before, except for bytes at the addresses in `E`. -/
def OthersRead (E : Set ℕ) (d d' : Bytes) (f : ℕ) : Prop :=
  ∀ g, (tree sRoot true d).Linked (.file g) → g ≠ f →
    (tree sRoot true d').Linked (.file g) ∧ fSize d' g = fSize d g ∧
      ∀ x : ℕ, x < fSize d g → byteAddr d g x ∉ E → fileByte d' g x = fileByte d g x

/-- Setting its size leaves the bytes of a file. -/
theorem fileByte_setFSize (hs : Sound root dirs d) (hf : (tree root dirs d).Linked (.file f))
    (ho : opens dirs d f = false) {z : ℤ} : fileByte (setFSize d f z) f x = fileByte d f x := by
  have hsame : Same root dirs d (setFSize d f z) := hs.same_size hf
  have h1 : fileBlock (setFSize d f z) f (x / 4096) = fileBlock d f (x / 4096) := hsame.slotBlock_eq hf
  unfold fileByte
  rw [h1]
  split
  · rfl
  · rename_i h0
    have h2 := hs.data_apart hf ho h0 hf
    have h3 := hs.fits_block hf
    simp only [Rec.base, Rec.size] at h3
    exact Bytes.byte_store32_off (by omega)

/-- The part of `file_write` before its loop, for a write inside the file sizes. -/
theorem extendTo_exact (hs : Sound root dirs d) (hf : (tree root dirs d).Linked (.file f))
    (ho : opens dirs d f = false) (hsz : 0 ≤ fSize d f) (h0 : 0 ≤ offset)
    (h1 : offset + buf.length < 2 ^ 31) (h : extendTo d f (u64 (offset + buf.length)) = some d₁) :
    fSize d₁ f = max (fSize d f) (offset + buf.length) ∧ fType d₁ f = fType d f ∧
      ∀ x, fileByte d₁ f x = fileByte d f x := by
  have hlt := fSize_lt d f
  have hu : u64 (offset + buf.length) = (offset + buf.length).toNat := u64_of_nonneg (by omega) (by omega)
  unfold extendTo fileSetSize at h
  rw [hu, u64_of_nonneg hsz (by omega)] at h
  have hi : i32 (((offset + buf.length).toNat : ℕ) : ℤ) = offset + buf.length := by
    unfold i32
    rw [BitVec.toInt_ofInt, Int.bmod_eq_of_le (by omega) (by omega)]
    omega
  rw [hi] at h
  split at h
  · rw [if_neg (by omega)] at h
    obtain rfl := Option.some.inj h
    refine ⟨?_, Bytes.load32_store32_off (by omega), fun x => fileByte_setFSize hs hf ho⟩
    rw [fSize_setFSize (by omega) h1]
    omega
  · obtain rfl := Option.some.inj h
    exact ⟨by omega, rfl, fun _ => rfl⟩

/-- `file_read` of a range whose blocks are there. -/
theorem fileRead_present (hv : Valid root dirs d) (hf : (tree root dirs d).Linked (.file f))
    (h0 : 0 ≤ offset) (h1 : offset + n ≤ fSize d f)
    (hx : ∀ x : ℕ, offset ≤ x → x < offset + n → fileBlock d f (x / 4096) ≠ 0) :
    ∃ d₁, fileRead d f n offset =
      some (((n : ℤ), (List.range n).map fun i => fileByte d f (offset.toNat + i)), d₁) := by
  have hlt := fSize_lt d f
  unfold fileRead
  by_cases hge : offset ≥ fSize d f
  · obtain rfl : n = 0 := by omega
    rw [if_pos hge]
    exact ⟨_, rfl⟩
  · rw [if_neg hge]
    have hu : u64 (fSize d f - offset) = (fSize d f).toNat - offset.toNat := by
      rw [u64_of_nonneg (by omega) (by omega)]
      omega
    have hn : min n (u64 (fSize d f - offset)) = n := by rw [hu]; omega
    have hfin : u64 (offset + n) = offset.toNat + n := by
      rw [u64_of_nonneg (by omega) (by omega)]
      omega
    dsimp only
    rw [hn, hfin]
    obtain ⟨bs, h2⟩ : ∃ bs, fileReadLoop f (offset.toNat + n) n offset d = some ((0, bs), d) :=
      fileReadLoop_present hv.sound hf h0 (by omega) (by omega) fun x h3 h4 => hx x (by omega) (by omega)
    rcases fileReadLoop_bytes hv hf h0 (by omega) (by omega) le_rfl h2 with h3 | ⟨-, h3⟩
    · omega
    · rw [h2]
      simp only [Option.bind_eq_bind, Option.bind_some, lt_irrefl, if_false]
      rw [h3, Nat.add_sub_cancel_left]
      exact ⟨_, rfl⟩

theorem fileWrite_readsBack (hv : Valid f false d) (hsz : 0 ≤ fSize d f) (h0 : 0 ≤ offset)
    (h1 : offset + buf.length ≤ maxFileSize) (h : fileWrite d f buf offset = some (res, d'))
    (hr : 0 ≤ res) : res = buf.length ∧ ReadsBack d d' f buf offset := by
  have hmax : maxFileSize < 2 ^ 31 := by decide
  obtain ⟨d₁, h2, h3⟩ := Option.bind_eq_some_iff.1 h
  obtain ⟨⟨r₁, d₂⟩, h4, h5⟩ := Option.bind_eq_some_iff.1 h3
  simp only [Option.some.injEq, Prod.mk.injEq] at h5
  obtain ⟨h5, rfl⟩ := h5
  obtain ⟨hv₁, hf₁, ho₁⟩ := extendTo_valid hv .refl opens_alone h2
  obtain ⟨h6, -, h7⟩ := extendTo_exact hv.sound .refl opens_alone hsz h0 (by omega) h2
  have hfin : u64 (offset + buf.length) = offset.toNat + buf.length := by
    rw [u64_of_nonneg (by omega) (by omega)]
    omega
  rw [hfin] at h4
  have hr₁ : ¬ r₁ < 0 := by
    intro h8
    rw [if_pos h8] at h5
    omega
  rw [if_neg hr₁] at h5
  obtain ⟨h8, h9⟩ := fileWriteLoop_bytes hv₁ hf₁ ho₁ h0 (by omega) le_rfl (by omega) h4
  obtain ⟨-, h10⟩ := h9.resolve_left hr₁
  have hblk := fileWriteLoop_blocks hv₁ hf₁ ho₁ h0 (by omega) (by omega) le_rfl h4 (by omega)
  have hM := fileWriteLoop_moves (P := Only f) hv₁ hf₁ ho₁ h0 (fun _ _ => rfl) h4
  refine ⟨h5.symm, by rw [h8, h6], ?_, fun x hx hout => ?_⟩
  · obtain ⟨d₃, h11⟩ := fileRead_present (n := buf.length) (hM.valid hv₁) (hM.linked hv₁ hf₁) h0
      (by rw [h8, h6]; omega) fun x h12 h13 => hblk x (by omega) (by omega)
    refine ⟨d₃, ?_⟩
    rw [h11]
    have h12 : ((List.range buf.length).map fun i => fileByte d₂ f (offset.toNat + i)) = buf := by
      refine List.ext_getElem (by simp) fun i h13 h14 => ?_
      rw [List.getElem_map, List.getElem_range, h10, if_pos (by omega), Nat.add_sub_cancel_left,
        List.getD_eq_getElem _ _ h14]
    rw [h12]
  · rw [h10, if_neg (by omega), h7]

/-- **What is written is what is read**, for every file in a sound layout. A write to a regular
file leaves all others, but for its own `struct File` in a directory. -/
theorem write_reads (hv : Valid sRoot true d) (hf : (tree sRoot true d).Linked (.file f))
    (hsz : 0 ≤ fSize d f) (h0 : 0 ≤ offset) (h1 : offset + buf.length ≤ maxFileSize)
    (h : fileWrite d f buf offset = some (res, d')) (hr : 0 ≤ res) :
    res = buf.length ∧ ReadsBack d d' f buf offset ∧
      (fType d f ≠ ftypeDir → OthersRead (fileStruct f) d d' f) := by
  have hmax : maxFileSize < 2 ^ 31 := by decide
  obtain ⟨h2, h3⟩ := fileWrite_readsBack (hv.sound.file hf) hsz h0 h1 h hr
  refine ⟨h2, h3, fun ht g hg hne => ?_⟩
  obtain ⟨hg', hb⟩ := fileWrite_beside hv hf (opens_regular ht) hsz h0 (by omega) hg hne h
  exact ⟨hg', hb.size, fun x _ ha => hb.fileByte_eq ha⟩

/-- The file `/a` of the image after its creation. -/
theorem create_a : ∃ d, exec binImage (.create ⟨[0x61], by decide⟩) = some d ∧
    Valid sRoot true d ∧ (tree sRoot true d).Linked (.file (3 * 4096 + 256 * 1)) := by
  have hrun : ((exec binImage (.create ⟨[0x61], by decide⟩)).any fun d => hasEntry d 1) = true := by
    decide +kernel
  obtain ⟨d, h1, h2⟩ := (Option.any_eq_true _ _).1 hrun
  exact ⟨d, h1, exec_valid (c := .create ⟨[0x61], by decide⟩) binImage_consistent.valid trivial trivial h1,
    reachable_linked (hasEntry_reachable h2 (by omega))⟩

/-- A write of two bytes to `/a`. -/
theorem write_reads_create : ∃ d d', exec binImage (.create ⟨[0x61], by decide⟩) = some d ∧
    fileWrite d (3 * 4096 + 256 * 1) [0x68, 0x69] 0 = some (2, d') ∧
      ReadsBack d d' (3 * 4096 + 256 * 1) [0x68, 0x69] 0 ∧
        OthersRead (fileStruct (3 * 4096 + 256 * 1)) d d' (3 * 4096 + 256 * 1) := by
  have hrun : ((exec binImage (.create ⟨[0x61], by decide⟩)).all fun d =>
      decide (fType d (3 * 4096 + 256 * 1) ≠ ftypeDir ∧ fSize d (3 * 4096 + 256 * 1) = 0) &&
        (fileWrite d (3 * 4096 + 256 * 1) [0x68, 0x69] 0).any fun r => decide (r.1 = 2)) = true := by
    decide +kernel
  obtain ⟨d, h1, hv, hf⟩ := create_a
  rw [h1] at hrun
  simp only [Option.all_some, Bool.and_eq_true, decide_eq_true_eq, Option.any_eq_true] at hrun
  obtain ⟨⟨ht, hsz⟩, ⟨r, d'⟩, h2, rfl⟩ := hrun
  obtain ⟨-, h3, h4⟩ := write_reads hv hf hsz.ge le_rfl (by decide) h2 (by decide)
  exact ⟨d, d', h1, h2, h3, h4 ht⟩

/-- **This fails** for the root directory, whose contents show the size of `/a`. -/
theorem write_reads_counterexample : ¬ ∀ d f buf offset res d', Valid sRoot true d →
    (tree sRoot true d).Linked (.file f) → 0 ≤ offset → offset + buf.length ≤ maxFileSize →
    fileWrite d f buf offset = some (res, d') → 0 ≤ res →
      res = buf.length ∧ ReadsBack d d' f buf offset ∧ OthersRead ∅ d d' f := by
  intro h
  have hrun : ((exec binImage (.create ⟨[0x61], by decide⟩)).all fun d => decide (384 < fSize d sRoot) &&
      (fileWrite d (3 * 4096 + 256 * 1) [0x68, 0x69] 0).any fun r =>
        decide (r.1 = 2 ∧ fileByte r.2 sRoot 384 ≠ fileByte d sRoot 384)) = true := by
    decide +kernel
  obtain ⟨d, h1, hv, hf⟩ := create_a
  rw [h1] at hrun
  simp only [Option.all_some, Bool.and_eq_true, decide_eq_true_eq, Option.any_eq_true] at hrun
  obtain ⟨hsz, ⟨r, d'⟩, h2, rfl, h3⟩ := hrun
  have h4 := (h d _ _ 0 2 d' hv hf le_rfl (by decide) h2 (by decide)).2.2
  exact h3 ((h4 sRoot .refl (by decide)).2.2 384 hsz (Set.notMem_empty _))

end Jos.Fs
