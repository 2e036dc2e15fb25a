import Jos.Proof.Read

/-!
# Writing a file through a page

A request holds the bytes to write, and is one page. `fileWrite_bytes` gives what one call of
`file_write` does to the file, a directory or not, and `writeFd_step` what a client gets for a
write of at most 4080 bytes. `write_intact` says for which positions and lengths every write
reaches the file intact.

`devfile_write` lets 4084 bytes pass, but the buffer starts at byte 16 of the page, after a
file id and an aligned `size_t`. What does not fit is not sent, and the server takes the bytes
after the page (`write_intact_counterexample`).
-/

namespace Jos.Fs

open Lib

variable {root : ℕ} {dirs : Bool} {d d' d₁ : Bytes} {σ σ' : Server} {page fsipcbuf : Bytes}
  {r c : Rec} {s : Slot} {i f g n k : ℕ} {res pos : ℤ} {buf : List Byte} {fin : ℕ}

/-! ## One file on its own -/

/-- The records found from a file whose contents do not count. -/
theorem linked_alone (h : (tree f false d).Linked r) :
    r = .file f ∨ r = .table (d.load32 (fIndirect f)).toNat false := by
  induction h with
  | refl => exact Or.inl rfl
  | @kid r s b c _ hv hk ih =>
    rcases ih with rfl | rfl
    · cases s with
      | direct i => exact absurd hk (Set.notMem_empty _)
      | indirect j => exact absurd hk (Set.notMem_empty _)
      | fIndirect =>
        obtain ⟨p, hp, h1, -⟩ := val_eq_some.1 hv
        rw [← Option.some.inj hp] at h1
        rw [h1]
        exact Or.inr hk
    · exact absurd hk (Set.notMem_empty _)

/-- **A file of a sound layout** is laid out soundly on its own. -/
theorem Sound.file (hs : Sound root dirs d) (hf : (tree root dirs d).Linked (.file f)) :
    Valid f false d := by
  have hslot : ∀ {r s b}, (tree f false d).Held r s b →
      r = slotRec false d f s ∧ slotBlock d f s = b ∧ b ≠ 0 := by
    intro r s b h
    obtain ⟨g, hg, h1, h2, h3⟩ := slot_of_held h
    rcases linked_alone hg with h4 | h4
    · rw [Rec.file.inj h4] at h1 h2
      exact ⟨h1, h2, h3⟩
    · cases h4
  have hu := hs.block_used hf
  have hfit := hs.fits_block hf
  have hblk : (Rec.file f).block = f / 4096 := rfl
  rw [hblk] at hu hfit
  simp only [Rec.base, Rec.size] at hu hfit
  refine ⟨⟨?_, ?_, hu.2.2, by omega, hu.1, hu.2.1, hs.reserved⟩, fun _ h => by cases h⟩
  · intro r s r' s' b h h'
    obtain ⟨rfl, h1, h2⟩ := hslot h
    obtain ⟨rfl, h3, -⟩ := hslot h'
    obtain ⟨-, rfl⟩ := hs.slot_unique hf hf (by rw [h3]; exact h2) (h1.trans h3.symm)
    exact ⟨rfl, rfl⟩
  · intro r s b h
    obtain ⟨-, rfl, h2⟩ := hslot h
    have h3 := held_slotBlock hf h2
    obtain ⟨h4, h5, -⟩ := hs.good h3
    refine ⟨h4, h5, fun he => ?_⟩
    rcases linked_block hf with h6 | ⟨q, t, h6, hk⟩
    · rw [Rec.file.inj h6] at he
      refine (hs.good h3).2.2 ?_
      rw [Rec.file.inj h6]
      exact he
    · obtain ⟨p, ha⟩ := slotAddr_of_slotBlock h2
      rw [hblk, ← he] at h6 hk
      exact Owners.not_below hs.alone hs.apart h6 hk (from_slotRec ha) h3.2

theorem opens_alone : opens false d f = false := rfl

/-! ## Where a write fails -/

section Loop

variable (hv : Valid root dirs d) (hf : (tree root dirs d).Linked (.file f))
  (ho : opens dirs d f = false) (h0 : 0 ≤ pos)
include hv hf ho h0

/-- A write that ends past the last place of a file fails. -/
theorem fileWriteLoop_past (h1 : pos.toNat < fin) (h2 : 1034 * 4096 < fin) (h3 : fin < 2 ^ 32)
    (hk : fin ≤ pos.toNat + k) (h : fileWriteLoop f fin k pos buf d = some (res, d')) : res < 0 := by
  induction k generalizing d pos buf with
  | zero => omega
  | succ k ih =>
    unfold fileWriteLoop at h
    rw [u64_of_nonneg h0 (by omega), if_pos h1] at h
    obtain ⟨⟨r₁, d₁⟩, h4, h5⟩ := Option.bind_eq_some_iff.1 h
    rcases r₁ with e | blk
    · obtain ⟨-, herr, -⟩ := fileGetBlock_adds (P := Anywhere) hv.sound hf trivial h4
      simp only [Option.some.injEq, Prod.mk.injEq] at h5
      rw [← h5.1]
      exact herr e rfl
    · obtain ⟨-, -, hok⟩ := fileGetBlock_adds (P := Anywhere) hv.sound hf trivial h4
      obtain ⟨h6, -, -⟩ := hok blk rfl
      obtain ⟨hA, -, -, hM, hhd⟩ := write_turn (P := Anywhere) buf fin
        hv hf ho h0 trivial h4
      have hc := chunk_eq h0 (show pos ≤ fin by omega) (show fin < 2 ^ 32 by omega)
      rw [Int.tdiv_eq_ediv_of_nonneg h0, u32_of_nonneg (by omega) (by omega)] at h6
      have hv₁ := hA.valid hv
      exact ih (hM.valid hv₁) (hM.linked hv₁.sound (hA.linked hv hf)) (by rw [hhd.opens_eq]; exact ho)
        (by omega) (by omega) (by omega) h5

/-- A write to the places of a file succeeds if the disk has two free blocks for each. -/
theorem fileWriteLoop_room (fin k : ℕ) (buf : List Byte) (h1 : fin ≤ 1034 * 4096)
    (hp : pos < 2 ^ 32) (hk : fin ≤ pos.toNat + k)
    (hr : pos.toNat < fin → 2 * ((fin + 4095) / 4096 - pos.toNat / 4096) ≤ room d) :
    ∃ d', fileWriteLoop f fin k pos buf d = some (0, d') := by
  induction k generalizing d pos buf with
  | zero => exact ⟨_, rfl⟩
  | succ k ih =>
    unfold fileWriteLoop
    rw [u64_of_nonneg h0 (by omega)]
    by_cases hlt : pos.toNat < fin
    · rw [if_pos hlt]
      have hn := place_eq h0 (show pos < 2 ^ 32 by omega)
      obtain ⟨r₁, d₁, h4, h5, herr⟩ := hv.sound.fileGetBlock_total hf (u32 (pos.tdiv 4096))
      rw [h4]
      rcases r₁ with e | blk
      · have := herr e rfl
        have := hr hlt
        omega
      · obtain ⟨hA, h6, h9, hM, hhd⟩ := write_turn (P := Anywhere) buf fin
          hv hf ho h0 trivial h4
        have hc := chunk_eq h0 (show pos ≤ fin by omega) (show fin < 2 ^ 32 by omega)
        have hv₁ := hA.valid hv
        have hf₁ := hA.linked hv hf
        have hlen : (buf.take (chunk fin pos)).length ≤ chunk fin pos := List.length_take_le _ _
        have hsame : Same root dirs d₁ (d₁.write (blk + pos.tmod 4096).toNat (buf.take (chunk fin pos))) := by
          rw [h9]
          refine hv₁.sound.same_block hf₁ ?_ h6 (by omega) (by omega)
          rw [(hA.head hv hf).opens_eq]
          exact ho
        refine ih (hM.valid hv₁) (hM.linked hv₁.sound hf₁) (by rw [hhd.opens_eq]; exact ho)
          (by omega) _ (by omega) (by omega) fun hlt' => ?_
        have := hr hlt
        rw [hsame.room_eq]
        omega
    · rw [if_neg hlt]
      exact ⟨_, rfl⟩

end Loop

/-! ## One write -/

/-- **A write is intact**: the call does not fail an assertion, and it returns an error, or puts
the first `r` bytes at the position and moves on. -/
def Intact (fsipcbuf : Bytes) (i f : ℕ) (buf : List Byte) (σ : Server) : Prop :=
  ∃ r σ', writeFd fsipcbuf i buf σ = some (r, σ') ∧
    (r < 0 ∨ 0 ≤ r ∧ r ≤ buf.length ∧ filePos σ' i = filePos σ i + r ∧
      (r = 0 ∨ 0 ≤ filePos σ i ∧
        ((contents σ'.disk f).drop (filePos σ i).toNat).take r.toNat = buf.take r.toNat))

/-- **What `file_write` does**, at a position in the file: it fails, or it puts the bytes in
place. It fails past the last place of a file. -/
theorem fileWrite_bytes (hv : Valid f false d) (hsz : 0 ≤ fSize d f) (h0 : 0 ≤ pos) (h1 : pos < 2 ^ 31)
    (hl : buf.length ≤ 4096) (h : fileWrite d f buf pos = some (res, d')) :
    res < 0 ∨ res = buf.length ∧
      (buf = [] ∨ pos + buf.length ≤ 1034 * 4096 ∧
        ((contents d' f).drop pos.toNat).take buf.length = buf) := by
  obtain ⟨d₁, h2, h3⟩ := Option.bind_eq_some_iff.1 h
  obtain ⟨⟨r₁, d₂⟩, h4, h5⟩ := Option.bind_eq_some_iff.1 h3
  simp only [Option.some.injEq, Prod.mk.injEq] at h5
  obtain ⟨rfl, rfl⟩ := h5
  by_cases hr : r₁ < 0
  · rw [if_pos hr]
    exact Or.inl hr
  rw [if_neg hr]
  refine Or.inr ⟨rfl, ?_⟩
  by_cases hnil : buf = []
  · exact Or.inl hnil
  have hpos := List.length_pos_iff.2 hnil
  have hu : u64 (pos + buf.length) = pos.toNat + buf.length := by
    rw [u64_of_nonneg (by omega) (by omega)]
    omega
  obtain ⟨hv₁, hf₁, ho₁⟩ := extendTo_valid hv .refl rfl h2
  rw [hu] at h4
  have hle : pos + buf.length ≤ 1034 * 4096 := by
    by_contra hgt
    exact hr (fileWriteLoop_past hv₁ hf₁ ho₁ h0 (by omega) (by omega) (by omega) (by omega) h4)
  refine Or.inr ⟨hle, ?_⟩
  obtain ⟨-, -, -, h6⟩ := growTo (P := Anywhere) .refl hsz opens_alone h0 (by omega) h2
  rw [hu] at h6
  obtain ⟨h7, h8⟩ := fileWriteLoop_bytes hv₁ hf₁ ho₁ h0 (by omega) le_rfl (by omega) h4
  obtain ⟨-, h9⟩ := h8.resolve_left hr
  refine List.ext_getElem? fun j => ?_
  rw [List.getElem?_take, List.getElem?_drop, contents_getElem?, h7]
  by_cases hj : j < buf.length
  · rw [if_pos hj, if_pos (by omega), h9, if_pos (by omega), Nat.add_sub_cancel_left,
      List.getD_eq_getElem _ _ hj, List.getElem?_eq_getElem hj]
  · rw [if_neg hj, List.getElem?_eq_none (by omega)]

/-! ## The request page -/

/-- The page that `devfile_write` sends, for the file with this id. -/
def writePage (fsipcbuf : Bytes) (id : BitVec 32) (buf : List Byte) : Bytes :=
  ((fsipcbuf.store32 0 id).store64 8 (BitVec.ofNat 64 buf.length)).write 16 buf

theorem writePage_fields (fsipcbuf : Bytes) (id : BitVec 32) (hl : buf.length ≤ 4096) :
    (writePage fsipcbuf id buf).load32 0 = id ∧ reqN (writePage fsipcbuf id buf) = buf.length := by
  obtain ⟨h1, h2⟩ := reqPage_fields fsipcbuf id (n := buf.length) (by omega)
  unfold writePage
  constructor
  · rw [Bytes.load32_write_off (by omega), h1]
  · unfold reqN at *
    rw [Bytes.load64_write_off (by omega), h2]
    omega

/-- A buffer that fits is what the server finds in the page. -/
theorem reqBuf_writePage {id : BitVec 32} (hl : buf.length ≤ 4080) :
    reqBuf (writePage fsipcbuf id buf) d buf.length = buf := by
  refine List.ext_getElem? fun j => ?_
  unfold reqBuf
  rw [List.getElem?_map]
  by_cases hj : j < buf.length
  · rw [List.getElem?_range hj, Option.map_some, if_pos (by omega), List.getElem?_eq_getElem hj]
    exact congrArg some (Bytes.byte_write_in hj)
  · rw [List.getElem?_eq_none (by simpa using hj), List.getElem?_eq_none (by omega)]
    rfl

/-- A write of a client that gets to the server. -/
theorem writeFd_eq (h : IsOpen σ i f) (hm : (σ.opentab i).fd.omode &&& oAccmode ≠ oRdonly)
    (hl : buf.length ≤ 4084) (hw : fileWrite σ.disk f
      (reqBuf (writePage fsipcbuf (σ.opentab i).fd.id buf) σ.disk buf.length) (filePos σ i) = some (res, d))
    (hle : res ≤ buf.length) :
    writeFd fsipcbuf i buf σ = some (res, ⟨d, if res < 0 then σ.opentab else advance σ.opentab i res⟩) := by
  obtain ⟨h1, h2⟩ := writePage_fields fsipcbuf (σ.opentab i).fd.id
    (show buf.length ≤ 4096 by omega)
  unfold filePos at hw
  unfold writeFd devfileWrite
  rw [if_neg hm]
  dsimp only
  rw [if_pos (by omega)]
  have h3 : serveWrite (writePage fsipcbuf (σ.opentab i).fd.id buf) σ =
      some (res, ⟨d, if res < 0 then σ.opentab else advance σ.opentab i res⟩) := by
    unfold serveWrite
    rw [h1, h.lookup]
    dsimp only
    rw [h.file, h2]
    dsimp only [Option.bind_eq_bind, Option.bind_some]
    rw [hw]
    dsimp only [Option.bind_some]
    split
    · rfl
    · rfl
  unfold writePage at h3
  dsimp only [Option.bind_eq_bind]
  rw [h3, Option.bind_some]
  exact if_pos (Or.inr hle)

/-- A write before the file that does not fail is empty, or ends in the file. -/
theorem fileWrite_before (h0 : pos < 0) (h1 : -2 ^ 31 ≤ pos) (hok : WriteOk pos buf.length)
    (hl : buf.length < 2 ^ 32) (h : fileWrite d f buf pos = some (res, d')) :
    res < 0 ∨ 0 ≤ pos + buf.length ∨ buf.length = 0 := by
  obtain ⟨d₁, -, h3⟩ := Option.bind_eq_some_iff.1 h
  obtain ⟨⟨r₁, d₂⟩, h4, h5⟩ := Option.bind_eq_some_iff.1 h3
  simp only [Option.some.injEq, Prod.mk.injEq] at h5
  obtain ⟨r, h6, h7⟩ := fileWriteLoop_skip (f := f) (d := d₁) _ h0 h1 hok hl
  rw [h6] at h4
  simp only [Option.some.injEq, Prod.mk.injEq] at h4
  rw [← h5.1, ← h4.1]
  rcases h7 with h7 | h7
  · rw [if_pos h7.1]
    exact Or.inl h7.1
  · exact Or.inr h7.2

theorem fileWrite_le (h : fileWrite d f buf pos = some (res, d')) : res ≤ buf.length := by
  obtain ⟨d₁, -, h3⟩ := Option.bind_eq_some_iff.1 h
  obtain ⟨⟨r₁, d₂⟩, -, h5⟩ := Option.bind_eq_some_iff.1 h3
  simp only [Option.some.injEq, Prod.mk.injEq] at h5
  rw [← h5.1]
  split
  · omega
  · exact le_rfl

/-! ## Which writes are intact -/

/-- The positions and the lengths of writes that reach a file intact: what fits into a page,
at a position in the file; and what the server refuses. -/
def WriteFits (pos : ℤ) (n : ℕ) : Prop :=
  n ≤ 4084 ∧ (pos ≤ -4096 ∨ 1034 * 4096 < pos + n ∨ n = 0 ∨ n ≤ 4080 ∧ 0 ≤ pos)

/-- **Such a write is intact.** -/
theorem intact_of_fits (h : IsOpen σ i f) (hfit : WriteFits (filePos σ i) buf.length) :
    Intact fsipcbuf i f buf σ := by
  obtain ⟨hl, hpos⟩ := hfit
  by_cases hm : (σ.opentab i).fd.omode &&& oAccmode = oRdonly
  · refine ⟨-eInval, σ, ?_, Or.inl (by decide)⟩
    unfold writeFd
    rw [if_pos hm]
  have hv := h.whole.valid.sound.file h.linked
  have h1 := (σ.opentab i).fd.offset.le_toInt
  have h2 := (σ.opentab i).fd.offset.toInt_lt
  have hp : filePos σ i = (σ.opentab i).fd.offset.toInt := rfl
  generalize hB : reqBuf (writePage fsipcbuf (σ.opentab i).fd.id buf) σ.disk buf.length = B
  have hBl : B.length = buf.length := by rw [← hB, reqBuf_length]
  have hok : WriteOk (filePos σ i) B.length := by
    unfold WriteOk
    rw [hBl]
    omega
  obtain ⟨res, d, hw⟩ := fileWrite_total hv .refl opens_alone (by rw [hp]; exact h1) (by omega) hok
  have hle := fileWrite_le hw
  rw [hBl] at hle
  by_cases hr : res < 0
  · exact ⟨res, _, writeFd_eq h hm hl (by rw [hB]; exact hw) hle, Or.inl hr⟩
  have hzero : res = 0 → Intact fsipcbuf i f buf σ := by
    rintro rfl
    have h3 := writeFd_eq h hm hl (by rw [hB]; exact hw) hle
    refine ⟨0, _, h3, Or.inr ⟨le_rfl, hle, ?_, Or.inl rfl⟩⟩
    rw [if_neg hr]
    exact filePos_advance rfl le_rfl (by omega) (by omega)
  by_cases h0 : filePos σ i < 0
  · rcases fileWrite_before h0 (by omega) hok (by omega) hw with h3 | h3 | h3
    · exact absurd h3 hr
    · rw [hBl] at h3
      exact hzero (by omega)
    · exact hzero (by omega)
  rcases fileWrite_bytes hv h.size (by omega) (by omega) (by omega) hw with h3 | ⟨h3, h4⟩
  · exact absurd h3 hr
  rw [hBl] at h3 h4
  rcases h4 with h4 | ⟨h4, h5⟩
  · rw [h4] at hBl
    exact hzero (by rw [h3, ← hBl]; rfl)
  · have hfits : buf.length ≤ 4080 := by omega
    rw [reqBuf_writePage hfits] at hB
    refine ⟨res, _, writeFd_eq h hm hl (by rw [reqBuf_writePage hfits, hB]; exact hw) hle,
      Or.inr ⟨by omega, hle, ?_, Or.inr ⟨by omega, ?_⟩⟩⟩
    · rw [if_neg hr]
      exact filePos_advance rfl (by omega) (by omega) (by omega)
    · rw [h3, Int.toNat_natCast, h5, ← hB]
      exact (List.take_length ..).symm

/-! ## Writes that succeed -/

/-- A write to the places of a file succeeds if the disk has two free blocks for each. -/
theorem fileWrite_room (hv : Valid root dirs d) (hf : (tree root dirs d).Linked (.file f))
    (ho : opens dirs d f = false) (h0 : 0 ≤ pos) (h1 : pos + buf.length ≤ 1034 * 4096)
    (hr : 2 * ((pos.toNat + buf.length + 4095) / 4096 - pos.toNat / 4096) ≤ room d) :
    ∃ d', fileWrite d f buf pos = some ((buf.length : ℤ), d') := by
  obtain ⟨d₁, h2⟩ := extendTo_total hv hf (u64 (pos + buf.length))
  obtain ⟨hv₁, hf₁, ho₁⟩ := extendTo_valid hv hf ho h2
  have h3 := extendTo_room hv hf h2
  have hu : u64 (pos + buf.length) = pos.toNat + buf.length := by
    rw [u64_of_nonneg (by omega) (by omega)]
    omega
  rw [hu] at h2
  obtain ⟨d₂, h4⟩ := fileWriteLoop_room hv₁ hf₁ ho₁ h0 (pos.toNat + buf.length) buf.length buf
    (by omega) (by omega) le_rfl fun _ => by omega
  unfold fileWrite
  rw [hu]
  dsimp only
  rw [h2]
  dsimp only [Option.bind_eq_bind, Option.bind_some]
  rw [h4]
  exact ⟨_, rfl⟩

/-- So does a write in the page before the file. -/
theorem fileWrite_page_before (hv : Valid root dirs d) (hf : (tree root dirs d).Linked (.file f))
    (ho : opens dirs d f = false) (h0 : -4096 < pos) (h1 : pos < 0) (hn : 0 < buf.length)
    (hl : buf.length ≤ 4096) (hr : 2 ≤ room d) :
    ∃ d', fileWrite d f buf pos = some ((buf.length : ℤ), d') := by
  obtain ⟨d₁, h2⟩ := extendTo_total hv hf (u64 (pos + buf.length))
  obtain ⟨hv₁, hf₁, ho₁⟩ := extendTo_valid hv hf ho h2
  have h3 := extendTo_room hv hf h2
  have h4 : ∃ d₂, fileWriteLoop f (u64 (pos + buf.length)) buf.length pos buf d₁ = some (0, d₂) := by
    by_cases hend : 0 ≤ pos + buf.length
    · obtain ⟨res, h5, h6⟩ := fileWriteLoop_skip (f := f) (d := d₁) buf h1 (by omega)
        (Or.inr (Or.inr (Or.inl hend))) (by omega)
      rcases h6 with h6 | h6
      · omega
      · rw [h6.1] at h5
        exact ⟨_, h5⟩
    · -- one turn, in the block before the file
      obtain ⟨k, hk⟩ : ∃ k, buf.length = k + 1 := ⟨buf.length - 1, by omega⟩
      have hq : pos.tdiv 4096 = 0 := by
        rw [← Int.neg_neg pos, Int.neg_tdiv, Int.tdiv_eq_ediv_of_nonneg (by omega)]
        omega
      have hc : chunk (u64 (pos + buf.length)) pos = buf.length := by
        have h5 : pos.tmod 4096 = pos := by
          rw [← Int.neg_neg pos, Int.neg_tmod, Int.tmod_eq_emod_of_nonneg (by omega)]
          omega
        unfold chunk
        rw [h5, u64_eq, u64_eq]
        omega
      obtain ⟨res, d₂, h5, -, herr⟩ := hv₁.sound.fileGetBlock_total hf₁ (u32 (pos.tdiv 4096))
      have hz : u32 (pos.tdiv 4096) = 0 := by
        rw [hq]
        rfl
      rw [hk] at hc ⊢
      unfold fileWriteLoop
      rw [if_pos (by rw [u64_eq, u64_eq]; omega), h5]
      rcases res with e | blk
      · have := herr e rfl
        omega
      · dsimp only [Option.bind_eq_bind, Option.bind_some]
        rw [hc]
        generalize d₂.write _ _ = d₃
        generalize buf.drop _ = buf'
        cases k with
        | zero => exact ⟨_, rfl⟩
        | succ k =>
          unfold fileWriteLoop
          rw [if_neg (lt_irrefl _)]
          exact ⟨_, rfl⟩
  obtain ⟨d₂, h4⟩ := h4
  unfold fileWrite
  dsimp only
  rw [h2]
  dsimp only [Option.bind_eq_bind, Option.bind_some]
  rw [h4]
  exact ⟨_, rfl⟩

/-! ## An open file -/

/-- `/a`, created on a disk with four free blocks, is open at any position. -/
theorem exists_open : ∃ σ, (∀ off : BitVec 32, IsOpen (setFd σ 0 ⟨devfileId, off, oWronly, 1024⟩) 0
    (3 * 4096 + 256 * 1)) ∧ 4 ≤ room σ.disk ∧ σ.disk.byte 0 = 0 := by
  have hrun : ((handle true 1 createA ⟨binImage, serveInit⟩).any fun rep =>
      hasEntry rep.server.disk 1 &&
      decide (fSize rep.server.disk (3 * 4096 + 256 * 1) = 0 ∧ (rep.server.opentab 0).fileid = 1024 ∧
        (rep.server.opentab 0).file = some (3 * 4096 + 256 * 1) ∧ nblocks rep.server.disk = 8 ∧
        (∀ b < 4, blockIsFree rep.server.disk (4 + b) = true) ∧ rep.server.disk.byte 0 = 0)) = true := by
    decide +kernel
  simp only [Option.any_eq_true, Bool.and_eq_true, decide_eq_true_eq] at hrun
  obtain ⟨rep, h1, hb, hsz, hid, hf, hn, hfree, h0⟩ := hrun
  have hw : Whole rep.server.disk := run_whole (σ := ⟨binImage, serveInit⟩) binImage_consistent.whole
    (.single (.request (fun _ _ _ _ => trivial) h1))
  refine ⟨setRef rep.server 0 2, fun off => ?_, ?_, h0⟩
  · refine ⟨hw, reachable_linked (hasEntry_reachable hb (by omega)), hsz.ge, ?_, ?_, ?_, ?_⟩
    · rw [setFd_self, setRef_self, hid]
      decide
    · rw [setFd_self, setRef_self]
      exact (by decide : (2 : ℕ) ≠ 1)
    · rw [setFd_self, setRef_self]
      exact hf
    · rw [setFd_self, setRef_self, hid]
  · show 4 ≤ room rep.server.disk
    have h2 : ({4, 5, 6, 7} : Finset ℕ) ⊆
        (Finset.range (nblocks rep.server.disk)).filter fun b => blockIsFree rep.server.disk b = true := by
      intro b hb
      simp only [Finset.mem_insert, Finset.mem_singleton] at hb
      have h3 := hfree (b - 4) (by omega)
      rw [show 4 + (b - 4) = b by omega] at h3
      rw [Finset.mem_filter, Finset.mem_range, hn]
      exact ⟨by omega, h3⟩
    exact Finset.card_le_card h2

theorem wronly_writes : oWronly &&& oAccmode ≠ oRdonly := by decide

theorem filePos_setFd {off : BitVec 32} {a b c : BitVec 32} :
    filePos (setFd σ i ⟨a, off, b, c⟩) i = off.toInt := by
  unfold filePos
  rw [setFd_self]

end Jos.Fs
