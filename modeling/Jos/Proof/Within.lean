import Jos.Proof.Zeros

/-!
# Reading and writing stay inside the file

`file_read` copies bytes of the file only. `file_write` changes the bytes of the file at the
positions of the write, its `struct File`, its indirect block and the bitmap (`read_write_within`);
a block that it allocates is cleared whole, so the rest of that block changes too
(`read_write_within_counterexample`).
-/

namespace Jos.Fs

open Lib

variable {root : ℕ} {dirs : Bool} {d d' d₀ d₁ : Bytes} {s : Slot} {a b f m n q x : ℕ}
  {bs buf : List Byte} {offset : ℤ} {res : ℤ} {fin count : ℕ} {E : Set ℕ}

/-! ## Regions of the disk -/

/-- The words of the bitmap. -/
def bitmapWords (d : Bytes) : Set ℕ := {a | ∃ b < nblocks d, bitmapWord (b / 32) ≤ a ∧ a < bitmapWord (b / 32) + 4}

/-- The indirect block of file `f`. -/
def indirectBlock (d : Bytes) (f : ℕ) : Set ℕ :=
  {a | slotBlock d f .fIndirect ≠ 0 ∧ a / 4096 = slotBlock d f .fIndirect}

/-- The blocks that file `f` has in `d'` and not in `d`. -/
def newBlocks (d d' : Bytes) (f : ℕ) : Set ℕ :=
  {a | ∃ n, fileBlock d f n = 0 ∧ fileBlock d' f n ≠ 0 ∧ a / 4096 = fileBlock d' f n}

/-- The bytes of the blocks of file `f` at file positions from `offset` on. -/
def positions (d : Bytes) (f : ℕ) (offset : ℤ) (count : ℕ) : Set ℕ :=
  {a | ∃ x : ℕ, offset ≤ x ∧ x < offset + count ∧ fileBlock d f (x / 4096) ≠ 0 ∧ a = byteAddr d f x}

/-- **What a read is to copy**: bytes of file `f` at the positions of the read. -/
def ReadWithin (d : Bytes) (f count : ℕ) (offset : ℤ) (bs : List Byte) : Prop :=
  bs.length ≤ count ∧ ∀ i, i < bs.length → ∃ x : ℕ, x = offset + i ∧ bs.getD i 0 = fileByte d f x

/-- **What a write may change**: the bytes of file `f` at the positions of the write, its
`struct File`, its indirect block and the bitmap, and the addresses in `E`. -/
def WriteWithin (E : Set ℕ) (d d' : Bytes) (f count : ℕ) (offset : ℤ) : Prop :=
  ∀ a, a ∉ positions d' f offset count → a ∉ fileStruct f → a ∉ indirectBlock d' f →
    a ∉ bitmapWords d → a ∉ E → d'.byte a = d.byte a

/-! ## The frame of a write -/

/-- The blocks of file `f` from `d₀` are there in `d`, and nothing outside the blocks of the
file, its `struct File` and the bitmap has changed. -/
structure Outside (f : ℕ) (d₀ d : Bytes) : Prop where
  nblocks : nblocks d = nblocks d₀
  slot : ∀ s, slotBlock d₀ f s ≠ 0 → slotBlock d f s = slotBlock d₀ f s
  byte : ∀ a, a ∉ fileStruct f → a ∉ bitmapWords d₀ → a ∉ indirectBlock d f →
    (∀ n, fileBlock d f n ≠ 0 → a / 4096 ≠ fileBlock d f n) → d.byte a = d₀.byte a

theorem Outside.refl : Outside f d d := ⟨rfl, fun _ _ => rfl, fun _ _ _ _ _ => rfl⟩

section Step

variable (hs : Sound root dirs d) (hf : (tree root dirs d).Linked (.file f)) (h : Outside f d₀ d)
include hs hf h

theorem Outside.size {z : ℤ} : Outside f d₀ (setFSize d f z) := by
  have hsame : Same root dirs d (setFSize d f z) := hs.same_size hf
  refine ⟨hsame.nblocks.trans h.nblocks, fun s h0 => (hsame.slotBlock_eq hf).trans (h.slot s h0),
    fun a h1 h2 h3 h4 => ?_⟩
  unfold indirectBlock fileBlock at *
  simp only [hsame.slotBlock_eq hf] at h3 h4
  refine Eq.trans (Bytes.byte_store32_off ?_) (h.byte a h1 h2 h3 h4)
  simp only [fileStruct, Set.mem_ofPred_eq] at h1
  omega

theorem Outside.data (ho : opens dirs d f = false) (h0 : fileBlock d f n ≠ 0)
    (h1 : fileBlock d f n * 4096 ≤ q) (h2 : q + bs.length ≤ (fileBlock d f n + 1) * 4096) :
    Outside f d₀ (d.write q bs) := by
  have hsame := hs.same_block hf ho h0 h1 h2
  refine ⟨hsame.nblocks.trans h.nblocks, fun s h0 => (hsame.slotBlock_eq hf).trans (h.slot s h0),
    fun a h3 h4 h5 h6 => ?_⟩
  unfold indirectBlock at *
  unfold fileBlock at h6
  simp only [hsame.slotBlock_eq hf] at h5 h6
  have h7 : a / 4096 ≠ fileBlock d f n := h6 n h0
  exact (Bytes.byte_write_off (by omega)).trans (h.byte a h3 h4 h5 h6)

theorem Outside.add (hA : AddStep (Only f) root dirs d d') : Outside f d₀ d' := by
  have hkeep : ∀ s, slotBlock d f s ≠ 0 → slotBlock d' f s = slotBlock d f s := fun s h0 =>
    hA.slot_keep hs hf h0
  refine ⟨(hA.nblocks_eq hs).trans h.nblocks, fun s h0 => ?_, fun a h1 h2 h3 h4 => ?_⟩
  · have h1 := h.slot s h0
    exact (hkeep s (by rw [h1]; exact h0)).trans h1
  -- the blocks of the file before the step are its blocks after it
  have h3' : a ∉ indirectBlock d f := fun h5 => by
    have h6 := hkeep _ h5.1
    exact h3 ⟨by rw [h6]; exact h5.1, by rw [h6]; exact h5.2⟩
  have h4' : ∀ n, fileBlock d f n ≠ 0 → a / 4096 ≠ fileBlock d f n := fun n h0 h5 => by
    have h6 : fileBlock d' f n = fileBlock d f n := hkeep _ h0
    exact h4 n (by rw [h6]; exact h0) (by rw [h6]; exact h5)
  refine Eq.trans ?_ (h.byte a h1 h2 h3' h4')
  cases hA with
  | @mk e n p b t he hP _ ht ha h0 hb =>
    obtain rfl : e = f := hP
    have hnew : slotBlock (addBlock d p b) e t = b := (hs.slot_add he ha h0 hb).1
    have hlt : b < Fs.nblocks d := blockIsFree_lt hb
    have hb0 : b ≠ 0 := by
      have := (hs.free_apart hb).1
      omega
    have hab : a / 4096 ≠ b := by
      rcases ht with rfl | ⟨-, rfl⟩
      · have h5 : fileBlock (addBlock d p b) e n = b := hnew
        have h6 := h4 n (by rw [h5]; exact hb0)
        rwa [h5] at h6
      · exact fun h5 => h3 ⟨by rw [hnew]; exact hb0, by rw [hnew]; exact h5⟩
    have hap : a + 1 ≤ p ∨ p + 4 ≤ a := by
      have h5 : ¬ (e ≤ a ∧ a < e + 256) := h1
      have h6 := word_fits (show (slotRec dirs d e t).word t = some p from word_of_slotAddr ha)
      cases t with
      | direct i =>
        have h7 : e ≤ p ∧ p + 4 ≤ e + 256 := h6
        omega
      | fIndirect =>
        have h7 : e ≤ p ∧ p + 4 ≤ e + 256 := h6
        omega
      | indirect j =>
        have h7 : slotBlock d e .fIndirect * 4096 ≤ p ∧ p + 4 ≤ slotBlock d e .fIndirect * 4096 + 4096 := h6
        have h8 : slotBlock d e .fIndirect ≠ 0 := fun h8 => by
          have h9 : d.load32 (fIndirect e) = 0 := BitVec.eq_of_toNat_eq h8
          simp [slotAddr, h9] at ha
        have h9 : a / 4096 ≠ slotBlock d e .fIndirect := fun h9 => h3' ⟨h8, h9⟩
        omega
    have hbm : ¬ (bitmapWord (b / 32) ≤ a ∧ a < bitmapWord (b / 32) + 4) := fun h5 =>
      h2 ⟨b, by rw [← h.nblocks]; exact hlt, h5⟩
    unfold addBlock
    rw [Bytes.byte_zero_off (by omega), Bytes.byte_store32_off (by omega)]
    exact Bytes.byte_store32_off (by omega)

end Step

/-- `f_size` is set to the end of the write, or stays. -/
theorem extendTo_cases (h0 : 0 ≤ offset) (h1 : offset + buf.length < 2 ^ 31)
    (h : extendTo d f (u64 (offset + buf.length)) = some d₁) :
    d₁ = d ∨ d₁ = setFSize d f (offset + buf.length) := by
  have hsz := fSize_lt d f
  have hu : u64 (offset + buf.length) = (offset + buf.length).toNat := u64_of_nonneg (by omega) (by omega)
  have hi : i32 ((u64 (offset + buf.length) : ℕ) : ℤ) = offset + buf.length := by
    unfold i32
    rw [hu, BitVec.toInt_ofInt, Int.bmod_eq_of_le (by omega) (by omega)]
    omega
  unfold extendTo fileSetSize at h
  rw [hi] at h
  split at h
  · rename_i hlt
    rw [hu, u64_eq] at hlt
    rw [if_neg (by omega)] at h
    exact Or.inr (Option.some.inj h).symm
  · exact Or.inl (Option.some.inj h).symm

section Write

variable (hv : Valid root dirs d) (hf : (tree root dirs d).Linked (.file f))
  (ho : opens dirs d f = false) (h0 : 0 ≤ offset) (h1 : offset + buf.length < 2 ^ 31)
  (h : fileWrite d f buf offset = some (res, d'))
include hv hf ho h0 h1 h

/-- The frame of a write, and the bytes of the file at other positions. -/
theorem fileWrite_outside : Outside f d d' ∧
    ∀ x : ℕ, ¬ (offset ≤ x ∧ x < offset + buf.length) → fileByte d' f x = fileByte d f x := by
  obtain ⟨d₁, h2, h3⟩ := Option.bind_eq_some_iff.1 h
  obtain ⟨⟨r₁, d₂⟩, h4, h5⟩ := Option.bind_eq_some_iff.1 h3
  simp only [Option.some.injEq, Prod.mk.injEq] at h5
  rw [← h5.2]
  obtain ⟨hv₁, hf₁, ho₁⟩ := extendTo_valid hv hf ho h2
  have hO : Outside f d d₁ ∧ ∀ x, fileByte d₁ f x = fileByte d f x := by
    rcases extendTo_cases h0 h1 h2 with rfl | rfl
    · exact ⟨.refl, fun _ => rfl⟩
    · exact ⟨Outside.refl.size hv.sound hf, fun x => fileByte_setFSize hv.sound hf ho⟩
  have hu : u64 (offset + buf.length) = (offset + buf.length).toNat := u64_of_nonneg (by omega) (by omega)
  rw [hu] at h4
  refine ⟨fileWriteLoop_rule (I := Outside f d) hv₁ hf₁ ho₁ h0 (P := Only f) (fun _ _ => rfl) hO.1
    (fun d₃ d₄ hv hf h6 h7 => ?_) (fun d₃ n q bs hv hf ho h6 h7 h8 h9 => ?_) h4, fun x hx => ?_⟩
  · exact h6.add hv.sound hf h7
  · exact h6.data hv.sound hf ho h7 h8 h9
  · obtain ⟨-, h6, -, h7⟩ := fileWriteLoop_copied hv₁ hf₁ ho₁ h0 (by omega) le_rfl (by omega) h4 rfl
    rw [h7, if_neg (by omega), hO.2]

/-- **A write** changes the file where it is to, and the rest of the blocks that it adds. -/
theorem fileWrite_within : WriteWithin (newBlocks d d' f) d d' f buf.length offset ∧
    ∀ a, a ∈ newBlocks d d' f → a ∉ positions d' f offset buf.length → d'.byte a = 0 := by
  obtain ⟨hO, hx⟩ := fileWrite_outside hv hf ho h0 h1 h
  have hbyte : ∀ a n, fileBlock d' f n ≠ 0 → a / 4096 = fileBlock d' f n →
      a ∉ positions d' f offset buf.length →
        fileByte d' f (n * 4096 + a % 4096) = d'.byte a ∧
          fileByte d' f (n * 4096 + a % 4096) = fileByte d f (n * 4096 + a % 4096) := by
    intro a n h2 h3 h4
    have h5 : (n * 4096 + a % 4096) / 4096 = n := by omega
    refine ⟨?_, hx _ fun h6 => h4 ⟨n * 4096 + a % 4096, h6.1, h6.2, by rw [h5]; exact h2, ?_⟩⟩
    · unfold fileByte
      rw [h5, if_neg h2]
      congr 1
      omega
    · unfold byteAddr
      rw [h5]
      omega
  refine ⟨fun a h2 h3 h4 h5 h6 => ?_, fun a h2 h3 => ?_⟩
  · by_cases hown : ∃ n, fileBlock d' f n ≠ 0 ∧ a / 4096 = fileBlock d' f n
    · obtain ⟨n, h7, h8⟩ := hown
      have h9 : fileBlock d f n ≠ 0 := fun h9 => h6 ⟨n, h9, h7, h8⟩
      have h10 : fileBlock d' f n = fileBlock d f n := hO.slot _ h9
      obtain ⟨h11, h12⟩ := hbyte a n h7 h8 h2
      rw [← h11, h12]
      unfold fileByte
      rw [show (n * 4096 + a % 4096) / 4096 = n by omega, if_neg h9]
      congr 1
      omega
    · exact hO.byte a h3 h5 h4 fun n h7 h8 => hown ⟨n, h7, h8⟩
  · obtain ⟨n, h4, h5, h6⟩ := h2
    obtain ⟨h7, h8⟩ := hbyte a n h5 h6 h3
    rw [← h7, h8]
    unfold fileByte
    rw [show (n * 4096 + a % 4096) / 4096 = n by omega, if_pos h4]

omit hv hf ho in
/-- From `MAXFILESIZE` on there is no block to write to. -/
theorem fileWrite_far (h2 : maxFileSize ≤ offset) :
    res ≤ 0 ∧ ∀ a, a ∉ fileStruct f → d'.byte a = d.byte a := by
  have hmax : maxFileSize = 1034 * 4096 := rfl
  obtain ⟨d₁, h3, h4⟩ := Option.bind_eq_some_iff.1 h
  obtain ⟨⟨r₁, d₂⟩, h5, h6⟩ := Option.bind_eq_some_iff.1 h4
  simp only [Option.some.injEq, Prod.mk.injEq] at h6
  have hO : ∀ a, a ∉ fileStruct f → d₁.byte a = d.byte a := by
    rcases extendTo_cases h0 h1 h3 with rfl | rfl
    · exact fun _ _ => rfl
    · intro a ha
      refine Bytes.byte_store32_off ?_
      simp only [fileStruct, Set.mem_ofPred_eq] at ha
      omega
  rcases hk : buf.length with _ | k
  · rw [hk] at h5 h6
    simp only [fileWriteLoop, Option.some.injEq, Prod.mk.injEq] at h5
    rw [← h6.1, ← h6.2, ← h5.1, ← h5.2]
    exact ⟨le_rfl, hO⟩
  · have hn : u32 (offset.tdiv 4096) ≥ 10 + 1024 := by
      rw [Int.tdiv_eq_ediv_of_nonneg h0, u32_of_nonneg (by omega) (by omega)]
      omega
    have hg : fileGetBlock d₁ f (u32 (offset.tdiv 4096)) = some (.error (-eInval), d₁) := by
      unfold fileGetBlock fileBlockWalk
      rw [if_pos hn]
      rfl
    rw [hk] at h5 h6
    unfold fileWriteLoop at h5
    rw [if_pos (by rw [u64_eq, u64_eq]; omega), hg] at h5
    simp only [Option.bind_eq_bind, Option.bind_some, Option.some.injEq, Prod.mk.injEq] at h5
    rw [← h6.1, ← h6.2, ← h5.1, ← h5.2, if_pos (by decide)]
    exact ⟨by decide, hO⟩

end Write

/-! ## The frame of a read -/

/-- Where a read at a position before the file stays inside the blocks of the file, it copies
nothing. -/
theorem fileRead_before (h0 : offset < 0) (h1 : -2 ^ 31 ≤ offset) (hc : count ≤ 4096)
    (hok : WriteOk offset (min count (u64 (fSize d f - offset))))
    (h : fileRead d f count offset = some ((res, bs), d')) :
    bs = [] ∧ d' = d ∧ (offset < -4096 → res ≤ 0) := by
  unfold fileRead at h
  split at h
  · simp only [Option.some.injEq, Prod.mk.injEq] at h
    obtain ⟨⟨rfl, rfl⟩, rfl⟩ := h
    exact ⟨rfl, rfl, fun _ => le_rfl⟩
  · obtain ⟨⟨⟨r, bs₁⟩, d₁⟩, h2, h3⟩ := Option.bind_eq_some_iff.1 h
    simp only [Option.some.injEq, Prod.mk.injEq] at h3
    obtain ⟨⟨h3, rfl⟩, rfl⟩ := h3
    have hle : min count (u64 (fSize d f - offset)) ≤ 4096 := by omega
    generalize min count (u64 (fSize d f - offset)) = c at *
    obtain ⟨r', h4, h5⟩ := fileReadLoop_skip (f := f) (d := d) h0 h1 hok (by omega)
    rw [h4] at h2
    simp only [Option.some.injEq, Prod.mk.injEq] at h2
    obtain ⟨⟨rfl, rfl⟩, rfl⟩ := h2
    refine ⟨rfl, rfl, fun h6 => ?_⟩
    rw [← h3]
    split <;> omega

/-- The loop of `file_read` ends at its end. -/
theorem fileReadLoop_length {pos : ℤ} {k : ℕ} (h0 : 0 ≤ pos) (h1 : pos ≤ fin) (h2 : fin < 2 ^ 32)
    (h : fileReadLoop f fin k pos d = some ((res, bs), d')) : bs.length ≤ fin - pos.toNat := by
  induction k generalizing d d' pos res bs with
  | zero =>
    simp only [fileReadLoop, Option.some.injEq, Prod.mk.injEq] at h
    rw [← h.1.2]
    exact Nat.zero_le _
  | succ k ih =>
    unfold fileReadLoop at h
    split at h
    · obtain ⟨⟨r₁, d₁⟩, -, h4⟩ := Option.bind_eq_some_iff.1 h
      rcases r₁ with e | blk
      · simp only [Option.some.injEq, Prod.mk.injEq] at h4
        rw [← h4.1.2]
        exact Nat.zero_le _
      · obtain ⟨⟨⟨r₂, bs₂⟩, d₂⟩, h6, h7⟩ := Option.bind_eq_some_iff.1 h4
        simp only [Option.some.injEq, Prod.mk.injEq] at h7
        obtain ⟨⟨rfl, rfl⟩, -⟩ := h7
        have hc : chunk fin pos ≤ fin - pos.toNat := by
          unfold chunk
          rw [Int.tmod_eq_emod_of_nonneg h0, u64_of_nonneg (by omega) (by omega)]
          omega
        rw [List.length_append, Bytes.read_length]
        have h8 := ih (by omega) (by omega) h6
        omega
    · simp only [Option.some.injEq, Prod.mk.injEq] at h
      rw [← h.1.2]
      exact Nat.zero_le _

/-- **A read** copies the file. -/
theorem fileRead_within (hv : Valid root dirs d) (hf : (tree root dirs d).Linked (.file f))
    (h0 : 0 ≤ offset) (h : fileRead d f count offset = some ((res, bs), d')) :
    ReadWithin d f count offset bs := by
  have hsz := fSize_lt d f
  obtain ⟨p, rfl⟩ := Int.eq_ofNat_of_zero_le h0
  have h1 := fileRead_copied hv hf h
  refine ⟨?_, fun i hi => ⟨p + i, by push_cast; ring, ?_⟩⟩
  · unfold fileRead at h
    split at h
    · simp only [Option.some.injEq, Prod.mk.injEq] at h
      rw [← h.1.2]
      exact Nat.zero_le _
    · obtain ⟨⟨⟨r, bs₁⟩, d₁⟩, h2, h3⟩ := Option.bind_eq_some_iff.1 h
      simp only [Option.some.injEq, Prod.mk.injEq] at h3
      obtain ⟨⟨-, rfl⟩, -⟩ := h3
      have hle : min count (u64 (fSize d f - p)) ≤ count := min_le_left _ _
      have hlt : (p : ℤ) + min count (u64 (fSize d f - p)) < 2 ^ 31 := by
        rw [u64_of_nonneg (by omega) (by omega)]
        omega
      generalize min count (u64 (fSize d f - p)) = c at *
      rw [u64_of_nonneg (by omega) (by omega)] at h2
      have h4 := fileReadLoop_length (by omega) (by omega) (by omega) h2
      omega
  · rw [h1, List.getD_eq_getElem _ _ (by simpa using hi), List.getElem_map, List.getElem_range]

/-! ## Both -/

/-- **Reading and writing stay inside the file**, for every file whose blocks are its own. A
write also clears the rest of the blocks that it adds. -/
theorem read_write_within (hv : Valid f false d) (hr : -2 ^ 31 ≤ offset) (hc : count ≤ 4096) :
    (∀ res bs d', fileRead d f count offset = some ((res, bs), d') →
      (WriteOk offset (min count (u64 (fSize d f - offset))) → ReadWithin d f count offset bs) ∧
      (fSize d f ≤ offset ∨ offset < -4096 → res ≤ 0 ∧ bs = [] ∧ d' = d)) ∧
    (0 ≤ offset → offset + count < 2 ^ 31 → ∀ buf res d', buf.length = count →
      fileWrite d f buf offset = some (res, d') →
        WriteWithin (newBlocks d d' f) d d' f count offset ∧
        (∀ a, a ∈ newBlocks d d' f → a ∉ positions d' f offset count → d'.byte a = 0) ∧
        (maxFileSize ≤ offset → res ≤ 0 ∧ ∀ a, a ∉ fileStruct f → d'.byte a = d.byte a)) := by
  refine ⟨fun res bs d' h => ⟨fun hok => ?_, fun hout => ?_⟩, fun h0 h1 buf res d' hl h => ?_⟩
  · by_cases h0 : 0 ≤ offset
    · exact fileRead_within hv .refl h0 h
    · obtain ⟨rfl, -, -⟩ := fileRead_before (by omega) hr hc hok h
      exact ⟨Nat.zero_le _, fun i hi => absurd hi (Nat.not_lt_zero _)⟩
  · by_cases hge : fSize d f ≤ offset
    · unfold fileRead at h
      rw [if_pos hge] at h
      simp only [Option.some.injEq, Prod.mk.injEq] at h
      obtain ⟨⟨rfl, rfl⟩, rfl⟩ := h
      exact ⟨le_rfl, rfl, rfl⟩
    · have hlt : offset < -4096 := hout.resolve_left hge
      obtain ⟨h1, h2, h3⟩ := fileRead_before (by omega) hr hc (Or.inr (Or.inl (by omega))) h
      exact ⟨h3 hlt, h1, h2⟩
  · subst hl
    obtain ⟨h2, h3⟩ := fileWrite_within hv .refl opens_alone h0 h1 h
    exact ⟨h2, h3, fileWrite_far h0 h1 h⟩

/-- A write of two bytes to `/a`. -/
theorem read_write_within_create : ∃ d d', exec binImage (.create ⟨[0x61], by decide⟩) = some d ∧
    fileWrite d fileA [1, 2] 0 = some (2, d') ∧
      WriteWithin (newBlocks d d' fileA) d d' fileA 2 0 := by
  have hrun : ((exec binImage (.create ⟨[0x61], by decide⟩)).all fun d =>
      (fileWrite d fileA [1, 2] 0).any fun r => decide (r.1 = 2)) = true := by
    decide +kernel
  obtain ⟨d, h1, hv, hf⟩ := create_a
  rw [h1] at hrun
  simp only [Option.all_some, Option.any_eq_true, decide_eq_true_eq] at hrun
  obtain ⟨⟨r, d'⟩, h2, rfl⟩ := hrun
  have h3 := (read_write_within (hv.sound.file hf) (by decide) (by decide : 2 ≤ 4096)).2 le_rfl (by decide)
  exact ⟨d, d', h1, h2, (h3 _ _ _ rfl h2).1⟩

/-- **This fails** where a write adds a block that held other bytes: `/a` is written and
cut, and the next write of one byte clears the byte after it. -/
theorem read_write_within_counterexample : ¬ ∀ d f buf offset res d', Valid sRoot true d →
    (tree sRoot true d).Linked (.file f) → -2 ^ 31 ≤ offset → offset < 2 ^ 31 → buf.length ≤ 4096 →
    fileWrite d f buf offset = some (res, d') → WriteWithin ∅ d d' f buf.length offset := by
  intro h
  have hrun : ((exec binImage (.create ⟨[0x61], by decide⟩)).all fun d =>
      decide (fType d fileA ≠ ftypeDir) && hasEntry d 1 &&
        (exec d (.write fileA [1, 2] 0)).any fun d₁ => hasEntry d₁ 1 &&
          (exec d₁ (.setSize fileA 0)).any fun d₂ => hasEntry d₂ 1 && decide (nblocks d₂ ≤ 32) &&
            (fileWrite d₂ fileA [7] 0).any fun r => decide (fileBlock r.2 fileA 0 = 4 ∧
              slotBlock r.2 fileA .fIndirect = 0 ∧ r.2.byte 16385 ≠ d₂.byte 16385)) = true := by
    decide +kernel
  obtain ⟨d, hx, hv, hf⟩ := create_a
  rw [hx] at hrun
  simp only [Option.all_some, Bool.and_eq_true, Option.any_eq_true, decide_eq_true_eq] at hrun
  obtain ⟨⟨ht, he⟩, d₁, hx₁, he₁, d₂, hx₂, ⟨he₂, hn⟩, ⟨res, d₃⟩, h3, hb, hi, hne⟩ := hrun
  have hr : ∀ {d}, hasEntry d 1 = true → Reachable d fileA := fun h => hasEntry_reachable h (by omega)
  have hv₁ := exec_valid (c := .write fileA [1, 2] 0) hv ⟨hr he, ⟨by decide, by decide⟩, by decide, by decide⟩ ht hx₁
  have hv₂ := exec_valid (c := .setSize fileA 0) hv₁ ⟨hr he₁, le_rfl, by decide⟩ trivial hx₂
  refine hne (h d₂ fileA [7] 0 res d₃ hv₂ (reachable_linked (hr he₂)) (by decide) (by decide) (by decide) h3
    16385 ?_ ?_ ?_ ?_ (Set.notMem_empty _))
  · rintro ⟨x, h4, h5, -, h6⟩
    have h7 : x = 0 := by
      simp only [List.length_cons, List.length_nil] at h5
      omega
    subst h7
    unfold byteAddr at h6
    rw [show 0 / 4096 = 0 by rfl, hb] at h6
    omega
  · have hA : fileA = 3 * 4096 + 256 := rfl
    rintro ⟨h4, h5⟩
    omega
  · exact fun h4 => h4.1 hi
  · rintro ⟨b, h4, h5, h6⟩
    unfold bitmapWord at h6
    omega

end Jos.Fs
