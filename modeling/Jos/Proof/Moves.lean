import Jos.Proof.Paths

/-!
# The calls that drop nothing

`file_create`, `file_open`, `file_read` and `file_write` are runs of four kinds of change
(`Move`): a block is added to a file, a size grows, an entry gets a name, and data is
written to a block that holds no files. Each keeps the layout sound.
-/

namespace Jos.Fs

open Lib

variable {root : ℕ} {dirs : Bool} {d d' d₁ : Bytes} {r c : Rec} {s : Slot} {b f g m n p q x : ℕ}
  {bs buf : List Byte} {z : ℤ} {P : ℕ → ℕ → Bool → ℤ → Prop}

/-- One change that drops nothing. -/
inductive Move (P : ℕ → ℕ → Bool → ℤ → Prop) (root : ℕ) (dirs : Bool) (d : Bytes) : Bytes → Prop
  | add {d' : Bytes} : AddStep P root dirs d d' → Move P root dirs d d'
  | grow {f : ℕ} {z : ℤ} : (tree root dirs d).Linked (.file f) → fSize d f ≤ z → z < 2 ^ 31 →
      (opens dirs d f = true → fSize d f % 4096 = 0 → z % 4096 = 0) →
      Move P root dirs d (setFSize d f z)
  | name {f : ℕ} {bs : List Byte} : (tree root dirs d).Linked (.file f) → bs.length ≤ 128 →
      bs.head? ≠ none → bs.head? ≠ some 0 → Move P root dirs d (d.write f bs)
  | data {f n q : ℕ} {bs : List Byte} : (tree root dirs d).Linked (.file f) →
      opens dirs d f = false → fileBlock d f n ≠ 0 → fileBlock d f n * 4096 ≤ q →
      q + bs.length ≤ (fileBlock d f n + 1) * 4096 → Move P root dirs d (d.write q bs)

abbrev Moves (P : ℕ → ℕ → Bool → ℤ → Prop) (root : ℕ) (dirs : Bool) : Bytes → Bytes → Prop :=
  Relation.ReflTransGen (Move P root dirs)

/-! ## What a move keeps -/

/-- The block of a file whose contents do not count holds no records. -/
theorem data_block (hf : (tree root dirs d).Linked (.file f)) (ho : opens dirs d f = false)
    (h0 : fileBlock d f n ≠ 0) : ∃ r s, (tree root dirs d).Held r s (fileBlock d f n) ∧
      kids dirs d r s (fileBlock d f n) = ∅ := by
  refine ⟨_, _, held_slotBlock hf h0, ?_⟩
  unfold dataSlot
  by_cases hn : n < 10
  · simp [if_pos hn, slotRec, kids, ho]
  · simp [if_neg hn, slotRec, kids, ho]

namespace Sound

variable (hs : Sound root dirs d)
include hs

/-- A write inside one file leaves the heads of the others. -/
theorem head_write (hf : (tree root dirs d).Linked (.file f)) (h1 : f ≤ q)
    (h2 : q + bs.length ≤ f + 256) (hg : (tree root dirs d).Linked (.file g)) (hne : g ≠ f) :
    SameHead g d (d.write q bs) := by
  intro x h3 h4
  have h5 := hs.records_apart hg hf fun h => hne (Rec.file.inj h)
  simp only [Rec.base, Rec.size] at h5
  exact Bytes.byte_write_off (by omega)

theorem same_size (hf : (tree root dirs d).Linked (.file f)) : Same root dirs d (setFSize d f z) :=
  hs.same_head hf (by omega) (by simp)

theorem same_block (hf : (tree root dirs d).Linked (.file f)) (ho : opens dirs d f = false)
    (h0 : fileBlock d f n ≠ 0) (h1 : fileBlock d f n * 4096 ≤ q)
    (h2 : q + bs.length ≤ (fileBlock d f n + 1) * 4096) : Same root dirs d (d.write q bs) := by
  obtain ⟨r, s, hh, hk⟩ := data_block hf ho h0
  exact hs.same_data hh hk h1 h2

/-- A data block is not the block of a linked record. -/
theorem data_apart (hf : (tree root dirs d).Linked (.file f)) (ho : opens dirs d f = false)
    (h0 : fileBlock d f n ≠ 0) (hr : (tree root dirs d).Linked r) : r.block ≠ fileBlock d f n := by
  obtain ⟨q, t, hh, hk⟩ := data_block hf ho h0
  intro he
  rcases linked_block hr with h | ⟨q', t', h, hk'⟩
  · rw [h] at he
    exact (hs.good hh).2.2 he.symm
  · rw [he] at h hk'
    obtain ⟨rfl, rfl⟩ := hs.alone h hh
    rw [hk] at hk'
    exact hk'

theorem head_block (hf : (tree root dirs d).Linked (.file f)) (ho : opens dirs d f = false)
    (h0 : fileBlock d f n ≠ 0) (h1 : fileBlock d f n * 4096 ≤ q)
    (h2 : q + bs.length ≤ (fileBlock d f n + 1) * 4096) (hg : (tree root dirs d).Linked (.file g)) :
    SameHead g d (d.write q bs) := by
  intro x h3 h4
  have h5 := hs.data_apart hf ho h0 hg
  have h6 := hs.fits_block hg
  simp only [Rec.base, Rec.size] at h6
  exact Bytes.byte_write_off (by omega)

end Sound

@[simp] theorem fSize_setFSize (h0 : 0 ≤ z) (h1 : z < 2 ^ 31) : fSize (setFSize d f z) f = z := by
  unfold fSize setFSize
  rw [Bytes.load32_store32, BitVec.toInt_ofInt, Int.bmod_eq_of_le (by omega) (by omega)]

/-- Writing a size keeps the layout valid. -/
theorem Valid.setFSize (hv : Valid root dirs d) (hf : (tree root dirs d).Linked (.file f))
    (hz : opens dirs d f = true → 0 ≤ z ∧ z < 2 ^ 31) : Valid root dirs (setFSize d f z) := by
  have hsame : Same root dirs d (Fs.setFSize d f z) := hv.sound.same_size hf
  refine ⟨hsame.sound hv.sound, fun {g} hg ho => ?_⟩
  rw [hsame.linked] at hg
  have ho' : opens dirs d g = true := by
    unfold opens at *
    rw [hsame.type hg] at ho
    exact ho
  by_cases he : g = f
  · subst he
    obtain ⟨h0, h1⟩ := hz ho'
    rw [fSize_setFSize h0 h1]
    exact h0
  · have h2 : SameHead g d (Fs.setFSize d f z) :=
      hv.sound.head_write hf (by omega) (by simp) hg he
    rw [h2.fSize_eq]
    exact hv.size hg ho'

/-- So does writing a name. -/
theorem Valid.setName (hv : Valid root dirs d) (hf : (tree root dirs d).Linked (.file f))
    (hl : bs.length ≤ 128) : Valid root dirs (d.write f bs) := by
  have hsame : Same root dirs d (d.write f bs) := hv.sound.same_head hf le_rfl (by omega)
  refine ⟨hsame.sound hv.sound, fun {g} hg ho => ?_⟩
  rw [hsame.linked] at hg
  have ho' : opens dirs d g = true := by
    unfold opens at *
    rw [hsame.type hg] at ho
    exact ho
  have h1 : fSize (d.write f bs) g = fSize d g := by
    by_cases he : g = f
    · rw [he]
      unfold fSize
      rw [Bytes.load32_write_off (by omega)]
    · exact (hv.sound.head_write hf le_rfl (by omega) hg he).fSize_eq
  rw [h1]
  exact hv.size hg ho'

namespace Move

/-- What a move leaves of the layout: no record is unlinked. -/
theorem linked (h : Move P root dirs d d') (hs : Sound root dirs d) (hc : (tree root dirs d).Linked c) :
    (tree root dirs d').Linked c := by
  cases h with
  | add h => exact h.linked hs hc
  | grow hf _ _ _ => exact (hs.same_size hf).linked.2 hc
  | name hf hl _ _ => exact (hs.same_head hf le_rfl (by omega)).linked.2 hc
  | data hf ho h0 h1 h2 => exact (hs.same_block hf ho h0 h1 h2).linked.2 hc

/-- **Moves keep the layout valid.** -/
theorem valid (h : Move P root dirs d d') (hv : Valid root dirs d) : Valid root dirs d' := by
  cases h with
  | add h => exact h.valid hv
  | grow hf h0 h1 _ => exact hv.setFSize hf fun ho => ⟨le_trans (hv.size hf ho) h0, h1⟩
  | name hf hl _ _ => exact hv.setName hf hl
  | data hf ho h0 h1 h2 =>
    have hsame := hv.sound.same_block hf ho h0 h1 h2
    refine ⟨hsame.sound hv.sound, fun {g} hg ho' => ?_⟩
    rw [hsame.linked] at hg
    have hhd := hv.sound.head_block hf ho h0 h1 h2 hg
    rw [hhd.opens_eq] at ho'
    rw [hhd.fSize_eq]
    exact hv.size hg ho'

end Move

/-- **What moves keep.** -/
theorem Moves.rule (h : Moves P root dirs d d') (hv : Valid root dirs d) {I : Bytes → Prop} (h0 : I d)
    (hI : ∀ d d', Valid root dirs d → I d → Move P root dirs d d' → I d') :
    Valid root dirs d' ∧ I d' := by
  induction h with
  | refl => exact ⟨hv, h0⟩
  | tail _ h1 ih => exact ⟨h1.valid ih.1, hI _ _ ih.1 ih.2 h1⟩

theorem Moves.valid (h : Moves P root dirs d d') (hv : Valid root dirs d) : Valid root dirs d' :=
  (h.rule hv (I := fun _ => True) trivial fun _ _ _ _ _ => trivial).1

theorem Moves.linked (h : Moves P root dirs d d') (hv : Valid root dirs d)
    (hc : (tree root dirs d).Linked c) : (tree root dirs d').Linked c :=
  (h.rule hv (I := fun d => (tree root dirs d).Linked c) hc fun _ _ hv h1 h2 => h2.linked hv.sound h1).2

theorem Adds.moves (h : Adds P root dirs d d') : Moves P root dirs d d' := by
  induction h with
  | refl => exact .refl
  | tail _ h1 ih => exact ih.tail (.add h1)

/-! ## The calls -/

/-- A free entry is made in a directory by moves. -/
theorem dirAllocFile_moves {res : Except ℤ ℕ} (hP : DirsIn P root) (hv : Valid root true d)
    (hf : (tree root true d).Linked (.file f)) (hname : f = root ∨ nameFree d f = false)
    (ht : fType d f = ftypeDir) (h : dirAllocFile d f = some (res, d')) :
    Moves P root true d d' ∧ ∀ g, res = .ok g → (tree root true d').Linked (.file g) := by
  unfold dirAllocFile at h
  split at h
  · cases h
  obtain ⟨⟨r₁, d₁⟩, h1, h2⟩ := Option.bind_eq_some_iff.1 h
  have h6 := hv.size hf (opens_dir ht)
  obtain ⟨hA, -, h3, h4⟩ := dirScan_adds hv hf (fun i hi => hP hname h6 (fSize_lt d f) (List.mem_range.1 hi)) h1
  have hv₁ := hA.valid hv
  have hf₁ := hA.linked hv hf
  have hhd := hA.head hv hf
  rcases r₁ with e | _ | g
  · simp only [Option.some.injEq, Prod.mk.injEq] at h2
    obtain ⟨rfl, rfl⟩ := h2
    exact ⟨hA.moves, nofun⟩
  · -- every block of the directory was there, so its size is far from an overflow
    have h5 : dirBlocks d f ≤ 1034 := by
      by_contra h5
      have := h3 rfl 1034 (List.mem_range.2 (show 1034 < dirBlocks d f by omega))
      omega
    rw [dirBlocks_eq h6] at h5
    have h7 : fSize d₁ f = fSize d f := hhd.fSize_eq
    have hz : 0 ≤ fSize d₁ f + 4096 ∧ fSize d₁ f + 4096 < 2 ^ 31 := by omega
    have hM : Move P root true d₁ (setFSize d₁ f (fSize d₁ f + 4096)) := .grow hf₁ (by omega) hz.2 fun _ h => by omega
    have hv₂ := hM.valid hv₁
    have hf₂ := hM.linked hv₁.sound hf₁
    have hsz : fSize (setFSize d₁ f (fSize d₁ f + 4096)) f = fSize d₁ f + 4096 := fSize_setFSize hz.1 hz.2
    have hn : dirBlocks d f < u32 ((fSize d₁ f + 4096).tdiv 4096) := by
      rw [Int.tdiv_eq_ediv_of_nonneg hz.1, u32_of_nonneg (by omega) (by omega), dirBlocks_eq h6]
      omega
    have hfree : nameFree (setFSize d₁ f (fSize d₁ f + 4096)) f = nameFree d₁ f := by
      unfold nameFree setFSize
      rw [Bytes.byte_store32_off (by omega)]
    have hty : fType (setFSize d₁ f (fSize d₁ f + 4096)) f = fType d₁ f :=
      Bytes.load32_store32_off (by omega)
    obtain ⟨hA', -, h8⟩ := fileGetBlock_adds hv₂.sound hf₂
      (by rw [hsz]; exact hP (by rw [hfree, hhd.nameFree_eq]; exact hname) hz.1 hz.2 hn) h2
    refine ⟨(hA.moves.tail hM).trans hA'.moves, fun g hg => ?_⟩
    obtain ⟨-, h9, rfl⟩ := h8 g hg
    have h10 : opens true d' f = true :=
      opens_dir (by rw [(hA'.head hv₂ hf₂).fType_eq, hty, hhd.fType_eq, ht])
    have h11 := linked_entry (hA'.linked hv₂ hf₂) h10 h9 (show 0 < 16 by omega)
    rw [Nat.mul_zero, Nat.add_zero] at h11
    exact h11
  · simp only [Option.some.injEq, Prod.mk.injEq] at h2
    obtain ⟨rfl, rfl⟩ := h2
    refine ⟨hA.moves, fun g' hg => ?_⟩
    cases hg
    obtain ⟨-, i, -, -, h5, j, hj, rfl⟩ := h4 g rfl
    exact linked_entry hf₁ (opens_dir (by rw [hhd.fType_eq, ht])) h5 hj

/-- The walk from the root. -/
theorem walkPath_adds {path : CString} {w : Walk} (hP : DirsIn P sRoot) (hv : Valid sRoot true d)
    (h : walkPath d path = some (w, d')) :
    Adds P sRoot true d d' ∧ WalkOk sRoot d' (fun g => Names d (elements path) sRoot g) w := by
  obtain ⟨h1, h2⟩ := walkElements_adds hP hv .refl (Or.inl rfl) (elements_good path) h
  refine ⟨h1, ?_⟩
  rcases w with ⟨dir, g⟩ | ⟨r, last⟩
  · exact ⟨h2.1, h2.2.1, h2.2.2.1⟩
  · exact h2

theorem fileCreate_moves {path : CString} {res : Except ℤ ℕ} (hP : DirsIn P sRoot)
    (hv : Valid sRoot true d) (h : fileCreate d path = some (res, d')) :
    Moves P sRoot true d d' ∧ ∀ g, res = .ok g → (tree sRoot true d').Linked (.file g) := by
  obtain ⟨⟨w, d₁⟩, h1, h2⟩ := Option.bind_eq_some_iff.1 h
  obtain ⟨hA, hw⟩ := walkPath_adds hP hv h1
  have hv₁ := hA.valid hv
  rcases w with ⟨dir, g⟩ | ⟨r, _ | ⟨dir, name⟩⟩
  · simp only [Option.some.injEq, Prod.mk.injEq] at h2
    obtain ⟨rfl, rfl⟩ := h2
    exact ⟨hA.moves, nofun⟩
  · simp only [Option.some.injEq, Prod.mk.injEq] at h2
    obtain ⟨rfl, rfl⟩ := h2
    exact ⟨hA.moves, nofun⟩
  · obtain ⟨-, h3⟩ := hw
    obtain ⟨hf, hname, ht, hgood, hl⟩ := h3 dir name rfl
    by_cases hr : r ≠ -eNotFound
    · simp only [if_pos hr, Option.some.injEq, Prod.mk.injEq] at h2
      obtain ⟨rfl, rfl⟩ := h2
      exact ⟨hA.moves, nofun⟩
    · simp only [if_neg hr] at h2
      obtain ⟨⟨r₂, d₂⟩, h4, h5⟩ := Option.bind_eq_some_iff.1 h2
      obtain ⟨hM, h6⟩ := dirAllocFile_moves hP hv₁ hf hname ht h4
      rcases r₂ with e | g
      · simp only [Option.some.injEq, Prod.mk.injEq] at h5
        obtain ⟨rfl, rfl⟩ := h5
        exact ⟨hA.moves.trans hM, nofun⟩
      · simp only [Option.some.injEq, Prod.mk.injEq] at h5
        obtain ⟨rfl, rfl⟩ := h5
        obtain ⟨c, cs, rfl⟩ := List.exists_cons_of_ne_nil hgood.1
        have hN : Move P sRoot true d₂ (d₂.write g (c :: cs ++ [0])) := by
          refine .name (h6 g rfl) (by simp at hl ⊢; omega) (by simp) fun h7 => hgood.2 ?_
          rw [← Option.some.inj h7]
          exact List.mem_cons_self
        refine ⟨(hA.moves.trans hM).tail hN, fun g' hg => ?_⟩
        cases hg
        exact hN.linked (hM.valid hv₁).sound (h6 g rfl)

theorem fileOpen_adds {path : CString} {res : Except ℤ ℕ} (hP : DirsIn P sRoot)
    (hv : Valid sRoot true d) (h : fileOpen d path = some (res, d')) :
    Adds P sRoot true d d' ∧ ∀ g, res = .ok g → (tree sRoot true d').Linked (.file g) := by
  obtain ⟨⟨w, d₁⟩, h1, h2⟩ := Option.bind_eq_some_iff.1 h
  obtain ⟨hA, hw⟩ := walkPath_adds hP hv h1
  rcases w with ⟨dir, g⟩ | ⟨r, last⟩
  · simp only [Option.some.injEq, Prod.mk.injEq] at h2
    obtain ⟨rfl, rfl⟩ := h2
    refine ⟨hA, fun g' hg => ?_⟩
    cases hg
    exact hw.1
  · simp only [Option.some.injEq, Prod.mk.injEq] at h2
    obtain ⟨rfl, rfl⟩ := h2
    exact ⟨hA, nofun⟩

/-! ## Reading and writing -/

variable {pos : ℤ} {fin : ℕ}

theorem u32_eq (z : ℤ) : u32 z = (z % 2 ^ 32).toNat := by
  unfold u32
  rw [BitVec.toNat_ofInt]
  rfl

theorem u64_eq (z : ℤ) : u64 z = (z % 2 ^ 64).toNat := by
  unfold u64
  rw [BitVec.toNat_ofInt]
  rfl

/-- The block of a position starts at or before it. -/
theorem place_le (h0 : 0 ≤ pos) : u32 (pos.tdiv 4096) * 4096 ≤ u64 pos := by
  rw [Int.tdiv_eq_ediv_of_nonneg h0, u32_eq, u64_eq]
  omega

/-- One turn stays in its block. -/
theorem chunk_le (fin : ℕ) (h0 : 0 ≤ pos) : pos.toNat % 4096 + chunk fin pos ≤ 4096 := by
  unfold chunk
  rw [Int.tmod_eq_emod_of_nonneg h0]
  omega

/-- The block of a position in a file. -/
theorem place_eq (h0 : 0 ≤ pos) (h1 : pos < 2 ^ 32) : u32 (pos.tdiv 4096) = pos.toNat / 4096 := by
  rw [Int.tdiv_eq_ediv_of_nonneg h0, u32_of_nonneg (by omega) (by omega)]
  omega

/-- The bytes of one turn end with the block or with the range. -/
theorem chunk_eq (h0 : 0 ≤ pos) (h1 : pos ≤ fin) (h2 : fin < 2 ^ 32) :
    chunk fin pos = min (4096 - pos.toNat % 4096) (fin - pos.toNat) := by
  unfold chunk
  rw [Int.tmod_eq_emod_of_nonneg h0, u64_of_nonneg (by omega) (by omega)]
  omega

theorem fileReadLoop_adds {k : ℕ} {res : ℤ × List Byte} (hv : Valid root dirs d)
    (hf : (tree root dirs d).Linked (.file f))
    (hP : ∀ n, (0 ≤ pos → n * 4096 < fin) → P f n (nameFree d f) (fSize d f))
    (h : fileReadLoop f fin k pos d = some (res, d')) : Adds P root dirs d d' := by
  induction k generalizing d pos res with
  | zero =>
    simp only [fileReadLoop, Option.some.injEq, Prod.mk.injEq] at h
    rw [← h.2]
  | succ k ih =>
    unfold fileReadLoop at h
    by_cases hlt : u64 pos < fin
    · rw [if_pos hlt] at h
      obtain ⟨⟨r₁, d₁⟩, h3, h4⟩ := Option.bind_eq_some_iff.1 h
      obtain ⟨hA, -, -⟩ := fileGetBlock_adds hv.sound hf
        (hP _ fun h0 => lt_of_le_of_lt (place_le h0) hlt) h3
      rcases r₁ with e | blk
      · simp only [Option.some.injEq, Prod.mk.injEq] at h4
        rw [← h4.2]
        exact hA
      · obtain ⟨⟨r₂, d₂⟩, h5, h6⟩ := Option.bind_eq_some_iff.1 h4
        simp only [Option.some.injEq, Prod.mk.injEq] at h6
        have hhd := hA.head hv hf
        obtain ⟨-, rfl⟩ := h6
        refine hA.trans (ih (hA.valid hv) (hA.linked hv hf) (fun n hn => ?_) h5)
        rw [hhd.nameFree_eq, hhd.fSize_eq]
        exact hP n fun h0 => hn (by omega)
    · rw [if_neg hlt] at h
      simp only [Option.some.injEq, Prod.mk.injEq] at h
      rw [← h.2]

theorem fileRead_adds {count : ℕ} {offset : ℤ} {res : ℤ × List Byte} (hv : Valid root dirs d)
    (hf : (tree root dirs d).Linked (.file f))
    (hP : ∀ n, (0 ≤ offset → n * 4096 < (fSize d f).toNat) → P f n (nameFree d f) (fSize d f))
    (h : fileRead d f count offset = some (res, d')) : Adds P root dirs d d' := by
  unfold fileRead at h
  have hsz := fSize_lt d f
  split at h
  · simp only [Option.some.injEq, Prod.mk.injEq] at h
    rw [← h.2]
  · rename_i hlt
    obtain ⟨⟨⟨r, bs⟩, d₁⟩, h1, h2⟩ := Option.bind_eq_some_iff.1 h
    simp only [Option.some.injEq, Prod.mk.injEq] at h2
    rw [← h2.2]
    refine fileReadLoop_adds hv hf (fun n hn => hP n fun h0 => lt_of_lt_of_le (hn h0) ?_) h1
    have h3 : min count (u64 (fSize d f - offset)) ≤ u64 (fSize d f - offset) := min_le_right ..
    rw [u64_of_nonneg (z := fSize d f - offset) (by omega) (by omega)] at h3 ⊢
    rw [u64_of_nonneg (by omega) (by omega)]
    omega

/-- **One turn of the loop of `file_write`**: blocks are added, and the bytes go to a data
block of the file. -/
theorem write_turn {blk : ℕ} (buf : List Byte) (fin : ℕ) (hv : Valid root dirs d)
    (hf : (tree root dirs d).Linked (.file f)) (ho : opens dirs d f = false) (h0 : 0 ≤ pos)
    (hP : P f (u32 (pos.tdiv 4096)) (nameFree d f) (fSize d f))
    (h : fileGetBlock d f (u32 (pos.tdiv 4096)) = some (.ok blk, d₁)) :
    Adds P root dirs d d₁ ∧ fileBlock d₁ f (u32 (pos.tdiv 4096)) ≠ 0 ∧
      (blk + pos.tmod 4096).toNat = fileBlock d₁ f (u32 (pos.tdiv 4096)) * 4096 + pos.toNat % 4096 ∧
      Move P root dirs d₁ (d₁.write (blk + pos.tmod 4096).toNat (buf.take (chunk fin pos))) ∧
      SameHead f d (d₁.write (blk + pos.tmod 4096).toNat (buf.take (chunk fin pos))) := by
  obtain ⟨hA, -, hok⟩ := fileGetBlock_adds hv.sound hf hP h
  obtain ⟨-, h5, rfl⟩ := hok blk rfl
  generalize u32 (pos.tdiv 4096) = n at h h5 ⊢
  have hv₁ := hA.valid hv
  have hf₁ := hA.linked hv hf
  have hhd := hA.head hv hf
  have ho₁ : opens dirs d₁ f = false := by rw [hhd.opens_eq]; exact ho
  have h7 := chunk_le fin h0
  have hlen : (buf.take (chunk fin pos)).length ≤ chunk fin pos := List.length_take_le _ _
  have h9 : ((fileBlock d₁ f n * 4096 : ℕ) + pos.tmod 4096).toNat =
      fileBlock d₁ f n * 4096 + pos.toNat % 4096 := by
    rw [Int.tmod_eq_emod_of_nonneg h0]
    omega
  refine ⟨hA, h5, h9, ?_, ?_⟩
  · rw [h9]
    exact .data (n := n) hf₁ ho₁ h5 (by omega) (by omega)
  · rw [h9]
    intro x h1 h2
    rw [hv₁.sound.head_block hf₁ ho₁ h5 (by omega) (by omega) hf₁ x h1 h2, hhd x h1 h2]

/-- The loop of `file_write` adds blocks and writes to data blocks. -/
theorem fileWriteLoop_moves {k : ℕ} {res : ℤ} (hv : Valid root dirs d)
    (hf : (tree root dirs d).Linked (.file f)) (ho : opens dirs d f = false) (h0 : 0 ≤ pos)
    (hP : ∀ n, n * 4096 < fin → P f n (nameFree d f) (fSize d f))
    (h : fileWriteLoop f fin k pos buf d = some (res, d')) : Moves P root dirs d d' := by
  induction k generalizing d pos buf with
  | zero =>
    simp only [fileWriteLoop, Option.some.injEq, Prod.mk.injEq] at h
    rw [← h.2]
  | succ k ih =>
    unfold fileWriteLoop at h
    by_cases hlt : u64 pos < fin
    · rw [if_pos hlt] at h
      have hP₁ := hP _ (lt_of_le_of_lt (place_le h0) hlt)
      obtain ⟨⟨r₁, d₁⟩, h3, h4⟩ := Option.bind_eq_some_iff.1 h
      rcases r₁ with e | blk
      · obtain ⟨hA, -, -⟩ := fileGetBlock_adds hv.sound hf hP₁ h3
        simp only [Option.some.injEq, Prod.mk.injEq] at h4
        rw [← h4.2]
        exact hA.moves
      · obtain ⟨hA, -, -, hM, hhd⟩ := write_turn buf fin hv hf ho h0 hP₁ h3
        have hv₁ := hA.valid hv
        have hf₁ := hA.linked hv hf
        refine (hA.moves.tail hM).trans (ih (hM.valid hv₁) (hM.linked hv₁.sound hf₁) ?_ (by omega) ?_ h4)
        · rw [hhd.opens_eq]; exact ho
        · rw [hhd.nameFree_eq, hhd.fSize_eq]; exact hP
    · rw [if_neg hlt] at h
      simp only [Option.some.injEq, Prod.mk.injEq] at h
      rw [← h.2]

/-! ## Sizes -/

/-- `file_set_size`, to a size that is not negative if the file is a directory. -/
theorem fileSetSize_valid (hv : Valid root dirs d) (hf : (tree root dirs d).Linked (.file f))
    (hz : opens dirs d f = true → 0 ≤ z ∧ z < 2 ^ 31) (h : fileSetSize d f z = some d') :
    Valid root dirs d' ∧ (tree root dirs d').Linked (.file f) ∧ opens dirs d' f = opens dirs d f := by
  have hkeep : ∀ {d₁}, Valid root dirs d₁ → (tree root dirs d₁).Linked (.file f) →
      opens dirs d₁ f = opens dirs d f → Valid root dirs (setFSize d₁ f z) ∧
        (tree root dirs (setFSize d₁ f z)).Linked (.file f) ∧ opens dirs (setFSize d₁ f z) f = opens dirs d f := by
    intro d₁ hv₁ hf₁ ho
    refine ⟨hv₁.setFSize hf₁ (by rw [ho]; exact hz), (hv₁.sound.same_size hf₁).linked.2 hf₁, ?_⟩
    unfold opens at *
    rw [(hv₁.sound.same_size hf₁).type hf₁]
    exact ho
  unfold fileSetSize at h
  split at h
  · obtain ⟨d₁, h2, rfl⟩ := Option.map_eq_some_iff.1 h
    obtain ⟨hD, -, -⟩ := fileTruncateBlocks_drops hv hf h2
    obtain ⟨hv₁, hf₁⟩ := hD.valid hv hf
    exact hkeep hv₁ hf₁ (hD.head hv hf).opens_eq
  · obtain rfl := Option.some.inj h
    exact hkeep hv hf rfl

/-- The part of `file_write` before its loop. -/
theorem extendTo_valid (hv : Valid root dirs d) (hf : (tree root dirs d).Linked (.file f))
    (ho : opens dirs d f = false) (h : extendTo d f fin = some d') :
    Valid root dirs d' ∧ (tree root dirs d').Linked (.file f) ∧ opens dirs d' f = false := by
  unfold extendTo at h
  split at h
  · obtain ⟨h1, h2, h3⟩ := fileSetSize_valid hv hf (by rw [ho]; exact nofun) h
    exact ⟨h1, h2, h3.trans ho⟩
  · obtain rfl := Option.some.inj h
    exact ⟨hv, hf, ho⟩

/-- The size grows to the end of the write. -/
theorem growTo {offset : ℤ} (hf : (tree root dirs d).Linked (.file f))
    (hsz0 : 0 ≤ fSize d f) (ho : opens dirs d f = false) (h0 : 0 ≤ offset)
    (h1 : offset + buf.length < 2 ^ 31) (h : extendTo d f (u64 (offset + buf.length)) = some d₁) :
    Moves P root dirs d d₁ ∧ nameFree d₁ f = nameFree d f ∧ fSize d f ≤ fSize d₁ f ∧
      u64 (offset + buf.length) ≤ (fSize d₁ f).toNat := by
  have hsz := fSize_lt d f
  have hu : u64 (offset + buf.length) = (offset + buf.length).toNat := u64_of_nonneg (by omega) (by omega)
  unfold extendTo at h
  rw [u64_of_nonneg hsz0 (by omega), hu] at h
  rw [hu]
  split at h
  · rename_i hgt
    have hi : i32 (((offset + buf.length).toNat : ℕ) : ℤ) = offset + buf.length := by
      unfold i32
      rw [BitVec.toInt_ofInt, Int.bmod_eq_of_le (by omega) (by omega)]
      omega
    rw [hi] at h
    unfold fileSetSize at h
    rw [if_neg (by omega)] at h
    obtain rfl := Option.some.inj h
    have hM : Move P root dirs d (setFSize d f (offset + buf.length)) := .grow hf (by omega) h1 fun h2 => by
      rw [ho] at h2
      cases h2
    refine ⟨.single hM, ?_, ?_, ?_⟩
    · unfold nameFree setFSize
      rw [Bytes.byte_store32_off (by omega)]
    · rw [fSize_setFSize (by omega) h1]
      omega
    · rw [fSize_setFSize (by omega) h1]
  · obtain rfl := Option.some.inj h
    exact ⟨.refl, rfl, le_rfl, by omega⟩

/-- **Writing** to a file whose contents do not count is a run of moves. -/
theorem fileWrite_moves {offset : ℤ} {res : ℤ} (hv : Valid root dirs d)
    (hf : (tree root dirs d).Linked (.file f)) (hsz0 : 0 ≤ fSize d f) (ho : opens dirs d f = false)
    (h0 : 0 ≤ offset) (h1 : offset + buf.length < 2 ^ 31)
    (hP : ∀ n z, 0 ≤ z → z < 2 ^ 31 → n * 4096 < z.toNat → P f n (nameFree d f) z)
    (h : fileWrite d f buf offset = some (res, d')) : Moves P root dirs d d' := by
  obtain ⟨d₁, h2, h3⟩ := Option.bind_eq_some_iff.1 h
  obtain ⟨⟨r₁, d₂⟩, h4, h5⟩ := Option.bind_eq_some_iff.1 h3
  simp only [Option.some.injEq, Prod.mk.injEq] at h5
  obtain ⟨hM, hn₁, hle, hfin⟩ := growTo (P := P) hf hsz0 ho h0 h1 h2
  obtain ⟨hv₁, hf₁, ho₁⟩ := extendTo_valid hv hf ho h2
  rw [← h5.2]
  refine hM.trans (fileWriteLoop_moves hv₁ hf₁ ho₁ h0 (fun n hn => ?_) h4)
  rw [hn₁]
  exact hP n _ (by omega) (fSize_lt d₁ f) (by omega)

/-- So it keeps the layout valid, at any position that is not negative. -/
theorem fileWrite_valid {offset : ℤ} {res : ℤ} (hv : Valid root dirs d)
    (hf : (tree root dirs d).Linked (.file f)) (ho : opens dirs d f = false) (h0 : 0 ≤ offset)
    (h : fileWrite d f buf offset = some (res, d')) :
    Valid root dirs d' ∧ (tree root dirs d').Linked (.file f) := by
  obtain ⟨d₁, h2, h3⟩ := Option.bind_eq_some_iff.1 h
  obtain ⟨⟨r₁, d₂⟩, h4, h5⟩ := Option.bind_eq_some_iff.1 h3
  simp only [Option.some.injEq, Prod.mk.injEq] at h5
  obtain ⟨hv₁, hf₁, ho₁⟩ := extendTo_valid hv hf ho h2
  have hM := fileWriteLoop_moves (P := fun _ _ _ _ => True) hv₁ hf₁ ho₁ h0 (fun _ _ => trivial) h4
  rw [← h5.2]
  exact ⟨hM.valid hv₁, hM.linked hv₁ hf₁⟩

end Jos.Fs
