import Jos.Proof.Content
import Jos.Proof.Total

/-!
# What a call leaves of the other files

`Keeps d d' g` says that file `g` has the same name, size, type and block numbers, and the
same contents if it is a regular file. Reading, writing and truncating a file keeps all others
that are not below it.
-/

namespace Jos.Fs

open Lib

variable {root : ℕ} {dirs : Bool} {d d' d₁ d₂ : Bytes} {r c : Rec} {s t : Slot} {b f g m n p q x : ℕ}
  {bs buf : List Byte} {z pos : ℤ} {fin k : ℕ} {P : ℕ → ℕ → Bool → ℤ → Prop}

/-! ## Slots of other files -/

theorem load32_of_val_eq (h : (tree root dirs d').val r s = (tree root dirs d).val r s)
    (hp : r.word s = some p) : d'.load32 p = d.load32 p := by
  rcases hv : (tree root dirs d).val r s with _ | b
  · rw [(val_eq_none hp).1 hv, (val_eq_none hp).1 (h.trans hv)]
  · refine BitVec.eq_of_toNat_eq ?_
    rw [Sound.load32_of_val hp hv, Sound.load32_of_val hp (h.trans hv)]

/-- **A change of one slot of a file** leaves the slots of the others. -/
theorem Sound.slot_off (hs : Sound root dirs d) (hf : (tree root dirs d).Linked (.file f))
    (ho : Owners.Off (tree root dirs d) (tree root dirs d') (slotRec dirs d f t) t)
    (ha : slotAddr d f t = some p) (hg : (tree root dirs d).Linked (.file g)) (hne : g ≠ f) :
    slotBlock d' g s = slotBlock d g s := by
  have h1 : d'.load32 (fIndirect g) = d.load32 (fIndirect g) := by
    refine load32_of_val_eq (r := .file g) (s := .fIndirect) (ho.val _ _ hg ?_) rfl
    rintro ⟨h1, rfl⟩
    exact hne (Rec.file.inj h1)
  have h2 : slotAddr d' g s = slotAddr d g s := by
    cases s with
    | direct i => rfl
    | indirect j => simp only [slotAddr, h1]
    | fIndirect => rfl
  unfold slotBlock
  rw [h2]
  rcases hq : slotAddr d g s with _ | q
  · rfl
  refine congrArg BitVec.toNat (load32_of_val_eq (ho.val _ _ (linked_slotRec hg hq) ?_) (word_of_slotAddr hq))
  rintro ⟨h3, rfl⟩
  cases s with
  | direct i => exact hne (Rec.file.inj h3)
  | fIndirect => exact hne (Rec.file.inj h3)
  | indirect j =>
    -- the two files would share an indirect block
    have h4 := (Rec.table.inj h3).1
    have h5 : slotBlock d f .fIndirect ≠ 0 := by
      intro h5
      simp only [slotAddr] at ha
      split at ha
      · rename_i h6
        exact h6.2 (BitVec.eq_of_toNat_eq h5)
      · cases ha
    have h6 : slotBlock d g .fIndirect = slotBlock d f .fIndirect := h4
    exact hne (hs.slot_unique hf hg h5 h6).1

/-! ## What is kept of a file -/

/-- File `g` is as it was. -/
structure Keeps (d d' : Bytes) (g : ℕ) : Prop where
  head : SameHead g d d'
  slot : ∀ s, slotBlock d' g s = slotBlock d g s
  data : fType d g ≠ ftypeDir → ∀ x, fileByte d' g x = fileByte d g x

theorem Keeps.refl : Keeps d d g := ⟨fun _ _ _ => rfl, fun _ => rfl, fun _ _ => rfl⟩

theorem Keeps.trans (h : Keeps d d₁ g) (h' : Keeps d₁ d' g) : Keeps d d' g := by
  refine ⟨fun x h1 h2 => ?_, fun s => (h'.slot s).trans (h.slot s), fun ht x => ?_⟩
  · rw [h'.head x h1 h2, h.head x h1 h2]
  · rw [h'.data (by rw [h.head.fType_eq]; exact ht), h.data ht]

/-- The contents stay if the bytes of its blocks do. -/
theorem Keeps.of_bytes (hhd : SameHead g d d') (hslot : ∀ s, slotBlock d' g s = slotBlock d g s)
    (h : fType d g ≠ ftypeDir → ∀ n x, fileBlock d g n ≠ 0 → x / 4096 = fileBlock d g n →
      d'.byte x = d.byte x) : Keeps d d' g := by
  refine ⟨hhd, hslot, fun ht x => ?_⟩
  have h1 : fileBlock d' g (x / 4096) = fileBlock d g (x / 4096) := hslot _
  unfold fileByte
  rw [h1]
  split
  · rfl
  · rename_i h0
    exact h ht _ _ h0 (by omega)

/-- Dropping a block leaves the blocks that do not hold the slot. -/
theorem Sound.byte_dropBlock (hs : Sound root dirs d) (hr : (tree root dirs d).Linked r)
    (hp : r.word s = some p) (hv : (tree root dirs d).val r s = some b)
    (hg : (tree root dirs d).Linked (.file g)) (h1 : r.block ≠ fileBlock d g n)
    (h0 : fileBlock d g n ≠ 0) (hx : x / 4096 = fileBlock d g n) : (dropBlock d p).byte x = d.byte x := by
  have h5 := hs.word_block hr hp
  have h6 := hs.good (held_slotBlock hg h0)
  have h7 : bitmapWord (b / 32) / 4096 ≠ fileBlock d g n := by
    intro he
    have h8 := reserved_bitmapWord (hs.good ⟨hr, hv⟩).1.1
    rw [he] at h8
    exact h6.2.1 h8
  unfold dropBlock
  rw [Sound.load32_of_val hp hv, Bytes.byte_store32_off (by omega), byte_markBlock (by omega)]

section Step

variable (hs : Sound root dirs d) (hf : (tree root dirs d).Linked (.file f))
  (hg : (tree root dirs d).Linked (.file g)) (hne : g ≠ f)
include hs hf hg hne

theorem keeps_size : Keeps d (setFSize d f z) g := by
  have hsame : Same root dirs d (setFSize d f z) := hs.same_size hf
  refine .of_bytes (hs.head_write hf (by omega) (by simp) hg hne) (fun s => hsame.slotBlock_eq hg)
    fun ht n x h0 hx => ?_
  have h1 := hs.data_apart hg (opens_regular ht) h0 hf
  have h2 := hs.fits_block hf
  simp only [Rec.base, Rec.size] at h2
  exact Bytes.byte_store32_off (by omega)

theorem keeps_name (hl : bs.length ≤ 128) : Keeps d (d.write f bs) g := by
  have hsame : Same root dirs d (d.write f bs) := hs.same_head hf le_rfl (by omega)
  refine .of_bytes (hs.head_write hf le_rfl (by omega) hg hne) (fun s => hsame.slotBlock_eq hg)
    fun ht n x h0 hx => ?_
  have h1 := hs.data_apart hg (opens_regular ht) h0 hf
  have h2 := hs.fits_block hf
  simp only [Rec.base, Rec.size] at h2
  exact Bytes.byte_write_off (by omega)

theorem keeps_data (ho : opens dirs d f = false) (h0 : fileBlock d f n ≠ 0) (h1 : fileBlock d f n * 4096 ≤ q)
    (h2 : q + bs.length ≤ (fileBlock d f n + 1) * 4096) : Keeps d (d.write q bs) g := by
  have hsame := hs.same_block hf ho h0 h1 h2
  refine .of_bytes (hs.head_block hf ho h0 h1 h2 hg) (fun s => hsame.slotBlock_eq hg)
    fun ht m x h3 hx => ?_
  have h4 : fileBlock d g m ≠ fileBlock d f n := fun h4 => hne (hs.slot_unique hf hg h0 h4).1
  exact Bytes.byte_write_off (by omega)

theorem keeps_drop (h : DropStep f m d d') : Keeps d d' g := by
  have hhd := h.head hs hf hg
  cases h with
  | @mk t p ha h0 _ =>
    have h1 : (d.load32 p).toNat ≠ 0 := fun h1 => h0 (BitVec.eq_of_toNat_eq h1)
    have hr := linked_slotRec hf ha
    have hp : (slotRec dirs d f t).word t = some p := word_of_slotAddr ha
    have hv : (tree root dirs d).val (slotRec dirs d f t) t = some (d.load32 p).toNat :=
      val_eq_some.2 ⟨p, hp, rfl, h1⟩
    refine .of_bytes hhd (fun s => hs.slot_off hf (hs.off_dropBlock hr hp hv) ha hg hne)
      fun ht n x h3 hx => ?_
    exact hs.byte_dropBlock hr hp hv hg (hs.data_apart hg (opens_regular ht) h3 hr) h3 hx

end Step

theorem AddStep.keeps (h : AddStep P root dirs d d') (hP : ∀ k n free z, P k n free z → k = f)
    (hs : Sound root dirs d) (hg : (tree root dirs d).Linked (.file g)) (hne : g ≠ f) : Keeps d d' g := by
  obtain ⟨k, n, t, -, hk, -, hslot⟩ := h.slot_new hs
  obtain rfl := hP _ _ _ _ hk
  exact ⟨h.head hs hg, fun s => hslot g s hg fun h1 => hne h1.1,
    fun ht x => h.fileByte_eq hs hg (opens_regular ht)⟩

theorem Adds.keeps (h : Adds P root dirs d d') (hP : ∀ k n free z, P k n free z → k = f)
    (hv : Valid root dirs d) (hg : (tree root dirs d).Linked (.file g)) (hne : g ≠ f) : Keeps d d' g :=
  (h.rule hv (I := fun d₁ => (tree root dirs d₁).Linked (.file g) ∧ Keeps d d₁ g) ⟨hg, .refl⟩
    fun _ _ hv₁ h1 h2 => ⟨h2.linked hv₁.sound h1.1, h1.2.trans (h2.keeps hP hv₁.sound h1.1 hne)⟩).2.2

/-! ## Dropping blocks -/

/-- Files that are not below a file stay linked when it is truncated. -/
theorem DropStep.linked_other (h : DropStep f m d d') (hs : Sound root dirs d)
    (hf : (tree root dirs d).Linked (.file f)) (hc : (tree root dirs d).Linked c)
    (hn : ¬ (tree root dirs d).From (.file f) c) : (tree root dirs d').Linked c := by
  obtain ⟨r, s, p, b, hfr, hr, hp, hv, rfl⟩ := h.slot hf
  exact Owners.unlink_other (hs.off_dropBlock hr hp hv) hc fun h1 => hn (hfr.trans h1)

theorem DropStep.from_mono (h : DropStep f m d d') (hs : Sound root dirs d)
    (hf : (tree root dirs d).Linked (.file f)) (h1 : (tree root dirs d').From (.file f) c) :
    (tree root dirs d).From (.file f) c := by
  obtain ⟨r, s, p, b, -, hr, hp, hv, rfl⟩ := h.slot hf
  have ho := hs.off_dropBlock hr hp hv
  refine Owners.From.mono hf (fun r' s' b' hr' hv' => ?_) (fun r' s' b' hr' => (ho.kids r' s' b' hr').le) h1
  by_cases he : r' = r ∧ s' = s
  · obtain ⟨rfl, rfl⟩ := he
    rw [Sound.val_dropBlock hp] at hv'
    cases hv'
  · rw [← ho.val r' s' hr' he]
    exact hv'

theorem Drops.keeps (h : Drops f m d d') (hv : Valid root dirs d) (hf : (tree root dirs d).Linked (.file f))
    (hg : (tree root dirs d).Linked (.file g)) (hne : g ≠ f)
    (hn : ¬ (tree root dirs d).From (.file f) (.file g)) :
    (tree root dirs d').Linked (.file g) ∧ Keeps d d' g := by
  have h1 := (h.rule hv hf (I := fun d₁ => (tree root dirs d₁).Linked (.file g) ∧
    ¬ (tree root dirs d₁).From (.file f) (.file g) ∧ Keeps d d₁ g) ⟨hg, hn, .refl⟩
    fun d₁ d₂ hv₁ hf₁ h1 h2 => ?_).2.2
  · exact ⟨h1.1, h1.2.2⟩
  · obtain ⟨h3, h4, h5⟩ := h1
    exact ⟨h2.linked_other hv₁.sound hf₁ h3 h4, fun h6 => h4 (h2.from_mono hv₁.sound hf₁ h6),
      h5.trans (keeps_drop hv₁.sound hf₁ h3 hne h2)⟩

/-- No file lies below a regular one. -/
theorem regular_from (ht : fType d f ≠ ftypeDir) (h : (tree root dirs d).From (.file f) (.file g)) : g = f := by
  have key : ∀ c, (tree root dirs d).From (.file f) c → c = .file f ∨ ∃ t, c = .table t false := by
    intro c h
    induction h with
    | refl => exact Or.inl rfl
    | @kid r s b c _ hv hk ih =>
      have ho : opens dirs d f = false := opens_regular ht
      rcases ih with rfl | ⟨t, rfl⟩
      · cases s with
        | direct i =>
          simp only [tree, kids, ho] at hk
          exact absurd hk (Set.notMem_empty _)
        | indirect j => exact absurd hk (Set.notMem_empty _)
        | fIndirect =>
          simp only [tree, kids, ho] at hk
          exact Or.inr ⟨_, hk⟩
      · exact absurd hk (Set.notMem_empty _)
  rcases key _ h with h1 | ⟨t, h1⟩
  · exact Rec.file.inj h1
  · cases h1

/-- **Setting a size** keeps the files that are not below. -/
theorem fileSetSize_keeps (hv : Valid root dirs d) (hf : (tree root dirs d).Linked (.file f))
    (hg : (tree root dirs d).Linked (.file g)) (hne : g ≠ f)
    (hn : ¬ (tree root dirs d).From (.file f) (.file g)) (h : fileSetSize d f z = some d') :
    (tree root dirs d').Linked (.file g) ∧ Keeps d d' g := by
  unfold fileSetSize at h
  split at h
  · obtain ⟨d₁, h1, rfl⟩ := Option.map_eq_some_iff.1 h
    obtain ⟨hD, -, -⟩ := fileTruncateBlocks_drops hv hf h1
    obtain ⟨hg₁, hk⟩ := hD.keeps hv hf hg hne hn
    obtain ⟨hv₁, hf₁⟩ := hD.valid hv hf
    exact ⟨(hv₁.sound.same_size hf₁).linked.2 hg₁, hk.trans (keeps_size hv₁.sound hf₁ hg₁ hne)⟩
  · obtain rfl := Option.some.inj h
    exact ⟨(hv.sound.same_size hf).linked.2 hg, keeps_size hv.sound hf hg hne⟩

/-! ## Writing and reading -/

/-- **What the loop of `file_write` keeps**: what adding a block to the file and writing to one
of its blocks keep. -/
theorem fileWriteLoop_rule {res : ℤ} {I : Bytes → Prop} (hv : Valid root dirs d)
    (hf : (tree root dirs d).Linked (.file f)) (ho : opens dirs d f = false) (h0 : 0 ≤ pos)
    (hP : ∀ n, n * 4096 < fin → P f n (nameFree d f) (fSize d f)) (hI : I d)
    (hadd : ∀ d d', Valid root dirs d → (tree root dirs d).Linked (.file f) → I d →
      AddStep P root dirs d d' → I d')
    (hdata : ∀ d n q bs, Valid root dirs d → (tree root dirs d).Linked (.file f) →
      opens dirs d f = false → I d → fileBlock d f n ≠ 0 → fileBlock d f n * 4096 ≤ q →
      q + bs.length ≤ (fileBlock d f n + 1) * 4096 → I (d.write q bs))
    (h : fileWriteLoop f fin k pos buf d = some (res, d')) : I d' := by
  have hadds : ∀ {d d'}, Valid root dirs d → (tree root dirs d).Linked (.file f) → I d →
      Adds P root dirs d d' → I d' := fun hv hf hI hA =>
    (hA.rule hv (I := fun d => (tree root dirs d).Linked (.file f) ∧ I d) ⟨hf, hI⟩
      fun _ _ hv h1 h2 => ⟨h2.linked hv.sound h1.1, hadd _ _ hv h1.1 h1.2 h2⟩).2.2
  induction k generalizing d pos buf with
  | zero =>
    simp only [fileWriteLoop, Option.some.injEq, Prod.mk.injEq] at h
    rw [← h.2]
    exact hI
  | succ k ih =>
    unfold fileWriteLoop at h
    split at h
    · rename_i hlt
      have hP₁ := hP _ (lt_of_le_of_lt (place_le h0) hlt)
      obtain ⟨⟨r₁, d₁⟩, h1, h2⟩ := Option.bind_eq_some_iff.1 h
      rcases r₁ with e | blk
      · obtain ⟨hA, -⟩ := fileGetBlock_adds hv.sound hf hP₁ h1
        simp only [Option.some.injEq, Prod.mk.injEq] at h2
        rw [← h2.2]
        exact hadds hv hf hI hA
      · obtain ⟨hA, h3, h4, hM, hhd⟩ := write_turn buf fin hv hf ho h0 hP₁ h1
        have hv₁ := hA.valid hv
        have hf₁ := hA.linked hv hf
        have h5 := chunk_le fin h0
        have hlen : (buf.take (chunk fin pos)).length ≤ chunk fin pos := List.length_take_le _ _
        have ho₁ : opens dirs d₁ f = false := by rw [(hA.head hv hf).opens_eq]; exact ho
        refine ih (hM.valid hv₁) (hM.linked hv₁.sound hf₁) (by rw [hhd.opens_eq]; exact ho) (by omega) ?_ ?_ h2
        · rw [hhd.nameFree_eq, hhd.fSize_eq]
          exact hP
        · rw [h4]
          exact hdata d₁ _ _ _ hv₁ hf₁ ho₁ (hadds hv hf hI hA) h3 (by omega) (by omega)
    · simp only [Option.some.injEq, Prod.mk.injEq] at h
      rw [← h.2]
      exact hI

theorem fileWriteLoop_keeps {res : ℤ} (hv : Valid root dirs d) (hf : (tree root dirs d).Linked (.file f))
    (ho : opens dirs d f = false) (h0 : 0 ≤ pos) (hg : (tree root dirs d).Linked (.file g)) (hne : g ≠ f)
    (h : fileWriteLoop f fin k pos buf d = some (res, d')) :
    (tree root dirs d').Linked (.file g) ∧ Keeps d d' g := by
  refine fileWriteLoop_rule (I := fun d₁ => (tree root dirs d₁).Linked (.file g) ∧ Keeps d d₁ g)
    hv hf ho h0 (P := Only f) (fun _ _ => rfl) ⟨hg, .refl⟩ (fun d₁ d₂ hv₁ _ h1 h2 => ?_) (fun d₁ n q bs hv₁ hf₁ ho₁ h1 h2 h3 h4 => ?_) h
  · exact ⟨h2.linked hv₁.sound h1.1,
      h1.2.trans (h2.keeps (fun _ _ _ _ h => h) hv₁.sound h1.1 hne)⟩
  · exact ⟨(hv₁.sound.same_block hf₁ ho₁ h2 h3 h4).linked.2 h1.1,
      h1.2.trans (keeps_data hv₁.sound hf₁ h1.1 hne ho₁ h2 h3 h4)⟩

/-- **Writing to a regular file** keeps every other. -/
theorem fileWrite_keeps {res : ℤ} (hv : Valid root dirs d) (hf : (tree root dirs d).Linked (.file f))
    (ht : fType d f ≠ ftypeDir) (h1 : -2 ^ 31 ≤ pos) (hl : buf.length < 2 ^ 32)
    (hok : WriteOk pos buf.length) (hg : (tree root dirs d).Linked (.file g)) (hne : g ≠ f)
    (h : fileWrite d f buf pos = some (res, d')) :
    (tree root dirs d').Linked (.file g) ∧ Keeps d d' g := by
  obtain ⟨d₁, h2, h3⟩ := Option.bind_eq_some_iff.1 h
  obtain ⟨⟨r₁, d₂⟩, h4, h5⟩ := Option.bind_eq_some_iff.1 h3
  simp only [Option.some.injEq, Prod.mk.injEq] at h5
  rw [← h5.2]
  have h6 : (tree root dirs d₁).Linked (.file g) ∧ Keeps d d₁ g := by
    unfold extendTo at h2
    split at h2
    · exact fileSetSize_keeps hv hf hg hne (fun h => hne (regular_from ht h)) h2
    · obtain rfl := Option.some.inj h2
      exact ⟨hg, .refl⟩
  obtain ⟨hv₁, hf₁, ho₁⟩ := extendTo_valid hv hf (opens_regular ht) h2
  by_cases h0 : 0 ≤ pos
  · obtain ⟨h7, h8⟩ := fileWriteLoop_keeps hv₁ hf₁ ho₁ h0 h6.1 hne h4
    exact ⟨h7, h6.2.trans h8⟩
  · obtain ⟨res, h7, -⟩ := fileWriteLoop_skip (f := f) (d := d₁) _ (by omega) h1 hok hl
    rw [h7] at h4
    simp only [Option.some.injEq, Prod.mk.injEq] at h4
    rw [← h4.2]
    exact h6

end Jos.Fs
