import Jos.Proof.Fsck

/-!
# Adding and dropping a block

What the two changes of `Jos.Proof.Disk` do to a sound layout: `addBlock` links one block,
`dropBlock` unlinks one, and nothing else changes. A write that misses the slots, the types
and the bitmap changes nothing (`Sound.congr`).
-/

namespace Jos.Fs

open Lib

variable {root : ℕ} {dirs : Bool} {d d' : Bytes} {r r' c : Rec} {s s' : Slot} {b f n p q : ℕ}

namespace Sound

variable (hs : Sound root dirs d)
include hs

section Slot

variable (hr : (tree root dirs d).Linked r) (hp : r.word s = some p)
include hr hp

theorem word_block : p / 4096 = r.block ∧ (p + 3) / 4096 = r.block := by
  have h1 := word_fits hp
  have h2 := hs.fits_block hr
  constructor <;> omega

omit hr hp in
theorem linked_miss (hr' : (tree root dirs d).Linked r') (h : r'.base ≤ q) (h' : q + 4 ≤ r'.base + r'.size) :
    (∀ c < nblocks d, q / 4096 ≠ bitmapWord (c / 32) / 4096 ∧
      (q + 3) / 4096 ≠ bitmapWord (c / 32) / 4096) ∧ q / 4096 = r'.block ∧ (q + 3) / 4096 = r'.block := by
  have h2 := hs.fits_block hr'
  have h3 : q / 4096 = r'.block ∧ (q + 3) / 4096 = r'.block := by constructor <;> omega
  refine ⟨fun c hc => ?_, h3⟩
  rw [h3.1, h3.2]
  exact ⟨(hs.block_used hr').2.1 c hc, (hs.block_used hr').2.1 c hc⟩

theorem nblocks_mark {u : Bool} {w : BitVec 32} :
    nblocks ((markBlock d b u).store32 p w) = nblocks d := by
  have h1 := word_fits hp
  have h2 := (hs.block_used hr).2.2
  have h3 : nblocks (markBlock d b u) = nblocks d := nblocks_markBlock
  rw [← h3]
  unfold nblocks
  rw [Bytes.load32_store32_off (by omega)]

theorem blockIsFree_mark {u : Bool} {w : BitVec 32} {c : ℕ} :
    blockIsFree ((markBlock d b u).store32 p w) c =
      if c = b then decide (b < nblocks d) && u else blockIsFree d c := by
  rw [← blockIsFree_markBlock, blockIsFree_eq, blockIsFree_eq, hs.nblocks_mark hr hp,
    nblocks_markBlock]
  by_cases hc : c < nblocks d
  · have h1 := hs.word_block hr hp
    have h2 := (hs.block_used hr).2.1 c hc
    rw [Bytes.load32_store32_off]
    unfold bitmapWord at *
    omega
  · simp [hc]

theorem off_mark (hb : b < nblocks d) {u : Bool} {w : BitVec 32} :
    Owners.Off (tree root dirs d) (tree root dirs ((markBlock d b u).store32 p w)) r s := by
  refine ⟨rfl, fun r' s' hr' hne => val_congr fun q hq => ?_, fun r' s' c hr' => kids_congr ?_⟩
  · have h1 := word_fits hq
    exact load32_mark hb (hs.slots_apart hr hr' hp hq hne).symm (hs.linked_miss hr' h1.1 h1.2).1
  · rintro f rfl
    refine load32_mark hb ?_ (hs.linked_miss hr' (q := f + 132) ?_ ?_).1
    · by_cases he : r = .file f
      · subst he
        have := fType_apart hp
        omega
      · have h1 := word_fits hp
        rcases hs.records_apart hr hr' he with h2 | h2 <;> simp only [Rec.base, Rec.size] at h1 h2 <;> omega
    · simp only [Rec.base]; omega
    · simp only [Rec.base, Rec.size]; omega

omit hr hp in
/-- A free block is apart from every record and from the bitmap. -/
theorem free_apart (hb : blockIsFree d b = true) :
    2 ≤ b ∧ (∀ c < nblocks d, bitmapWord (c / 32) / 4096 ≠ b) ∧
      ∀ r', (tree root dirs d).Linked r' → r'.block ≠ b := by
  have h1 : ∀ c, Reserved d c → c ≠ b := by
    rintro c hc rfl
    rw [hs.reserved c hc] at hb
    cases hb
  refine ⟨?_, fun c hc => h1 _ (reserved_bitmapWord hc), fun r' hr' he => ?_⟩
  · by_contra h2
    exact h1 b (Or.inl (by omega)) rfl
  · have h2 := (hs.block_used hr').1
    rw [he, hb] at h2
    cases h2

omit hp in
/-- The bytes of linked records other than a slot. -/
theorem byte_mark (hb : b < nblocks d) {u : Bool} {w : BitVec 32} {x : ℕ}
    (h1 : r.base ≤ x) (h2 : x < r.base + r.size) (h3 : x < p ∨ p + 4 ≤ x) :
    ((markBlock d b u).store32 p w).byte x = d.byte x := by
  have h4 := (hs.block_used hr).2.1 b hb
  have h5 := hs.fits_block hr
  rw [Bytes.byte_store32_off h3, byte_markBlock]
  omega

/-! ### Dropping a block -/

section Drop

variable (hv : (tree root dirs d).val r s = some b)
include hv

omit hs hr in
theorem load32_of_val : (d.load32 p).toNat = b := by
  obtain ⟨q, hq, h1, -⟩ := val_eq_some.1 hv
  rw [hp] at hq
  rw [Option.some.inj hq]
  exact h1

omit hv in
theorem nblocks_dropBlock : nblocks (dropBlock d p) = nblocks d := hs.nblocks_mark hr hp

theorem blockIsFree_dropBlock {c : ℕ} :
    blockIsFree (dropBlock d p) c = if c = b then true else blockIsFree d c := by
  have h1 := hs.blockIsFree_mark hr hp (b := b) (u := true) (w := 0) (c := c)
  unfold dropBlock
  rw [load32_of_val hp hv, h1]
  simp [(hs.good ⟨hr, hv⟩).1.1]

theorem off_dropBlock : Owners.Off (tree root dirs d) (tree root dirs (dropBlock d p)) r s := by
  unfold dropBlock
  rw [load32_of_val hp hv]
  exact hs.off_mark hr hp (hs.good ⟨hr, hv⟩).1.1

omit hs hr hv in
theorem val_dropBlock : (tree root dirs (dropBlock d p)).val r s = none := by
  rw [val_eq_none hp]
  unfold dropBlock
  exact Bytes.load32_store32 ..

/-- **Dropping a block** links nothing. -/
theorem linked_dropBlock (h : (tree root dirs (dropBlock d p)).Linked c) :
    (tree root dirs d).Linked c :=
  Owners.unlink_mono (hs.off_dropBlock hr hp hv) (val_dropBlock hp) h

theorem held_dropBlock {b' : ℕ} (h : (tree root dirs (dropBlock d p)).Held r' s' b') :
    (tree root dirs d).Held r' s' b' ∧ ¬ (r' = r ∧ s' = s) :=
  Owners.unlink_held_mono (hs.off_dropBlock hr hp hv) (val_dropBlock hp) h

/-- **Dropping a block keeps the layout sound.** -/
theorem drop : Sound root dirs (dropBlock d p) := by
  have hn := hs.nblocks_dropBlock hr hp
  have hf : ∀ c, blockIsFree (dropBlock d p) c = if c = b then true else blockIsFree d c :=
    fun _ => hs.blockIsFree_dropBlock hr hp hv
  have hh : ∀ r' s' b', (tree root dirs (dropBlock d p)).Held r' s' b' →
      (tree root dirs d).Held r' s' b' ∧ ¬ (r' = r ∧ s' = s) :=
    fun _ _ _ => hs.held_dropBlock hr hp hv
  have hres : ∀ c, Reserved (dropBlock d p) c ↔ Reserved d c := fun c => by
    unfold Reserved; rw [hn]
  obtain ⟨h1, h2, h3⟩ := hs.good ⟨hr, hv⟩
  refine ⟨hs.alone.mono fun r' s' b' h => (hh r' s' b' h).1, ?_, hs.low, hs.fits, ?_, ?_, ?_⟩
  · intro r' s' b' h
    obtain ⟨h4, h5⟩ := hh r' s' b' h
    have hne : b' ≠ b := by
      rintro rfl
      exact h5 (hs.alone h4 ⟨hr, hv⟩)
    rw [hres]
    unfold InUse
    rw [hn, hf, if_neg hne]
    exact hs.good h4
  · rw [hf, if_neg (Ne.symm h3)]
    exact hs.used
  · rw [hn]
    exact hs.bitmap
  · intro c hc
    rw [hres] at hc
    rw [hf, if_neg (by rintro rfl; exact h2 hc)]
    exact hs.reserved c hc

end Drop

/-! ### Adding a block -/

section Add

variable (hb : blockIsFree d b = true)
include hb

theorem nblocks_addBlock : nblocks (addBlock d p b) = nblocks d := by
  have h1 := (hs.free_apart hb).1
  rw [← hs.nblocks_mark hr hp (b := b) (u := false) (w := BitVec.ofNat 32 b)]
  unfold nblocks addBlock
  rw [Bytes.load32_zero_off (by omega)]

theorem blockIsFree_addBlock {c : ℕ} :
    blockIsFree (addBlock d p b) c = if c = b then false else blockIsFree d c := by
  have h0 := hs.blockIsFree_mark hr hp (b := b) (u := false) (w := BitVec.ofNat 32 b) (c := c)
  rw [Bool.and_false] at h0
  rw [← h0, blockIsFree_eq, blockIsFree_eq, hs.nblocks_addBlock hr hp hb, hs.nblocks_mark hr hp]
  by_cases hc : c < nblocks d
  · have h1 := (hs.free_apart hb).2.1 c hc
    unfold addBlock
    rw [Bytes.load32_zero_off]
    unfold bitmapWord at *
    omega
  · simp [hc]

theorem off_addBlock :
    Owners.Off (tree root dirs d) (tree root dirs (addBlock d p b)) r s := by
  obtain ⟨-, h1, h2⟩ := hs.off_mark hr hp (blockIsFree_lt hb) (u := false) (w := BitVec.ofNat 32 b)
  have h3 := (hs.free_apart hb).2.2
  refine ⟨rfl, fun r' s' hr' hne => ?_, fun r' s' c hr' => ?_⟩
  · rw [← h1 r' s' hr' hne]
    refine val_congr fun q hq => Bytes.load32_zero_off ?_
    obtain ⟨-, h4, h5⟩ := hs.linked_miss hr' (word_fits hq).1 (word_fits hq).2
    have := h3 r' hr'
    omega
  · rw [← h2 r' s' c hr']
    refine kids_congr fun f hf => Bytes.load32_zero_off ?_
    have h4 := hs.fits_block hr'
    have := h3 r' hr'
    subst hf
    simp only [Rec.base, Rec.size] at h4
    omega

theorem val_addBlock : (tree root dirs (addBlock d p b)).val r s = some b := by
  have h1 := hs.word_block hr hp
  have h2 := hs.free_apart hb
  have h3 := h2.2.2 r hr
  have h4 := blockIsFree_lt hb
  have h5 : nblocks d < 2 ^ 32 := (d.load32 4100).isLt
  refine val_eq_some.2 ⟨p, hp, ?_, by omega⟩
  unfold addBlock
  rw [Bytes.load32_zero_off (by omega), Bytes.load32_store32, BitVec.toNat_ofNat,
    Nat.mod_eq_of_lt (by omega)]

omit hs hr hp hb in
/-- The records in a cleared block are empty. -/
theorem val_cleared {r₀ c : Rec} {s₀ t : Slot} (hc : c ∈ kids dirs d r₀ s₀ b) :
    (tree root dirs (addBlock d p b)).val c t = none := by
  have h1 := kid_fits hc
  rcases hw : c.word t with _ | q
  · simp [tree, hw]
  · have h2 := word_fits hw
    exact (val_eq_none hw).2 (Bytes.load32_zero_in (by omega) (by omega))

variable (h0 : d.load32 p = 0)
include h0

/-- **Adding a block** links the records in it, which are empty. -/
theorem linked_addBlock : (tree root dirs (addBlock d p b)).Linked c ↔
    (tree root dirs d).Linked c ∨ c ∈ kids dirs d r s b :=
  Owners.link_iff (hs.off_addBlock hr hp hb) hr ((val_eq_none hp).2 h0) (hs.val_addBlock hr hp hb)
    fun _ hc _ => val_cleared hc

theorem held_addBlock {b' : ℕ} : (tree root dirs (addBlock d p b)).Held r' s' b' ↔
    (tree root dirs d).Held r' s' b' ∨ (r' = r ∧ s' = s ∧ b' = b) :=
  Owners.link_held (hs.off_addBlock hr hp hb) hr ((val_eq_none hp).2 h0) (hs.val_addBlock hr hp hb)
    fun _ hc _ => val_cleared hc

/-- **Adding a block keeps the layout sound.** -/
theorem add : Sound root dirs (addBlock d p b) := by
  have hn := hs.nblocks_addBlock hr hp hb
  have hf : ∀ c, blockIsFree (addBlock d p b) c = if c = b then false else blockIsFree d c :=
    fun _ => hs.blockIsFree_addBlock hr hp hb
  have hh : ∀ r' s' b', (tree root dirs (addBlock d p b)).Held r' s' b' ↔
      (tree root dirs d).Held r' s' b' ∨ (r' = r ∧ s' = s ∧ b' = b) :=
    fun _ _ _ => hs.held_addBlock hr hp hb h0
  have hres : ∀ c, Reserved (addBlock d p b) c ↔ Reserved d c := fun c => by
    unfold Reserved; rw [hn]
  have hnew : ∀ c, blockIsFree d c = false → c ≠ b := by
    rintro c hc rfl
    rw [hb] at hc
    cases hc
  refine ⟨?_, ?_, hs.low, hs.fits, ?_, ?_, ?_⟩
  · exact hs.alone.insert (fun r' s' h => not_inUse_of_free hb (hs.good h).1)
      fun r' s' b' h => (hh r' s' b').1 h
  · intro r' s' b' h
    rw [hres]
    unfold InUse
    rw [hn, hf]
    rcases (hh r' s' b').1 h with h | ⟨-, -, rfl⟩
    · obtain ⟨h1, h2, h3⟩ := hs.good h
      rw [if_neg (hnew b' h1.2)]
      exact ⟨h1, h2, h3⟩
    · rw [if_pos rfl]
      refine ⟨⟨blockIsFree_lt hb, rfl⟩, fun h1 => ?_, fun h1 => ?_⟩
      · exact hnew _ (hs.reserved _ h1) rfl
      · exact hnew _ hs.used h1.symm
  · rw [hf, if_neg (hnew _ hs.used)]
    exact hs.used
  · rw [hn]
    exact hs.bitmap
  · intro c hc
    rw [hres] at hc
    rw [hf, if_neg (hnew c (hs.reserved c hc))]
    exact hs.reserved c hc

end Add

end Slot

end Sound

/-! ### Writes that miss the layout -/

/-- The two disks have the same bitmap, and the same slots and types of linked files. -/
structure Same (root : ℕ) (dirs : Bool) (d d' : Bytes) : Prop where
  nblocks : nblocks d' = nblocks d
  free : ∀ b, blockIsFree d' b = blockIsFree d b
  slot : ∀ {r s p}, (tree root dirs d).Linked r → r.word s = some p → d'.load32 p = d.load32 p
  type : ∀ {f}, (tree root dirs d).Linked (.file f) → fType d' f = fType d f

namespace Same

variable (h : Same root dirs d d')
include h

theorem val (hr : (tree root dirs d).Linked r) :
    (tree root dirs d').val r s = (tree root dirs d).val r s :=
  val_congr fun _ hp => h.slot hr hp

theorem kids_eq (hr : (tree root dirs d).Linked r) : kids dirs d' r s b = kids dirs d r s b := by
  refine @kids_congr root dirs _ _ _ _ _ ?_
  rintro f rfl
  exact h.type hr

theorem linked : (tree root dirs d').Linked c ↔ (tree root dirs d).Linked c :=
  Owners.linked_congr rfl (fun _ _ hr => h.val hr) fun _ _ _ hr => h.kids_eq hr

theorem held : (tree root dirs d').Held r s b ↔ (tree root dirs d).Held r s b := by
  unfold Owners.Held
  rw [h.linked]
  exact and_congr_right fun hr => by rw [h.val hr]

theorem inUse : InUse d' b ↔ InUse d b := by unfold InUse; rw [h.nblocks, h.free]

theorem reserved : Reserved d' b ↔ Reserved d b := by unfold Reserved; rw [h.nblocks]

theorem sound (hs : Sound root dirs d) : Sound root dirs d' where
  alone := hs.alone.mono fun _ _ _ h1 => h.held.1 h1
  good h1 := by rw [h.inUse, h.reserved]; exact hs.good (h.held.1 h1)
  low := hs.low
  fits := hs.fits
  used := by rw [h.free]; exact hs.used
  bitmap := by rw [h.nblocks]; exact hs.bitmap
  reserved c hc := by rw [h.free]; exact hs.reserved c (h.reserved.1 hc)

end Same

/-- A write that stays in one block, above the super block and off the bitmap. -/
theorem same_of_miss {bs : List Byte} (h1 : 4104 ≤ q) (h2 : b * 4096 ≤ q)
    (h3 : q + bs.length ≤ (b + 1) * 4096) (h4 : ∀ c < nblocks d, bitmapWord (c / 32) / 4096 ≠ b)
    (h5 : ∀ {r s p}, (tree root dirs d).Linked r → r.word s = some p →
      p + 4 ≤ q ∨ q + bs.length ≤ p)
    (h6 : ∀ {f}, (tree root dirs d).Linked (.file f) → f + 132 + 4 ≤ q ∨ q + bs.length ≤ f + 132) :
    Same root dirs d (d.write q bs) := by
  have hn : Fs.nblocks (d.write q bs) = Fs.nblocks d := by
    unfold Fs.nblocks
    rw [Bytes.load32_write_off (by omega)]
  refine ⟨hn, fun c => ?_, fun hr hp => Bytes.load32_write_off (h5 hr hp),
    fun hf => Bytes.load32_write_off (h6 hf)⟩
  rw [blockIsFree_eq, blockIsFree_eq, hn]
  by_cases hc : c < nblocks d
  · have h7 := h4 c hc
    rw [Bytes.load32_write_off]
    unfold bitmapWord at *
    omega
  · simp [hc]

namespace Sound

variable (hs : Sound root dirs d)
include hs

/-- A write to the name or the size of a file. -/
theorem same_head {bs : List Byte} (hf : (tree root dirs d).Linked (.file f)) (h1 : f ≤ q)
    (h2 : q + bs.length ≤ f + 132) : Same root dirs d (d.write q bs) := by
  have h3 := hs.fits_block hf
  have h4 := hs.block_used hf
  simp only [Rec.base, Rec.size] at h3 h4
  have h5 : ∀ {r}, (tree root dirs d).Linked r → r ≠ .file f → r.base + r.size ≤ f ∨ f + 256 ≤ r.base := by
    intro r hr hne
    simpa only [Rec.base, Rec.size] using hs.records_apart hr hf hne
  refine same_of_miss (b := (Rec.file f).block) (by omega) (by omega) (by omega)
    (fun c hc => (h4.2.1 c hc).symm) ?_ ?_
  · intro r s p hr hp
    have h6 := word_fits hp
    by_cases he : r = .file f
    · subst he
      have := fType_apart hp
      omega
    · have := h5 hr he
      omega
  · intro g hg
    by_cases he : Rec.file g = .file f
    · cases he; omega
    · have := h5 hg he
      simp only [Rec.base, Rec.size] at this
      omega

/-- A write to a block that holds no records. -/
theorem same_data {bs : List Byte} (hb : (tree root dirs d).Held r s b) (hk : kids dirs d r s b = ∅)
    (h1 : b * 4096 ≤ q) (h2 : q + bs.length ≤ (b + 1) * 4096) : Same root dirs d (d.write q bs) := by
  obtain ⟨h3, h4, h5⟩ := hs.good hb
  have h6 : ¬ b < 2 := fun h => h4 (Or.inl h)
  have h7 : ∀ {r'}, (tree root dirs d).Linked r' → r'.block ≠ b := by
    intro r' hr' he
    rcases linked_block hr' with h | ⟨q', t', h, hk'⟩
    · rw [h] at he
      exact h5 he.symm
    · rw [he] at h hk'
      obtain ⟨rfl, rfl⟩ := hs.alone h hb
      rw [hk] at hk'
      exact hk'
  refine same_of_miss (b := b) (by omega) h1 h2 (fun c hc he => h4 (he ▸ reserved_bitmapWord hc)) ?_ ?_
  · intro r' s' p hr' hp
    have h8 := word_fits hp
    have h9 := hs.fits_block hr'
    have := h7 hr'
    omega
  · intro g hg
    have h9 := hs.fits_block hg
    have := h7 hg
    simp only [Rec.base, Rec.size] at h9
    omega

end Sound

end Jos.Fs
