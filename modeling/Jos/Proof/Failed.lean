import Jos.Proof.NoRoom
import Jos.Proof.Resolve
import Jos.Proof.Leaks

/-!
# Calls that fail

What `file_write` and `file_create` leave behind when they fail, on a consistent image whose directories
have no holes: `Unaffected` says that every size, every `file_read` and every `file_open` is as it would
have been.

`file_write` extends the file before it gets a block, and takes blocks until there are none. So a write
that fails leaves the files as they were only if its range is in the file, no block was free, and the
bytes up to the first hole were there (`WriteHarmless`). `file_create` leaves them as they were if it
fails in the lookup (`LookupFails`); where the directory is to grow its size has changed
(`failed_unaffected`).
-/

namespace Jos.Fs

open Lib

variable {root : ℕ} {dirs : Bool} {d d' d₁ : Bytes} {s : Slot} {b f g i j k n x : ℕ} {name : List Byte}
  {els above : List (List Byte)} {buf : List Byte} {pos offset : ℤ} {fin : ℕ} {res : ℤ} {path : CString}

/-! ## What is to hold -/

/-- No block of a directory is missing. -/
def FullDir (d : Bytes) (f : ℕ) : Prop :=
  ∀ i < dirBlocks d f, fileBlock d f i ≠ 0

/-- No directory has a hole. -/
def NoHoles (d : Bytes) : Prop :=
  ∀ f, Reachable d f → fType d f = ftypeDir → FullDir d f

/-- **The file system is as it was**: the sizes of files and directories, what can be read of them, and
what paths lead to. -/
structure Unaffected (d d' : Bytes) : Prop where
  size : ∀ f, Reachable d f → fSize d' f = fSize d f
  read : ∀ f count offset, Reachable d f →
    (fileRead d' f count offset).map (·.1) = (fileRead d f count offset).map (·.1)
  lookup : ∀ path, (fileOpen d' path).map (·.1) = (fileOpen d path).map (·.1)

theorem Unaffected.refl : Unaffected d d := ⟨fun _ _ => rfl, fun _ _ _ _ => rfl, fun _ => rfl⟩

/-- **When a write that fails is harmless**: its range is in the file, no block is free, and the bytes
before the first place without a block are those to write. -/
def WriteHarmless (d : Bytes) (f : ℕ) (buf : List Byte) (offset : ℤ) : Prop :=
  0 ≤ offset ∧ offset + buf.length ≤ fSize d f ∧ room d = 0 ∧
    ∀ x : ℕ, offset ≤ x → x < offset + buf.length →
      (∀ n, offset.toNat / 4096 ≤ n → n ≤ x / 4096 → fileBlock d f n ≠ 0) →
        fileByte d f x = buf.getD (x - offset.toNat) 0

/-- The entries in the blocks `is` of a directory. -/
def entriesIn (d : Bytes) (dir : ℕ) (is : List ℕ) : List ℕ :=
  is.flatMap fun i => (List.range 16).map fun j => fileBlock d dir i * 4096 + 256 * j

/-- The first entry of a directory that has the name. -/
def entryOf (d : Bytes) (dir : ℕ) (name : List Byte) : Option ℕ :=
  (entriesIn d dir (List.range (dirBlocks d dir))).find? (nameEq name d)

/-- The file to which the elements lead from file `f`. -/
def locate (d : Bytes) : List (List Byte) → ℕ → Option ℕ
  | [], f => some f
  | name :: rest, f =>
    if name.length < 128 ∧ fType d f = ftypeDir then (entryOf d f name).bind (locate d rest) else none

/-- **When `file_create` fails in the lookup**: if there is a directory for the last element, and that
is short enough for a name, it has the name. -/
def LookupFails (d : Bytes) (path : CString) : Prop :=
  ∀ above name dir, elements path = above ++ [name] → locate d above sRoot = some dir →
    fType d dir = ftypeDir → name.length < 128 → entryOf d dir name ≠ none

/-! ## Directories without holes -/

/-- **A search of blocks that are there** finds the first entry that satisfies the test. -/
theorem dirScan_find {test : Bytes → ℕ → Bool} {is : List ℕ} (hs : Sound root dirs d)
    (hf : (tree root dirs d).Linked (.file f)) (h0 : ∀ i ∈ is, fileBlock d f i ≠ 0) :
    dirScan test f is d = some (.ok ((entriesIn d f is).find? (test d)), d) := by
  induction is with
  | nil => rfl
  | cons i is ih =>
    unfold dirScan entriesIn
    rw [fileGetBlock_present hs hf (h0 i List.mem_cons_self), List.flatMap_cons, List.find?_append, List.find?_map]
    simp only [Option.bind_eq_bind, Option.bind_some]
    rw [show (List.range 16).find? (test d ∘ fun j => fileBlock d f i * 4096 + 256 * j) =
      (List.range 16).find? fun j => test d (fileBlock d f i * 4096 + 256 * j) from rfl]
    rcases (List.range 16).find? fun j => test d (fileBlock d f i * 4096 + 256 * j) with _ | j
    · exact ih fun k hk => h0 k (List.mem_cons_of_mem _ hk)
    · rfl

section Still

variable (h : Consistent d) (hh : NoHoles d)
include h hh

/-- A lookup changes nothing. -/
theorem dirLookup_still (hf : Reachable d f) (ht : fType d f = ftypeDir) (name : List Byte) :
    dirLookup d f name = some (match entryOf d f name with
      | none => .error (-eNotFound)
      | some g => .ok g, d) := by
  unfold dirLookup
  rw [if_neg (not_not.2 (h.dirSize f hf ht)), dirScan_find h.valid.sound (reachable_linked hf)
    fun i hi => hh f hf ht i (List.mem_range.1 hi)]
  simp only [Option.bind_eq_bind, Option.bind_some]
  unfold entryOf
  rcases (entriesIn d f (List.range (dirBlocks d f))).find? (nameEq name d) with _ | g
  · rfl
  · rfl

omit h in
/-- An entry with a name is reachable. -/
theorem reachable_entryOf (hf : Reachable d f) (ht : fType d f = ftypeDir) (hg : GoodName name)
    (he : entryOf d f name = some g) : Reachable d g := by
  have h1 : nameEq name d g = true := by simpa using List.find?_some he
  obtain ⟨i, hi, h2⟩ := List.mem_flatMap.1 (List.mem_of_find?_eq_some he)
  obtain ⟨j, hj, rfl⟩ := List.mem_map.1 h2
  have hi := List.mem_range.1 hi
  exact .entry hf ht hi (hh f hf ht i hi) (List.mem_range.1 hj) (nameFree_of_nameEq hg h1)

/-- **A walk changes nothing**, and it fails at the last element exactly where that is missing. -/
theorem walkElements_still (pdir : Option ℕ) (hf : Reachable d f) (hg : ∀ name ∈ els, GoodName name) :
    ∃ w, walkElements els pdir f d = some (w, d) ∧
      (∀ r k name, w = .failed r (some (k, name)) → Reachable d k ∧ fType d k = ftypeDir ∧ name.length < 128 ∧
        entryOf d k name = none ∧ ∃ above, els = above ++ [name] ∧ locate d above f = some k) ∧
      ∀ above name k, els = above ++ [name] → locate d above f = some k → fType d k = ftypeDir →
        name.length < 128 → entryOf d k name = none → w = .failed (-eNotFound) (some (k, name)) := by
  induction els generalizing f pdir with
  | nil =>
    refine ⟨_, rfl, by simp, fun above name k he => ?_⟩
    exact absurd he (by simp)
  | cons y rest ih =>
    unfold walkElements
    by_cases hl : y.length ≥ 128
    · rw [if_pos hl]
      refine ⟨_, rfl, by simp, fun above name k he h1 h2 h3 _ => ?_⟩
      -- the walk stops at a name that is too long
      cases above with
      | nil =>
        obtain ⟨rfl, -⟩ := List.cons.inj he
        omega
      | cons a above =>
        obtain ⟨rfl, -⟩ := List.cons.inj he
        unfold locate at h1
        rw [if_neg (by omega)] at h1
        cases h1
    rw [if_neg hl]
    by_cases ht : fType d f ≠ ftypeDir
    · rw [if_pos ht]
      refine ⟨_, rfl, by simp, fun above name k he h1 h2 h3 _ => ?_⟩
      cases above with
      | nil =>
        cases h1
        exact absurd h2 ht
      | cons a above =>
        unfold locate at h1
        rw [if_neg (fun h => ht h.2)] at h1
        cases h1
    rw [if_neg ht, dirLookup_still h hh hf (not_not.1 ht)]
    have ht := not_not.1 ht
    have hy := hg y List.mem_cons_self
    rcases he : entryOf d f y with _ | g
    · refine ⟨_, rfl, fun r k name hw => ?_, fun above name k hels h1 h2 h3 h4 => ?_⟩
      · simp only [Walk.failed.injEq] at hw
        obtain ⟨-, hw⟩ := hw
        split at hw
        · rename_i hrest
          cases hw
          refine ⟨hf, ht, by omega, he, [], ?_, rfl⟩
          rw [hrest.2]
          rfl
        · cases hw
      · cases above with
        | nil =>
          obtain ⟨rfl, rfl⟩ := List.cons.inj hels
          cases h1
          simp
        | cons a above =>
          obtain ⟨rfl, -⟩ := List.cons.inj hels
          unfold locate at h1
          rw [if_pos ⟨by omega, ht⟩, he] at h1
          cases h1
    · obtain ⟨w, h1, h2, h3⟩ := ih (some f) (reachable_entryOf hh hf ht hy he)
        fun k hk => hg k (List.mem_cons_of_mem _ hk)
      refine ⟨w, h1, fun r k name hw => ?_, fun above name k hels h4 h5 h6 h7 => ?_⟩
      · obtain ⟨h4, h5, h6, h7, above, rfl, h8⟩ := h2 r k name hw
        refine ⟨h4, h5, h6, h7, y :: above, rfl, ?_⟩
        unfold locate
        rw [if_pos ⟨by omega, ht⟩, he]
        exact h8
      · cases above with
        | nil =>
          obtain ⟨rfl, rfl⟩ := List.cons.inj hels
          cases h4
          rw [he] at h7
          cases h7
        | cons a above =>
          obtain ⟨rfl, hrest⟩ := List.cons.inj hels
          unfold locate at h4
          rw [if_pos ⟨by omega, ht⟩, he] at h4
          exact h3 above name k hrest h4 h5 h6 h7

/-- **Where an entry cannot be made** the size of the directory has changed. -/
theorem dirAllocFile_fails {r : ℤ} (hf : Reachable d f) (ht : fType d f = ftypeDir)
    (hd : dirAllocFile d f = some (.error r, d')) : fSize d' f = fSize d f + 4096 := by
  have hl := reachable_linked hf
  unfold dirAllocFile at hd
  rw [if_neg (not_not.2 (h.dirSize f hf ht))] at hd
  dsimp only at hd
  rw [dirScan_find h.valid.sound hl fun i hi => hh f hf ht i (List.mem_range.1 hi)] at hd
  simp only [Option.bind_eq_bind, Option.bind_some] at hd
  rcases hfind : (entriesIn d f (List.range (dirBlocks d f))).find? (nameFree d) with _ | g
  · rw [hfind] at hd
    obtain ⟨h0, h1⟩ := h.size f hf
    unfold maxFileSize at h1
    have hsame : Same sRoot true d (setFSize d f (fSize d f + 4096)) := h.valid.sound.same_size hl
    have hl₁ := hsame.linked.2 hl
    have hv₁ : Valid sRoot true (setFSize d f (fSize d f + 4096)) := h.valid.setFSize hl fun _ => by omega
    obtain ⟨hA, -, -⟩ := fileGetBlock_adds (P := Anywhere) hv₁.sound hl₁ trivial hd
    rw [(hA.head hv₁ hl₁).fSize_eq, fSize_setFSize (by omega) (by omega)]
  · rw [hfind] at hd
    cases hd

/-- **`file_create`** that fails. -/
theorem fileCreate_failed {r : ℤ} (hc : fileCreate d path = some (.error r, d')) :
    Unaffected d d' ↔ LookupFails d path := by
  obtain ⟨w, h1, h2, h3⟩ := walkElements_still h hh none .root (elements_good path)
  have hwalk : walkPath d path = some (w, d) := h1
  unfold fileCreate at hc
  rw [hwalk] at hc
  simp only [Option.bind_eq_bind, Option.bind_some] at hc
  constructor
  · intro hu above name dir hels hloc ht hlen hnone
    obtain rfl := h3 above name dir hels hloc ht hlen hnone
    obtain ⟨hr, -⟩ := h2 _ _ _ rfl
    simp only [ne_eq, not_true_eq_false, if_false] at hc
    obtain ⟨⟨r₂, d₂⟩, h4, h5⟩ := Option.bind_eq_some_iff.1 hc
    rcases r₂ with e | g
    · cases h5
      have h6 := dirAllocFile_fails h hh hr ht h4
      have h7 := hu.size dir hr
      rw [h6] at h7
      omega
    · cases h5
  · intro hl
    rcases w with ⟨pdir, g⟩ | ⟨r, _ | ⟨dir, name⟩⟩
    · cases hc
      exact .refl
    · cases hc
      exact .refl
    · obtain ⟨-, ht, hlen, hnone, above, hels, hloc⟩ := h2 _ _ _ rfl
      exact absurd hnone (hl above name dir hels hloc ht hlen)

end Still

/-! ## Writes that fail -/

theorem fileSetSize_fSize {z : ℤ} (h : fileSetSize d f (i32 z) = some d') : fSize d' f = i32 z := by
  have key : ∀ d, fSize (setFSize d f (i32 z)) f = i32 z := by
    intro d
    unfold fSize setFSize i32
    rw [Bytes.load32_store32, BitVec.ofInt_toInt]
  unfold fileSetSize at h
  split at h
  · obtain ⟨d₁, -, rfl⟩ := Option.map_eq_some_iff.1 h
    exact key d₁
  · obtain rfl := Option.some.inj h
    exact key d

/-- A size that is not in the file is not its size, as an `off_t` either. -/
theorem i32_ne_size {z : ℤ} (h0 : -2 ^ 31 ≤ z) (h1 : z < 2 ^ 32) (hsz : 0 ≤ fSize d f)
    (hgt : u64 z > u64 (fSize d f)) : i32 (u64 z : ℕ) ≠ fSize d f := by
  have hlt := fSize_lt d f
  rw [u64_eq, u64_eq] at hgt
  rw [u64_eq]
  unfold i32
  rw [BitVec.toInt_ofInt, Int.bmod_def]
  split <;> omega

/-- **At a position before the file** a write fails before it writes, with an end that is before the
file too. -/
theorem fileWriteLoop_before (hv : Valid root dirs d) (hf : (tree root dirs d).Linked (.file f)) (h0 : pos < 0)
    (h1 : -2 ^ 31 ≤ pos) (hl : buf.length < 2 ^ 31)
    (h : fileWriteLoop f (u64 (pos + buf.length)) buf.length pos buf d = some (res, d')) (hr : res < 0) :
    pos + buf.length < 0 ∧ fSize d' f = fSize d f := by
  rcases hk : buf.length with _ | k
  · rw [hk] at h
    cases h
    omega
  · rw [hk] at h hl
    unfold fileWriteLoop at h
    split at h
    · rename_i hlt
      have hneg : pos + (k + 1 : ℕ) < 0 := by
        rw [u64_eq, u64_eq] at hlt
        omega
      obtain ⟨⟨r₁, d₁⟩, h2, h3⟩ := Option.bind_eq_some_iff.1 h
      obtain ⟨hA, -, hok⟩ := fileGetBlock_adds (P := Anywhere) hv.sound hf trivial h2
      rcases r₁ with e | blk
      · cases h3
        exact ⟨hneg, (hA.head hv hf).fSize_eq⟩
      · -- a block of the file is that of a position close before it, and one turn writes all
        exfalso
        obtain ⟨hn, -, -⟩ := hok blk rfl
        have hpos : -4096 < pos := by
          rw [u32_eq] at hn
          have h4 : pos.tdiv 4096 = -((-pos) / 4096) := by
            rw [← Int.neg_neg pos, Int.neg_tdiv, Int.tdiv_eq_ediv_of_nonneg (by omega), Int.neg_neg]
          omega
        have hmod : pos.tmod 4096 = pos := by
          rw [← Int.neg_neg pos, Int.neg_tmod, Int.tmod_eq_emod_of_nonneg (by omega)]
          omega
        have hc : chunk (u64 (pos + (k + 1 : ℕ))) pos = k + 1 := by
          unfold chunk
          rw [hmod, u64_eq, u64_eq]
          omega
        dsimp only at h3
        rw [hc] at h3
        have hend : ∀ n buf d, fileWriteLoop f (u64 (pos + (k + 1 : ℕ))) n (pos + (k + 1 : ℕ)) buf d = some (0, d) := by
          intro n buf d
          cases n with
          | zero => rfl
          | succ n =>
            unfold fileWriteLoop
            rw [if_neg (lt_irrefl _)]
        rw [hend] at h3
        cases h3
        omega
    · cases h
      omega

/-- **A write that extends the file** and fails has changed its size. -/
theorem fileWrite_extends (hv : Valid f false d) (hsz : 0 ≤ fSize d f) (h0 : -2 ^ 31 ≤ offset)
    (h1 : offset < 2 ^ 31) (hl : buf.length < 2 ^ 31) (h : fileWrite d f buf offset = some (res, d'))
    (hr : res < 0) (hgt : u64 (offset + buf.length) > u64 (fSize d f)) : fSize d' f ≠ fSize d f := by
  obtain ⟨d₁, h2, h3⟩ := Option.bind_eq_some_iff.1 h
  obtain ⟨⟨r₁, d₂⟩, h4, h5⟩ := Option.bind_eq_some_iff.1 h3
  simp only [Option.some.injEq, Prod.mk.injEq] at h5
  obtain ⟨h5, rfl⟩ := h5
  have hr₁ : r₁ < 0 := by
    split at h5
    · assumption
    · omega
  obtain ⟨hv₁, hf₁, ho₁⟩ := extendTo_valid hv .refl opens_alone h2
  unfold extendTo at h2
  rw [if_pos hgt] at h2
  have hsize := fileSetSize_fSize h2
  have hne := i32_ne_size (by omega) (by omega) hsz hgt
  by_cases hpos : 0 ≤ offset
  · have hu : u64 (offset + buf.length) = offset.toNat + buf.length := by
      rw [u64_of_nonneg (by omega) (by omega)]
      omega
    rw [hu] at h4
    obtain ⟨h6, -⟩ := fileWriteLoop_copied hv₁ hf₁ ho₁ hpos (by omega) le_rfl (by omega) h4 rfl
    rw [h6, hsize]
    exact hne
  · obtain ⟨-, h6⟩ := fileWriteLoop_before hv₁ hf₁ (by omega) h0 hl h4 hr₁
    rw [h6, hsize]
    exact hne

/-- A write in the file that fails is one at a position of it, and does not extend it. -/
theorem fileWrite_inside (hv : Valid f false d) (hsz : 0 ≤ fSize d f) (h0 : -2 ^ 31 ≤ offset)
    (h1 : offset < 2 ^ 31) (hl : buf.length < 2 ^ 31) (h : fileWrite d f buf offset = some (res, d')) (hr : res < 0)
    (hle : ¬ u64 (offset + buf.length) > u64 (fSize d f)) :
    0 ≤ offset ∧ offset + buf.length ≤ fSize d f ∧
      ∃ r < 0, fileWriteLoop f (offset.toNat + buf.length) buf.length offset buf d = some (r, d') := by
  have hlt := fSize_lt d f
  obtain ⟨d₁, h2, h3⟩ := Option.bind_eq_some_iff.1 h
  obtain ⟨⟨r₁, d₂⟩, h4, h5⟩ := Option.bind_eq_some_iff.1 h3
  simp only [Option.some.injEq, Prod.mk.injEq] at h5
  obtain ⟨h5, rfl⟩ := h5
  have hr₁ : r₁ < 0 := by
    split at h5
    · assumption
    · omega
  unfold extendTo at h2
  rw [if_neg hle] at h2
  obtain rfl := Option.some.inj h2
  have hpos : 0 ≤ offset := by
    by_contra hpos
    obtain ⟨h6, -⟩ := fileWriteLoop_before hv .refl (by omega) h0 hl h4 hr₁
    rw [u64_eq, u64_eq] at hle
    omega
  rw [u64_of_nonneg (by omega) (by omega), u64_of_nonneg (by omega) (by omega)] at hle
  have hu : u64 (offset + buf.length) = offset.toNat + buf.length := by
    rw [u64_of_nonneg (by omega) (by omega)]
    omega
  rw [hu] at h4
  exact ⟨hpos, by omega, r₁, hr₁, h4⟩

/-- A byte of a block that is there can be read. -/
theorem fileRead_byte (hs : Sound root dirs d) (hf : (tree root dirs d).Linked (.file f))
    (h0 : fileBlock d f (x / 4096) ≠ 0) (hx : (x : ℤ) < fSize d f) :
    fileRead d f 1 x = some ((1, [d.byte (fileBlock d f (x / 4096) * 4096 + x % 4096)]), d) := by
  rw [fileRead_one hx, fileGetBlock_present hs hf h0]
  rfl

/-- The slots of a file are those of its `struct File`, where it has no indirect block. -/
theorem slots_of_bytes (h : ∀ y, f ≤ y → y < f + 256 → d'.byte y = d.byte y) (h0 : slotBlock d f .fIndirect = 0)
    (s : Slot) : slotBlock d' f s = slotBlock d f s := by
  have hload : ∀ p, f ≤ p → p + 4 ≤ f + 256 → d'.load32 p = d.load32 p := fun p h1 h2 =>
    Bytes.load32_congr fun i hi => h (p + i) (by omega) (by omega)
  have hind : d'.load32 (fIndirect f) = d.load32 (fIndirect f) := by
    apply hload <;> unfold fIndirect <;> omega
  have hz : d.load32 (fIndirect f) = 0 := BitVec.eq_of_toNat_eq h0
  cases s with
  | direct i =>
    unfold slotBlock slotAddr
    dsimp only
    by_cases hi : i < 10
    · rw [if_pos hi]
      refine congrArg BitVec.toNat (hload _ ?_ ?_) <;> unfold fDirect <;> omega
    · rw [if_neg hi]
  | indirect j =>
    unfold slotBlock slotAddr
    rw [hind, hz]
    simp
  | fIndirect => exact congrArg BitVec.toNat hind

section Still

variable (h : Consistent d)
include h

/-- The `struct File` of a regular file is in a block of a directory, and can be read there. -/
theorem dirEntry_read (hf : Reachable d f) (hreg : fType d f ≠ ftypeDir) {y : ℕ} (hy : f ≤ y) (hy' : y < f + 256) :
    ∃ dir, Reachable d dir ∧ dir ≠ f ∧ ∃ x : ℕ, (x : ℤ) < fSize d dir ∧ fileBlock d dir (x / 4096) ≠ 0 ∧
      y = fileBlock d dir (x / 4096) * 4096 + x % 4096 := by
  cases hf with
  | root => exact absurd h.root hreg
  | @entry dir i j hd ht hi h0 hj hn =>
    have hsz := (h.size dir hd).1
    rw [dirBlocks_eq hsz] at hi
    obtain ⟨k, rfl⟩ := Nat.exists_eq_add_of_le hy
    have hx : (i * 4096 + (256 * j + k)) / 4096 = i := by omega
    refine ⟨dir, hd, ?_, i * 4096 + (256 * j + k), by omega, by rw [hx]; exact h0, by rw [hx]; omega⟩
    rintro he
    rw [← he] at hreg
    exact hreg ht

/-- **Where blocks are taken** it can be seen: a hole of the file could be read before, or its
`struct File` has changed. -/
theorem fileWrite_takes (hf : Reachable d f) (hreg : fType d f ≠ ftypeDir) (hpos : 0 ≤ offset)
    (h1 : offset < 2 ^ 31) (hl : buf.length < 2 ^ 31) (hw : fileWrite d f buf offset = some (res, d'))
    (hsize : fSize d' f = fSize d f) (hn : (n * 4096 : ℕ) < fSize d f)
    (hbn' : fileBlock d' f n = 0) (hroom : 0 < room d) (hroom' : room d' = 0)
    (hadd : ∃ s, slotBlock d f s = 0 ∧ slotBlock d' f s ≠ 0) (hu : Unaffected d d') : False := by
  have hlf := reachable_linked hf
  have hvf : Valid f false d := h.valid.sound.file hlf
  have hmax := (h.size f hf).2
  unfold maxFileSize at hmax
  by_cases hind : n < 10 ∨ slotBlock d f .fIndirect ≠ 0
  · -- one block is enough to read the hole, and there was one
    have h2 : n * 4096 / 4096 = n := by omega
    have h3 := hu.read f 1 (n * 4096 : ℕ) hf
    rw [fileRead_one hn, fileRead_one (by rw [hsize]; exact hn), h2] at h3
    have hv' := (fileWrite_valid hvf .refl opens_alone hpos hw).1
    rcases fileGetBlock_slot hvf.sound .refl (show n < 10 + 1024 by omega) hind with ⟨-, h4, -⟩ | ⟨d₁, h4, -, -⟩
    · omega
    rcases fileGetBlock_room hv'.sound .refl (show n < 10 + 1024 by omega) with ⟨d₂, h5, -⟩ | ⟨d₂, -, -, h5⟩
    · rw [h4, h5] at h3
      cases h3
    · rcases h5 with h5 | h5
      · exact h5 hbn'
      · omega
  · -- a word of the `struct File` has changed, which is in a block of a directory
    obtain ⟨-, h2⟩ := not_or.1 hind
    have h2 := not_not.1 h2
    obtain ⟨s, h3, h4⟩ := hadd
    have hdiff : ∃ y, f ≤ y ∧ y < f + 256 ∧ d'.byte y ≠ d.byte y := by
      by_contra hno
      apply h4
      rw [slots_of_bytes (fun y hy hy' => ?_) h2, h3]
      by_contra hne
      exact hno ⟨y, hy, hy', hne⟩
    obtain ⟨y, hy, hy', hne⟩ := hdiff
    obtain ⟨dir, hd, hdf, x, hx, hb, rfl⟩ := dirEntry_read h hf hreg hy hy'
    have hld := reachable_linked hd
    obtain ⟨hld', hk⟩ := fileWrite_keeps h.valid hlf hreg (by omega) (by omega) (Or.inl hpos) hld hdf hw
    have hv' := (fileWrite_valid h.valid hlf (opens_regular hreg) hpos hw).1
    have hb' : fileBlock d' dir (x / 4096) = fileBlock d dir (x / 4096) := hk.slot _
    have h5 := hu.read dir 1 x hd
    rw [fileRead_byte h.valid.sound hld hb hx, fileRead_byte hv'.sound hld' (by rw [hb']; exact hb)
      (by rw [hk.head.fSize_eq]; exact hx), hb'] at h5
    simp only [Option.map_some, Option.some.injEq, Prod.mk.injEq, List.cons.injEq, and_true, true_and] at h5
    exact hne h5

/-- **`file_write`** that fails. -/
theorem fileWrite_failed (hf : Reachable d f) (hfull : fType d f = ftypeDir → FullDir d f) (h0 : -2 ^ 31 ≤ offset) (h1 : offset < 2 ^ 31)
    (hl : buf.length < 2 ^ 31) (hw : fileWrite d f buf offset = some (res, d')) (hr : res < 0) :
    Unaffected d d' ↔ WriteHarmless d f buf offset := by
  have hlf := reachable_linked hf
  have hvf : Valid f false d := h.valid.sound.file hlf
  obtain ⟨hsz, hmax⟩ := h.size f hf
  unfold maxFileSize at hmax
  constructor
  · intro hu
    have hsize := hu.size f hf
    obtain ⟨hpos, hle, r₁, hr₁, hloop⟩ := fileWrite_inside hvf hsz h0 h1 hl hw hr
      fun hgt => fileWrite_extends hvf hsz h0 h1 hl hw hr hgt hsize
    obtain ⟨hroom', n, hn, hbn'⟩ := fileWriteLoop_fails hvf .refl opens_alone hpos (by omega) (by omega) hloop hr₁
    obtain ⟨hmono, hadd⟩ := fileWriteLoop_added hvf .refl opens_alone hpos hloop
    have hbn : fileBlock d f n = 0 := by
      by_contra hne
      exact hmono _ hne hbn'
    have hreg : fType d f ≠ ftypeDir := by
      intro ht
      have hmul := h.dirSize f hf ht
      rw [Int.tmod_eq_emod_of_nonneg hsz] at hmul
      apply hfull ht n ?_ hbn
      rw [dirBlocks_eq hsz]
      clear hadd
      omega
    refine ⟨hpos, hle, ?_, ?_⟩
    · by_contra hroom
      exact fileWrite_takes h hf hreg hpos h1 hl hw hsize (by omega) hbn' (by omega) hroom'
        (hadd.resolve_left (by omega)) hu
    · clear hadd
      intro x hx hx' hblocks
      have hb := hblocks (x / 4096) (by omega) le_rfl
      have hb' : fileBlock d' f (x / 4096) ≠ 0 := hmono _ hb
      have hv' := (fileWrite_valid hvf .refl opens_alone hpos hw).1
      have h2 := fileWriteLoop_reaches hvf .refl opens_alone hpos (by omega) le_rfl (by omega) (by omega)
        (show x < offset.toNat + buf.length by omega) hblocks hloop
      have h3 := hu.read f 1 x hf
      rw [fileRead_byte hvf.sound .refl hb (by omega), fileRead_byte hv'.sound .refl hb' (by omega)] at h3
      simp only [Option.map_some, Option.some.injEq, Prod.mk.injEq, List.cons.injEq, and_true, true_and] at h3
      rw [← h2]
      unfold fileByte
      rw [if_neg hb, if_neg hb']
      exact h3.symm
  · rintro ⟨hpos, hle, hroom, hbytes⟩
    obtain ⟨-, -, r₁, -, hloop⟩ := fileWrite_inside hvf hsz h0 h1 hl hw hr (by
      rw [u64_of_nonneg (by omega) (by omega), u64_of_nonneg (by omega) (by omega)]
      omega)
    have he := fileWriteLoop_none hvf.sound .refl hroom hpos (by omega) (by omega)
      (fun x hx hx' hblocks => hbytes x (by omega) (by omega) hblocks) hloop
    rw [he]
    exact .refl

end Still

/-! ## A full image -/

/-- The directory of such an image has no hole. -/
theorem OneBlock.noHoles (h : OneBlock d) : NoHoles d := by
  intro f hf _ i hi
  rcases h.reachable hf with rfl | ⟨k, hk, rfl⟩
  · rw [dirBlocks_eq (by rw [h.size]; decide), h.size] at hi
    obtain rfl : i = 0 := by omega
    show slotBlock d sRoot (.direct 0) ≠ 0
    rw [h.rootStored]
    decide
  · rw [dirBlocks_eq (by rw [(h.entry hk).1]), (h.entry hk).1] at hi
    simp at hi

/-- An image of four blocks, none of them free: the root directory, in block 3, has the empty files `a`
to `p`. -/
def fullImage : Bytes :=
  (List.range 16).foldl (fun d j => d.write (12288 + 256 * j) [BitVec.ofNat 8 (0x61 + j)])
    (((((((⟨fun _ => 0⟩ : Bytes).store32 4096 0x4A0530AE).store32 4100 4).write sRoot [0x2F]).store32
      (sRoot + 128) 4096).store32 (sRoot + 132) 1).store32 (fDirect sRoot 0) 3)

theorem fullImage_one : OneBlock fullImage := by
  constructor <;> decide +kernel

/-- The file `a` of the image. -/
theorem fullImage_a : Reachable fullImage 12288 := by
  have h1 : hasEntry fullImage 0 = true := by decide +kernel
  exact hasEntry_reachable h1 (by omega)

/-- The path `/x`. -/
def xPath : CString := ⟨[0x2F, 0x78], by decide⟩

/-- A write of one byte to `a` fails, and its size is 1. -/
theorem fullImage_write : ∃ d', fileWrite fullImage 12288 [0x68] 0 = some (-eNoDisk, d') ∧ fSize d' 12288 = 1 := by
  have hrun : ((fileWrite fullImage 12288 [0x68] 0).any fun r =>
      decide (r.1 = -eNoDisk ∧ fSize r.2 12288 = 1)) = true := by decide +kernel
  obtain ⟨⟨r, d'⟩, h1, h2⟩ := (Option.any_eq_true _ _).1 hrun
  obtain ⟨rfl, h3⟩ := of_decide_eq_true h2
  exact ⟨d', h1, h3⟩

theorem not_unaffected_of_size (hf : Reachable d f) (h : fSize d' f ≠ fSize d f) : ¬ Unaffected d d' :=
  fun hu => h (hu.size f hf)

end Jos.Fs
