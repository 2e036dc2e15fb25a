import Jos.Proof.Bc
import Jos.Proof.Exclusive
import Jos.Spec.FsIo

/-!
# `fs/fs.c` over the block cache

On a plain memory, the programs of `fs/fs.c` are the functions of `Jos.Spec.Fs` (`flat_fileWrite` and
its siblings), so what those functions do is what the file server does over its cache.
-/

namespace Jos.Fs.Io

open Lib Prog

variable {α β : Type} {d d' : Bytes} {a b f i n p : ℕ} {w : BitVec 32} {alloc : Bool} {bs : List Byte}

/-- The run of a program on a plain memory. -/
def flat (p : Code α) (d : Bytes) : Option (α × Bytes) := p.interp flatExec d

@[simp] theorem flat_pure (x : α) : flat (pure x) d = some (x, d) := rfl

@[simp] theorem flat_ret (x : α) : flat (.ret x) d = some (x, d) := rfl

@[simp] theorem flat_bind (p : Code α) (g : α → Code β) :
    flat (p >>= g) d = (flat p d).bind fun r => flat (g r.1) r.2 := interp_bind p g d

@[simp] theorem flat_ite {c : Prop} [Decidable c] (p q : Code α) :
    flat (if c then p else q) d = if c then flat p d else flat q d := by
  split <;> rfl

/-- The two parts of a run. -/
theorem of_bind {p : Code α} {g : α → Code β} {r : β × Bytes} (h : flat (p >>= g) d = some r) :
    ∃ x d', flat p d = some (x, d') ∧ flat (g x) d' = some r := by
  rw [flat_bind] at h
  obtain ⟨⟨x, d'⟩, h1, h2⟩ := Option.bind_eq_some_iff.1 h
  exact ⟨x, d', h1, h2⟩

/-! ## Accesses -/

@[simp] theorem flat_panic : flat (panic : Code α) d = none := rfl

@[simp] theorem flat_read : flat (read a n) d = some (d.read a n, d) := rfl

@[simp] theorem flat_write : flat (write a bs) d = some ((), d.write a bs) := rfl

@[simp] theorem flat_flushBlock : flat (flushBlock a) d = some ((), d) := rfl

@[simp] theorem flat_load32 : flat (load32 a) d = some (d.load32 a, d) := rfl

@[simp] theorem flat_store32 : flat (store32 a w) d = some ((), d.store32 a w) := rfl

@[simp] theorem flat_loadByte : flat (loadByte a) d = some (d.byte a, d) := rfl

@[simp] theorem flat_clear : flat (clear a n) d = some ((), d.zero a n) := by
  have h : d.write a (List.replicate n 0) = d.zero a n := by
    refine Bytes.ext (funext fun x => ?_)
    rw [Bytes.byte_write, Bytes.byte_zero, List.length_replicate]
    by_cases hx : a ≤ x ∧ x < a + n
    · rw [if_pos hx, if_pos hx, List.getD_eq_getElem _ _ (by rw [List.length_replicate]; omega),
        List.getElem_replicate]
    · rw [if_neg hx, if_neg hx]
  rw [← h]
  rfl

/-! ## Blocks -/

@[simp] theorem flat_nblocks : flat nblocks d = some (Fs.nblocks d, d) := rfl

@[simp] theorem flat_diskaddr : flat (diskaddr b) d = (Fs.diskaddr d b).map fun a => (a, d) := by
  unfold diskaddr Fs.diskaddr
  by_cases h0 : b = 0
  · simp [h0]
  · by_cases h1 : b ≥ Fs.nblocks d <;> simp [h0, h1]

@[simp] theorem flat_blockIsFree : flat (blockIsFree b) d = some (Fs.blockIsFree d b, d) := by
  unfold blockIsFree Fs.blockIsFree
  by_cases h : b ≥ Fs.nblocks d
  · simp [h, Nat.not_lt.2 h]
  · simp [h, Nat.not_le.1 h]

@[simp] theorem flat_freeBlock : flat (freeBlock b) d = (Fs.freeBlock d b).map fun d => ((), d) := by
  unfold freeBlock Fs.freeBlock
  by_cases h : b = 0 <;> simp [h]

/-- What `alloc_block` leaves when it has found a block. -/
def allocated (d : Bytes) (i : ℕ) : Bytes :=
  d.store32 (bitmapWord (i / 32)) (d.load32 (bitmapWord (i / 32)) &&& ~~~(1#32 <<< (i % 32)))

theorem allocBlock_eq (d : Bytes) : Fs.allocBlock d =
    ((List.range (Fs.nblocks d)).find? (Fs.blockIsFree d)).elim (none, d) fun i => (some i, allocated d i) := by
  unfold Fs.allocBlock
  cases (List.range (Fs.nblocks d)).find? (Fs.blockIsFree d) <;> rfl

/-- The loop looks at the blocks from `i` on. -/
theorem flat_allocLoop (h : Fs.nblocks d ≤ i + n) : flat (allocLoop n i) d =
    some (((List.range' i (Fs.nblocks d - i)).find? (Fs.blockIsFree d)).elim (none, d)
      fun j => (some j, allocated d j)) := by
  induction n generalizing i with
  | zero =>
    have h0 : Fs.nblocks d - i = 0 := by omega
    rw [h0]
    rfl
  | succ n ih =>
    unfold allocLoop
    by_cases hi : i < Fs.nblocks d
    · obtain ⟨k, hk⟩ : ∃ k, Fs.nblocks d - i = k + 1 := ⟨Fs.nblocks d - i - 1, by omega⟩
      have hk' : Fs.nblocks d - (i + 1) = k := by omega
      have hrest := ih (i := i + 1) (by omega)
      rw [hk'] at hrest
      rw [hk, List.range'_succ, List.find?_cons]
      by_cases hf : Fs.blockIsFree d i = true
      · simp [hi, hf, allocated]
      · simp [hi, hf, hrest]
    · have h0 : Fs.nblocks d - i = 0 := by omega
      simp [hi, h0]

@[simp] theorem flat_allocBlock : flat allocBlock d = some (Fs.allocBlock d) := by
  have hn : Fs.nblocks d ≤ 0 + 2 ^ 32 := by
    unfold Fs.nblocks
    omega
  rw [allocBlock, flat_allocLoop hn, allocBlock_eq, List.range_eq_range']
  rfl

theorem allocAt_flat {r : Bool × Bytes} (h : flat (allocAt p) d = some r) : Fs.allocAt d p = some r := by
  unfold allocAt at h
  unfold Fs.allocAt
  by_cases h0 : d.load32 p = 0#32
  · rcases ha : Fs.allocBlock d with ⟨_ | x, d₁⟩
    · simpa [h0, ha] using h
    · cases hx : Fs.diskaddr (d₁.store32 p (BitVec.ofNat 32 x)) x with
      | none => simp [h0, ha, hx] at h
      | some a =>
        cases hx' : Fs.diskaddr ((d₁.store32 p (BitVec.ofNat 32 x)).zero a 4096) x with
        | none => simp [h0, ha, hx, hx'] at h
        | some a' => simpa [h0, ha, hx, hx'] using h
  · simpa [h0] using h

theorem fileBlockWalk_flat {r : Except ℤ ℕ × Bytes} (h : flat (fileBlockWalk f n alloc) d = some r) :
    Fs.fileBlockWalk d f n alloc = some r := by
  unfold fileBlockWalk at h
  unfold Fs.fileBlockWalk
  by_cases h1 : n ≥ 10 + 1024
  · rw [if_pos h1] at h ⊢
    exact h
  rw [if_neg h1] at h ⊢
  by_cases h2 : n < 10
  · rw [if_pos h2] at h ⊢
    exact h
  rw [if_neg h2] at h ⊢
  by_cases h3 : d.load32 (fIndirect f) = 0 ∧ alloc = false
  · rw [if_pos h3]
    simpa [h3] using h
  rw [if_neg h3]
  rw [flat_bind, flat_load32, Option.bind_some, flat_ite, if_neg h3] at h
  obtain ⟨ok, d₁, h4, h5⟩ := of_bind h
  rw [allocAt_flat h4]
  cases ok with
  | false => simpa using h5
  | true =>
    cases hx : Fs.diskaddr d₁ (d₁.load32 (fIndirect f)).toNat with
    | none => simp [hx] at h5
    | some a => simpa [hx] using h5

theorem fileGetBlock_flat {r : Except ℤ ℕ × Bytes} (h : flat (fileGetBlock f n) d = some r) :
    Fs.fileGetBlock d f n = some r := by
  unfold fileGetBlock at h
  unfold Fs.fileGetBlock
  obtain ⟨x, d₁, h1, h2⟩ := of_bind h
  rw [fileBlockWalk_flat h1]
  cases x with
  | error e => simpa using h2
  | ok p =>
    obtain ⟨ok, d₂, h3, h4⟩ := of_bind h2
    cases ok with
    | false => simpa [allocAt_flat h3] using h4
    | true =>
      cases hx : Fs.diskaddr d₂ (d₂.load32 p).toNat with
      | none => simp [hx] at h4
      | some a => simpa [allocAt_flat h3, hx] using h4

/-- What `free_block` leaves. -/
theorem freeBlock_of {r : Unit × Bytes} (h : flat (freeBlock b) d = some r) : Fs.freeBlock d b = some r.2 := by
  rw [flat_freeBlock] at h
  obtain ⟨d₁, h1, rfl⟩ := Option.map_eq_some_iff.1 h
  exact h1

/-! ## Directories -/

@[simp] theorem flat_fSize : flat (fSize f) d = some (Fs.fSize d f, d) := rfl

@[simp] theorem flat_setFSize {z : ℤ} : flat (setFSize f z) d = some ((), Fs.setFSize d f z) := rfl

/-- A test that only reads. -/
theorem flat_findM {t : ℕ → Code Bool} {q : ℕ → Bool} (ht : ∀ j, flat (t j) d = some (q j, d)) (l : List ℕ) :
    flat (findM t l) d = some (l.find? q, d) := by
  induction l with
  | nil => rfl
  | cons j l ih =>
    unfold findM
    rw [flat_bind, ht, Option.bind_some, flat_ite, List.find?_cons]
    cases q j with
    | true => rfl
    | false => exact ih

theorem flat_nameFree : flat (nameFree f) d = some (Fs.nameFree d f, d) := rfl

/-- The comparison, from the last character back. -/
theorem nameEq_cons (c : Byte) (cs : List Byte) :
    Fs.nameEq (c :: cs) d f = (d.byte f == c && Fs.nameEq cs d (f + 1)) := by
  unfold Fs.nameEq
  rw [List.length_cons, List.range_succ_eq_map, List.all_cons, List.all_map]
  congr 1
  congr 1
  funext k
  simp only [Function.comp, List.cons_append, List.getD_cons_succ]
  rw [Nat.add_right_comm, Nat.add_assoc]

theorem flat_strEq {name : List Byte} : flat (strEq name f) d = some (Fs.nameEq name d f, d) := by
  induction name generalizing f with
  | nil =>
    unfold strEq Fs.nameEq
    simp [List.range_succ]
  | cons c cs ih =>
    unfold strEq
    rw [nameEq_cons, flat_bind, flat_loadByte, Option.bind_some, flat_ite]
    by_cases hc : d.byte f = c
    · simp [hc, ih]
    · simp [hc]

theorem dirScan_flat {t : ℕ → Code Bool} {q : Bytes → ℕ → Bool} {dir : ℕ}
    (ht : ∀ d j, flat (t j) d = some (q d j, d)) {l : List ℕ} {r : Except ℤ (Option ℕ) × Bytes}
    (h : flat (dirScan t dir l) d = some r) : Fs.dirScan q dir l d = some r := by
  induction l generalizing d with
  | nil => exact h
  | cons i l ih =>
    unfold dirScan at h
    unfold Fs.dirScan
    obtain ⟨x, d₁, h1, h2⟩ := of_bind h
    rw [fileGetBlock_flat h1]
    cases x with
    | error e => exact h2
    | ok blk =>
      have hfind := flat_findM (d := d₁) (fun j => ht d₁ (blk + 256 * j)) (List.range 16)
      dsimp only at h2
      rw [flat_bind, hfind, Option.bind_some] at h2
      dsimp only [Option.bind_eq_bind, Option.bind_some]
      cases hj : (List.range 16).find? fun j => q d₁ (blk + 256 * j) with
      | some j =>
        rw [hj] at h2
        exact h2
      | none =>
        rw [hj] at h2
        exact ih h2

theorem dirLookup_flat {dir : ℕ} {name : List Byte} {r : Except ℤ ℕ × Bytes}
    (h : flat (dirLookup dir name) d = some r) : Fs.dirLookup d dir name = some r := by
  unfold dirLookup at h
  unfold Fs.dirLookup
  rw [flat_bind, flat_fSize, Option.bind_some, flat_ite] at h
  by_cases h0 : (Fs.fSize d dir).tmod 4096 ≠ 0
  · rw [if_pos h0] at h
    cases h
  rw [if_neg h0] at h ⊢
  rw [flat_bind, flat_fSize, Option.bind_some] at h
  obtain ⟨x, d₁, h1, h2⟩ := of_bind h
  unfold dirBlocks
  rw [dirScan_flat (fun d j => flat_strEq) h1]
  rcases x with e | _ | f <;> exact h2

theorem dirAllocFile_flat {dir : ℕ} {r : Except ℤ ℕ × Bytes} (h : flat (dirAllocFile dir) d = some r) :
    Fs.dirAllocFile d dir = some r := by
  unfold dirAllocFile at h
  unfold Fs.dirAllocFile
  rw [flat_bind, flat_fSize, Option.bind_some, flat_ite] at h
  by_cases h0 : (Fs.fSize d dir).tmod 4096 ≠ 0
  · rw [if_pos h0] at h
    cases h
  rw [if_neg h0] at h ⊢
  rw [flat_bind, flat_fSize, Option.bind_some] at h
  obtain ⟨x, d₁, h1, h2⟩ := of_bind h
  have hs : Fs.dirScan Fs.nameFree dir (List.range (dirBlocks d dir)) d = some (x, d₁) :=
    dirScan_flat (fun d j => flat_nameFree) h1
  dsimp only
  rw [hs]
  rcases x with e | _ | f
  · exact h2
  · exact fileGetBlock_flat h2
  · exact h2

theorem walkElements_flat {names : List (List Byte)} {up : Option ℕ} {dir : ℕ} {r : Walk × Bytes}
    (h : flat (walkElements names up dir) d = some r) : Fs.walkElements names up dir d = some r := by
  induction names generalizing up dir d with
  | nil => exact h
  | cons name rest ih =>
    unfold walkElements at h
    unfold Fs.walkElements
    rw [flat_ite] at h
    by_cases h0 : name.length ≥ 128
    · rw [if_pos h0] at h ⊢
      exact h
    rw [if_neg h0] at h ⊢
    rw [flat_bind, flat_load32, Option.bind_some, flat_ite] at h
    by_cases h1 : fType d dir ≠ ftypeDir
    · rw [if_pos (show d.load32 (dir + 132) ≠ ftypeDir from h1)] at h
      rw [if_pos h1]
      exact h
    rw [if_neg (show ¬ d.load32 (dir + 132) ≠ ftypeDir from h1)] at h
    rw [if_neg h1]
    obtain ⟨x, d₁, h2, h3⟩ := of_bind h
    rw [dirLookup_flat h2]
    cases x with
    | error e => exact h3
    | ok f => exact ih h3

theorem walkPath_flat {path : CString} {r : Walk × Bytes} (h : flat (walkPath path) d = some r) :
    Fs.walkPath d path = some r := walkElements_flat h

/-! ## Flushing -/

theorem fileBlockWalk_reads {r : Except ℤ ℕ} (h : flat (fileBlockWalk f n false) d = some (r, d')) : d' = d := by
  rcases fileBlockWalk_cases (fileBlockWalk_flat h) with ⟨_, -, -, hd, -⟩ | ⟨_, -, -, -, hd | ⟨h0, -⟩⟩
  · exact hd
  · exact hd
  · cases h0

theorem flat_of_diskaddr {r : Unit × Bytes} (h : flat (diskaddr b >>= flushBlock) d = some r) : r = ((), d) := by
  obtain ⟨a, d₁, h1, h2⟩ := of_bind h
  rw [flat_diskaddr] at h1
  obtain ⟨_, -, h3⟩ := Option.map_eq_some_iff.1 h1
  obtain ⟨-, rfl⟩ := Prod.mk.inj h3
  exact (Option.some.inj h2).symm

theorem flushAt_flat {r : Unit × Bytes} (h : flat (flushAt f i) d = some r) : r = ((), d) := by
  unfold flushAt at h
  obtain ⟨x, d₁, h1, h2⟩ := of_bind h
  obtain rfl := fileBlockWalk_reads h1
  cases x with
  | error e => exact (Option.some.inj h2).symm
  | ok p =>
    dsimp only at h2
    rw [flat_bind, flat_load32, Option.bind_some, flat_ite] at h2
    split at h2
    · exact flat_of_diskaddr h2
    · exact (Option.some.inj h2).symm

theorem flushLoop_flat {r : Unit × Bytes} (h : flat (flushLoop f n i) d = some r) : r = ((), d) := by
  induction n generalizing i with
  | zero => exact (Option.some.inj h).symm
  | succ n ih =>
    unfold flushLoop at h
    rw [flat_bind, flat_fSize, Option.bind_some, flat_ite] at h
    split at h
    · obtain ⟨_, d₁, h1, h2⟩ := of_bind h
      obtain ⟨-, rfl⟩ := Prod.mk.inj (flushAt_flat h1)
      exact ih h2
    · exact (Option.some.inj h).symm

/-- **`file_flush`** leaves the memory as it is. -/
theorem fileFlush_flat {r : Unit × Bytes} (h : flat (fileFlush f) d = some r) : r = ((), d) := by
  unfold fileFlush at h
  obtain ⟨_, d₁, h1, h2⟩ := of_bind h
  obtain ⟨-, rfl⟩ := Prod.mk.inj (flushLoop_flat h1)
  rw [flat_bind, flat_flushBlock, Option.bind_some, flat_bind, flat_load32, Option.bind_some, flat_ite] at h2
  split at h2
  · exact flat_of_diskaddr h2
  · exact (Option.some.inj h2).symm

/-- **`fs_sync`** leaves the memory as it is. -/
theorem syncLoop_flat {r : Unit × Bytes} (h : flat (syncLoop n i) d = some r) : r = ((), d) := by
  induction n generalizing i with
  | zero => exact (Option.some.inj h).symm
  | succ n ih =>
    unfold syncLoop at h
    rw [flat_bind, flat_nblocks, Option.bind_some, flat_ite] at h
    split at h
    · obtain ⟨a, d₁, h1, h2⟩ := of_bind h
      rw [flat_diskaddr] at h1
      obtain ⟨_, -, h3⟩ := Option.map_eq_some_iff.1 h1
      obtain ⟨-, rfl⟩ := Prod.mk.inj h3
      exact ih h2
    · exact (Option.some.inj h).symm

/-! ## File operations -/

theorem fileCreate_flat {path : CString} {r : Except ℤ ℕ × Bytes} (h : flat (fileCreate path) d = some r) :
    Fs.fileCreate d path = some r := by
  unfold fileCreate at h
  unfold Fs.fileCreate
  obtain ⟨x, d₁, h1, h2⟩ := of_bind h
  rw [walkPath_flat h1]
  rcases x with _ | ⟨e, _ | ⟨dir, name⟩⟩
  · exact h2
  · exact h2
  · dsimp only at h2
    rw [flat_ite] at h2
    dsimp only [Option.bind_eq_bind, Option.bind_some]
    split at h2
    · rename_i h0
      rw [if_pos h0]
      exact h2
    rename_i h0
    rw [if_neg h0]
    obtain ⟨y, d₂, h3, h4⟩ := of_bind h2
    rw [dirAllocFile_flat h3]
    cases y with
    | error e => exact h4
    | ok f =>
      dsimp only at h4
      rw [flat_bind, flat_write, Option.bind_some] at h4
      obtain ⟨_, d₃, h5, h6⟩ := of_bind h4
      obtain ⟨-, rfl⟩ := Prod.mk.inj (fileFlush_flat h5)
      exact h6

theorem fileOpen_flat {path : CString} {r : Except ℤ ℕ × Bytes} (h : flat (fileOpen path) d = some r) :
    Fs.fileOpen d path = some r := by
  unfold fileOpen at h
  unfold Fs.fileOpen
  obtain ⟨x, d₁, h1, h2⟩ := of_bind h
  rw [walkPath_flat h1]
  cases x <;> exact h2

theorem fileReadLoop_flat {fin : ℕ} {pos : ℤ} {r : (ℤ × List Byte) × Bytes}
    (h : flat (fileReadLoop f fin n pos) d = some r) : Fs.fileReadLoop f fin n pos d = some r := by
  induction n generalizing pos d r with
  | zero => exact h
  | succ n ih =>
    unfold fileReadLoop at h
    unfold Fs.fileReadLoop
    rw [flat_ite] at h
    split at h
    · rename_i hlt
      rw [if_pos hlt]
      obtain ⟨x, d₁, h1, h2⟩ := of_bind h
      rw [fileGetBlock_flat h1]
      cases x with
      | error e => exact h2
      | ok blk =>
        dsimp only at h2
        rw [flat_bind, flat_read, Option.bind_some] at h2
        obtain ⟨⟨e, bs⟩, d₂, h3, h4⟩ := of_bind h2
        dsimp only [Option.bind_eq_bind, Option.bind_some]
        rw [ih h3]
        exact h4
    · rename_i hlt
      rw [if_neg hlt]
      exact h

theorem fileRead_flat {count : ℕ} {offset : ℤ} {r : (ℤ × List Byte) × Bytes}
    (h : flat (fileRead f count offset) d = some r) : Fs.fileRead d f count offset = some r := by
  unfold fileRead at h
  unfold Fs.fileRead
  rw [flat_bind, flat_fSize, Option.bind_some, flat_ite] at h
  split at h
  · rename_i h0
    rw [if_pos h0]
    exact h
  · rename_i h0
    rw [if_neg h0]
    rw [flat_bind, flat_fSize, Option.bind_some] at h
    obtain ⟨⟨e, bs⟩, d₁, h1, h2⟩ := of_bind h
    dsimp only
    rw [fileReadLoop_flat h1]
    exact h2

theorem fileFreeBlock_flat {r : ℤ × Bytes} (h : flat (fileFreeBlock f n) d = some r) :
    Fs.fileFreeBlock d f n = some r := by
  unfold fileFreeBlock at h
  unfold Fs.fileFreeBlock
  obtain ⟨x, d₁, h1, h2⟩ := of_bind h
  rw [fileBlockWalk_flat h1]
  cases x with
  | error e => exact h2
  | ok p =>
    dsimp only at h2
    dsimp only [Option.bind_eq_bind, Option.bind_some]
    rw [flat_bind, flat_load32, Option.bind_some] at h2
    dsimp only at h2
    rw [flat_ite] at h2
    by_cases h0 : d₁.load32 p ≠ 0
    · rw [if_pos h0] at h2 ⊢
      rw [flat_bind, flat_load32, Option.bind_some] at h2
      obtain ⟨_, d₂, h3, h4⟩ := of_bind h2
      rw [freeBlock_of h3]
      exact h4
    · rw [if_neg h0] at h2 ⊢
      exact h2

theorem truncateLoop_flat {l : List ℕ} {r : Unit × Bytes} (h : flat (truncateLoop f l) d = some r) :
    l.foldlM (fun d bno => (Fs.fileFreeBlock d f bno).map (·.2)) d = some r.2 := by
  induction l generalizing d with
  | nil =>
    obtain rfl := Option.some.inj h
    rfl
  | cons bno l ih =>
    unfold truncateLoop at h
    obtain ⟨x, d₁, h1, h2⟩ := of_bind h
    rw [List.foldlM_cons, fileFreeBlock_flat h1]
    exact ih h2

theorem fileTruncateBlocks_flat {z : ℤ} {r : Unit × Bytes} (h : flat (fileTruncateBlocks f z) d = some r) :
    Fs.fileTruncateBlocks d f z = some r.2 := by
  unfold fileTruncateBlocks at h
  unfold Fs.fileTruncateBlocks
  rw [flat_bind, flat_fSize, Option.bind_some] at h
  obtain ⟨_, d₁, h1, h2⟩ := of_bind h
  dsimp only
  rw [truncateLoop_flat h1]
  dsimp only [Option.bind_eq_bind, Option.bind_some]
  rw [flat_ite] at h2
  by_cases h0 : sizeBlocks z ≤ 10
  · rw [if_pos h0, flat_bind, flat_load32, Option.bind_some, flat_ite] at h2
    by_cases h3 : d₁.load32 (fIndirect f) ≠ 0
    · rw [if_pos ⟨h0, h3⟩]
      rw [if_pos (show (d₁.load32 (fIndirect f), d₁).1 ≠ 0 from h3), flat_bind, flat_load32, Option.bind_some] at h2
      obtain ⟨_, d₂, h4, h5⟩ := of_bind h2
      rw [freeBlock_of h4]
      obtain rfl := Option.some.inj h5
      rfl
    · rw [if_neg fun h4 => h3 h4.2]
      rw [if_neg (show ¬ (d₁.load32 (fIndirect f), d₁).1 ≠ 0 from h3)] at h2
      obtain rfl := Option.some.inj h2
      rfl
  · rw [if_neg fun h4 => h0 h4.1]
    rw [if_neg h0] at h2
    obtain rfl := Option.some.inj h2
    rfl

theorem fileSetSize_flat {z : ℤ} {r : Unit × Bytes} (h : flat (fileSetSize f z) d = some r) :
    Fs.fileSetSize d f z = some r.2 := by
  unfold fileSetSize at h
  unfold Fs.fileSetSize
  rw [flat_bind, flat_fSize, Option.bind_some] at h
  dsimp only at h
  rw [flat_ite] at h
  by_cases h0 : Fs.fSize d f > z
  · rw [if_pos h0] at h ⊢
    obtain ⟨_, d₁, h1, h2⟩ := of_bind h
    rw [fileTruncateBlocks_flat h1]
    obtain rfl := Option.some.inj h2
    rfl
  · rw [if_neg h0] at h ⊢
    obtain rfl := Option.some.inj h
    rfl

theorem fileWriteLoop_flat {fin : ℕ} {pos : ℤ} {buf : List Byte} {r : ℤ × Bytes}
    (h : flat (fileWriteLoop f fin n pos buf) d = some r) : Fs.fileWriteLoop f fin n pos buf d = some r := by
  induction n generalizing pos buf d with
  | zero => exact h
  | succ n ih =>
    unfold fileWriteLoop at h
    unfold Fs.fileWriteLoop
    rw [flat_ite] at h
    split at h
    · rename_i hlt
      rw [if_pos hlt]
      obtain ⟨x, d₁, h1, h2⟩ := of_bind h
      rw [fileGetBlock_flat h1]
      cases x with
      | error e => exact h2
      | ok blk => exact ih h2
    · rename_i hlt
      rw [if_neg hlt]
      exact h

theorem fileWrite_flat {offset : ℤ} {r : ℤ × Bytes} (h : flat (fileWrite f bs offset) d = some r) :
    Fs.fileWrite d f bs offset = some r := by
  unfold fileWrite at h
  unfold Fs.fileWrite
  rw [flat_bind, flat_fSize, Option.bind_some] at h
  dsimp only at h ⊢
  unfold extendTo
  rw [flat_ite] at h
  split at h
  · rename_i h0
    rw [if_pos h0]
    obtain ⟨_, d₁, h1, h2⟩ := of_bind h
    obtain ⟨e, d₂, h3, h4⟩ := of_bind h2
    rw [fileSetSize_flat h1]
    dsimp only [Option.bind_eq_bind, Option.bind_some]
    rw [fileWriteLoop_flat h3]
    exact h4
  · rename_i h0
    rw [if_neg h0]
    obtain ⟨e, d₂, h3, h4⟩ := of_bind h
    dsimp only [Option.bind_eq_bind, Option.bind_some]
    rw [fileWriteLoop_flat h3]
    exact h4

theorem fileRemove_flat {path : CString} {r : ℤ × Bytes} (h : flat (fileRemove path) d = some r) :
    Fs.fileRemove d path = some r := by
  unfold fileRemove at h
  unfold Fs.fileRemove
  obtain ⟨x, d₁, h1, h2⟩ := of_bind h
  rw [walkPath_flat h1]
  cases x with
  | failed e last => exact h2
  | found dir f =>
    obtain ⟨_, d₂, h3, h4⟩ := of_bind h2
    dsimp only [Option.bind_eq_bind, Option.bind_some]
    rw [fileTruncateBlocks_flat h3]
    exact h4

/-! ## The server over its cache -/

variable {σ σ' : Bc} {o : Op} {os : List Op} {rs : List Reply}

theorem code_flat {r : Reply} (h : flat o.code d = some (r, d')) : o.plain d = some (r, d') := by
  cases o with
  | call c =>
    cases c with
    | create path =>
      obtain ⟨x, d₁, h1, h2⟩ := of_bind h
      rw [Op.plain, fileCreate_flat h1]
      exact h2
    | «open» path =>
      obtain ⟨x, d₁, h1, h2⟩ := of_bind h
      rw [Op.plain, fileOpen_flat h1]
      exact h2
    | read f count offset =>
      obtain ⟨x, d₁, h1, h2⟩ := of_bind h
      rw [Op.plain, fileRead_flat h1]
      exact h2
    | write f buf offset =>
      obtain ⟨x, d₁, h1, h2⟩ := of_bind h
      rw [Op.plain, fileWrite_flat h1]
      exact h2
    | setSize f size =>
      obtain ⟨x, d₁, h1, h2⟩ := of_bind h
      rw [Op.plain, fileSetSize_flat h1]
      exact h2
    | remove path =>
      obtain ⟨x, d₁, h1, h2⟩ := of_bind h
      rw [Op.plain, fileRemove_flat h1]
      exact h2
  | flush f =>
    obtain ⟨x, d₁, h1, h2⟩ := of_bind h
    obtain ⟨-, rfl⟩ := Prod.mk.inj (fileFlush_flat h1)
    exact h2
  | sync =>
    obtain ⟨x, d₁, h1, h2⟩ := of_bind h
    obtain ⟨-, rfl⟩ := Prod.mk.inj (syncLoop_flat h1)
    exact h2

theorem codes_flat (h : flat (codes os) d = some (rs, d')) : plains os d = some (rs, d') := by
  induction os generalizing d d' rs with
  | nil => exact h
  | cons o os ih =>
    unfold codes at h
    unfold plains
    obtain ⟨r, d₁, h1, h2⟩ := of_bind h
    obtain ⟨rs₁, d₂, h3, h4⟩ := of_bind h2
    rw [code_flat h1]
    dsimp only [Option.bind_eq_bind, Option.bind_some]
    rw [ih h3]
    exact h4

/-- **The server over its cache is the server on a plain memory**: any calls that it makes to `fs.c`
without a panic return what they return on the memory that the cache shows at the start, and leave
there what they leave in the cache. -/
theorem server_refines (hc : σ.Coherent (· / 4096)) (h : (codes os).interp Bc.exec σ = some (rs, σ')) :
    plains os σ.view = some (rs, σ'.view) ∧ σ'.Coherent (· / 4096) := by
  obtain ⟨h1, h2⟩ := Bc.cached_refines hc h
  exact ⟨codes_flat h1, h2⟩

theorem start_coherent (d : Bytes) (room : ℕ) : (Bc.start d room).Coherent (· / 4096) :=
  fun _ hm => Bool.noConfusion hm

/-- `/a` is created, written to and flushed. -/
theorem server_refines_hi : ∃ rs σ',
    (codes [.call (.create pathA), .call (.write 12544 [0x68, 0x69] 0), .flush 12544]).interp Bc.exec
      (Bc.start binImage 8) = some (rs, σ') ∧
    plains [.call (.create pathA), .call (.write 12544 [0x68, 0x69] 0), .flush 12544] (Bc.start binImage 8).view =
      some (rs, σ'.view) := by
  have hrun : ((codes [.call (.create pathA), .call (.write 12544 [0x68, 0x69] 0), .flush 12544]).interp Bc.exec
      (Bc.start binImage 8)).isSome = true := by decide +kernel
  obtain ⟨⟨rs, σ'⟩, h⟩ := Option.isSome_iff_exists.1 hrun
  exact ⟨rs, σ', h, (server_refines (start_coherent _ _) h).1⟩

end Jos.Fs.Io
