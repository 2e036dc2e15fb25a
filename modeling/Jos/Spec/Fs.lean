import Jos.Spec.Layout
import Jos.Lib.Bytes

/-!
# The file system

`fs/fs.c`, over the disk as the block cache maps it: address `a` is `DISKMAP + a`, so
block `n` is the 4096 bytes from `n * 4096` on, and a `struct File *` or a `uint32_t *`
is an address. The cache of `fs/bc.c` does not show: `flush_block` and `file_flush` leave
the contents as they are. Every function returns `none` where the server panics.

`BLKSIZE` is 4096, `NDIRECT` 10, `NINDIRECT` 1024, `MAXNAMELEN` 128 and `BLKFILES` 16.
-/

namespace Jos.Fs

open Lib

/-! ## C integers -/

def u32 (x : ℤ) : ℕ := (BitVec.ofInt 32 x).toNat
def i32 (x : ℤ) : ℤ := (BitVec.ofInt 32 x).toInt
def u64 (x : ℤ) : ℕ := (BitVec.ofInt 64 x).toNat

/-! ## The super block and `struct File` -/

/-- `super->s_nblocks`. -/
def nblocks (d : Bytes) : ℕ := (d.load32 4100).toNat

/-- `&super->s_root`. -/
def sRoot : ℕ := 4104

def fSize (d : Bytes) (f : ℕ) : ℤ := (d.load32 (f + 128)).toInt

def setFSize (d : Bytes) (f : ℕ) (size : ℤ) : Bytes := d.store32 (f + 128) (BitVec.ofInt 32 size)

def fType (d : Bytes) (f : ℕ) : BitVec 32 := d.load32 (f + 132)

/-- `&f->f_direct[i]`. -/
def fDirect (f i : ℕ) : ℕ := f + 136 + 4 * i

/-- `&f->f_indirect`. -/
def fIndirect (f : ℕ) : ℕ := f + 176

/-- `FTYPE_DIR`. -/
def ftypeDir : BitVec 32 := 1

def maxFileSize : ℕ := (10 + 1024) * 4096

/-- `diskaddr(blockno)`. -/
def diskaddr (d : Bytes) (blockno : ℕ) : Option ℕ :=
  if blockno = 0 ∨ blockno ≥ nblocks d then none else some (blockno * 4096)

/-! ## The free block bitmap -/

/-- `&bitmap[i]`. -/
def bitmapWord (i : ℕ) : ℕ := 8192 + 4 * i

/-- `block_is_free(blockno)`. -/
def blockIsFree (d : Bytes) (blockno : ℕ) : Bool :=
  decide (blockno < nblocks d) &&
    d.load32 (bitmapWord (blockno / 32)) &&& 1#32 <<< (blockno % 32) != 0

/-- `free_block(blockno)`. -/
def freeBlock (d : Bytes) (blockno : ℕ) : Option Bytes :=
  if blockno = 0 then none
  else some (d.store32 (bitmapWord (blockno / 32))
    (d.load32 (bitmapWord (blockno / 32)) ||| 1#32 <<< (blockno % 32)))

/-- `alloc_block()`; `none` is `-E_NO_DISK`. -/
def allocBlock (d : Bytes) : Option ℕ × Bytes :=
  match (List.range (nblocks d)).find? (blockIsFree d) with
  | none => (none, d)
  | some i => (some i, d.store32 (bitmapWord (i / 32))
      (d.load32 (bitmapWord (i / 32)) &&& ~~~(1#32 <<< (i % 32))))

/-! ## The blocks of a file -/

/-- The lines that `file_block_walk` and `file_get_block` share: if the slot at `p` is 0,
allocate a block, store its number there and clear it. The result is whether the slot holds
a block then. -/
def allocAt (d : Bytes) (p : ℕ) : Option (Bool × Bytes) :=
  if d.load32 p ≠ 0 then some (true, d)
  else match allocBlock d with
    | (none, d) => some (false, d)
    | (some x, d) => do
      let d := d.store32 p (BitVec.ofNat 32 x)
      let a ← diskaddr d x
      some (true, d.zero a 4096)

/-- `file_block_walk(f, filebno, &p, alloc)`. -/
def fileBlockWalk (d : Bytes) (f filebno : ℕ) (alloc : Bool) : Option (Except ℤ ℕ × Bytes) :=
  if filebno ≥ 10 + 1024 then some (.error (-eInval), d)
  else if filebno < 10 then some (.ok (fDirect f filebno), d)
  else if d.load32 (fIndirect f) = 0 ∧ alloc = false then some (.error (-eNotFound), d)
  else do
    let (ok, d) ← allocAt d (fIndirect f)
    if ok then do
      let a ← diskaddr d (d.load32 (fIndirect f)).toNat
      some (.ok (a + 4 * (filebno - 10)), d)
    else some (.error (-eNoDisk), d)

/-- `file_get_block(f, filebno, &blk)`. -/
def fileGetBlock (d : Bytes) (f filebno : ℕ) : Option (Except ℤ ℕ × Bytes) := do
  let (r, d) ← fileBlockWalk d f filebno true
  match r with
  | .error r => some (.error r, d)
  | .ok p => do
    let (ok, d) ← allocAt d p
    if ok then do
      let blk ← diskaddr d (d.load32 p).toNat
      some (.ok blk, d)
    else some (.error (-eNoDisk), d)

/-! ## Directories -/

/-- The loop of `dir_lookup` and `dir_alloc_file`: the first `struct File` that satisfies
`p` in the blocks of `dir` still to be searched. -/
def dirScan (p : Bytes → ℕ → Bool) (dir : ℕ) :
    List ℕ → Bytes → Option (Except ℤ (Option ℕ) × Bytes)
  | [], d => some (.ok none, d)
  | i :: is, d => do
    let (r, d) ← fileGetBlock d dir i
    match r with
    | .error r => some (.error r, d)
    | .ok blk =>
      match (List.range 16).find? fun j => p d (blk + 256 * j) with
      | some j => some (.ok (some (blk + 256 * j)), d)
      | none => dirScan p dir is d

/-- `strcmp(f->f_name, name) == 0`. -/
def nameEq (name : List Byte) (d : Bytes) (f : ℕ) : Bool :=
  (List.range (name.length + 1)).all fun k => d.byte (f + k) == (name ++ [0]).getD k 0

/-- `f->f_name[0] == '\0'`. -/
def nameFree (d : Bytes) (f : ℕ) : Bool := d.byte f == 0

/-- `dir->f_size / BLKSIZE`, as a `uint32_t`. -/
def dirBlocks (d : Bytes) (dir : ℕ) : ℕ := u32 ((fSize d dir).tdiv 4096)

/-- `dir_lookup(dir, name, &file)`. -/
def dirLookup (d : Bytes) (dir : ℕ) (name : List Byte) : Option (Except ℤ ℕ × Bytes) :=
  if (fSize d dir).tmod 4096 ≠ 0 then none
  else do
    let (r, d) ← dirScan (nameEq name) dir (List.range (dirBlocks d dir)) d
    match r with
    | .error r => some (.error r, d)
    | .ok none => some (.error (-eNotFound), d)
    | .ok (some f) => some (.ok f, d)

/-- `dir_alloc_file(dir, &file)`. -/
def dirAllocFile (d : Bytes) (dir : ℕ) : Option (Except ℤ ℕ × Bytes) :=
  if (fSize d dir).tmod 4096 ≠ 0 then none
  else do
    let nblock := dirBlocks d dir
    let (r, d) ← dirScan nameFree dir (List.range nblock) d
    match r with
    | .error r => some (.error r, d)
    | .ok (some f) => some (.ok f, d)
    | .ok none => fileGetBlock (setFSize d dir (fSize d dir + 4096)) dir nblock

/-! ## Paths -/

/-- A C string: no character is the terminator. -/
structure CString where
  chars : List Byte
  noNul : 0 ∉ chars

/-- The elements of a path: the runs of characters that the loop of `walk_path` and
`skip_slash` cut between slashes. -/
def elements (path : CString) : List (List Byte) :=
  (path.chars.splitOnP (· == 0x2F)).filter (!·.isEmpty)

/-- The result of `walk_path`: the directory and the file, or the error with what was
stored in `*pdir` and `lastelem`, if anything was. -/
inductive Walk
  | found (pdir : Option ℕ) (pf : ℕ)
  | failed (r : ℤ) (last : Option (ℕ × List Byte))

/-- The loop of `walk_path`, at file `f` in directory `dir`. -/
def walkElements : List (List Byte) → Option ℕ → ℕ → Bytes → Option (Walk × Bytes)
  | [], dir, f, d => some (.found dir f, d)
  | name :: rest, _, dir, d =>
    if name.length ≥ 128 then some (.failed (-eBadPath) none, d)
    else if fType d dir ≠ ftypeDir then some (.failed (-eNotFound) none, d)
    else do
      let (r, d) ← dirLookup d dir name
      match r with
      | .ok f => walkElements rest (some dir) f d
      | .error r =>
        some (.failed r (if r = -eNotFound ∧ rest = [] then some (dir, name) else none), d)

/-- `walk_path(path, &dir, &f, name)`. -/
def walkPath (d : Bytes) (path : CString) : Option (Walk × Bytes) :=
  walkElements (elements path) none sRoot d

/-! ## File operations -/

/-- `file_create(path, &f)`. -/
def fileCreate (d : Bytes) (path : CString) : Option (Except ℤ ℕ × Bytes) := do
  let (w, d) ← walkPath d path
  match w with
  | .found _ _ => some (.error (-eFileExists), d)
  | .failed r none => some (.error r, d)
  | .failed r (some (dir, name)) =>
    if r ≠ -eNotFound then some (.error r, d)
    else do
      let (r, d) ← dirAllocFile d dir
      match r with
      | .error r => some (.error r, d)
      | .ok f => some (.ok f, d.write f (name ++ [0]))

/-- `file_open(path, &f)`. -/
def fileOpen (d : Bytes) (path : CString) : Option (Except ℤ ℕ × Bytes) := do
  let (w, d) ← walkPath d path
  match w with
  | .found _ f => some (.ok f, d)
  | .failed r _ => some (.error r, d)

/-- The bytes of one turn of the loops of `file_read` and `file_write`, which end at
`fin`. -/
def chunk (fin : ℕ) (pos : ℤ) : ℕ := min (4096 - pos.tmod 4096).toNat (u64 (fin - pos))

/-- The loop of `file_read`, for at most the given number of turns, with the bytes copied. -/
def fileReadLoop (f fin : ℕ) : ℕ → ℤ → Bytes → Option ((ℤ × List Byte) × Bytes)
  | 0, _, d => some ((0, []), d)
  | n + 1, pos, d =>
    if u64 pos < fin then do
      let (r, d) ← fileGetBlock d f (u32 (pos.tdiv 4096))
      match r with
      | .error r => some ((r, []), d)
      | .ok blk => do
        let bn := chunk fin pos
        let ((r, bs), d') ← fileReadLoop f fin n (pos + bn) d
        some ((r, d.read (blk + pos.tmod 4096).toNat bn ++ bs), d')
    else some ((0, []), d)

/-- `file_read(f, buf, count, offset)`, with the bytes copied to `buf`. -/
def fileRead (d : Bytes) (f count : ℕ) (offset : ℤ) : Option ((ℤ × List Byte) × Bytes) :=
  if offset ≥ fSize d f then some ((0, []), d)
  else do
    let count := min count (u64 (fSize d f - offset))
    let ((r, bs), d) ← fileReadLoop f (u64 (offset + count)) count offset d
    some ((if r < 0 then r else count, bs), d)

/-- `file_free_block(f, filebno)`. -/
def fileFreeBlock (d : Bytes) (f filebno : ℕ) : Option (ℤ × Bytes) := do
  let (r, d) ← fileBlockWalk d f filebno false
  match r with
  | .error r => some (r, d)
  | .ok p =>
    if d.load32 p ≠ 0 then do
      let d ← freeBlock d (d.load32 p).toNat
      some (0, d.store32 p 0)
    else some (0, d)

/-- `(size + BLKSIZE - 1) / BLKSIZE`, as a `uint32_t`. -/
def sizeBlocks (size : ℤ) : ℕ := u32 ((size + 4096 - 1).tdiv 4096)

/-- `file_truncate_blocks(f, newsize)`. -/
def fileTruncateBlocks (d : Bytes) (f : ℕ) (newsize : ℤ) : Option Bytes := do
  let old := sizeBlocks (fSize d f)
  let new := sizeBlocks newsize
  let d ← (List.range' new (old - new)).foldlM (fun d bno => (fileFreeBlock d f bno).map (·.2)) d
  if new ≤ 10 ∧ d.load32 (fIndirect f) ≠ 0 then do
    let d ← freeBlock d (d.load32 (fIndirect f)).toNat
    some (d.store32 (fIndirect f) 0)
  else some d

/-- `file_set_size(f, newsize)`, which always returns 0. -/
def fileSetSize (d : Bytes) (f : ℕ) (newsize : ℤ) : Option Bytes :=
  if fSize d f > newsize then (fileTruncateBlocks d f newsize).map (setFSize · f newsize)
  else some (setFSize d f newsize)

/-- The loop of `file_write`, for at most the given number of turns. -/
def fileWriteLoop (f fin : ℕ) : ℕ → ℤ → List Byte → Bytes → Option (ℤ × Bytes)
  | 0, _, _, d => some (0, d)
  | n + 1, pos, buf, d =>
    if u64 pos < fin then do
      let (r, d) ← fileGetBlock d f (u32 (pos.tdiv 4096))
      match r with
      | .error r => some (r, d)
      | .ok blk =>
        let bn := chunk fin pos
        fileWriteLoop f fin n (pos + bn) (buf.drop bn)
          (d.write (blk + pos.tmod 4096).toNat (buf.take bn))
    else some (0, d)

/-- The test at the start of `file_write`: extend the file if necessary. -/
def extendTo (d : Bytes) (f fin : ℕ) : Option Bytes :=
  if fin > u64 (fSize d f) then fileSetSize d f (i32 fin) else some d

/-- `file_write(f, buf, count, offset)`, where `buf` is the `count` bytes at `buf`. -/
def fileWrite (d : Bytes) (f : ℕ) (buf : List Byte) (offset : ℤ) : Option (ℤ × Bytes) := do
  let fin := u64 (offset + buf.length)
  let d ← extendTo d f fin
  let (r, d) ← fileWriteLoop f fin buf.length offset buf d
  some (if r < 0 then r else buf.length, d)

/-- `file_remove(path)`. -/
def fileRemove (d : Bytes) (path : CString) : Option (ℤ × Bytes) := do
  let (w, d) ← walkPath d path
  match w with
  | .failed r _ => some (r, d)
  | .found _ f => do
    let d ← fileTruncateBlocks d f 0
    some (0, setFSize (d.write f [0]) f 0)

end Jos.Fs
