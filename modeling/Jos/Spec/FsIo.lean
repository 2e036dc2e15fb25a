import Jos.Spec.Bc
import Jos.Spec.Fsck

/-!
# `fs/fs.c` as programs

The functions of `fs/fs.c`, access by access, with the calls to `flush_block` where the source has
them. Their names are those of `Jos.Spec.Fs`, which has the same functions on a plain memory and
without the flushes.
-/

namespace Jos.Fs.Io

open Lib Prog

/-- Code that accesses the disk map. -/
abbrev Code := Prog Acc Acc.Result

variable {α : Type}

/-! ## Accesses -/

def panic : Code α := .call Acc.panic Empty.elim

def read (a n : ℕ) : Code (List Byte) := perform (Acc.read a n)

def write (a : ℕ) (bs : List Byte) : Code Unit := perform (Acc.write a bs)

/-- `flush_block(addr)`. -/
def flushBlock (a : ℕ) : Code Unit := perform (Acc.flush a)

/-- The word that four bytes make. -/
def word (bs : List Byte) : BitVec 32 :=
  BitVec.ofNat 32 ((bs.getD 0 0).toNat + 2 ^ 8 * (bs.getD 1 0).toNat + 2 ^ 16 * (bs.getD 2 0).toNat +
    2 ^ 24 * (bs.getD 3 0).toNat)

def load32 (a : ℕ) : Code (BitVec 32) := do return word (← read a 4)

def store32 (a : ℕ) (w : BitVec 32) : Code Unit := write a (Bytes.word32 w)

def loadByte (a : ℕ) : Code Byte := do return (← read a 1).getD 0 0

/-- `memset(addr, 0, n)`. -/
def clear (a n : ℕ) : Code Unit := write a (List.replicate n 0)

/-! ## Blocks -/

/-- `super->s_nblocks`. -/
def nblocks : Code ℕ := do return (← load32 4100).toNat

/-- `diskaddr(blockno)`. -/
def diskaddr (blockno : ℕ) : Code ℕ := do
  if blockno = 0 then panic
  else if blockno ≥ (← nblocks) then panic
  else return blockno * 4096

/-- `block_is_free(blockno)`. -/
def blockIsFree (blockno : ℕ) : Code Bool := do
  if blockno ≥ (← nblocks) then return false
  else return (← load32 (bitmapWord (blockno / 32))) &&& 1#32 <<< (blockno % 32) != 0

/-- `free_block(blockno)`. -/
def freeBlock (blockno : ℕ) : Code Unit := do
  if blockno = 0 then panic
  else store32 (bitmapWord (blockno / 32)) ((← load32 (bitmapWord (blockno / 32))) ||| 1#32 <<< (blockno % 32))

/-- The loop of `alloc_block`, from `i` on, for at most the given number of turns. -/
def allocLoop : ℕ → ℕ → Code (Option ℕ)
  | 0, _ => return none
  | n + 1, i => do
    if i < (← nblocks) then
      if ← blockIsFree i then
        store32 (bitmapWord (i / 32)) ((← load32 (bitmapWord (i / 32))) &&& ~~~(1#32 <<< (i % 32)))
        flushBlock (bitmapWord (i / 32))
        return some i
      else allocLoop n (i + 1)
    else return none

/-- `alloc_block()`; `none` is `-E_NO_DISK`. The count of blocks is a word. -/
def allocBlock : Code (Option ℕ) := allocLoop (2 ^ 32) 0

/-- The lines that `file_block_walk` and `file_get_block` share. -/
def allocAt (p : ℕ) : Code Bool := do
  if (← load32 p) ≠ 0 then return true
  else match ← allocBlock with
    | none => return false
    | some x => do
      store32 p (BitVec.ofNat 32 x)
      clear (← diskaddr x) 4096
      flushBlock (← diskaddr x)
      return true

/-- `file_block_walk(f, filebno, &p, alloc)`. -/
def fileBlockWalk (f filebno : ℕ) (alloc : Bool) : Code (Except ℤ ℕ) := do
  if filebno ≥ 10 + 1024 then return .error (-eInval)
  else if filebno < 10 then return .ok (fDirect f filebno)
  else if (← load32 (fIndirect f)) = 0 ∧ alloc = false then return .error (-eNotFound)
  else if ← allocAt (fIndirect f) then
    return .ok ((← diskaddr (← load32 (fIndirect f)).toNat) + 4 * (filebno - 10))
  else return .error (-eNoDisk)

/-- `file_get_block(f, filebno, &blk)`. -/
def fileGetBlock (f filebno : ℕ) : Code (Except ℤ ℕ) := do
  match ← fileBlockWalk f filebno true with
  | .error r => return .error r
  | .ok p =>
    if ← allocAt p then return .ok (← diskaddr (← load32 p).toNat)
    else return .error (-eNoDisk)

/-! ## Directories -/

/-- A loop that looks for the first item that passes a test. -/
def findM (p : ℕ → Code Bool) : List ℕ → Code (Option ℕ)
  | [] => return none
  | x :: xs => do if ← p x then return some x else findM p xs

/-- The loop of `dir_lookup` and `dir_alloc_file`, with their test of a `struct File`. -/
def dirScan (p : ℕ → Code Bool) (dir : ℕ) : List ℕ → Code (Except ℤ (Option ℕ))
  | [] => return .ok none
  | i :: is => do
    match ← fileGetBlock dir i with
    | .error r => return .error r
    | .ok blk =>
      match ← findM (fun j => p (blk + 256 * j)) (List.range 16) with
      | some j => return .ok (some (blk + 256 * j))
      | none => dirScan p dir is

/-- `strcmp(f, name) == 0`, on the characters of `name` that are left. -/
def strEq : List Byte → ℕ → Code Bool
  | [], f => return (← loadByte f) == 0
  | c :: cs, f => do if (← loadByte f) = c then strEq cs (f + 1) else return false

def nameFree (f : ℕ) : Code Bool := do return (← loadByte f) == 0

def fSize (f : ℕ) : Code ℤ := do return (← load32 (f + 128)).toInt

def setFSize (f : ℕ) (size : ℤ) : Code Unit := store32 (f + 128) (BitVec.ofInt 32 size)

/-- `dir_lookup(dir, name, &file)`. -/
def dirLookup (dir : ℕ) (name : List Byte) : Code (Except ℤ ℕ) := do
  if (← fSize dir).tmod 4096 ≠ 0 then panic
  else do
    let nblock := u32 ((← fSize dir).tdiv 4096)
    match ← dirScan (strEq name) dir (List.range nblock) with
    | .error r => return .error r
    | .ok none => return .error (-eNotFound)
    | .ok (some f) => return .ok f

/-- `dir_alloc_file(dir, &file)`. -/
def dirAllocFile (dir : ℕ) : Code (Except ℤ ℕ) := do
  if (← fSize dir).tmod 4096 ≠ 0 then panic
  else do
    let nblock := u32 ((← fSize dir).tdiv 4096)
    match ← dirScan nameFree dir (List.range nblock) with
    | .error r => return .error r
    | .ok (some f) => return .ok f
    | .ok none => do
      setFSize dir ((← fSize dir) + 4096)
      fileGetBlock dir nblock

/-- The loop of `walk_path`, at file `f` in directory `dir`. -/
def walkElements : List (List Byte) → Option ℕ → ℕ → Code Walk
  | [], dir, f => return .found dir f
  | name :: rest, _, dir => do
    if name.length ≥ 128 then return .failed (-eBadPath) none
    else if (← load32 (dir + 132)) ≠ ftypeDir then return .failed (-eNotFound) none
    else match ← dirLookup dir name with
      | .ok f => walkElements rest (some dir) f
      | .error r => return .failed r (if r = -eNotFound ∧ rest = [] then some (dir, name) else none)

/-- `walk_path(path, &dir, &f, name)`. -/
def walkPath (path : CString) : Code Walk := walkElements (elements path) none sRoot

/-! ## Flushing files -/

/-- The bound of the loop of `file_flush`, an `int`. -/
def flushTurns (size : ℤ) : ℕ := ((i32 (size + 4096 - 1)).tdiv 4096).toNat

/-- One turn of that loop. -/
def flushAt (f i : ℕ) : Code Unit := do
  match ← fileBlockWalk f i false with
  | .error _ => return ()
  | .ok p =>
    if (← load32 p) ≠ 0 then flushBlock (← diskaddr (← load32 p).toNat)

/-- The loop of `file_flush`, from `i` on, for at most the given number of turns. -/
def flushLoop (f : ℕ) : ℕ → ℕ → Code Unit
  | 0, _ => return ()
  | n + 1, i => do
    if i < flushTurns (← fSize f) then do
      flushAt f i
      flushLoop f n (i + 1)

/-- `file_flush(f)`. -/
def fileFlush (f : ℕ) : Code Unit := do
  flushLoop f (2 ^ 32) 0
  flushBlock f
  if (← load32 (fIndirect f)) ≠ 0 then flushBlock (← diskaddr (← load32 (fIndirect f)).toNat)

/-- The loop of `fs_sync`, from `i` on, for at most the given number of turns. -/
def syncLoop : ℕ → ℕ → Code Unit
  | 0, _ => return ()
  | n + 1, i => do
    if i < (← nblocks) then do
      flushBlock (← diskaddr i)
      syncLoop n (i + 1)

/-- `fs_sync()`. -/
def fsSync : Code Unit := syncLoop (2 ^ 32) 1

/-! ## File operations -/

/-- `file_create(path, &f)`. -/
def fileCreate (path : CString) : Code (Except ℤ ℕ) := do
  match ← walkPath path with
  | .found _ _ => return .error (-eFileExists)
  | .failed r none => return .error r
  | .failed r (some (dir, name)) =>
    if r ≠ -eNotFound then return .error r
    else match ← dirAllocFile dir with
      | .error r => return .error r
      | .ok f => do
        write f (name ++ [0])
        fileFlush dir
        return .ok f

/-- `file_open(path, &f)`. -/
def fileOpen (path : CString) : Code (Except ℤ ℕ) := do
  match ← walkPath path with
  | .found _ f => return .ok f
  | .failed r _ => return .error r

/-- The loop of `file_read`, for at most the given number of turns. -/
def fileReadLoop (f fin : ℕ) : ℕ → ℤ → Code (ℤ × List Byte)
  | 0, _ => return (0, [])
  | n + 1, pos => do
    if u64 pos < fin then
      match ← fileGetBlock f (u32 (pos.tdiv 4096)) with
      | .error r => return (r, [])
      | .ok blk => do
        let bn := chunk fin pos
        let bs ← read (blk + pos.tmod 4096).toNat bn
        let (r, bs') ← fileReadLoop f fin n (pos + bn)
        return (r, bs ++ bs')
    else return (0, [])

/-- `file_read(f, buf, count, offset)`. -/
def fileRead (f count : ℕ) (offset : ℤ) : Code (ℤ × List Byte) := do
  if offset ≥ (← fSize f) then return (0, [])
  else do
    let count := min count (u64 ((← fSize f) - offset))
    let (r, bs) ← fileReadLoop f (u64 (offset + count)) count offset
    return (if r < 0 then r else count, bs)

/-- `file_free_block(f, filebno)`. -/
def fileFreeBlock (f filebno : ℕ) : Code ℤ := do
  match ← fileBlockWalk f filebno false with
  | .error r => return r
  | .ok p =>
    if (← load32 p) ≠ 0 then do
      freeBlock (← load32 p).toNat
      store32 p 0
    return 0

/-- The loop of `file_truncate_blocks`. -/
def truncateLoop (f : ℕ) : List ℕ → Code Unit
  | [] => return ()
  | bno :: bs => do
    let _ ← fileFreeBlock f bno
    truncateLoop f bs

/-- `file_truncate_blocks(f, newsize)`. -/
def fileTruncateBlocks (f : ℕ) (newsize : ℤ) : Code Unit := do
  let old := sizeBlocks (← fSize f)
  let new := sizeBlocks newsize
  truncateLoop f (List.range' new (old - new))
  if new ≤ 10 then
    if (← load32 (fIndirect f)) ≠ 0 then do
      freeBlock (← load32 (fIndirect f)).toNat
      store32 (fIndirect f) 0

/-- `file_set_size(f, newsize)`. -/
def fileSetSize (f : ℕ) (newsize : ℤ) : Code Unit := do
  if (← fSize f) > newsize then fileTruncateBlocks f newsize
  setFSize f newsize
  flushBlock f

/-- The loop of `file_write`, for at most the given number of turns. -/
def fileWriteLoop (f fin : ℕ) : ℕ → ℤ → List Byte → Code ℤ
  | 0, _, _ => return 0
  | n + 1, pos, buf => do
    if u64 pos < fin then
      match ← fileGetBlock f (u32 (pos.tdiv 4096)) with
      | .error r => return r
      | .ok blk => do
        let bn := chunk fin pos
        write (blk + pos.tmod 4096).toNat (buf.take bn)
        fileWriteLoop f fin n (pos + bn) (buf.drop bn)
    else return 0

/-- `file_write(f, buf, count, offset)`. -/
def fileWrite (f : ℕ) (buf : List Byte) (offset : ℤ) : Code ℤ := do
  let fin := u64 (offset + buf.length)
  if fin > u64 (← fSize f) then fileSetSize f (i32 fin)
  let r ← fileWriteLoop f fin buf.length offset buf
  return if r < 0 then r else buf.length

/-- `file_remove(path)`. -/
def fileRemove (path : CString) : Code ℤ := do
  match ← walkPath path with
  | .failed r _ => return r
  | .found _ f => do
    fileTruncateBlocks f 0
    write f [0]
    setFSize f 0
    flushBlock f
    return 0

/-! ## What the server asks for -/

/-- A call of `fs.c` by `fs/serv.c`. -/
inductive Op
  | call (c : Call)
  | flush (f : ℕ)
  | sync

/-- What it returns. -/
inductive Reply
  | file (r : Except ℤ ℕ)
  | data (r : ℤ) (bs : List Byte)
  | code (r : ℤ)

/-- The code of a call. -/
def Op.code : Op → Code Reply
  | .call (.create path) => do return .file (← fileCreate path)
  | .call (.open path) => do return .file (← fileOpen path)
  | .call (.read f count offset) => do
    let (r, bs) ← fileRead f count offset
    return .data r bs
  | .call (.write f buf offset) => do return .code (← fileWrite f buf offset)
  | .call (.setSize f size) => do
    fileSetSize f size
    return .code 0
  | .call (.remove path) => do return .code (← fileRemove path)
  | .flush f => do
    fileFlush f
    return .code 0
  | .sync => do
    fsSync
    return .code 0

/-- The code of a list of calls. -/
def codes : List Op → Code (List Reply)
  | [] => return []
  | o :: os => do
    let r ← o.code
    return r :: (← codes os)

/-- The same call on a plain memory, with the functions of `Jos.Spec.Fs`. -/
def Op.plain (d : Bytes) : Op → Option (Reply × Bytes)
  | .call (.create path) => (Fs.fileCreate d path).map fun r => (.file r.1, r.2)
  | .call (.open path) => (Fs.fileOpen d path).map fun r => (.file r.1, r.2)
  | .call (.read f count offset) => (Fs.fileRead d f count offset).map fun r => (.data r.1.1 r.1.2, r.2)
  | .call (.write f buf offset) => (Fs.fileWrite d f buf offset).map fun r => (.code r.1, r.2)
  | .call (.setSize f size) => (Fs.fileSetSize d f size).map fun d => (.code 0, d)
  | .call (.remove path) => (Fs.fileRemove d path).map fun r => (.code r.1, r.2)
  | .flush _ => some (.code 0, d)
  | .sync => some (.code 0, d)

/-- A list of calls on a plain memory. -/
def plains : List Op → Bytes → Option (List Reply × Bytes)
  | [], d => some ([], d)
  | o :: os, d => do
    let (r, d) ← o.plain d
    let (rs, d) ← plains os d
    some (r :: rs, d)

end Jos.Fs.Io
