import Jos.Spec.FsInit

/-!
# `fsformat`

`fs/fsformat.c`, the program of the host that makes a disk image. Its memory is one space of addresses: block `n` of
the disk map is the 4096 bytes from `n * 4096` on, as in `Jos.Spec.Fs`, and the three arrays that `startdir` takes from
`malloc` are above the largest disk. They are not cleared. A function returns `none` where the program panics.
-/

namespace Jos.Format

open Lib Fs

/-- `ROUNDUP(n, BLKSIZE)`, for an `n` of type `uint32_t`. -/
def roundup (n : BitVec 32) : BitVec 32 := n - 1 + 4096 - (n - 1) % 4096

/-- `ROUNDUP(n, BLKSIZE)`, for an `n` of type `int`. -/
def roundupInt (n : ℤ) : ℤ := n - 1 + 4096 - (n - 1).tmod 4096

/-- The memory, and the variables of the program; `diskmap` is 0. -/
structure St where
  nblocks : ℕ
  mem : Bytes
  diskpos : ℕ
  super : ℕ
  bitmap : ℕ

/-- `blockof(pos)`. -/
def blockof (pos : ℕ) : ℕ := pos / 4096

/-- `alloc(bytes)`. -/
def St.alloc (σ : St) (bytes : BitVec 32) : Option (ℕ × St) :=
  let start := σ.diskpos
  let diskpos := σ.diskpos + (roundup bytes).toNat
  if blockof diskpos ≥ σ.nblocks then none else some (start, { σ with diskpos := diskpos })

/-- `"/"`, with its null character. -/
def rootName : List Byte := [0x2F, 0]

/-- `opendisk(name)`, for an image of `nblocks` blocks; the file that is mapped is clear. -/
def opendisk (nblocks : ℕ) (mem : Bytes) : Option St := do
  let σ : St := ⟨nblocks, mem.zero 0 (nblocks * 4096), 0, 0, 0⟩
  let (_, σ) ← σ.alloc 4096
  let (super, σ) ← σ.alloc 4096
  let mem := σ.mem.store32 super Bc.fsMagic
  let mem := mem.store32 (super + 4) (BitVec.ofNat 32 nblocks)
  let mem := mem.store32 (super + 8 + 132) ftypeDir
  let mem := mem.write (super + 8) rootName
  let nbitblocks := (nblocks + 32768 - 1) / 32768
  let (bitmap, σ) ← { σ with mem := mem, super := super }.alloc (BitVec.ofNat 32 (nbitblocks * 4096))
  some { σ with mem := σ.mem.write bitmap (List.replicate (nbitblocks * 4096) 0xFF), bitmap := bitmap }

/-- One turn of the loop of `finishdisk`. -/
def clearBit (bitmap : ℕ) (mem : Bytes) (i : ℕ) : Bytes :=
  mem.store32 (bitmap + 4 * (i / 32)) (mem.load32 (bitmap + 4 * (i / 32)) &&& ~~~(1#32 <<< (i % 32)))

/-- `finishdisk()`. -/
def St.finishdisk (σ : St) : St :=
  { σ with mem := (List.range (blockof σ.diskpos)).foldl (clearBit σ.bitmap) σ.mem }

/-- `finishfile(f, start, len)`. -/
def St.finishfile (σ : St) (f start : ℕ) (len : BitVec 32) : Option St := do
  let mem := σ.mem.store32 (f + 128) len
  let n := (roundup len).toNat / 4096
  let i := min n 10
  let mem := (List.range i).foldl (fun mem i => mem.store32 (fDirect f i) (BitVec.ofNat 32 (start + i))) mem
  if i = 10 then
    let (ind, σ) ← { σ with mem := mem }.alloc 4096
    let mem := σ.mem.store32 (fIndirect f) (BitVec.ofNat 32 (blockof ind))
    some { σ with
      mem := (List.range' 10 (n - 10)).foldl
        (fun mem i => mem.store32 (ind + 4 * (i - 10)) (BitVec.ofNat 32 (start + i))) mem }
  else some { σ with mem := mem }

/-- `struct Dir`. -/
structure Dir where
  f : ℕ
  ents : ℕ
  n : ℕ

/-- `startdir(f, dout)`, where `malloc` returns `ents`. -/
def startdir (f ents : ℕ) : Dir := ⟨f, ents, 0⟩

/-- `diradd(d, type, name)`. -/
def St.diradd (σ : St) (d : Dir) (type : BitVec 32) (name : List Byte) : Option (ℕ × Dir × St) :=
  let out := d.ents + 256 * d.n
  let d := { d with n := d.n + 1 }
  if d.n > 128 then none
  else
    let mem := σ.mem.write out (name ++ [0])
    some (out, d, { σ with mem := mem.store32 (out + 132) type })

/-- `finishdir(d)`. -/
def St.finishdir (σ : St) (d : Dir) : Option St := do
  let size := d.n * 256
  let (start, σ) ← σ.alloc (BitVec.ofNat 32 size)
  let σ := { σ with mem := σ.mem.write start (σ.mem.read d.ents size) }
  σ.finishfile d.f (blockof start) (BitVec.ofInt 32 (roundupInt size))

/-- `last`: what follows the last slash of `name`. -/
def lastElem (name : CString) : List Byte := name.chars.rtakeWhile (· != 0x2F)

/-- The regular files of the host. -/
abbrev Host := CString → Option (List Byte)

/-- `writefile(dir, name)`. -/
def St.writefile (host : Host) (σ : St) (dir : Dir) (name : CString) : Option (Dir × St) := do
  let data ← host name
  if data.length ≥ maxFileSize then none
  else do
    let (f, dir, σ) ← σ.diradd dir 0 (lastElem name)
    let (start, σ) ← σ.alloc (BitVec.ofNat 32 data.length)
    let σ := { σ with mem := σ.mem.write start data }
    let σ ← σ.finishfile f (blockof start) (BitVec.ofNat 32 data.length)
    some (dir, σ)

/-- `FLAG_ROOT`, `FLAG_BIN` and `FLAG_SBIN`: the directory that a file goes to. -/
inductive Flag
  | root
  | bin
  | sbin
  deriving DecidableEq

/-- The variables of `main`. -/
structure Main where
  σ : St
  flag : Flag
  dirs : Flag → Dir

/-- The arguments `-b` and `-sb`. -/
def optB : List Byte := [0x2D, 0x62]
def optSb : List Byte := [0x2D, 0x73, 0x62]

/-- One turn of the loop of `main`. -/
def Main.turn (host : Host) (s : Main) (arg : CString) : Option Main :=
  if arg.chars = optB then some { s with flag := .bin }
  else if arg.chars = optSb then some { s with flag := .sbin }
  else do
    let (dir, σ) ← s.σ.writefile host (s.dirs s.flag) arg
    some { s with σ := σ, dirs := Function.update s.dirs s.flag dir }

/-- The array that call `k` of `malloc` returns. -/
def malloc (k : ℕ) : ℕ := 10240 * 4096 + 32768 * k

/-- The names `bin` and `sbin`. -/
def binName : List Byte := [0x62, 0x69, 0x6E]
def sbinName : List Byte := [0x73, 0x62, 0x69, 0x6E]

/-- The part of `main` before the loop. -/
def Main.start (nblocks : ℕ) (mem : Bytes) : Option Main :=
  if nblocks < 2 ∨ nblocks > 10240 then none
  else do
    let σ ← opendisk nblocks mem
    let root := startdir (σ.super + 8) (malloc 0)
    let (b, root, σ) ← σ.diradd root ftypeDir binName
    let bin := startdir b (malloc 1)
    let (sb, root, σ) ← σ.diradd root ftypeDir sbinName
    let sbin := startdir sb (malloc 2)
    some ⟨σ, .root, fun | .root => root | .bin => bin | .sbin => sbin⟩

/-- The part of `main` behind the loop. -/
def Main.finish (s : Main) : Option St := do
  let σ ← s.σ.finishdir (s.dirs .bin)
  let σ ← σ.finishdir (s.dirs .sbin)
  let σ ← σ.finishdir (s.dirs .root)
  some σ.finishdisk

/-- **`fsformat`**, for an image of `nblocks` blocks and the arguments behind that number. -/
def main (host : Host) (nblocks : ℕ) (argv : List CString) (mem : Bytes) : Option St := do
  let s ← Main.start nblocks mem
  let s ← argv.foldlM (Main.turn host) s
  s.finish

/-! ## What the arguments ask for -/

/-- A file for the image. -/
structure Item where
  dir : Flag
  name : List Byte
  data : List Byte

/-- The files that the arguments name, with the directory that each goes to. -/
def items (host : Host) : Flag → List CString → List Item
  | _, [] => []
  | flag, arg :: argv =>
    if arg.chars = optB then items host .bin argv
    else if arg.chars = optSb then items host .sbin argv
    else ⟨flag, lastElem arg, (host arg).getD []⟩ :: items host flag argv

/-- The elements of the path of a file in directory `dir`. -/
def Flag.path (dir : Flag) (name : List Byte) : List (List Byte) :=
  match dir with
  | .root => [name]
  | .bin => [binName, name]
  | .sbin => [sbinName, name]

/-- The files have names that fit in a directory entry. -/
def NamesFit (l : List Item) : Prop := ∀ item ∈ l, item.name ≠ [] ∧ item.name.length < 128

/-- The names that a directory gets. -/
def kidNames (l : List Item) (D : Flag) : List (List Byte) :=
  (if D = .root then [binName, sbinName] else []) ++ (l.filter (·.dir = D)).map Item.name

/-- The files that the arguments name are there. -/
def Readable (host : Host) (argv : List CString) : Prop :=
  ∀ arg ∈ argv, arg.chars ≠ optB → arg.chars ≠ optSb → ∃ data, host arg = some data

/-- The blocks that a file of this size takes. -/
def fileBlocks (size : ℕ) : ℕ := (size + 4095) / 4096 + if (size + 4095) / 4096 < 10 then 0 else 1

/-- The blocks that a directory with this many entries takes. -/
def kidBlocks (count : ℕ) : ℕ := (256 * count + 4095) / 4096

/-- The number of files for a directory. -/
def count (l : List Item) (D : Flag) : ℕ := (l.filter (·.dir = D)).length

/-- The blocks that the files take. -/
def itemBlocks (l : List Item) : ℕ := (l.map fun item => fileBlocks item.data.length).sum

/-- The blocks that the image takes. -/
def imageBlocks (l : List Item) : ℕ :=
  3 + itemBlocks l + kidBlocks (kidNames l .bin).length + kidBlocks (kidNames l .sbin).length +
    kidBlocks (kidNames l .root).length

/-- The arrays that `malloc` returns are clear, as those of a fresh heap are; `malloc` does not promise it. -/
def Fresh (mem : Bytes) : Prop := ∀ x, malloc 0 ≤ x → x < malloc 3 → mem.byte x = 0

end Jos.Format
