import Jos.Lib.Cache
import Jos.Lib.Prog
import Jos.Spec.Fs

/-!
# The block cache

`fs/bc.c` and `fs/ide.c`. Address `a` is `DISKMAP + a`, as in `Jos.Spec.Fs`. An access to a page
that is not mapped goes to `bc_pgfault` first. The handler reads the super block and the bitmap
itself, so it may fault again: its first argument is how deep faults may nest on the exception
stack. Every function returns `none` where the server panics.

`fs.c` reaches the cache through loads, stores and `flush_block` only. These are the calls of a
program, `Acc`, which `Bc.exec` runs on the cache and `flatExec` on a plain memory.
-/

namespace Jos.Fs

open Lib

/-! ## `fs/ide.c` -/

/-- `DISKSIZE`. -/
def diskSize : ℕ := 0xC0000000

/-- The disk with the pages of the cache, where `dirty` is `PTE_D`. -/
structure Bc extends Cache ℕ Byte ℕ where
  /-- The sectors for which the drive reports an error. -/
  bad : ℕ → Bool
  /-- The number of pages that the kernel has for the server. -/
  room : ℕ
  /-- Whether `super` is set, and whether `bitmap` is. -/
  super : Bool
  bitmap : Bool

namespace Bc

/-- What the disk holds, and what the pages hold. -/
def platter (σ : Bc) : Bytes := ⟨σ.disk⟩
def pages (σ : Bc) : Bytes := ⟨σ.mem⟩

/-- What the file server sees. -/
def view (σ : Bc) : Bytes := ⟨σ.toCache.view (· / 4096)⟩

def setPages (σ : Bc) (d : Bytes) : Bc := { σ with mem := d.byte }
def setPlatter (σ : Bc) (d : Bytes) : Bc := { σ with disk := d.byte }

def setDirty (σ : Bc) (b : ℕ) (v : Bool) : Bc :=
  { σ with dirty := fun c => if c = b then v else σ.dirty c }

/-- The sector that the drive is given. -/
def lba (secno : ℕ) : ℕ := secno % 2 ^ 32 % 2 ^ 28

/-- One turn of the loop of `ide_read`: `insw` stores the words of a sector. -/
def insw (secno dst : ℕ) (σ : Bc) (j : ℕ) : Option Bc :=
  if σ.bad (lba secno + j) then none
  else some ((σ.setPages (σ.pages.write (dst + 512 * j) (σ.platter.read (512 * (lba secno + j)) 512))).setDirty
    (dst / 4096) true)

/-- `ide_read(secno, dst, nsecs)`, into one page. -/
def ideRead (σ : Bc) (secno dst nsecs : ℕ) : Option Bc :=
  if nsecs > 256 then none else (List.range nsecs).foldlM (insw secno dst) σ

/-- One turn of the loop of `ide_write`. -/
def outsw (secno src : ℕ) (σ : Bc) (j : ℕ) : Option Bc :=
  if σ.bad (lba secno + j) then none
  else some (σ.setPlatter (σ.platter.write (512 * (lba secno + j)) (σ.pages.read (src + 512 * j) 512)))

/-- `ide_write(secno, src, nsecs)`. -/
def ideWrite (σ : Bc) (secno src nsecs : ℕ) : Option Bc :=
  if nsecs > 256 then none else (List.range nsecs).foldlM (outsw secno src) σ

/-! ## `fs/bc.c` -/

/-- `sys_page_alloc(0, addr, PTE_U | PTE_W | PTE_P)`, for the page of block `b`. -/
def sysPageAlloc (σ : Bc) (b : ℕ) : Option Bc :=
  if σ.room = 0 then none
  else some
    { σ with
      room := σ.room - 1
      mem := (σ.pages.zero (b * 4096) 4096).byte
      mapped := fun c => if c = b then true else σ.mapped c
      dirty := fun c => if c = b then false else σ.dirty c }

/-- The load of `super->s_nblocks`, if `super` is set. -/
def readSuper (touch : ℕ → Bc → Option Bc) (σ : Bc) : Option Bc := if σ.super then touch 1 σ else some σ

/-- The test `bitmap && block_is_free(blockno)`, which panics if it holds. -/
def checkInUse (touch : ℕ → Bc → Option Bc) (blockno : ℕ) (σ : Bc) : Option Bc :=
  if σ.bitmap && σ.super then do
    let σ ← touch 1 σ
    if blockno < nblocks σ.pages then do
      let σ ← touch (bitmapWord (blockno / 32) / 4096) σ
      if blockIsFree σ.pages blockno then none else some σ
    else some σ
  else some σ

/-- `bc_pgfault(utf)`, for a fault in block `blockno`. -/
def bcPgfault : ℕ → ℕ → Bc → Option Bc
  | 0, _, _ => none
  | depth + 1, blockno, σ => do
    let touch (b : ℕ) (σ : Bc) : Option Bc := if σ.mapped b then some σ else bcPgfault depth b σ
    if blockno * 4096 ≥ diskSize then none
    else do
      let σ ← readSuper touch σ
      if σ.super && decide (blockno ≥ nblocks σ.pages) then none
      else do
        let σ ← σ.sysPageAlloc blockno
        let σ ← σ.ideRead (blockno * 8) (blockno * 4096) 8
        -- `sys_page_map(0, addr, 0, addr, uvpt[PGNUM(addr)] & PTE_SYSCALL)`
        checkInUse touch blockno (σ.setDirty blockno false)

/-- How deep the faults of the handler nest: a block, its bitmap block, and the first bitmap
block. -/
def depth : ℕ := 3

/-- An access to block `b`. -/
def touch (b : ℕ) (σ : Bc) : Option Bc := if σ.mapped b then some σ else bcPgfault depth b σ

/-- `flush_block(addr)`. -/
def flushBlock (σ : Bc) (a : ℕ) : Option Bc :=
  if a ≥ diskSize then none
  else if !σ.mapped (a / 4096) || !σ.dirty (a / 4096) then some σ
  else do
    let σ ← σ.ideWrite (a / 4096 * 8) (a / 4096 * 4096) 8
    some (σ.setDirty (a / 4096) false)

end Bc

/-! ## What `fs.c` does to memory -/

/-- An access. -/
inductive Acc
  | read (a n : ℕ)
  | write (a : ℕ) (bs : List Byte)
  | flush (a : ℕ)
  | panic

def Acc.Result : Acc → Type
  | .read .. => List Byte
  | .write .. => Unit
  | .flush _ => Unit
  | .panic => Empty

/-- The blocks of the `n` bytes from `a` on. -/
def blocksOf (a n : ℕ) : List ℕ :=
  if n = 0 then [] else List.range' (a / 4096) ((a + n - 1) / 4096 - a / 4096 + 1)

namespace Bc

/-- An access on the cache. -/
def exec : (c : Acc) → Bc → Option (c.Result × Bc)
  | .read a n, σ => do
    let σ ← (blocksOf a n).foldlM (fun σ b => touch b σ) σ
    some (σ.pages.read a n, σ)
  | .write a bs, σ => do
    let σ ← (blocksOf a bs.length).foldlM (fun σ b => touch b σ) σ
    let σ' := σ.setPages (σ.pages.write a bs)
    some ((), { σ' with dirty := fun b => if b ∈ blocksOf a bs.length then true else σ.dirty b })
  | .flush a, σ => (σ.flushBlock a).map fun σ => ((), σ)
  | .panic, _ => none

/-- The state after a crash: the pages are lost, and the pointers are not set. -/
def reboot (σ : Bc) (room : ℕ) : Bc :=
  { σ.toCache.crash with bad := σ.bad, room := room, super := false, bitmap := false }

/-- The server when it starts, over a drive without bad sectors. -/
def start (d : Bytes) (room : ℕ) : Bc :=
  { disk := d.byte, mem := fun _ => 0, mapped := fun _ => false, dirty := fun _ => false, bad := fun _ => false,
    room := room, super := false, bitmap := false }

end Bc

/-- An access on a plain memory, where `flush_block` does nothing. -/
def flatExec : (c : Acc) → Bytes → Option (c.Result × Bytes)
  | .read a n, d => some (d.read a n, d)
  | .write a bs, d => some ((), d.write a bs)
  | .flush _, d => some ((), d)
  | .panic, _ => none

end Jos.Fs
