import Jos.Spec.FsIo

/-!
# `fs_init`

How the file server starts: `bc_init` and `check_bc` of `fs/bc.c`, and `check_super`, `check_bitmap`
and `fs_init` of `fs/fs.c`. Until `super` and `bitmap` are set, the handler for page faults does not
check block numbers.
-/

namespace Jos.Fs.Bc

open Lib

/-- `FS_MAGIC`. -/
def fsMagic : BitVec 32 := 0x4A0530AE

/-- `"OOPS!\n"`, with its null character. -/
def oops : List Byte := [0x4F, 0x4F, 0x50, 0x53, 0x21, 0x0A, 0]

/-- A load of `n` bytes, and a store. -/
def load (σ : Bc) (a n : ℕ) : Option (List Byte × Bc) := exec (.read a n) σ

def store (σ : Bc) (a : ℕ) (bs : List Byte) : Option Bc := (exec (.write a bs) σ).map (·.2)

/-- `sys_page_unmap(0, addr)`, for the page of block `b`. -/
def sysPageUnmap (σ : Bc) (b : ℕ) : Bc :=
  if σ.mapped b then
    { σ with
      room := σ.room + 1
      mapped := fun c => if c = b then false else σ.mapped c
      dirty := fun c => if c = b then false else σ.dirty c }
  else σ

/-- `check_bc()`: the super block is overwritten, read back, and restored. -/
def checkBc (σ : Bc) : Option Bc := do
  let (backup, σ) ← σ.load 4096 264
  let σ ← σ.store 4096 oops
  let σ ← σ.flushBlock 4096
  if !σ.mapped 1 || σ.dirty 1 then none
  else do
    let σ := σ.sysPageUnmap 1
    if σ.mapped 1 then none
    else do
      let (s, σ) ← σ.load 4096 7
      if s ≠ oops then none
      else do
        let σ ← σ.store 4096 backup
        σ.flushBlock 4096

/-- `bc_init()`. -/
def bcInit (σ : Bc) : Option Bc := do
  let σ ← σ.checkBc
  let (_, σ) ← σ.load 4096 264
  some σ

/-- `check_super()`. -/
def checkSuper (σ : Bc) : Option Bc := do
  let σ ← touch 1 σ
  if σ.pages.load32 4096 ≠ fsMagic then none
  else if nblocks σ.pages > diskSize / 4096 then none
  else some σ

/-- `check_bitmap()`. The assertions are the test of the handler. -/
def checkBitmap (σ : Bc) : Option Bc := do
  let σ ← touch 1 σ
  let σ ← (List.range ((nblocks σ.pages + 32767) / 32768)).foldlM (fun σ i => checkInUse touch (2 + i) σ) σ
  let σ ← checkInUse touch 0 σ
  checkInUse touch 1 σ

/-- `fs_init()`. -/
def fsInit (σ : Bc) : Option Bc := do
  let σ ← σ.bcInit
  let σ ← checkSuper { σ with super := true }
  let σ ← touch 1 σ
  if nblocks σ.pages ≤ 2 then none
  else checkBitmap { σ with bitmap := true }

end Jos.Fs.Bc
