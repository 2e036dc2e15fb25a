import Jos.Lib.Bytes
import Jos.Spec.Env
import Jos.Spec.Trap

/-!
# Loading a program, with its bytes

`load_icode` of `kern/env.c`, with the program headers of the binary and the bytes that it copies and
clears. The stores go through the page tables of the environment, which `lcr3` has switched to. The
binary is in the memory of the kernel, at the offsets from its start.
-/

namespace Jos.Icode

open Lib

/-- The fields of `struct Proghdr` that are used. -/
structure Proghdr where
  pType : BitVec 32
  pOffset : BitVec 64
  pVa : VA
  pFilesz : BitVec 64
  pMemsz : BitVec 64
  deriving DecidableEq

/-- `ELF_PROG_LOAD`. -/
def elfProgLoad : BitVec 32 := 1

/-- The program header at `a`. -/
def proghdr (binary : Bytes) (a : ℕ) : Proghdr :=
  ⟨binary.load32 a, binary.load64 (a + 8), binary.load64 (a + 16), binary.load64 (a + 32), binary.load64 (a + 40)⟩

/-- `e_entry`, `e_phoff` and `e_phnum` of `struct Elf`. -/
def eEntry (binary : Bytes) : VA := binary.load64 24
def ePhoff (binary : Bytes) : ℕ := (binary.load64 32).toNat
def ePhnum (binary : Bytes) : ℕ := (binary.byte 56).toNat + 256 * (binary.byte 57).toNat

/-- The program headers, from `program_header` to `end_program_header`. -/
def proghdrs (binary : Bytes) : List Proghdr :=
  (List.range (ePhnum binary)).map fun i => proghdr binary (ePhoff binary + 56 * i)

/-- `memmove(dst, src, n)`, for `n` bytes that do not overlap with the destination. -/
def memmove (m : Pmap) (pml4e : ℕ) (dst : VA) (src : List Byte) : Option Pmap := storeBytes m pml4e dst src

/-- `memset(v, c, n)`. -/
def memset (m : Pmap) (pml4e : ℕ) (v : VA) (c : Byte) (n : BitVec 64) : Option Pmap :=
  storeBytes m pml4e v (List.replicate n.toNat c)

/-- One turn of the loop. -/
def loadSegment (binary : Bytes) (e : EnvIdx) (k : Kernel) (ph : Proghdr) : Option Kernel :=
  if ph.pType = elfProgLoad then do
    let k ← regionAlloc k e ph.pVa ph.pMemsz
    let pml4e ← (k.envs e).envPml4e
    let m ← memmove k.pm pml4e ph.pVa (binary.read ph.pOffset.toNat ph.pFilesz.toNat)
    let m ← memset m pml4e (ph.pVa + ph.pFilesz) 0 (ph.pMemsz - ph.pFilesz)
    some (k.setPm m)
  else some k

/-- `load_icode(e, binary)`, for a binary at address `elf`. -/
def loadIcode (k : Kernel) (e : EnvIdx) (elf : VA) (binary : Bytes) : Option Kernel := do
  let k := k.setEnv e { k.envs e with elf := elf }
  let k ← (proghdrs binary).foldlM (loadSegment binary e) k
  let k ← regionAlloc k e (ustacktop - pgsize) pgsize
  some (k.setEnv e { k.envs e with envTf := { (k.envs e).envTf with tfRip := eEntry binary } })

end Jos.Icode
