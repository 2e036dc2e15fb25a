import Jos.Spec.Syscall
import Jos.Spec.Trap

/-!
# The copy-on-write handler

`pgfault` of `lib/fork.c`, the page fault handler that `fork` installs. It runs in user mode, on the
exception stack, which is taken to be mapped: it reads the page tables through `uvpt`, makes system
calls for its own environment, and copies a page.
-/

namespace Jos

/-- `PTE_COW`. -/
def pteCow : BitVec 64 := 0x800

/-- `FEC_WR`. -/
def fecWr : BitVec 32 := 0x2

def utemp : VA := 2 * ptsize
def pftemp : VA := utemp + ptsize - pgsize

/-- The permissions of the copy. -/
def cowPerm : BitVec 32 := pteU ||| pteP ||| pteW

/-- The index of an address in its page, in words. -/
def wordIx (va : VA) : Idx := ⟨(va.toNat / 8) % 512, word_lt va⟩

/-- A load of one word, by user code. -/
def loadWord (m : Pmap) (pml4e : ℕ) (va : VA) : Option (BitVec 64) := do
  let x ← translate m pml4e va
  if x.user then some (m.mem (ppn x.pte) (wordIx va)) else none

/-- `&uvpt[PPN(addr)]`. -/
def uvptEntry (addr : VA) : VA := uvpt + 8 * (addr >>> 12)

/-- One word of `memmove`. The store is made by user code. -/
def moveWord (pml4e : ℕ) (dst src : VA) (m : Pmap) (i : ℕ) : Option Pmap := do
  let w ← loadWord m pml4e (src + BitVec.ofNat 64 (8 * i))
  let x ← translate m pml4e (dst + BitVec.ofNat 64 (8 * i))
  if x.user && x.writeable then some (m.write (ppn x.pte) (wordIx (dst + BitVec.ofNat 64 (8 * i))) w) else none

/-- `memmove(dst, src, PGSIZE)`, for two pages: they are the same or do not overlap, so that it goes
upwards. -/
def memmovePage (m : Pmap) (pml4e : ℕ) (dst src : VA) : Option Pmap :=
  (List.range 512).foldlM (moveWord pml4e dst src) m

/-- How the handler ends: it returns to the faulting instruction, panics, or faults itself. -/
inductive Handled
  | ret (k : Kernel)
  | panic (k : Kernel)
  | fault (k : Kernel)

/-- The rest of `pgfault`, behind its test. -/
def pgfaultCopy (k : Kernel) (cur : EnvIdx) (addr : VA) : Option Handled := do
  let (r, k) ← sysPageAlloc k cur 0 pftemp cowPerm
  if r = 0 then do
    let pageaddr := roundDown addr pgsize
    let pml4e ← (k.envs cur).envPml4e
    match memmovePage k.pm pml4e pftemp pageaddr with
    | none => some (.fault k)
    | some m => do
      let (r, k) ← sysPageMap (k.setPm m) cur 0 pftemp 0 pageaddr cowPerm
      if 0 > r then some (.panic k)
      else do
        let (r, k) ← sysPageUnmap k cur 0 pftemp
        if 0 > r then some (.panic k) else some (.ret k)
  else some (.panic k)

/-- `pgfault(utf)`. -/
def pgfault (k : Kernel) (cur : EnvIdx) (utf : UTrapframe) : Option Handled := do
  let addr := utf.utfFaultVa
  let err := utf.utfErr.setWidth 32
  let pml4e ← (k.envs cur).envPml4e
  if !flag err fecWr then
    match loadWord k.pm pml4e (uvptEntry addr) with
    | none => some (.fault k)
    | some e => if flag e pteCow then some (.panic k) else pgfaultCopy k cur addr
  else pgfaultCopy k cur addr

end Jos
