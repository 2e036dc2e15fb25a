import Mathlib

/-!
# Addresses, page-table entries and constants

The macros of `inc/mmu.h`, `inc/memlayout.h`, `inc/types.h`, `inc/env.h` and
`inc/error.h` that the memory manager uses. Addresses and page-table entries are
64-bit words; a physical page is named by its page number, which is also its index in
the `pages` array: `page2ppn` of a `struct PageInfo *`.
-/

namespace Jos

/-- An index in a page-table page of 512 entries. -/
abbrev Idx := Fin 512

instance idx_neZero : NeZero (512 : ℕ) := ⟨by decide⟩

/-- A virtual address. -/
abbrev VA := BitVec 64

theorem word_lt (va : VA) : va.toNat / 8 % 512 < 512 := Nat.mod_lt _ (by decide)

/-- A page-table entry, at any of the four levels. -/
abbrev PTE := BitVec 64

/-! ## `inc/mmu.h` -/

/-- `PTE_P`: present. -/
def pteP {w : ℕ} : BitVec w := 0x001#w
/-- `PTE_W`: writeable. -/
def pteW {w : ℕ} : BitVec w := 0x002#w
/-- `PTE_U`: user. -/
def pteU {w : ℕ} : BitVec w := 0x004#w
/-- `PTE_AVAIL`: available for software use. -/
def pteAvail {w : ℕ} : BitVec w := 0xE00#w
/-- `PTE_SYSCALL`: the flags that system calls accept. -/
def pteSyscall {w : ℕ} : BitVec w := pteAvail ||| pteP ||| pteW ||| pteU

/-- The truth value of the C expression `e & b`. -/
def flag {w : ℕ} (e b : BitVec w) : Bool := e &&& b != 0

/-- `PPN(pa)`: the page number field of an address. -/
def ppn (pa : BitVec 64) : ℕ := (pa >>> 12).toNat

/-- `PTE_ADDR(pte)`. -/
def pteAddr (e : PTE) : BitVec 64 := e &&& ~~~0xFFF#64

/-- The nine bits of an address from bit `n` on, as a table index. -/
def field (la : VA) (n : ℕ) : Idx := ⟨(la >>> n).toNat % 512, Nat.mod_lt _ (by decide)⟩

def pml4 (la : VA) : Idx := field la 39
def pdpe (la : VA) : Idx := field la 30
def pdx (la : VA) : Idx := field la 21
def ptx (la : VA) : Idx := field la 12

/-- `PGOFF(la)`. -/
def pgoff (la : VA) : BitVec 64 := la &&& 0xFFF#64

/-- `PGADDR(m, p, d, t, 0)`. -/
def pgaddr (m p d t : Idx) : VA :=
  BitVec.ofNat 64 m <<< 39 ||| BitVec.ofNat 64 p <<< 30 ||| BitVec.ofNat 64 d <<< 21 |||
    BitVec.ofNat 64 t <<< 12

def pgsize : BitVec 64 := 4096#64
def ptsize : BitVec 64 := pgsize * 512#64

/-! ## `inc/types.h` -/

def roundDown (a n : BitVec 64) : BitVec 64 := a - a % n
def roundUp (a n : BitVec 64) : BitVec 64 := roundDown (a + n - 1) n

/-! ## `inc/memlayout.h` -/

def kernbase : VA := 0x8004000000#64
def kstacktop : VA := kernbase
def mmiolim : VA := kstacktop - ptsize
def mmiobase : VA := mmiolim - ptsize
def ulim : VA := mmiobase
def uvpt : VA := 0x10000000000#64
def upages : VA := ulim - 25#64 * ptsize
def uenvs : VA := upages - ptsize
def utop : VA := uenvs
def uxstacktop : VA := 0xef800000#64
def ustacktop : VA := uxstacktop - 2#64 * pgsize

/-! ## `inc/env.h` -/

abbrev nenv : ℕ := 1024

/-- A slot of the `envs` array. -/
abbrev EnvIdx := Fin nenv

instance envIdx_neZero : NeZero nenv := ⟨by decide⟩

/-- `envid_t`. -/
abbrev EnvId := BitVec 32

/-- `ENVX(envid)`. -/
def envx (id : EnvId) : EnvIdx := ⟨id.toNat % nenv, Nat.mod_lt _ (by decide)⟩

/-! ## `inc/error.h` -/

def eBadEnv : ℤ := 2
def eInval : ℤ := 3
def eNoMem : ℤ := 4
def eNoFreeEnv : ℤ := 5
def eFault : ℤ := 6
def eIpcNotRecv : ℤ := 8
def eNoDisk : ℤ := 10
def eMaxOpen : ℤ := 11
def eNotFound : ℤ := 12
def eBadPath : ℤ := 13
def eFileExists : ℤ := 14
def eNotSupp : ℤ := 16

end Jos
