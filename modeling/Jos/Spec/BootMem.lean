import Jos.Spec.Vm

/-!
# Memory at boot

`boot_alloc` and `page_init` of `kern/pmap.c`: memory is taken from the end of the kernel on until
`page_init` puts the rest on `page_free_list`.
-/

namespace Jos

/-! ## `inc/memlayout.h` -/

/-- `MPENTRY_PADDR`, `IOPHYSMEM` and `EXTPHYSMEM`. -/
def mpentryPaddr : ℕ := 0x7000
def iophysmem : ℕ := 0x0A0000
def extphysmem : ℕ := 0x100000

/-! ## `boot_alloc` -/

/-- `boot_alloc(n)`, with the symbol `end` and the value of `nextfree`, which is 0 before the first
call: the result, and the new value of `nextfree`. -/
def bootAlloc (fin : VA) (npages : BitVec 64) (nextfree : VA) (n : BitVec 32) : Option (VA × VA) :=
  let nextfree := if nextfree = 0 then roundUp fin pgsize else nextfree
  if nextfree + n.setWidth 64 > npages * pgsize + kernbase then none
  else some (nextfree, if n ≠ 0 then roundUp (nextfree + n.setWidth 64) pgsize else nextfree)

/-- A sequence of calls: the memory that each returns, with its size. -/
def bootAllocs (fin : VA) (npages : BitVec 64) (nextfree : VA) :
    List (BitVec 32) → Option (List (VA × BitVec 32) × VA)
  | [] => some ([], nextfree)
  | n :: ns => do
    let (result, nextfree) ← bootAlloc fin npages nextfree n
    let (rs, nextfree) ← bootAllocs fin npages nextfree ns
    some ((result, n) :: rs, nextfree)

/-! ## `page_init` -/

/-- One turn of the loops of `page_init` that free page `i`; `none` outside of `pages`. -/
def pageInitFree (m : Pmap) (i : ℕ) : Option Pmap :=
  if i < m.npages then some (((m.setRef i 0).setLink i m.pageFreeList).setHead (some i)) else none

/-- One turn of the loop that marks page `i` as used; `none` outside of `pages`. -/
def pageInitUse (m : Pmap) (i : ℕ) : Option Pmap :=
  if i < m.npages then some (m.setRef i 1) else none

/-- `page_init()`, where `boot_alloc(0)` returns `top`; `none` where it leaves the `pages` array. -/
def pageInit (m : Pmap) (npagesBasemem : BitVec 64) (top : VA) : Option Pmap := do
  let numAlloc : BitVec 32 := ((top - kernbase) / pgsize).setWidth 32
  let numIohole : BitVec 32 := 96
  let m ← (List.range' 1 (mpentryPaddr / 4096 - 1)).foldlM pageInitFree m
  let i := npagesBasemem.toNat
  let fin := (npagesBasemem + numIohole.signExtend 64 + numAlloc.signExtend 64).toNat
  let m ← (List.range' i (fin - i)).foldlM pageInitUse m
  let i := max i fin
  (List.range' i (m.npages - i)).foldlM pageInitFree m

end Jos
