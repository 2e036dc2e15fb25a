import Jos.Spec.Pmap

/-!
# Setting up the kernel's mappings

The part of `kern/pmap.c` that runs at boot once the free list is built: `boot_map_region`, the
limit that `i386_detect_memory` sets on `npages`, and `check_va2pa`, with which the checks look
addresses up.
-/

namespace Jos

/-- The rest of `check_va2pa`, in the table that an entry links to; `~0` if it is absent. -/
def checkVia (m : Pmap) (e : PTE) (below : ℕ → Option (BitVec 64)) : Option (BitVec 64) :=
  if !flag e pteP then some (~~~0)
  else do
    let table ← kaddr m (pteAddr e)
    below table

/-- `check_va2pa(pml4e, va)`. -/
def checkVa2pa (m : Pmap) (pml4e : ℕ) (va : VA) : Option (BitVec 64) :=
  checkVia m (m.mem pml4e (pml4 va)) fun pdpe =>
    checkVia m (m.mem pdpe (Jos.pdpe va)) fun pde =>
      checkVia m (m.mem pde (pdx va)) fun pte =>
        if !flag (m.mem pte (ptx va)) pteP then some (~~~0)
        else some (pteAddr (m.mem pte (ptx va)))

/-- `sizeof(struct PageInfo)`. -/
def pageInfoSize : BitVec 64 := 16

/-- `upages_max`, `kern_mem_max` and `max_npages` in `i386_detect_memory`. -/
def upagesMax : BitVec 64 := (ulim - upages) / pageInfoSize
def kernMemMax : BitVec 64 := (uvpt - kernbase) / pgsize
def maxNpages : BitVec 64 := if upagesMax < kernMemMax then upagesMax else kernMemMax

/-- The value of `npages` that `i386_detect_memory` leaves when it has found `npages` pages. -/
def limitNpages (npages : BitVec 64) : BitVec 64 :=
  if npages > maxNpages then maxNpages - 1024 else npages

/-- One turn of the loop of `boot_map_region`, at the counter `i`. -/
def bootMapPage (m : Pmap) (pml4e : ℕ) (la pa : BitVec 64) (perm : BitVec 32) (i : BitVec 32) :
    Option Pmap := do
  let (pte, m) ← pml4eWalk m pml4e (la + i.signExtend 64) true
  match pte with
  | none => none
  | some pte => some (m.write pte.page pte.ix ((pa + i.signExtend 64) ||| perm.signExtend 64 ||| pteP))

/-- The loop of `boot_map_region`, for at most the given number of turns. The counter is an `int`,
and is compared with `size` as a `size_t`. -/
def bootMapLoop (pml4e : ℕ) (la size pa : BitVec 64) (perm : BitVec 32) :
    ℕ → BitVec 32 → Pmap → Option Pmap
  | 0, _, m => some m
  | n + 1, i, m =>
    if i.signExtend 64 < size then do
      let m ← bootMapPage m pml4e la pa perm i
      bootMapLoop pml4e la size pa perm n (i + 4096) m
    else some m

/-- `boot_map_region(pml4e, la, size, pa, perm)`. The counter takes 2^20 values. -/
def bootMapRegion (m : Pmap) (pml4e : ℕ) (la size pa : BitVec 64) (perm : BitVec 32) : Option Pmap :=
  bootMapLoop pml4e la size pa perm (2 ^ 20) 0 m

end Jos
