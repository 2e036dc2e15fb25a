import Jos.Spec.Vm

/-!
# The MMIO region

`mmio_map_region` of `kern/pmap.c`, with its static variable `base`.
-/

namespace Jos

/-- `PTE_PWT` and `PTE_PCD`. -/
def ptePwt {w : ℕ} : BitVec w := 0x008#w
def ptePcd {w : ℕ} : BitVec w := 0x010#w

/-- `mmio_map_region(pa, size)`: the memory, the new value of `base`, and the result. -/
def mmioMapRegion (m : Pmap) (base : VA) (pa size : BitVec 64) : Option (Pmap × VA × VA) :=
  let sSize := roundUp (pa + size) pgsize
  let pa := roundDown pa pgsize
  let sSize := sSize - pa
  if base + sSize ≥ mmiolim then none
  else do
    let m ← bootMapRegion m m.bootPml4e base sSize pa (ptePcd ||| ptePwt ||| pteW)
    let base := base + sSize
    some (m, base, base - sSize)

/-- A call that returned. -/
structure MmioCall where
  result : VA
  pa : BitVec 64
  size : BitVec 64

/-- A sequence of calls, for pairs of `pa` and `size`. -/
def mmioMapRegions (m : Pmap) (base : VA) :
    List (BitVec 64 × BitVec 64) → Option (Pmap × VA × List MmioCall)
  | [] => some (m, base, [])
  | (pa, size) :: reqs => do
    let (m, base, result) ← mmioMapRegion m base pa size
    let (m, base, calls) ← mmioMapRegions m base reqs
    some (m, base, ⟨result, pa, size⟩ :: calls)

end Jos
