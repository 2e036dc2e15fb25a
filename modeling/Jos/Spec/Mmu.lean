import Jos.Spec.Pmap

/-!
# The address translation of the processor

The four-level walk that the MMU makes from the PML4 in `cr3`, as `inc/mmu.h` lays the
tables out: every level must be present, and writing or user access needs its flag at
every level.
-/

namespace Jos

/-- The entry of table `t` at index `i`, if present. -/
def presentAt (m : Pmap) (t : ℕ) (i : Idx) : Option PTE :=
  if flag (m.mem t i) pteP then some (m.mem t i) else none

/-- What an address translates to: the leaf entry, with the page and its flags, and
whether all levels allow writing and user access. -/
structure Translation where
  pte : PTE
  writeable : Bool
  user : Bool

/-- The translation of `va` from the PML4 in page `pml4e`. -/
def translate (m : Pmap) (pml4e : ℕ) (va : VA) : Option Translation := do
  let e4 ← presentAt m pml4e (pml4 va)
  let e3 ← presentAt m (ppn e4) (pdpe va)
  let e2 ← presentAt m (ppn e3) (pdx va)
  let e1 ← presentAt m (ppn e2) (ptx va)
  some
    { pte := e1
      writeable := flag e4 pteW && flag e3 pteW && flag e2 pteW && flag e1 pteW
      user := flag e4 pteU && flag e3 pteU && flag e2 pteU && flag e1 pteU }

/-- The leaf entry of `va`, if it is mapped. -/
def leafEntry (m : Pmap) (pml4e : ℕ) (va : VA) : Option PTE := (translate m pml4e va).map (·.pte)

/-- The entries that the walk from table `t` along some table indices meets, as far as they
are present. -/
def walkEntries (m : Pmap) : ℕ → List Idx → List PTE
  | _, [] => []
  | t, i :: π =>
    match presentAt m t i with
    | none => []
    | some e => e :: walkEntries m (ppn e) π

/-- The present entries above the leaf, of the three upper levels. -/
def tableEntries (m : Pmap) (pml4e : ℕ) (va : VA) : List PTE :=
  walkEntries m pml4e [pml4 va, pdpe va, pdx va]

/-- A store of one word, by user code or by the kernel below `UTOP`. -/
def storeWord (m : Pmap) (pml4e : ℕ) (va : VA) (v : BitVec 64) : Option Pmap := do
  let x ← translate m pml4e va
  if x.writeable && (x.user || va < utop) then
    some (m.write (ppn x.pte) ⟨(va.toNat / 8) % 512, word_lt va⟩ v)
  else none

end Jos
