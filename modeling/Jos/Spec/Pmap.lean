import Jos.Spec.Layout

/-!
# Physical pages and page tables

The part of `kern/pmap.c` that runs after boot: the page allocator, the four-level
walk, and the functions that insert, look up, remove and check mappings.

The state `Pmap` is the globals of `kern/pmap.c` and the page frames that hold page
tables and user data, each as its 512 words of 64 bits. Every function returns
`none` where the kernel panics. A `pml4e_t *`, `pdpe_t *` or `pde_t *` is the frame
of the table it points at; a `pte_t *` is a frame and an index in it.
-/

namespace Jos

/-- `struct PageInfo`. -/
@[ext] structure PageInfo where
  ppLink : Option ℕ
  ppRef : BitVec 16

/-- The state of the memory manager. -/
structure Pmap where
  npages : ℕ
  pages : ℕ → PageInfo
  pageFreeList : Option ℕ
  mem : ℕ → Idx → PTE
  bootPml4e : ℕ

/-- A `pte_t *`. -/
structure PtePtr where
  page : ℕ
  ix : Idx
  deriving DecidableEq

namespace Pmap

def setRef (m : Pmap) (p : ℕ) (r : BitVec 16) : Pmap :=
  { m with pages := fun q => if q = p then { m.pages q with ppRef := r } else m.pages q }

def setLink (m : Pmap) (p : ℕ) (l : Option ℕ) : Pmap :=
  { m with pages := fun q => if q = p then { m.pages q with ppLink := l } else m.pages q }

def setHead (m : Pmap) (h : Option ℕ) : Pmap := { m with pageFreeList := h }

/-- `pp->pp_ref++`, on the 16-bit counter. -/
def incRef (m : Pmap) (p : ℕ) : Pmap := m.setRef p ((m.pages p).ppRef + 1)

/-- Store one word. -/
def write (m : Pmap) (t : ℕ) (i : Idx) (v : PTE) : Pmap :=
  { m with mem := fun q j => if q = t ∧ j = i then v else m.mem q j }

/-- `memset(page2kva(p), 0, PGSIZE)`. -/
def clear (m : Pmap) (p : ℕ) : Pmap :=
  { m with mem := fun q j => if q = p then 0 else m.mem q j }

end Pmap

/-- `page2pa(pp)`. -/
def page2pa (p : ℕ) : BitVec 64 := BitVec.ofNat 64 p <<< 12

/-- `KADDR(pa)`: the page number goes through a `uint32_t` before it is compared. -/
def kaddr (m : Pmap) (pa : BitVec 64) : Option ℕ :=
  if ppn pa % 2 ^ 32 ≥ m.npages then none else some (ppn pa)

/-- `pa2page(pa)`. -/
def pa2page (m : Pmap) (pa : BitVec 64) : Option ℕ :=
  if ppn pa ≥ m.npages then none else some (ppn pa)

/-- `page_alloc(alloc_flags)`; `zero` is `alloc_flags & ALLOC_ZERO`. -/
def pageAlloc (m : Pmap) (zero : Bool) : Option (Option ℕ × Pmap) :=
  match m.pageFreeList with
  | none => some (none, m)
  | some page => do
    let m := m.setHead (m.pages page).ppLink
    let m ← if zero then (kaddr m (page2pa page)).map m.clear else some m
    some (some page, m.setLink page none)

/-- `page_free(pp)`. -/
def pageFree (m : Pmap) (pp : ℕ) : Option Pmap :=
  if (m.pages pp).ppRef ≠ 0 ∨ (m.pages pp).ppLink ≠ none then none
  else some ((m.setLink pp m.pageFreeList).setHead (some pp))

/-- `page_decref(pp)`. -/
def pageDecref (m : Pmap) (pp : ℕ) : Option Pmap :=
  let m := m.setRef pp ((m.pages pp).ppRef - 1)
  if (m.pages pp).ppRef = 0 then pageFree m pp else some m

/-- The body that `pml4e_walk` and `pdpe_walk` share: make the entry if it may be
made and is absent, go on in the table below with `below`, and take a table made
here back when that fails. -/
def walkVia (below : Pmap → ℕ → Option (Option PtePtr × Pmap)) (m : Pmap) (table : ℕ)
    (i : Idx) (create : Bool) : Option (Option PtePtr × Pmap) :=
  if create && !flag (m.mem table i) pteP then do
    let (page, m) ← pageAlloc m true
    match page with
    | none => some (none, m)
    | some page => do
      let m := m.incRef page
      let m := m.write table i (page2pa page ||| pteP ||| pteW ||| pteU)
      let next ← kaddr m (pteAddr (m.mem table i))
      let (pte, m) ← below m next
      match pte with
      | some pte => some (some pte, m)
      | none => do
        let m := m.write table i 0
        let m ← pageDecref m page
        some (none, m)
  else do
    let next ← kaddr m (pteAddr (m.mem table i))
    below m next

/-- `pgdir_walk(pgdir, va, create)`. The test `!pte` at its end never holds, as
`KADDR` adds `KERNBASE`. -/
def pgdirWalk (m : Pmap) (pgdir : ℕ) (va : VA) (create : Bool) :
    Option (Option PtePtr × Pmap) :=
  if create && !flag (m.mem pgdir (pdx va)) pteP then do
    let (page, m) ← pageAlloc m true
    match page with
    | none => some (none, m)
    | some page => do
      let m := m.incRef page
      let m := m.write pgdir (pdx va) (page2pa page ||| pteP ||| pteW ||| pteU)
      let pte ← kaddr m (pteAddr (m.mem pgdir (pdx va)))
      some (some ⟨pte, ptx va⟩, m)
  else do
    let pte ← kaddr m (pteAddr (m.mem pgdir (pdx va)))
    some (some ⟨pte, ptx va⟩, m)

/-- `pdpe_walk(pdpe, va, create)`. -/
def pdpeWalk (m : Pmap) (table : ℕ) (va : VA) (create : Bool) :
    Option (Option PtePtr × Pmap) :=
  walkVia (fun m pde => pgdirWalk m pde va create) m table (pdpe va) create

/-- `pml4e_walk(pml4e, va, create)`. -/
def pml4eWalk (m : Pmap) (pml4e : ℕ) (va : VA) (create : Bool) :
    Option (Option PtePtr × Pmap) :=
  walkVia (fun m pdpe => pdpeWalk m pdpe va create) m pml4e (pml4 va) create

/-- `page_lookup(pml4e, va, &pte)`: the page and the entry, or `NULL`. The walk is
made with `create` set, and an absent entry is not told apart. -/
def pageLookup (m : Pmap) (pml4e : ℕ) (va : VA) : Option (Option (ℕ × PtePtr) × Pmap) := do
  let (pte, m) ← pml4eWalk m pml4e va true
  match pte with
  | none => some (none, m)
  | some pte => do
    let page ← pa2page m (m.mem pte.page pte.ix)
    some (some (page, pte), m)

/-- `page_remove(pml4e, va)`. -/
def pageRemove (m : Pmap) (pml4e : ℕ) (va : VA) : Option Pmap := do
  let (r, m) ← pageLookup m pml4e va
  match r with
  | none => some m
  | some (page, pte) => do
    let m ← pageDecref m page
    some (m.write pte.page pte.ix 0)

/-- The entry that `page_insert` stores: `page2pa(pp) | perm | PTE_P`, where `perm` is
an `int`. -/
def mkPte (pp : ℕ) (perm : BitVec 32) : PTE :=
  page2pa pp ||| perm.signExtend 64 ||| pteP

/-- `page_insert(pml4e, pp, va, perm)`. -/
def pageInsert (m : Pmap) (pml4e pp : ℕ) (va : VA) (perm : BitVec 32) : Option (ℤ × Pmap) := do
  let (pte, m) ← pml4eWalk m pml4e va true
  match pte with
  | none => some (-eNoMem, m)
  | some pte => do
    let m := m.incRef pp
    let m ← if flag (m.mem pte.page pte.ix) pteP then pageRemove m pml4e va else some m
    some (0, m.write pte.page pte.ix (mkPte pp perm))

/-- The addresses `start, start + PGSIZE, …` below `end`, for page-aligned bounds. -/
def pagesFrom (start fin : VA) : List VA :=
  (List.range ((fin.toNat - start.toNat) / 4096)).map fun i => start + BitVec.ofNat 64 (i * 4096)

/-- The loop of `user_mem_check` over the pages still to be tested. -/
def userMemCheckLoop (m : Pmap) (pml4e : ℕ) (va : VA) (perm : BitVec 32) :
    List VA → Option (Option VA × Pmap)
  | [] => some (none, m)
  | start :: rest => do
    let (pte, m) ← pml4eWalk m pml4e start false
    let bad := match pte with
      | none => true
      | some pte => start ≥ ulim ||
        m.mem pte.page pte.ix &&& perm.signExtend 64 != perm.signExtend 64 ||
        !flag (m.mem pte.page pte.ix) pteP
    if bad then some (some (if start < va then va else start), m)
    else userMemCheckLoop m pml4e va perm rest

/-- `user_mem_check(env, va, len, perm)` in the address space of root `pml4e`: `none`
for the result 0, and `some a` for `-E_FAULT` with `user_mem_check_addr = a`. -/
def userMemCheck (m : Pmap) (pml4e : ℕ) (va len : VA) (perm : BitVec 32) :
    Option (Option VA × Pmap) :=
  userMemCheckLoop m pml4e va perm (pagesFrom (roundDown va pgsize) (roundUp (va + len) pgsize))

end Jos
