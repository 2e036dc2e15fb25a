import Jos.Lib.Links
import Jos.Spec.BootMem

/-!
# Checking the free list

`check_page_free_list` of `kern/pmap.c`, which also reorders the list. It does so in place, through `tp`: a pointer for
each of the two new lists to the field that its next page goes into. `none` is a panic, or a loop with more than `n`
turns.
-/

namespace Jos

open Lib

/-- A `struct PageInfo **`: `&pp1`, `&pp2` or `&pp->pp_link`. -/
inductive LinkPtr
  | pp1
  | pp2
  | link (pp : ℕ)
  deriving DecidableEq

/-- The variables of the block that reorders the list. -/
structure Reorder where
  pm : Pmap
  pp1 : Option ℕ
  pp2 : Option ℕ
  tp : Bool → LinkPtr

namespace Reorder

/-- `*c = v`. -/
def store (s : Reorder) (c : LinkPtr) (v : Option ℕ) : Reorder :=
  match c with
  | .pp1 => { s with pp1 := v }
  | .pp2 => { s with pp2 := v }
  | .link pp => { s with pm := s.pm.setLink pp v }

/-- `PDX(page2pa(pp)) >= pdx_limit`. -/
def pagetype (limit pp : ℕ) : Bool := (pdx (page2pa pp)).val ≥ limit

/-- A turn of its loop. -/
def turn (limit : ℕ) (s : Reorder) (pp : ℕ) : Option Reorder :=
  let s := s.store (s.tp (pagetype limit pp)) (some pp)
  some { s with tp := Function.update s.tp (pagetype limit pp) (.link pp) }

end Reorder

/-- The block that reorders the list. `pp1` and `pp2` have any values before it. -/
def reorder (n limit : ℕ) (pp1 pp2 : Option ℕ) (m : Pmap) : Option Pmap := do
  let s ← walk (fun s pp => (s.pm.pages pp).ppLink) (Reorder.turn limit) n m.pageFreeList
    ⟨m, pp1, pp2, fun t => if t then .pp2 else .pp1⟩
  let s := s.store (s.tp true) none
  let s := s.store (s.tp false) s.pp2
  some (s.pm.setHead s.pp1)

/-- `memset(page2kva(pp), 0x97, 128)`, if the page is below the limit. -/
def fillPage (limit : ℕ) (m : Pmap) (pp : ℕ) : Option Pmap :=
  if (pdx (page2pa pp)).val < limit then
    (kaddr m (page2pa pp)).map fun p =>
      { m with mem := fun q j => if q = p ∧ j.val < 16 then 0x9797979797979797#64 else m.mem q j }
  else some m

/-- The assertions on a page, where `boot_alloc(0)` returns `top`. -/
def assertPage (m : Pmap) (top : VA) (pp : ℕ) : Bool :=
  pp < m.npages && page2pa pp ≠ 0 && (page2pa pp).toNat ≠ iophysmem && (page2pa pp).toNat ≠ extphysmem - 4096 &&
    (page2pa pp).toNat ≠ extphysmem &&
    ((page2pa pp).toNat < extphysmem || ((kaddr m (page2pa pp)).isSome && page2pa pp + kernbase ≥ top)) &&
    (page2pa pp).toNat ≠ mpentryPaddr

/-- `nfree_basemem` and `nfree_extmem`, after the assertions on a page. -/
def checkPage (top : VA) (s : Pmap × ℕ × ℕ) (pp : ℕ) : Option (Pmap × ℕ × ℕ) :=
  if assertPage s.1 top pp then
    if (page2pa pp).toNat < extphysmem then some (s.1, s.2.1 + 1, s.2.2) else some (s.1, s.2.1, s.2.2 + 1)
  else none

/-- **`check_page_free_list(only_low_memory)`.** -/
def checkPageFreeList (n : ℕ) (pp1 pp2 : Option ℕ) (top : VA) (onlyLow : Bool) (m : Pmap) : Option Pmap := do
  let limit := if onlyLow then 1 else 512
  if m.pageFreeList = none then none
  else do
    let m ← if onlyLow then reorder n limit pp1 pp2 m else some m
    let m ← walk (fun m pp => (m.pages pp).ppLink) (fillPage limit) n m.pageFreeList m
    let (m, _, nfreeExtmem) ← walk (fun s pp => (s.1.pages pp).ppLink) (checkPage top) n m.pageFreeList (m, 0, 0)
    if nfreeExtmem > 0 then some m else none

end Jos
