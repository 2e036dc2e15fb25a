import Jos.Spec.Fd

/-!
# `dup` for any numbers

`dup` of `lib/fd.c` with the addresses that it computes, so that a number that is not one of a
descriptor is an address outside of the table, or of something else in it. The process alone changes
its pages meanwhile.

A result is `none` if the process is destroyed, as it reads a `struct Fd` that it may not read. What
`dev_lookup` finds for the `struct Fd` in a page is a parameter.
-/

namespace Jos.Dup

open Fd (Pte Dev)

/-- The pages of the process, by their numbers. -/
abbrev Table := ℕ → Option Pte

/-- `PGNUM(la)`. -/
def pgnum (la : VA) : ℕ := la.toNat / 4096

/-! ## Addresses -/

/-- `MAXFD`. -/
def maxfd : ℤ := 32

/-- `FDTABLE` and `FILEDATA`. -/
def fdtable : VA := 0xD0000000
def filedata : VA := fdtable + 32 * pgsize

/-- `INDEX2FD(i)`. -/
def index2fd (i : BitVec 32) : VA := fdtable + i.signExtend 64 * pgsize

/-- `INDEX2DATA(i)`. -/
def index2data (i : BitVec 64) : VA := filedata + i * pgsize

/-- `fd2num(fd)`. -/
def fd2num (fd : VA) : BitVec 64 := (fd - fdtable) / pgsize

/-- `fd2data(fd)`. -/
def fd2data (fd : VA) : VA := index2data (fd2num fd)

/-! ## System calls -/

/-- `va` can be an argument. -/
def userPage (va : VA) : Bool := va < utop && va &&& 0xFFF == 0

/-- `sys_page_unmap(0, va)`; its result is not used. -/
def sysPageUnmap (t : Table) (va : VA) : Table :=
  if userPage va then Function.update t (pgnum va) none else t

/-- `sys_page_map(0, srcva, 0, dstva, perm)`. An absent entry passes for one of page 0. The page table
of `srcva` exists, so that none is missing for a page next to it; for another page there may be one,
and no memory for it, if `noMem`. -/
def sysPageMap (t : Table) (srcva dstva : VA) (perm : BitVec 32) (noMem : Bool) : ℤ × Table :=
  if !userPage srcva then (-eInval, t)
  else if !userPage dstva then (-eInval, t)
  else if perm ||| pteSyscall ≠ pteSyscall then (-eInval, t)
  else
    let pte := (t (pgnum srcva)).getD ⟨0, 0⟩
    if !flag pte.perm pteW && flag perm pteW then (-eInval, t)
    else if noMem && pgnum srcva / 512 != pgnum dstva / 512 then (-eNoMem, t)
    else (0, Function.update t (pgnum dstva) (some ⟨pte.page, perm ||| pteP⟩))

/-- `uvpt[PGNUM(va)] & PTE_SYSCALL`. -/
def syscallPerm (t : Table) (va : VA) : BitVec 32 :=
  match t (pgnum va) with
  | none => 0
  | some pte => pte.perm &&& pteSyscall

/-! ## Descriptors -/

/-- `fd_lookup(fdnum, &fd)`, `none` for its error. -/
def fdLookup (t : Table) (fdnum : BitVec 32) : Option VA :=
  if fdnum.toInt < 0 || fdnum.toInt ≥ maxfd then none
  else if (t (pgnum (index2fd fdnum))).isSome then some (index2fd fdnum)
  else none

/-- `devpipe_close(fd)`. -/
def devpipeClose (t : Table) (fd : VA) : Table := sysPageUnmap (sysPageUnmap t fd) (fd2data fd)

/-- `fd->fd_dev_id`, as `dev_lookup` takes it. -/
def fdDev (dev : ℕ → Option Dev) (t : Table) (fd : VA) : Option (Option Dev) := do
  let pte ← t (pgnum fd)
  if flag pte.perm pteU then some (dev pte.page) else none

/-- `fd_close(fd, must_exist)`; its result is not used. -/
def fdClose (dev : ℕ → Option Dev) (t : Table) (fd : VA) : Option Table :=
  match fdLookup t ((fd2num fd).setWidth 32) with
  | none => some t
  | some fd2 =>
    if fd ≠ fd2 then some t
    else do
      let t ← match ← fdDev dev t fd with
        | some .pipe => some (devpipeClose t fd)
        | _ => some t
      some (sysPageUnmap t fd)

/-- `close(fdnum)`; its result is not used. -/
def close (dev : ℕ → Option Dev) (t : Table) (fdnum : BitVec 32) : Option Table :=
  match fdLookup t fdnum with
  | none => some t
  | some fd => fdClose dev t fd

/-- The end of `dup` where a page could not be mapped. -/
def dupErr (t : Table) (newfd nva : VA) : Table := sysPageUnmap (sysPageUnmap t newfd) nva

/-- `dup(oldfdnum, newfdnum)`; `noMem₁` and `noMem₂` are for the data page and the `struct Fd`. -/
def dup (dev : ℕ → Option Dev) (t : Table) (oldfdnum newfdnum : BitVec 32) (noMem₁ noMem₂ : Bool) :
    Option (ℤ × Table) :=
  match fdLookup t oldfdnum with
  | none => some (-eInval, t)
  | some oldfd => do
    let t ← close dev t newfdnum
    let newfd := index2fd newfdnum
    let ova := fd2data oldfd
    let nva := fd2data newfd
    let (r, t) := if (t (pgnum ova)).isSome then sysPageMap t ova nva (syscallPerm t ova) noMem₁ else (0, t)
    if r < 0 then some (r, dupErr t newfd nva)
    else
      let (r, t) := sysPageMap t oldfd newfd (syscallPerm t oldfd) noMem₂
      if r < 0 then some (r, dupErr t newfd nva)
      else some (newfdnum.toInt, t)

end Jos.Dup
