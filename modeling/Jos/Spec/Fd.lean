import Jos.Spec.Layout
import Jos.Lib.Prog

/-!
# File descriptors and processes that share a pipe

`dup`, `close` and `close_all` of `lib/fd.c`, `devpipe_close` of `lib/pipe.c`, `fork` of
`lib/fork.c` and `exit`, one system call at a time, with what `kern/syscall.c` does for them
to the pages of the file descriptor table and to `pp_ref`.

The table is the `2*MAXFD` pages from `FDTABLE` on: the `struct Fd` of each of the `MAXFD` = 32
descriptors and then, from `FILEDATA` on, the data page of each. A `struct Fd *` is named by its
descriptor number.
-/

namespace Jos.Fd

open Lib

/-! ## The table -/

/-- A page of the table: `FDTABLE + va*PGSIZE`. -/
abbrev Va := Fin 64

instance fd_neZero : NeZero (32 : ℕ) := ⟨by decide⟩

/-- `INDEX2FD(i)`. -/
def index2fd (i : Fin 32) : Va := ⟨i, by omega⟩

/-- `INDEX2DATA(i)`, and `fd2data` of descriptor `i`. -/
def index2data (i : Fin 32) : Va := ⟨32 + i, by omega⟩

/-- A leaf page-table entry that is present: its page, and its flags. -/
structure Pte where
  page : ℕ
  perm : BitVec 32

abbrev Table := Va → Option Pte

/-- `PTE_SHARE`. -/
def pteShare : BitVec 32 := 0x400

/-- `PTE_COW`. -/
def pteCow : BitVec 32 := 0x800

/-- `uvpt[va] & PTE_SYSCALL`. -/
def syscallPerm (t : Table) (va : Va) : BitVec 32 :=
  match t va with
  | none => 0
  | some pte => pte.perm &&& pteSyscall

/-- What `dev_lookup` finds for the `fd_dev_id` of an open file: `devpipe`, or another device,
with the result of its `dev_close`, which leaves the table alone. -/
inductive Dev
  | pipe
  | other (r : ℤ)

/-- A pipe: the page of the read end's `struct Fd`, that of the write end's and the data page,
and what the other pages say if they are taken for a `struct Fd`. -/
structure Pipe where
  r : ℕ
  w : ℕ
  d : ℕ
  rw : r ≠ w
  rd : r ≠ d
  wd : w ≠ d
  dev : ℕ → Option Dev

def Pipe.pages (P : Pipe) : Set ℕ := {P.r, P.w, P.d}

/-- `dev_lookup(fd->fd_dev_id, &dev)`, for a `struct Fd` in this page. -/
def Pipe.devLookup (P : Pipe) (page : ℕ) : Option Dev :=
  if page = P.r ∨ page = P.w then some .pipe else P.dev page

/-! ## Programs -/

/-- What a process asks the kernel: system calls, and reads of its own page table. The process
itself is `none` where an environment is named. -/
inductive Sys
  | uvpt
  | pageMap (srcva : Va) (dstenv : Option EnvIdx) (dstva : Va) (perm : BitVec 32)
  | pageUnmap (va : Va)
  | exofork
  | setRunnable (env : EnvIdx)
  | envDestroy

/-- The results. `sys_env_destroy(0)` does not return. -/
def Sys.Result : Sys → Type
  | .uvpt => Table
  | .pageMap .. => ℤ
  | .pageUnmap _ => Unit
  | .exofork => Option EnvIdx
  | .setRunnable _ => Unit
  | .envDestroy => Empty

/-- User code. -/
abbrev User := Prog Sys Sys.Result

def uvpt : User Table := Prog.perform Sys.uvpt

def sysPageMap (srcva : Va) (dstenv : Option EnvIdx) (dstva : Va) (perm : BitVec 32) : User ℤ :=
  Prog.perform (Sys.pageMap srcva dstenv dstva perm)

def sysPageUnmap (va : Va) : User Unit := Prog.perform (Sys.pageUnmap va)

def sysExofork : User (Option EnvIdx) := Prog.perform Sys.exofork

def sysEnvSetRunnable (env : EnvIdx) : User Unit := Prog.perform (Sys.setRunnable env)

def sysEnvDestroy : User Unit := Prog.call Sys.envDestroy nofun

/-- `devpipe_close(fd)`. -/
def devpipeClose (fd : Fin 32) : User ℤ := do
  sysPageUnmap (index2fd fd)
  sysPageUnmap (index2data fd)
  return 0

/-- `fd_close(fd, must_exist)`. -/
def fdClose (P : Pipe) (fd : Fin 32) (mustExist : Bool) : User ℤ := do
  match (← uvpt) (index2fd fd) with
  | none => return if mustExist then -eInval else 0
  | some pte =>
    let r ← match P.devLookup pte.page with
      | some .pipe => devpipeClose fd
      | some (.other r) => pure r
      | none => pure (-eInval)
    sysPageUnmap (index2fd fd)
    return r

/-- `close(fdnum)`, for a descriptor number below `MAXFD`. -/
def close (P : Pipe) (fdnum : Fin 32) : User ℤ := do
  match (← uvpt) (index2fd fdnum) with
  | none => return -eInval
  | some _ => fdClose P fdnum true

/-- `close_all()`. -/
def closeAll (P : Pipe) : User Unit := (List.finRange 32).forM fun i => do
  let _ ← close P i

/-- The end of `dup` where a page could not be mapped. -/
def dupErr (newfd : Fin 32) (r : ℤ) : User ℤ := do
  sysPageUnmap (index2fd newfd)
  sysPageUnmap (index2data newfd)
  return r

/-- `dup(oldfdnum, newfdnum)`, for descriptor numbers below `MAXFD`. -/
def dup (P : Pipe) (oldfdnum newfdnum : Fin 32) : User ℤ := do
  match (← uvpt) (index2fd oldfdnum) with
  | none => return -eInval
  | some _ =>
    let _ ← close P newfdnum
    let ova := index2data oldfdnum
    let nva := index2data newfdnum
    let t ← uvpt
    let r ← if (t ova).isSome then sysPageMap ova none nva (syscallPerm t ova) else pure 0
    if r < 0 then dupErr newfdnum r
    else do
      let t ← uvpt
      let r ← sysPageMap (index2fd oldfdnum) none (index2fd newfdnum) (syscallPerm t (index2fd oldfdnum))
      if r < 0 then dupErr newfdnum r else return newfdnum

/-- `duppage(envid, pn)`. No result of `sys_page_map` is above 0, so nothing panics. -/
def duppage (env : EnvIdx) (va : Va) : User Unit := do
  let perm := syscallPerm (← uvpt) va
  if flag perm pteShare then
    let _ ← sysPageMap va (some env) va perm
  else if flag perm pteW || flag perm pteCow then
    let perm := (perm ||| pteCow) &&& ~~~pteW
    let _ ← sysPageMap va (some env) va perm
    let _ ← sysPageMap va none va perm
  else
    let _ ← sysPageMap va (some env) va perm

/-- The loop of `fork` over the pages of the table, from the last to the first. -/
def forkPages (env : EnvIdx) : User Unit := (List.finRange 64).reverse.forM fun va => do
  if ((← uvpt) va).isSome then duppage env va

/-- `fork()`, in the parent. In the child `sys_exofork` returns 0, and `fork` returns. The calls
for the stack pages and the page-fault upcall are left out. -/
def fork : User Unit := do
  match ← sysExofork with
  | none => return
  | some env =>
    forkPages env
    sysEnvSetRunnable env

/-- `exit()`. -/
def exit (P : Pipe) : User Unit := do
  closeAll P
  sysEnvDestroy

/-- What a process can call. -/
inductive Op
  | dup (oldfdnum newfdnum : Fin 32)
  | close (fdnum : Fin 32)
  | fork
  | exit

def Op.prog (P : Pipe) : Op → User Unit
  | .dup oldfdnum newfdnum => do let _ ← Fd.dup P oldfdnum newfdnum
  | .close fdnum => do let _ ← Fd.close P fdnum
  | .fork => Fd.fork
  | .exit => Fd.exit P

/-! ## The kernel -/

/-- What an environment does: it is not used, it is made by its parent's `fork`, or it runs; it
is in no operation when nothing is left of its program. -/
inductive RunState
  | free
  | embryo (parent : EnvIdx)
  | running (p : User Unit)

/-- The tables, the counts of the pages and the programs. -/
structure World where
  table : EnvIdx → Table
  ppRef : ℕ → BitVec 16
  run : EnvIdx → RunState

namespace World

def setRun (w : World) (e : EnvIdx) (r : RunState) : World :=
  { w with run := Function.update w.run e r }

def setPte (w : World) (e : EnvIdx) (va : Va) (pte : Option Pte) : World :=
  { w with table := Function.update w.table e (Function.update (w.table e) va pte) }

def incRef (w : World) (page : ℕ) : World :=
  { w with ppRef := Function.update w.ppRef page (w.ppRef page + 1) }

def decRef (w : World) (page : ℕ) : World :=
  { w with ppRef := Function.update w.ppRef page (w.ppRef page - 1) }

/-- `page_lookup`: an absent entry passes for one of page 0. -/
def pageLookup (w : World) (e : EnvIdx) (va : Va) : Pte := (w.table e va).getD ⟨0, 0⟩

/-- `page_remove`. -/
def pageRemove (w : World) (e : EnvIdx) (va : Va) : World :=
  (w.decRef (w.pageLookup e va).page).setPte e va none

/-- `page_insert`. -/
def pageInsert (w : World) (e : EnvIdx) (va : Va) (page : ℕ) (perm : BitVec 32) : World :=
  let w := w.incRef page
  let w := if (w.table e va).isSome then w.pageRemove e va else w
  w.setPte e va (some ⟨page, perm ||| pteP⟩)

/-- `sys_page_map(0, srcva, dst, dstva, perm)`; there is no memory for a page table if
`noMem`. -/
def pageMap (w : World) (e : EnvIdx) (srcva : Va) (dst : EnvIdx) (dstva : Va) (perm : BitVec 32)
    (noMem : Bool) : ℤ × World :=
  if perm ||| pteSyscall ≠ pteSyscall then (-eInval, w)
  else
    let pte := w.pageLookup e srcva
    if !flag pte.perm pteW && flag perm pteW then (-eInval, w)
    else if noMem then (-eNoMem, w)
    else (0, w.pageInsert dst dstva pte.page perm)

/-- `env_free`, as far as the table goes. -/
def envFree (w : World) (e : EnvIdx) : World :=
  ((List.finRange 64).foldl
    (fun w va => if (w.table e va).isSome then w.pageRemove e va else w) w).setRun e .free

/-- What the kernel decides: whether there is memory, and which environment is new. -/
structure Choice where
  noMem : Bool
  env : EnvIdx

/-- One call of environment `e`. A child can be named until it is made runnable. -/
def exec (w : World) (e : EnvIdx) (ch : Choice) : (c : Sys) → Option (c.Result × World)
  | .uvpt => some (w.table e, w)
  | .pageMap srcva none dstva perm => some (w.pageMap e srcva e dstva perm ch.noMem)
  | .pageMap srcva (some env) dstva perm =>
    match w.run env with
    | .embryo parent =>
      if parent = e then some (w.pageMap e srcva env dstva perm ch.noMem) else some (-eBadEnv, w)
    | _ => some (-eBadEnv, w)
  | .pageUnmap va => some ((), w.pageRemove e va)
  | .exofork =>
    if ch.noMem then some (none, w)
    else match w.run ch.env with
      | .free => some (some ch.env,
          { w with table := Function.update w.table ch.env fun _ => none }.setRun ch.env (.embryo e))
      | _ => none
  | .setRunnable env =>
    match w.run env with
    | .embryo parent => if parent = e then some ((), w.setRun env (.running (.ret ()))) else some ((), w)
    | _ => some ((), w)
  | .envDestroy => none

/-- Environment `e` makes its next call. -/
def sysStep (w : World) (e : EnvIdx) (ch : Choice) : Option World :=
  match w.run e with
  | .running (.call .envDestroy _) => some (w.envFree e)
  | .running (.call c k) => (w.exec e ch c).map fun (r, w) => w.setRun e (.running (k r))
  | _ => none

/-- Environment `e` runs and is in no operation. -/
def Idle (w : World) (e : EnvIdx) : Prop := w.run e = .running (.ret ())

/-- The page that environment `e` has at `va`. -/
def page (w : World) (e : EnvIdx) (va : Va) : Option ℕ := (w.table e va).map (·.page)

/-- What `pipe()` has done when it returns: three pages that were free are mapped, the two ends
at two descriptors that were closed and the data page next to both. -/
def pipe (w : World) (P : Pipe) (e : EnvIdx) (fd0 fd1 : Fin 32) : World :=
  let perm := pteP ||| pteW ||| pteU ||| pteShare
  let w := w.pageInsert e (index2fd fd0) P.r perm
  let w := w.pageInsert e (index2fd fd1) P.w perm
  let w := w.pageInsert e (index2data fd0) P.d perm
  w.pageInsert e (index2data fd1) P.d perm

/-- A step of process `e`; what it and the kernel do in a call needs the condition `C`. -/
inductive Act (P : Pipe) (C : World → EnvIdx → Choice → Prop) (e : EnvIdx) : World → World → Prop
  /-- a process that is in no operation begins one -/
  | start {w : World} (op : Op) : w.Idle e → Act P C e w (w.setRun e (.running (op.prog P)))
  /-- the next call of a process -/
  | sys {w w' : World} {ch : Choice} : C w e ch → w.sysStep e ch = some w' → Act P C e w w'
  /-- `pipe()` returns to a process, with free pages -/
  | pipe {w : World} {fd0 fd1 : Fin 32} : w.Idle e → fd0 ≠ fd1 →
      w.table e (index2fd fd0) = none → w.table e (index2fd fd1) = none →
      w.ppRef P.r = 0 → w.ppRef P.w = 0 → w.ppRef P.d = 0 → Act P C e w (w.pipe P e fd0 fd1)
  /-- an entry of the table that has nothing to do with the pipe changes -/
  | other {w : World} {va : Va} {pte : Option Pte} {ppRef : ℕ → BitVec 16} : w.Idle e →
      (∀ p ∈ P.pages, w.page e va ≠ some p ∧ pte.map (·.page) ≠ some p ∧ ppRef p = w.ppRef p) →
      Act P C e w { w.setPte e va pte with ppRef := ppRef }

/-- A step of the system is one of some process. -/
def Step (P : Pipe) (C : World → EnvIdx → Choice → Prop) (w w' : World) : Prop := ∃ e, Act P C e w w'

/-- Any interleaving. -/
abbrev Run (P : Pipe) (C : World → EnvIdx → Choice → Prop) : World → World → Prop :=
  Relation.ReflTransGen (Step P C)

/-- Before the pipe: every process is in no operation, and no entry has one of the pages. -/
structure Boot (P : Pipe) (w : World) : Prop where
  run : ∀ e, w.run e = .free ∨ w.Idle e
  free : ∀ e, w.run e = .free → ∀ va, w.table e va = none
  page : ∀ e va, ∀ p ∈ P.pages, w.page e va ≠ some p
  ppRef : ∀ p ∈ P.pages, w.ppRef p = 0

/-- No operation is in progress. -/
def Quiet (w : World) : Prop := ∀ e, w.run e = .free ∨ w.Idle e

end World

end Jos.Fd
