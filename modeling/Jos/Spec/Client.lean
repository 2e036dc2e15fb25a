import Jos.Lib.Bytes
import Jos.Spec.Fd

/-!
# Clients of the file server

The calls of `lib/file.c` that make a request, as what they store to `fsipcbuf` and the code that they
send, with `ipc_send` of `lib/ipc.c`, and `fork` and `pgfault` of `lib/fork.c`, which decide whether the
page of `fsipcbuf` is writable. A byte is stored, and a system call made, in one step; in between the
other processes may run.

Of the pages of a process there are that of `fsipcbuf`, the one behind it, where the last bytes of a long
write are, and `PFTEMP`.
-/

namespace Jos.Client

open Lib

open Fd (Pte pteShare pteCow)

inductive Pg
  | fsipcbuf
  | next
  | pftemp
  deriving DecidableEq

/-- The entries of a process for these pages. -/
abbrev Table := Pg → Option Pte

/-- The physical pages. -/
abbrev Mem := ℕ → Bytes

/-- `PTE_P | PTE_W | PTE_U`. -/
def rwPerm : BitVec 32 := pteP ||| pteW ||| pteU

/-- `uvpt[va] & PTE_SYSCALL`. -/
def syscallPerm (t : Table) (va : Pg) : BitVec 32 :=
  match t va with
  | none => 0
  | some pte => pte.perm &&& pteSyscall

/-! ## System calls -/

/-- `sys_page_alloc(0, va, perm)`, which takes page `page`, or none if there is no memory. -/
def sysPageAlloc (t : Table) (mem : Mem) (va : Pg) (perm : BitVec 32) (page : Option ℕ) : ℤ × Table × Mem :=
  if perm ||| pteSyscall ≠ pteSyscall then (-eInval, t, mem)
  else match page with
    | none => (-eNoMem, t, mem)
    | some page => (0, Function.update t va (some ⟨page, perm ||| pteP⟩), Function.update mem page ⟨fun _ => 0⟩)

/-- `sys_page_map(0, srcva, dstenv, dstva, perm)` from the table `src` to the table `dst`. An absent entry
passes for one of page 0. There is no memory for a page table of `dst` if `noMem`. -/
def sysPageMap (src : Table) (srcva : Pg) (dst : Table) (dstva : Pg) (perm : BitVec 32) (noMem : Bool) : ℤ × Table :=
  if perm ||| pteSyscall ≠ pteSyscall then (-eInval, dst)
  else
    let pte := (src srcva).getD ⟨0, 0⟩
    if !flag pte.perm pteW && flag perm pteW then (-eInval, dst)
    else if noMem then (-eNoMem, dst)
    else (0, Function.update dst dstva (some ⟨pte.page, perm ||| pteP⟩))

/-- `sys_page_unmap(0, va)`. -/
def sysPageUnmap (t : Table) (va : Pg) : Table := Function.update t va none

/-- The receiver of a message: it exists, it waits in `sys_ipc_recv`, and there is memory to map a page
for it. -/
structure Receiver where
  alive : Bool
  recving : Bool
  noMem : Bool

/-- The result of `sys_ipc_try_send(envid, value, srcva, perm)`. -/
def sysIpcTrySend (t : Table) (e : Receiver) (srcva : Pg) (perm : BitVec 32) : ℤ :=
  if !e.alive then -eBadEnv
  else if !e.recving then -eIpcNotRecv
  else if perm &&& (pteU ||| pteP) ≠ pteU ||| pteP then -eInval
  else if perm &&& ~~~pteSyscall ≠ 0 then -eInval
  else
    let pte := (t srcva).getD ⟨0, 0⟩
    if !flag pte.perm pteW && flag perm pteW then -eInval
    else if e.noMem then -eNoMem
    else 0

/-! ## Page faults -/

/-- `memmove(dst, src, PGSIZE)` for two pages, `none` if it faults. -/
def memmovePage (t : Table) (mem : Mem) (dst src : Pg) : Option Mem := do
  let s ← t src
  let d ← t dst
  if flag s.perm pteU && flag d.perm pteU && flag d.perm pteW then some (Function.update mem d.page (mem s.page))
  else none

/-- `pgfault(utf)` for a store to `addr`. It is `none` if it panics, or faults itself over and over, until
the process is destroyed. -/
def pgfault (t : Table) (mem : Mem) (addr : Pg) (page : Option ℕ) : Option (Table × Mem) :=
  let (r, t, mem) := sysPageAlloc t mem .pftemp rwPerm page
  if r = 0 then do
    let mem ← memmovePage t mem .pftemp addr
    let (r, t) := sysPageMap t .pftemp t addr rwPerm false
    if 0 > r then none else some (sysPageUnmap t .pftemp, mem)
  else none

/-- A store of one byte, `none` if it faults. -/
def storeByte (t : Table) (mem : Mem) (va : Pg) (i : ℕ) (b : Byte) : Option Mem := do
  let pte ← t va
  if flag pte.perm pteU && flag pte.perm pteW then
    some (Function.update mem pte.page ((mem pte.page).write i [b]))
  else none

/-- The same with the page fault that it may cause, if the handler is set. -/
def store (t : Table) (mem : Mem) (handler : Bool) (va : Pg) (i : ℕ) (b : Byte) (page : Option ℕ) : Option (Table × Mem) :=
  match storeByte t mem va i b with
  | some mem => some (t, mem)
  | none =>
    if handler then do
      let (t, mem) ← pgfault t mem va page
      let mem ← storeByte t mem va i b
      some (t, mem)
    else none

/-! ## Library calls -/

/-- `MAXPATHLEN`. -/
def maxpathlen : ℕ := 1024

/-- The calls that make a request, each as far as `devfile` is concerned. A path is given without the
byte 0 at its end; `fd` says whether `fd_alloc` finds a descriptor. -/
inductive Op
  | open (path : List Byte) (mode : BitVec 32) (fd : Bool)
  | read (fileid : BitVec 32) (n : BitVec 64)
  | write (fileid : BitVec 32) (buf : List Byte)
  | fstat (fileid : BitVec 32)
  | ftruncate (fileid newsize : BitVec 32)
  | remove (path : List Byte)
  | close (fileid : BitVec 32)
  | sync

/-- The codes of `inc/fs.h`. -/
def fsreqOpen : BitVec 32 := 1
def fsreqSetSize : BitVec 32 := 2
def fsreqRead : BitVec 32 := 3
def fsreqWrite : BitVec 32 := 4
def fsreqStat : BitVec 32 := 5
def fsreqFlush : BitVec 32 := 6
def fsreqRemove : BitVec 32 := 7
def fsreqSync : BitVec 32 := 8

/-- How a call goes on after its stores. -/
inductive Last
  | fsipc (type : BitVec 32)
  | ret
  | panic

/-- The bytes `bs` from offset `off` of `fsipcbuf` on. -/
def bytesAt (off : ℕ) (bs : List Byte) : List (ℕ × Byte) := (List.range bs.length).zipWith (fun i b => (off + i, b)) bs

/-- The bytes of a `size_t`. -/
def word64 (n : BitVec 64) : List Byte := Bytes.word32 (n.setWidth 32) ++ Bytes.word32 ((n >>> 32).setWidth 32)

/-- What a call stores to `fsipcbuf`, in this order, and how it goes on. -/
def Op.body : Op → List (ℕ × Byte) × Last
  | .open path mode fd =>
    if path.length ≥ maxpathlen then ([], .ret)
    else if !fd then ([], .ret)
    else (bytesAt 0 (path ++ [0]) ++ bytesAt 1024 (Bytes.word32 mode), .fsipc fsreqOpen)
  | .read fileid n => (bytesAt 0 (Bytes.word32 fileid) ++ bytesAt 8 (word64 n), .fsipc fsreqRead)
  | .write fileid buf =>
    let fields := bytesAt 0 (Bytes.word32 fileid) ++ bytesAt 8 (word64 (BitVec.ofNat 64 buf.length))
    if buf.length ≤ 4096 - (4 + 8) then (fields ++ bytesAt 16 buf, .fsipc fsreqWrite) else (fields, .panic)
  | .fstat fileid => (bytesAt 0 (Bytes.word32 fileid), .fsipc fsreqStat)
  | .ftruncate fileid newsize =>
    (bytesAt 0 (Bytes.word32 fileid) ++ bytesAt 4 (Bytes.word32 newsize), .fsipc fsreqSetSize)
  | .remove path =>
    if path.length ≥ maxpathlen then ([], .ret) else (bytesAt 0 (path ++ [0]), .fsipc fsreqRemove)
  | .close fileid => (bytesAt 0 (Bytes.word32 fileid), .fsipc fsreqFlush)
  | .sync => ([], .fsipc fsreqSync)

/-! ## Processes -/

/-- Where a process is. -/
inductive Pc
  /-- not in a call -/
  | user
  /-- before these stores -/
  | store (stores : List (ℕ × Byte)) (last : Last)
  /-- in the loop of `ipc_send` -/
  | send (type : BitVec 32)
  /-- in `ipc_recv` -/
  | recv
  /-- after the panic of `ipc_send` -/
  | panicked (r : ℤ)
  /-- after another panic, or destroyed -/
  | dead
  /-- there is no process -/
  | free

/-- `handler` says whether `pgfault` is set as the handler. `stored` is there for the statements: the process
has stored to the page of `fsipcbuf` since it last forked or was made by `fork`, or neither has been. -/
structure Process where
  table : Table
  handler : Bool
  pc : Pc
  stored : Bool

/-- `duppage(envid, pn)`, with the child's table `tc`; `noMem` is for its page tables. -/
def duppage (t tc : Table) (va : Pg) (noMem : Bool) : Table × Table :=
  let perm := syscallPerm t va
  if flag perm pteShare then (t, (sysPageMap t va tc va perm noMem).2)
  else if flag perm pteW || flag perm pteCow then
    let perm := (perm ||| pteCow) &&& ~~~pteW
    let tc := (sysPageMap t va tc va perm noMem).2
    ((sysPageMap t va t va perm false).2, tc)
  else (t, (sysPageMap t va tc va perm noMem).2)

/-- One turn of the loop of `fork`. -/
def forkPage (noMem : Pg → Bool) (ts : Table × Table) (va : Pg) : Table × Table :=
  if (ts.1 va).isSome then duppage ts.1 ts.2 va (noMem va) else ts

/-- The loop of `fork`, which goes down to `UTEXT` and passes all pages of a program. `PFTEMP` lies below;
it is mapped for the stack of the child, and unmapped. -/
def forkTables (t : Table) (noMem : Pg → Bool) : Table × Table :=
  let ts := [Pg.next, Pg.fsipcbuf].foldl (forkPage noMem) (t, fun _ => none)
  (sysPageUnmap ts.1 .pftemp, ts.2)

variable {ι : Type} [DecidableEq ι]

/-- The processes, and the memory. -/
structure World (ι : Type) where
  proc : ι → Process
  mem : Mem

namespace World

def setProc (w : World ι) (c : ι) (p : Process) : World ι := { w with proc := Function.update w.proc c p }

def setPc (w : World ι) (c : ι) (pc : Pc) : World ι := w.setProc c { w.proc c with pc := pc }

/-- The page that holds offset `off` of `fsipcbuf`. -/
def bufPage (off : ℕ) : Pg := if off < 4096 then .fsipcbuf else .next

/-- A store to `fsipcbuf`, and where the process is then. -/
def storeBuf (w : World ι) (c : ι) (off : ℕ) (b : Byte) (page : Option ℕ) (pc : Pc) : World ι :=
  let p := w.proc c
  match store p.table w.mem p.handler (bufPage off) (off % 4096) b page with
  | none => w.setPc c .dead
  | some (t, mem) =>
    { w.setProc c { p with table := t, pc := pc, stored := p.stored || decide (off < 4096) } with mem := mem }

/-- One turn of the loop of `ipc_send(fsenv, type, &fsipcbuf, PTE_P | PTE_W | PTE_U)`. -/
def ipcSend (w : World ι) (c : ι) (e : Receiver) : World ι :=
  let r := sysIpcTrySend (w.proc c).table e .fsipcbuf rwPerm
  if r < 0 ∧ r ≠ -eIpcNotRecv then w.setPc c (.panicked r)
  else if r ≠ 0 then w
  else w.setPc c .recv

/-- `fork()` of `c`, whose child is `child`. -/
def fork (w : World ι) (c child : ι) (noMem : Pg → Bool) : World ι :=
  let (t, tc) := forkTables (w.proc c).table noMem
  (w.setProc c { w.proc c with table := t, handler := true, stored := false }).setProc child
    { table := tc, handler := true, pc := .user, stored := false }

/-- **One step**, as long as the server is alive. A call is made under the condition `C`. -/
inductive Step (C : World ι → ι → Op → Prop) (w : World ι) : World ι → Prop
  /-- a process makes a call -/
  | call {c : ι} (op : Op) : (w.proc c).pc = .user → C w c op →
      Step C w (w.setPc c (.store op.body.1 op.body.2))
  /-- a byte is stored to `fsipcbuf` -/
  | store {c : ι} {off : ℕ} {b : Byte} {rest : List (ℕ × Byte)} {last : Last} {page : Option ℕ} :
      (w.proc c).pc = .store ((off, b) :: rest) last → Step C w (w.storeBuf c off b page (.store rest last))
  /-- `fsipc` -/
  | fsipc {c : ι} {type : BitVec 32} : (w.proc c).pc = .store [] (.fsipc type) → Step C w (w.setPc c (.send type))
  /-- a call without a request returns -/
  | ret {c : ι} : (w.proc c).pc = .store [] .ret → Step C w (w.setPc c .user)
  /-- an assertion fails -/
  | panic {c : ι} : (w.proc c).pc = .store [] .panic → Step C w (w.setPc c .dead)
  /-- a turn of the loop of `ipc_send` -/
  | send {c : ι} {type : BitVec 32} {e : Receiver} : (w.proc c).pc = .send type → e.alive = true →
      Step C w (w.ipcSend c e)
  /-- the reply, for which the server may have stored to any page it has mapped -/
  | reply {c : ι} (mem : Mem) : (w.proc c).pc = .recv → Step C w { w.setPc c .user with mem := mem }
  /-- `fork` -/
  | fork {c child : ι} {noMem : Pg → Bool} : (w.proc c).pc = .user → (w.proc child).pc = .free →
      Step C w (w.fork c child noMem)
  /-- `fork` panics, as there is no environment for the child -/
  | forkPanic {c : ι} : (w.proc c).pc = .user → Step C w (w.setPc c .dead)
  /-- a process exits -/
  | exit {c : ι} : (w.proc c).pc = .user → Step C w (w.setPc c .free)

/-- Any interleaving of such steps. -/
abbrev Run (C : World ι → ι → Op → Prop) : World ι → World ι → Prop := Relation.ReflTransGen (Step C)

/-- Processes that were just loaded: their data is writable. -/
def Loaded (w : World ι) : Prop := ∀ c, (w.proc c).pc = .free ∨ (w.proc c).pc = .user ∧ (w.proc c).stored = true ∧
  ∃ pte, (w.proc c).table .fsipcbuf = some pte ∧ pte.perm &&& pteSyscall = rwPerm

end World

end Jos.Client
