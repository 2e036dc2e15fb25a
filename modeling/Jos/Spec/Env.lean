import Jos.Spec.Pmap

/-!
# Environments

`kern/env.c`: environment ids, and creating, loading, freeing and destroying an
environment. The state `Kernel` is the memory manager, the `envs` array and the
environment free list.
-/

namespace Jos

/-- `struct PushRegs`. -/
structure PushRegs where
  r15 : BitVec 64 := 0
  r14 : BitVec 64 := 0
  r13 : BitVec 64 := 0
  r12 : BitVec 64 := 0
  r11 : BitVec 64 := 0
  r10 : BitVec 64 := 0
  r9 : BitVec 64 := 0
  r8 : BitVec 64 := 0
  rsi : BitVec 64 := 0
  rdi : BitVec 64 := 0
  rbp : BitVec 64 := 0
  rdx : BitVec 64 := 0
  rcx : BitVec 64 := 0
  rbx : BitVec 64 := 0
  rax : BitVec 64 := 0

/-- `struct Trapframe`. The default value is the one `memset` gives. -/
structure Trapframe where
  tfRegs : PushRegs := {}
  tfEs : BitVec 16 := 0
  tfDs : BitVec 16 := 0
  tfTrapno : BitVec 64 := 0
  tfErr : BitVec 64 := 0
  tfRip : VA := 0
  tfCs : BitVec 16 := 0
  tfEflags : BitVec 64 := 0
  tfRsp : VA := 0
  tfSs : BitVec 16 := 0

/-- The values of `env_status`. -/
inductive EnvStatus
  | free
  | dying
  | runnable
  | running
  | notRunnable
  deriving DecidableEq

/-- `enum EnvType`. -/
inductive EnvType
  | user
  | fs
  deriving DecidableEq

/-- `struct Env`. -/
structure Env where
  envTf : Trapframe
  envLink : Option EnvIdx
  envId : EnvId
  envParentId : EnvId
  envType : EnvType
  envStatus : EnvStatus
  envRuns : BitVec 32
  envCpunum : BitVec 32
  envPml4e : Option ℕ
  envCr3 : BitVec 64
  envPgfaultUpcall : VA
  envIpcRecving : Bool
  envIpcDstva : VA
  envIpcValue : BitVec 32
  envIpcFrom : EnvId
  envIpcPerm : BitVec 32
  elf : VA

/-- The kernel's memory and environments. -/
structure Kernel where
  pm : Pmap
  envs : EnvIdx → Env
  envFreeList : Option EnvIdx

namespace Kernel

def setPm (k : Kernel) (m : Pmap) : Kernel := { k with pm := m }

def setEnv (k : Kernel) (e : EnvIdx) (v : Env) : Kernel :=
  { k with envs := fun i => if i = e then v else k.envs i }

def setFree (k : Kernel) (h : Option EnvIdx) : Kernel := { k with envFreeList := h }

/-- An environment exists. -/
def Live (k : Kernel) (e : EnvIdx) : Prop := (k.envs e).envStatus ≠ .free

instance (k : Kernel) (e : EnvIdx) : Decidable (k.Live e) := inferInstanceAs (Decidable (¬ _))

end Kernel

/-- `envid2env(envid, &e, checkperm)` with `cur` as `curenv`; `none` is `-E_BAD_ENV`. -/
def envid2env (k : Kernel) (cur : EnvIdx) (envid : EnvId) (checkperm : Bool) : Option EnvIdx :=
  if envid = 0 then some cur
  else
    let e := envx envid
    if (k.envs e).envStatus = .free ∨ (k.envs e).envId ≠ envid then none
    else if checkperm ∧ e ≠ cur ∧ (k.envs e).envParentId ≠ (k.envs cur).envId then none
    else some e

/-- One turn of the loop of `env_init`; `last` is the slot before. -/
def envInitSlot (s : Kernel × Option EnvIdx) (i : EnvIdx) : Kernel × Option EnvIdx :=
  let (k, last) := s
  let k := k.setEnv i { k.envs i with envId := 0, envStatus := .free, envLink := none }
  match last with
  | none => (k, some i)
  | some last => (k.setEnv last { k.envs last with envLink := some i }, some i)

/-- `env_init()`. -/
def envInit (k : Kernel) : Kernel :=
  ((List.finRange nenv).foldl envInitSlot (k.setFree (some 0), none)).1

/-- `env_setup_vm(e)`. -/
def envSetupVm (k : Kernel) (e : EnvIdx) : Option (ℤ × Kernel) := do
  let (p, m) ← pageAlloc k.pm true
  match p with
  | none => some (-eNoMem, k.setPm m)
  | some p => do
    let root ← kaddr m (page2pa p)
    let m := m.incRef p
    let m := m.write root 1 (m.mem m.bootPml4e 1)
    let m := m.write root (pml4 uvpt) (page2pa p ||| pteP ||| pteU)
    some (0, (k.setPm m).setEnv e
      { k.envs e with envPml4e := some root, envCr3 := page2pa p })

/-- `FL_IF`. -/
def flIf : BitVec 64 := 0x200#64

/-- The id that `env_alloc` gives slot `e`, from the id of its last occupant. -/
def nextEnvId (e : EnvIdx) (old : EnvId) : EnvId :=
  let generation := (old + 0x1000#32) &&& ~~~(BitVec.ofNat 32 (nenv - 1))
  let generation := if generation.toInt ≤ 0 then 0x1000#32 else generation
  generation ||| BitVec.ofNat 32 e

/-- `env_alloc(&e, parent_id)`. -/
def envAlloc (k : Kernel) (parentId : EnvId) : Option (Except ℤ EnvIdx × Kernel) :=
  match k.envFreeList with
  | none => some (.error (-eNoFreeEnv), k)
  | some e => do
    let (r, k) ← envSetupVm k e
    if r < 0 then some (.error r, k)
    else
      let k := k.setEnv e { k.envs e with
        envId := nextEnvId e (k.envs e).envId
        envParentId := parentId
        envType := .user
        envStatus := .runnable
        envRuns := 0
        envTf :=
          { tfDs := 0x20 ||| 3, tfEs := 0x20 ||| 3, tfSs := 0x20 ||| 3, tfRsp := ustacktop,
            tfCs := 0x18 ||| 3, tfEflags := flIf }
        envPgfaultUpcall := 0
        envIpcRecving := false }
      some (.ok e, k.setFree (k.envs e).envLink)

/-- One turn of the loop of `region_alloc`. The page is counted here and once more by
`page_insert`. -/
def regionAllocPage (pml4e : ℕ) (m : Pmap) (start : VA) : Option Pmap := do
  let (pp, m) ← pageAlloc m false
  match pp with
  | none => none
  | some pp => do
    let m := m.incRef pp
    let (ret, m) ← pageInsert m pml4e pp start (pteW ||| pteU)
    if ret < 0 then none else some m

/-- `region_alloc(e, va, len)`. -/
def regionAlloc (k : Kernel) (e : EnvIdx) (va len : VA) : Option Kernel := do
  let pml4e ← (k.envs e).envPml4e
  let m ← (pagesFrom (roundDown va pgsize) (roundUp (va + len) pgsize)).foldlM
    (regionAllocPage pml4e) k.pm
  some (k.setPm m)

/-- The part of an ELF binary that `load_icode` uses: where it is, its entry point, and
`p_va` and `p_memsz` of its segments to load. -/
structure Binary where
  elf : VA
  entry : VA
  segments : List (VA × VA)

/-- `load_icode(e, binary)`, up to the bytes it copies into the regions. -/
def loadIcode (k : Kernel) (e : EnvIdx) (binary : Binary) : Option Kernel := do
  let k := k.setEnv e { k.envs e with elf := binary.elf }
  let k ← binary.segments.foldlM (fun k s => regionAlloc k e s.1 s.2) k
  let k ← regionAlloc k e (ustacktop - pgsize) pgsize
  some (k.setEnv e { k.envs e with envTf := { (k.envs e).envTf with tfRip := binary.entry } })

/-- `FL_IOPL_3`. -/
def flIopl3 : BitVec 64 := 0x3000#64

/-- `env_create(binary, type)`. -/
def envCreate (k : Kernel) (binary : Binary) (type : EnvType) : Option Kernel := do
  let (r, k) ← envAlloc k 0
  match r with
  | .error _ => none
  | .ok e => do
    let k ← loadIcode k e binary
    let tf := (k.envs e).envTf
    some (k.setEnv e { k.envs e with
      envType := type
      envTf := if type = .fs then { tf with tfEflags := tf.tfEflags ||| flIopl3 } else tf })

/-! ## `env_free` -/

/-- The indices below `n`. -/
def idxBelow (n : ℕ) : List Idx := (List.finRange 512).filter (·.val < n)

/-- The body of the loop over `pteno`. -/
def envFreePte (root pt : ℕ) (i j : Idx) (m : Pmap) (pteno : Idx) : Option Pmap :=
  if flag (m.mem pt pteno) pteP then pageRemove m root (pgaddr 0 i j pteno) else some m

/-- The body of the loop over `pdeno`: `pteno` runs below `PTX(~0)`. -/
def envFreePde (root pgdir : ℕ) (i : Idx) (m : Pmap) (pdeno : Idx) : Option Pmap :=
  if !flag (m.mem pgdir pdeno) pteP then some m
  else do
    let pa := pteAddr (m.mem pgdir pdeno)
    let pt ← kaddr m pa
    let m ← (idxBelow (ptx (-1)).val).foldlM (envFreePte root pt i pdeno) m
    let m := m.write pgdir pdeno 0
    let page ← pa2page m pa
    pageDecref m page

/-- `pdeno_limit`. -/
def pdenoLimit (i : Idx) : ℕ := if i = 3 then (pdx utop).val else (pdx 0xFFFFFFFF#64).val

/-- The body of the loop over `pdpe_index`. -/
def envFreePdpe (root table : ℕ) (m : Pmap) (i : Idx) : Option Pmap :=
  if !flag (m.mem table i) pteP then some m
  else do
    let pgdir ← kaddr m (pteAddr (m.mem table i))
    let m ← (idxBelow (pdenoLimit i)).foldlM (envFreePde root pgdir i) m
    let pa := pteAddr (m.mem table i)
    let m := m.write table i 0
    let page ← pa2page m pa
    pageDecref m page

/-- The part of `env_free` that gives the pages of the address space back. -/
def envFreeVm (m : Pmap) (root : ℕ) (cr3 : BitVec 64) : Option Pmap := do
  let m ← if flag (m.mem root 0) pteP then do
      let table ← kaddr m (pteAddr (m.mem root 0))
      let m ← [(0 : Idx), 1, 2, 3].foldlM (envFreePdpe root table) m
      let page ← pa2page m (pteAddr (m.mem root 0))
      pageDecref m page
    else some m
  let m := m.write root 0 0
  let page ← pa2page m cr3
  pageDecref m page

/-- `env_free(e)`. -/
def envFree (k : Kernel) (e : EnvIdx) : Option Kernel := do
  let root ← (k.envs e).envPml4e
  let m ← envFreeVm k.pm root (k.envs e).envCr3
  let k := k.setPm m
  let k := k.setEnv e { k.envs e with
    envPml4e := none, envCr3 := 0, envStatus := .free, envLink := k.envFreeList }
  some (k.setFree (some e))

/-- `env_destroy(e)`; the result is whether it ended in `sched_yield`. -/
def envDestroy (k : Kernel) (curenv : Option EnvIdx) (e : EnvIdx) : Option (Bool × Kernel) :=
  if (k.envs e).envStatus = .running ∧ curenv ≠ some e then
    some (false, k.setEnv e { k.envs e with envStatus := .dying })
  else do
    let k ← envFree k e
    some (curenv = some e, k)

/-- `env_run(e)`, up to the switch to user mode. -/
def envRun (k : Kernel) (curenv : Option EnvIdx) (e : EnvIdx) : Kernel :=
  let k : Kernel := match curenv with
    | none => k
    | some c =>
      if (k.envs c).envStatus = .running then
        k.setEnv c { k.envs c with envStatus := .runnable }
      else k
  k.setEnv e { k.envs e with envStatus := .running, envRuns := (k.envs e).envRuns + 1 }

end Jos
