import Jos.Lib.Prog
import Jos.Spec.Smp

/-!
# The big kernel lock

`spin_lock` and `spin_unlock` of `kern/spinlock.c`, and all ways through the kernel from where a
CPU enters it to where it leaves it: `i386_init`, `boot_aps` and `mp_main` of `kern/init.c`,
and `trap` with what it calls in `kern/trap.c`, `kern/syscall.c`, `kern/env.c` and
`kern/sched.c`, on any set `K` of CPUs. A step is one access of a CPU to what the CPUs share;
`work` stands for what the kernel does with other data, and may change any `env_status`.

A function that may not return takes what follows it in the caller as an argument.
-/

namespace Jos.Lock

open Lib

variable {K : Type}

/-- `cpu_status`. -/
inductive CpuStatus
  | unused
  | started
  | halted
  deriving DecidableEq

/-- The panics of `spin_lock` and `spin_unlock`, and the others. -/
inductive Panic
  | acquire
  | release
  | other

/-- How a CPU leaves the kernel. -/
inductive Exit
  | user
  | halt

/-! ## Kernel code -/

/-- What kernel code does. -/
inductive Call (K : Type)
  /-- `kernel_lock.locked` -/
  | locked
  /-- `kernel_lock.cpu == thiscpu` -/
  | cpuIsThis
  /-- `while (xchg(&kernel_lock.locked, 1) != 0)` -/
  | acquire
  /-- `kernel_lock.cpu = thiscpu` -/
  | setCpu
  /-- `kernel_lock.cpu = 0` -/
  | clearCpu
  /-- `xchg(&kernel_lock.locked, 0)` -/
  | release
  /-- `xchg(&thiscpu->cpu_status, v)` -/
  | xchgStatus (v : CpuStatus)
  /-- `lapic_startap(c->cpu_id, code)` -/
  | startap (c : K)
  /-- `while (c->cpu_status != CPU_STARTED)` -/
  | waitStarted (c : K)
  /-- `curenv` -/
  | curenv
  | setCurenv (e : Option EnvIdx)
  /-- `envs[e].env_status` -/
  | envStatus (e : EnvIdx)
  | setEnvStatus (e : EnvIdx) (status : EnvStatus)
  /-- `ENVX(envs[e].env_id)` -/
  | envx (e : EnvIdx)
  /-- `envid2env` -/
  | envid2env (envid : EnvId)
  /-- anything else, with a result to branch on -/
  | work
  /-- `while (1) monitor(NULL)` -/
  | monitor
  | panic (p : Panic)

def Call.Result : Call K → Type
  | .locked | .cpuIsThis | .work => Bool
  | .xchgStatus _ => CpuStatus
  | .curenv | .envid2env _ => Option EnvIdx
  | .envStatus _ => EnvStatus
  | .envx _ => EnvIdx
  | .monitor | .panic _ => Empty
  | _ => Unit

/-- Kernel code with a result; what leaves the kernel is `Kern K Exit`. -/
abbrev Kern (K : Type) := Prog (Call K) Call.Result

def locked : Kern K Bool := Prog.perform Call.locked

def cpuIsThis : Kern K Bool := Prog.perform Call.cpuIsThis

def acquire : Kern K Unit := Prog.perform Call.acquire

def setCpu : Kern K Unit := Prog.perform Call.setCpu

def clearCpu : Kern K Unit := Prog.perform Call.clearCpu

def release : Kern K Unit := Prog.perform Call.release

def startap (c : K) : Kern K Unit := Prog.perform (Call.startap c)

def waitStarted (c : K) : Kern K Unit := Prog.perform (Call.waitStarted c)

def curenv : Kern K (Option EnvIdx) := Prog.perform Call.curenv

def setCurenv (e : Option EnvIdx) : Kern K Unit := Prog.perform (Call.setCurenv e)

def envStatus (e : EnvIdx) : Kern K EnvStatus := Prog.perform (Call.envStatus e)

def setEnvStatus (e : EnvIdx) (status : EnvStatus) : Kern K Unit := Prog.perform (Call.setEnvStatus e status)

def envx (e : EnvIdx) : Kern K EnvIdx := Prog.perform (Call.envx e)

def envid2env (envid : EnvId) : Kern K (Option EnvIdx) := Prog.perform (Call.envid2env envid)

def work : Kern K Bool := Prog.perform Call.work

def xchgStatus (v : CpuStatus) : Kern K CpuStatus := Prog.perform (Call.xchgStatus v)

def panic {α : Type} (p : Panic) : Kern K α := Prog.call (Call.panic p) nofun

/-- `curenv`, where the code goes on only if it is not null. -/
def thisEnv (k : EnvIdx → Kern K Exit) : Kern K Exit := do
  match ← curenv with
  | none => panic .other
  | some e => k e

/-! ## `kern/spinlock.c` -/

/-- `holding(&kernel_lock)`. -/
def holding : Kern K Bool := do
  if ← locked then cpuIsThis else return false

/-- `spin_lock(&kernel_lock)`. -/
def lockKernel : Kern K Unit := do
  if ← holding then panic .acquire
  else
    acquire
    setCpu

/-- `spin_unlock(&kernel_lock)`. -/
def unlockKernel : Kern K Unit := do
  if ← holding then
    clearCpu
    release
  else panic .release

/-! ## Leaving the kernel -/

/-- `env_run(e)`. -/
def envRun (e : EnvIdx) : Kern K Exit := do
  if let some cur ← curenv then
    if (← envStatus cur) = .running then setEnvStatus cur .runnable
  setCurenv (some e)
  setEnvStatus e .running
  unlockKernel
  -- `lcr3(curenv->env_cr3)` and `env_pop_tf`
  let _ ← curenv
  return .user

/-- Whether a slot is left that can run some time, in the loop of `sched_halt`. -/
def anyLeft : List EnvIdx → Kern K Bool
  | [] => return false
  | e :: es => do
    let status ← envStatus e
    if status = .runnable ∨ status = .running ∨ status = .dying then return true else anyLeft es

/-- `sched_halt()`. -/
@[irreducible] def schedHalt : Kern K Exit := do
  if ← anyLeft (List.finRange nenv) then
    setCurenv none
    let _ ← xchgStatus .halted
    unlockKernel
    return .halt
  else Prog.call Call.monitor nofun

/-- The loop of `sched_yield` over the slots that are left. -/
@[irreducible] def search (es : List EnvIdx) (k : Kern K Exit) : Kern K Exit :=
  es.foldr (fun e k => do if (← envStatus e) = .runnable then envRun e else k) k

/-- The end of `sched_yield`, where no environment is runnable. -/
def runCurenv : Kern K Exit := do
  if let some e ← curenv then
    if (← envStatus e) = .running then envRun e else schedHalt
  else schedHalt

/-- `sched_yield()`. -/
@[irreducible] def schedYield : Kern K Exit := do
  let cur ← curenv
  let index ← match cur with
    | some e => envx e
    | none => pure (0 : EnvIdx)
  search (Machine.ring index) runCurenv

/-! ## Functions that may leave the kernel -/

/-- `env_destroy(e)`. -/
def envDestroy (e : EnvIdx) (k : Kern K Exit) : Kern K Exit := do
  let status ← envStatus e
  let cur ← curenv
  if status = .running ∧ cur ≠ some e then
    setEnvStatus e .dying
    k
  else
    -- `env_free(e)`
    let _ ← work
    if (← curenv) = some e then
      setCurenv none
      schedYield
    else k

/-- `user_mem_assert(env, va, len, perm)`. -/
def userMemAssert (e : EnvIdx) (k : Kern K Exit) : Kern K Exit := do
  if ← work then k else envDestroy e k

/-- `syscall()`, for the registers of a trap frame. -/
def syscall (tf : Trapframe) (k : Kern K Exit) : Kern K Exit :=
  let r := tf.tfRegs
  match Syscall.decode 0 r.rax r.rdx r.rcx r.rbx r.rdi r.rsi with
  | some (.cputs _ _) => thisEnv fun cur => userMemAssert cur do let _ ← work; k
  | some (.envDestroy envid) => do
    match ← envid2env envid with
    | none => k
    | some e => envDestroy e k
  | some .yield => schedYield
  | _ => do
    let _ ← work
    k

/-- `page_fault_handler(tf)`. -/
def pageFaultHandler (tf : Trapframe) (k : Kern K Exit) : Kern K Exit :=
  if tf.tfCs &&& 3 ≠ 3 then panic .other
  else thisEnv fun cur => do
    -- `curenv->env_pgfault_upcall`
    if ← work then userMemAssert cur do let _ ← work; thisEnv envRun else envDestroy cur k

/-- `trap_dispatch(tf)`. -/
def trapDispatch (tf : Trapframe) (k : Kern K Exit) : Kern K Exit :=
  if tf.tfTrapno = tPgflt then pageFaultHandler tf k
  else if tf.tfTrapno = tBrkpt then do
    -- `monitor(tf)`
    let _ ← work
    k
  else if tf.tfTrapno = tSyscall then syscall tf k
  else if tf.tfTrapno = irqOffset + irqSpurious then k
  else if tf.tfTrapno = irqOffset + irqTimer then schedYield
  else if tf.tfCs = gdKt then panic .other
  else thisEnv fun cur => envDestroy cur k

/-- The end of `trap`. -/
def trapEnd : Kern K Exit := do
  if let some cur ← curenv then
    if (← envStatus cur) = .running then envRun cur else schedYield
  else schedYield

/-- `trap(tf)`, once the lock is taken for a halted CPU. -/
def trapFrom (tf : Trapframe) : Kern K Exit :=
  if tf.tfCs &&& 3 = 3 then do
    lockKernel
    thisEnv fun cur => do
      if (← envStatus cur) = .dying then
        -- `env_free(curenv)`
        let _ ← work
        setCurenv none
        schedYield
      else
        -- `curenv->env_tf = *tf`
        let _ ← work
        trapDispatch tf trapEnd
  else trapDispatch tf trapEnd

/-- `trap(tf)`. -/
def trap (tf : Trapframe) : Kern K Exit := do
  if (← xchgStatus .started) = .halted then
    lockKernel
    trapFrom tf
  else trapFrom tf

/-! ## `kern/init.c` -/

/-- `mp_main()`. -/
def mpMain : Kern K Exit := do
  let _ ← xchgStatus .started
  lockKernel
  schedYield

/-- `boot_aps()`. -/
def bootAps [DecidableEq K] (this : K) (cpus : List K) : Kern K Unit := cpus.forM fun c => do
  if c = this then return
  else
    startap c
    waitStarted c

/-- `i386_init()`, from `bootcpu->cpu_status = CPU_STARTED` in `mp_init` on. -/
def i386Init [DecidableEq K] (this : K) (cpus : List K) : Kern K Exit := do
  let _ ← xchgStatus .started
  lockKernel
  bootAps this cpus
  -- `ENV_CREATE`
  let _ ← work
  schedYield

/-! ## The machine -/

/-- Where a CPU is. -/
inductive Pc (K : Type)
  | off
  | kernel (p : Kern K Exit)
  | user
  | halted

/-- What the CPUs share, and where each is. `inside` is no field of the kernel: a CPU is inside
from its `xchg` that has found the lock free to the one that frees it. -/
structure Smp (K : Type) where
  locked : Bool
  cpu : Option K
  status : K → CpuStatus
  cpuEnv : K → Option EnvIdx
  envStatus : EnvIdx → EnvStatus
  pc : K → Pc K
  inside : K → Bool

namespace Smp

variable [DecidableEq K]

def setPc (σ : Smp K) (c : K) (pc : Pc K) : Smp K := { σ with pc := Function.update σ.pc c pc }

/-- What CPU `c` does, with its result. There is nothing to do while it spins or waits, nor
after a panic. -/
def Exec (σ : Smp K) (c : K) : (a : Call K) → a.Result → Smp K → Prop
  | .locked, r, σ' => r = σ.locked ∧ σ' = σ
  | .cpuIsThis, r, σ' => r = decide (σ.cpu = some c) ∧ σ' = σ
  | .acquire, _, σ' =>
    σ.locked = false ∧ σ' = { σ with locked := true, inside := Function.update σ.inside c true }
  | .setCpu, _, σ' => σ' = { σ with cpu := some c }
  | .clearCpu, _, σ' => σ' = { σ with cpu := none }
  | .release, _, σ' => σ' = { σ with locked := false, inside := Function.update σ.inside c false }
  | .xchgStatus v, r, σ' => r = σ.status c ∧ σ' = { σ with status := Function.update σ.status c v }
  | .startap d, _, σ' => σ.pc d = .off ∧ σ' = σ.setPc d (.kernel mpMain)
  | .waitStarted d, _, σ' => σ.status d = .started ∧ σ' = σ
  | .curenv, r, σ' => r = σ.cpuEnv c ∧ σ' = σ
  | .setCurenv e, _, σ' => σ' = { σ with cpuEnv := Function.update σ.cpuEnv c e }
  | .envStatus e, r, σ' => r = σ.envStatus e ∧ σ' = σ
  | .setEnvStatus e status, _, σ' => σ' = { σ with envStatus := Function.update σ.envStatus e status }
  | .envx _, _, σ' => σ' = σ
  | .envid2env _, _, σ' => σ' = σ
  | .work, _, σ' => ∃ st, σ' = { σ with envStatus := st }
  | .monitor, r, _ => r.elim
  | .panic _, r, _ => r.elim

/-- A step of CPU `c`. -/
inductive Step (c : K) : Smp K → Smp K → Prop
  /-- kernel code -/
  | call {σ σ' : Smp K} {a : Call K} {k : a.Result → Kern K Exit} {r : a.Result} :
      σ.pc c = .kernel (.call a k) → σ.Exec c a r σ' → Step c σ (σ'.setPc c (.kernel (k r)))
  /-- `iretq` -/
  | iret {σ : Smp K} : σ.pc c = .kernel (.ret .user) → Step c σ (σ.setPc c .user)
  /-- `sti; hlt` -/
  | hlt {σ : Smp K} : σ.pc c = .kernel (.ret .halt) → Step c σ (σ.setPc c .halted)
  /-- a trap from user mode -/
  | trap {σ : Smp K} {tf : Trapframe} : σ.pc c = .user → tf.tfCs &&& 3 = 3 →
      Step c σ (σ.setPc c (.kernel (trap tf)))
  /-- an interrupt that wakes the CPU -/
  | wake {σ : Smp K} {tf : Trapframe} : σ.pc c = .halted → tf.tfCs = gdKt →
      Step c σ (σ.setPc c (.kernel (trap tf)))

/-- Any interleaving. -/
abbrev Run : Smp K → Smp K → Prop := Relation.ReflTransGen fun σ σ' => ∃ c, Step c σ σ'

/-- The boot CPU starts, with the list of all CPUs in `cpus`. -/
def boot (this : K) (cpus : List K) : Smp K where
  locked := false
  cpu := none
  status _ := .unused
  cpuEnv _ := none
  envStatus _ := .free
  pc := Function.update (fun _ => .off) this (.kernel (i386Init this cpus))
  inside _ := false

end Smp

end Jos.Lock
