import Jos.Spec.Run
import Jos.Spec.Trap

/-!
# Several CPUs

`kern/sched.c`, and `trap` and what it calls in `kern/trap.c` and `kern/env.c`, on `n` CPUs.
The big kernel lock lets one CPU at a time into the kernel, so a stay in the kernel is one
step: it begins with a trap, and ends where the CPU is back in user mode or halted. A CPU
that is not in the kernel is in user mode if it has a `cpu_env`, and halted or not yet
started if not.

A function returns `none` where the kernel panics, or stays in the monitor for good. The
state keeps a log of what was done, newest first, for the properties that speak of it.
-/

namespace Jos

/-- `struct CpuInfo`, with the page table that is loaded. -/
structure Cpu where
  cpuEnv : Option EnvIdx
  cr3 : BitVec 64

/-- An entry of the log. -/
inductive Act (n : ℕ)
  /-- `trap` has saved the frame of an environment. -/
  | enter (c : Fin n) (e : EnvIdx)
  /-- `env_run(e)`, with the frame that `env_pop_tf` restores. -/
  | resume (c : Fin n) (e : EnvIdx) (tf : Trapframe)
  /-- `env_alloc` has given out a slot. -/
  | alloc (e : EnvIdx)
  /-- `env_free(e)`, with the `cpu_env` of every CPU at that moment. -/
  | free (c : Fin n) (e : EnvIdx) (cpuEnvs : Fin n → Option EnvIdx)
  /-- `sys_ipc_recv` has blocked its caller. -/
  | recv (e : EnvIdx)
  /-- `sys_ipc_try_send` has returned 0, with the sender's `env_id` and the value. -/
  | sent (src : EnvIdx) (srcId : EnvId) (dst : EnvIdx) (value : BitVec 64)

/-- The kernel with its CPUs. -/
structure Machine (n : ℕ) where
  k : Kernel
  cpus : Fin n → Cpu
  log : List (Act n)

namespace Machine

variable {n : ℕ}

def setK (s : Machine n) (k : Kernel) : Machine n := { s with k := k }

def setCpu (s : Machine n) (c : Fin n) (v : Cpu) : Machine n :=
  { s with cpus := fun i => if i = c then v else s.cpus i }

def addLog (s : Machine n) (as : List (Act n)) : Machine n := { s with log := as ++ s.log }

/-- `curenv` on CPU `c`. -/
def curenv (s : Machine n) (c : Fin n) : Option EnvIdx := (s.cpus c).cpuEnv

def setCurenv (s : Machine n) (c : Fin n) (e : Option EnvIdx) : Machine n :=
  s.setCpu c { s.cpus c with cpuEnv := e }

/-- `lcr3`. -/
def lcr3 (s : Machine n) (c : Fin n) (cr3 : BitVec 64) : Machine n :=
  s.setCpu c { s.cpus c with cr3 := cr3 }

/-- `boot_cr3`. -/
def bootCr3 (s : Machine n) : BitVec 64 := page2pa s.k.pm.bootPml4e

/-- `curenv->env_tf = …`. -/
def setTf (s : Machine n) (e : EnvIdx) (tf : Trapframe) : Machine n :=
  s.setK (s.k.setEnv e { s.k.envs e with envTf := tf })

/-! ## `kern/env.c` on a CPU -/

/-- `env_run(e)`. -/
def envRun (s : Machine n) (c : Fin n) (e : EnvIdx) : Machine n :=
  let s := (s.setK (Jos.envRun s.k (s.curenv c) e)).setCurenv c (some e)
  (s.addLog [.resume c e (s.k.envs e).envTf]).lcr3 c (s.k.envs e).envCr3

/-- `env_free(e)`. -/
def envFree (s : Machine n) (c : Fin n) (e : EnvIdx) : Option (Machine n) := do
  let s := s.addLog [.free c e s.curenv]
  let s := if s.curenv c = some e then s.lcr3 c s.bootCr3 else s
  let k ← Jos.envFree s.k e
  some (s.setK k)

/-- How a function of the kernel ends: it returns, or it never does because the CPU goes to
`sched_yield`, or has left the kernel with `env_run`. -/
inductive Result (n : ℕ) (α : Type)
  | ret (a : α) (s : Machine n)
  | yield (s : Machine n)
  | left (s : Machine n)

def Result.map {α β : Type} (f : α → β) : Result n α → Result n β
  | .ret a s => .ret (f a) s
  | .yield s => .yield s
  | .left s => .left s

/-- `env_destroy(e)`. -/
def envDestroy (s : Machine n) (c : Fin n) (e : EnvIdx) : Option (Result n Unit) :=
  if (s.k.envs e).envStatus = .running ∧ s.curenv c ≠ some e then
    some (.ret () (s.setK (s.k.setEnv e { s.k.envs e with envStatus := .dying })))
  else do
    let s ← s.envFree c e
    if s.curenv c = some e then some (.yield (s.setCurenv c none)) else some (.ret () s)

/-! ## `kern/sched.c` -/

/-- `sched_halt()`: with no environment that can run any more, it stays in the monitor. -/
def schedHalt (s : Machine n) (c : Fin n) : Option (Machine n) :=
  if (List.finRange nenv).any fun i =>
      decide ((s.k.envs i).envStatus = .runnable ∨ (s.k.envs i).envStatus = .running ∨
        (s.k.envs i).envStatus = .dying) then
    some (s.setCpu c { cpuEnv := none, cr3 := s.bootCr3 })
  else none

/-- The slots in the order of the search of `sched_yield`. -/
def ring (index : ℕ) : List EnvIdx :=
  (List.range nenv).map fun j => ⟨(index + j) % nenv, Nat.mod_lt _ (by decide)⟩

/-- `sched_yield()`. -/
def schedYield (s : Machine n) (c : Fin n) : Option (Machine n) :=
  let index := match s.curenv c with
    | some e => (envx (s.k.envs e).envId).val
    | none => 0
  match (ring index).find? fun i => decide ((s.k.envs i).envStatus = .runnable) with
  | some i => some (s.envRun c i)
  | none =>
    match s.curenv c with
    | some e => if (s.k.envs e).envStatus = .running then some (s.envRun c e) else s.schedHalt c
    | none => s.schedHalt c

/-! ## System calls -/

/-- What the log keeps of a call that has returned `r`. -/
def acts (k : Kernel) (cur : EnvIdx) (r : ℤ) : Syscall → List (Act n)
  | .exofork => if 0 ≤ r then k.envFreeList.toList.map .alloc else []
  | .ipcTrySend envid value _ _ =>
    if r = 0 then
      (envid2env k cur envid false).toList.map fun e => .sent cur (k.envs cur).envId e value
    else []
  | .ipcRecv _ => if r = 0 then [.recv cur] else []
  | _ => []

/-- `syscall()`. The calls that destroy an environment do it on this CPU; the others are
those of one CPU. -/
def syscall (s : Machine n) (c : Fin n) (cur : EnvIdx) : Syscall → Option (Result n ℤ)
  | .envDestroy envid =>
    match envid2env s.k cur envid true with
    | none => some (.ret (-eBadEnv) s)
    | some e => do
      let r ← s.envDestroy c e
      some (r.map fun _ => 0)
  | .cputs va len => do
    let pml4e ← (s.k.envs cur).envPml4e
    let (r, m) ← userMemCheck s.k.pm pml4e va len (pteU ||| pteU)
    let s := s.setK (s.k.setPm m)
    match r with
    | none => some (.ret 0 s)
    | some _ => do
      let r ← s.envDestroy c cur
      some (r.map fun _ => 0)
  | call => do
    match ← call.exec s.k cur with
    | .ret r k => some (.ret r ((s.setK k).addLog (acts s.k cur r call)))
    | .resched k => some (.yield (s.setK k))

/-! ## `kern/trap.c` -/

/-- What a trap finds outside memory: the console, and the faulting address in `cr2`. -/
structure Io where
  console : ℤ := 0
  cr2 : VA := 0

/-- `page_fault_handler(tf)`. -/
def pageFaultHandler (s : Machine n) (c : Fin n) (cur : EnvIdx) (tf : Trapframe) (io : Io) :
    Option (Result n Unit) :=
  if (s.k.envs cur).envPgfaultUpcall ≠ 0 then do
    let addr := utfAddr tf.tfRsp
    let pml4e ← (s.k.envs cur).envPml4e
    -- `user_mem_assert(curenv, utf_addr, 1, PTE_W)`
    let (r, m) ← userMemCheck s.k.pm pml4e addr 1 (pteW ||| pteU)
    let s := s.setK (s.k.setPm m)
    match r with
    | some _ => s.envDestroy c cur
    | none => do
      let m ← storeBytes s.k.pm pml4e addr (utfOf tf io.cr2).bytes
      let s := s.setK (s.k.setPm m)
      let s := s.setTf cur { tf with tfRip := (s.k.envs cur).envPgfaultUpcall, tfRsp := addr }
      some (.left (s.envRun c cur))
  else s.envDestroy c cur

/-- `trap_dispatch(tf)`, for a trap from user mode. -/
def trapDispatch (s : Machine n) (c : Fin n) (cur : EnvIdx) (tf : Trapframe) (io : Io) :
    Option (Result n Unit) :=
  if tf.tfTrapno = tPgflt then s.pageFaultHandler c cur tf io
  else if tf.tfTrapno = tBrkpt then some (.ret () s)
  else if tf.tfTrapno = tSyscall then
    let r := tf.tfRegs
    match Syscall.decode io.console r.rax r.rdx r.rcx r.rbx r.rdi r.rsi with
    | none => some (.ret () (s.setTf cur { tf with tfRegs := { r with rax := BitVec.ofInt 64 (-eInval) } }))
    | some call => do
      match ← s.syscall c cur call with
      | .ret x s => some (.ret () (s.setTf cur { tf with tfRegs := { r with rax := BitVec.ofInt 64 x } }))
      | .yield s => some (.yield s)
      | .left s => some (.left s)
  else if tf.tfTrapno = irqOffset + irqSpurious then some (.ret () s)
  else if tf.tfTrapno = irqOffset + irqTimer then some (.yield s)
  else if tf.tfCs = gdKt then none
  else s.envDestroy c cur

/-- `trap(tf)`, for a trap from user mode. -/
def trap (s : Machine n) (c : Fin n) (tf : Trapframe) (io : Io) : Option (Machine n) :=
  match s.curenv c with
  | none => none
  | some cur =>
    if (s.k.envs cur).envStatus = .dying then do
      let s ← s.envFree c cur
      (s.setCurenv c none).schedYield c
    else do
      let s := (s.setTf cur tf).addLog [.enter c cur]
      match ← s.trapDispatch c cur tf io with
      | .yield s => s.schedYield c
      | .left s => some s
      | .ret _ s =>
        match s.curenv c with
        | some cur =>
          if (s.k.envs cur).envStatus = .running then some (s.envRun c cur) else s.schedYield c
        | none => s.schedYield c

/-! ## Steps -/

/-- What can happen next: a CPU without an environment enters the scheduler (at its start,
or when the timer wakes it), a CPU in user mode traps, or its program stores a word. -/
inductive Ev (n : ℕ)
  | sched (c : Fin n)
  | trap (c : Fin n) (tf : Trapframe) (io : Io)
  | store (c : Fin n) (va : VA) (v : BitVec 64)

/-- The state after an event. -/
def step (s : Machine n) : Ev n → Option (Machine n)
  | .sched c => if s.curenv c = none then s.schedYield c else none
  | .trap c tf io => if tf.tfCs &&& 3 = 3 then s.trap c tf io else none
  | .store c va v =>
    if s.curenv c = none then none
    else (storeWord s.k.pm (ppn (s.cpus c).cr3) va v).map fun m => s.setK (s.k.setPm m)

/-- The state after a list of events. -/
def runs (s : Machine n) (evs : List (Ev n)) : Option (Machine n) := evs.foldlM step s

/-- **The states of the runs** from `s₀` whose steps all meet the condition `G`. -/
inductive Reach (G : Machine n → Ev n → Prop) (s₀ : Machine n) : Machine n → Prop
  | init : Reach G s₀ s₀
  | step {s s' : Machine n} {ev : Ev n} : Reach G s₀ s → G s ev → s.step ev = some s' →
    Reach G s₀ s'

/-- All CPUs wait for the scheduler. -/
def start (k : Kernel) : Machine n where
  k := k
  cpus := fun _ => { cpuEnv := none, cr3 := page2pa k.pm.bootPml4e }
  log := []

end Machine

end Jos
