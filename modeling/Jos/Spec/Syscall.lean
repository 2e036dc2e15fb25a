import Jos.Spec.Env

/-!
# System calls

`kern/syscall.c`. A call is made by the environment `cur`, which is `curenv` on its
CPU; the big kernel lock makes each call one step. The result is the return value and
the state after, or `none` where the kernel panics.
-/

namespace Jos

/-- `sys_exofork()`. -/
def sysExofork (k : Kernel) (cur : EnvIdx) : Option (ℤ × Kernel) := do
  let (r, k) ← envAlloc k (k.envs cur).envId
  match r with
  | .error r => some (r, k)
  | .ok e =>
    let tf := (k.envs cur).envTf
    let k := k.setEnv e { k.envs e with
      envStatus := .notRunnable
      envTf := { tf with tfRegs := { tf.tfRegs with rax := 0 } } }
    some ((k.envs e).envId.toInt, k)

/-- `sys_env_set_status(envid, status)`: `ENV_RUNNABLE` is 2, `ENV_NOT_RUNNABLE` 4. -/
def sysEnvSetStatus (k : Kernel) (cur : EnvIdx) (envid : EnvId) (status : BitVec 32) :
    Option (ℤ × Kernel) :=
  if status ≠ 2 ∧ status ≠ 4 then some (-eInval, k)
  else match envid2env k cur envid true with
    | none => some (-eBadEnv, k)
    | some e => some (0, k.setEnv e { k.envs e with
        envStatus := if status = 2 then .runnable else .notRunnable })

/-- `sys_env_set_pgfault_upcall(envid, func)`. -/
def sysEnvSetPgfaultUpcall (k : Kernel) (cur : EnvIdx) (envid : EnvId) (func : VA) :
    Option (ℤ × Kernel) :=
  match envid2env k cur envid true with
  | none => some (-eBadEnv, k)
  | some e => some (0, k.setEnv e { k.envs e with envPgfaultUpcall := func })

/-- `sys_page_alloc(envid, va, perm)`. -/
def sysPageAlloc (k : Kernel) (cur : EnvIdx) (envid : EnvId) (va : VA) (perm : BitVec 32) :
    Option (ℤ × Kernel) :=
  if va ≥ utop ∨ va &&& 0xFFF ≠ 0 then some (-eInval, k)
  else if perm ||| pteSyscall ≠ pteSyscall then some (-eInval, k)
  else match envid2env k cur envid true with
    | none => some (-eBadEnv, k)
    | some e => do
      let (pp, m) ← pageAlloc k.pm true
      match pp with
      | none => some (-eNoMem, k.setPm m)
      | some pp => do
        let pml4e ← (k.envs e).envPml4e
        let (x, m) ← pageInsert m pml4e pp va perm
        if x < 0 then do
          let m ← pageFree m pp
          some (x, k.setPm m)
        else some (0, k.setPm m)

/-- `sys_page_map(srcenvid, srcva, dstenvid, dstva, perm)`. -/
def sysPageMap (k : Kernel) (cur : EnvIdx) (srcenvid : EnvId) (srcva : VA) (dstenvid : EnvId)
    (dstva : VA) (perm : BitVec 32) : Option (ℤ × Kernel) :=
  match envid2env k cur srcenvid true, envid2env k cur dstenvid true with
  | none, _ => some (-eBadEnv, k)
  | some _, none => some (-eBadEnv, k)
  | some src, some dst =>
    if srcva ≥ utop ∨ srcva &&& 0xFFF ≠ 0 then some (-eInval, k)
    else if dstva ≥ utop ∨ dstva &&& 0xFFF ≠ 0 then some (-eInval, k)
    else if perm ||| pteSyscall ≠ pteSyscall then some (-eInval, k)
    else do
      let srcPml4e ← (k.envs src).envPml4e
      let (r, m) ← pageLookup k.pm srcPml4e srcva
      match r with
      | none => some (-eInval, k.setPm m)
      | some (pp, pte) =>
        if !flag (m.mem pte.page pte.ix) pteW && flag perm pteW then some (-eInval, k.setPm m)
        else do
          let dstPml4e ← (k.envs dst).envPml4e
          let (x, m) ← pageInsert m dstPml4e pp dstva perm
          some (if x < 0 then x else 0, k.setPm m)

/-- `sys_page_unmap(envid, va)`. -/
def sysPageUnmap (k : Kernel) (cur : EnvIdx) (envid : EnvId) (va : VA) : Option (ℤ × Kernel) :=
  match envid2env k cur envid true with
  | none => some (-eBadEnv, k)
  | some e =>
    if va ≥ utop ∨ va &&& 0xFFF ≠ 0 then some (-eInval, k)
    else do
      let pml4e ← (k.envs e).envPml4e
      let m ← pageRemove k.pm pml4e va
      some (0, k.setPm m)

/-- The stores with which `sys_ipc_try_send` ends: the receiver's `ipc` fields and its
status. -/
def ipcDeliver (k : Kernel) (cur e : EnvIdx) (value : BitVec 64) (perm : BitVec 32) : Kernel :=
  k.setEnv e { k.envs e with
    envIpcPerm := perm
    envIpcRecving := false
    envIpcFrom := (k.envs cur).envId
    envIpcValue := value.setWidth 32
    envStatus := .runnable }

/-- `sys_ipc_try_send(envid, value, srcva, perm)`. -/
def sysIpcTrySend (k : Kernel) (cur : EnvIdx) (envid : EnvId) (value : BitVec 64) (srcva : VA)
    (perm : BitVec 32) : Option (ℤ × Kernel) :=
  match envid2env k cur envid false with
  | none => some (-eBadEnv, k)
  | some e =>
    if (k.envs e).envIpcRecving = false then some (-eIpcNotRecv, k)
    else if srcva < utop then
      if pgoff srcva ≠ 0 then some (-eInval, k)
      else if perm &&& (pteU ||| pteP) ≠ pteU ||| pteP then some (-eInval, k)
      else if perm &&& ~~~pteSyscall ≠ 0 then some (-eInval, k)
      else do
        let srcPml4e ← (k.envs cur).envPml4e
        let (r, m) ← pageLookup k.pm srcPml4e srcva
        match r with
        | none => some (-eInval, k.setPm m)
        | some (pp, pte) =>
          if !flag (m.mem pte.page pte.ix) pteW && flag perm pteW then some (-eInval, k.setPm m)
          else do
            let dstPml4e ← (k.envs e).envPml4e
            let (r, m) ← pageInsert m dstPml4e pp (k.envs e).envIpcDstva perm
            if r ≠ 0 then some (r, k.setPm m)
            else some (0, ipcDeliver (k.setPm m) cur e value perm)
    else some (0, ipcDeliver k cur e value 0)

/-- `sys_ipc_recv(dstva)`. -/
def sysIpcRecv (k : Kernel) (cur : EnvIdx) (dstva : VA) : Option (ℤ × Kernel) :=
  if dstva < utop ∧ pgoff dstva ≠ 0 then some (-eInval, k)
  else some (0, k.setEnv cur { k.envs cur with
    envIpcRecving := true, envIpcDstva := dstva, envStatus := .notRunnable })

/-- How a call ends: it returns to the caller, or the CPU goes to `sched_yield` and the
call never returns. -/
inductive Outcome
  | ret (r : ℤ) (k : Kernel)
  | resched (k : Kernel)

/-- The state that a call leaves. -/
def Outcome.state : Outcome → Kernel
  | .ret _ k => k
  | .resched k => k

/-- `sys_env_destroy(envid)`. -/
def sysEnvDestroy (k : Kernel) (cur : EnvIdx) (envid : EnvId) : Option Outcome :=
  match envid2env k cur envid true with
  | none => some (.ret (-eBadEnv) k)
  | some e => do
    let (gone, k) ← envDestroy k (some cur) e
    some (if gone then .resched k else .ret 0 k)

/-- `sys_cputs(s, len)`; what is printed is not part of the state. -/
def sysCputs (k : Kernel) (cur : EnvIdx) (s len : VA) : Option Outcome := do
  let pml4e ← (k.envs cur).envPml4e
  -- `user_mem_assert(curenv, s, len, PTE_U)`
  let (r, m) ← userMemCheck k.pm pml4e s len (pteU ||| pteU)
  match r with
  | none => some (.ret 0 (k.setPm m))
  | some _ => do
    let (_, k) ← envDestroy (k.setPm m) (some cur) cur
    some (.resched k)

/-- A system call with its arguments. `cgetc` carries what the console has ready. -/
inductive Syscall
  | cputs (s len : VA)
  | cgetc (c : ℤ)
  | getenvid
  | envDestroy (envid : EnvId)
  | pageAlloc (envid : EnvId) (va : VA) (perm : BitVec 32)
  | pageMap (srcenvid : EnvId) (srcva : VA) (dstenvid : EnvId) (dstva : VA) (perm : BitVec 32)
  | pageUnmap (envid : EnvId) (va : VA)
  | exofork
  | envSetStatus (envid : EnvId) (status : BitVec 32)
  | envSetPgfaultUpcall (envid : EnvId) (func : VA)
  | yield
  | ipcTrySend (envid : EnvId) (value : BitVec 64) (srcva : VA) (perm : BitVec 32)
  | ipcRecv (dstva : VA)

/-- A call that always returns. -/
def returning (r : Option (ℤ × Kernel)) : Option Outcome := r.map fun (r, k) => .ret r k

/-- The cases of the `switch` in `syscall()`. -/
def Syscall.exec (k : Kernel) (cur : EnvIdx) : Syscall → Option Outcome
  | .cputs s len => sysCputs k cur s len
  | .cgetc c => some (.ret c k)
  | .getenvid => some (.ret (k.envs cur).envId.toInt k)
  | .envDestroy envid => sysEnvDestroy k cur envid
  | .pageAlloc envid va perm => returning (sysPageAlloc k cur envid va perm)
  | .pageMap srcenvid srcva dstenvid dstva perm =>
    returning (sysPageMap k cur srcenvid srcva dstenvid dstva perm)
  | .pageUnmap envid va => returning (sysPageUnmap k cur envid va)
  | .exofork => returning (sysExofork k cur)
  | .envSetStatus envid status => returning (sysEnvSetStatus k cur envid status)
  | .envSetPgfaultUpcall envid func => returning (sysEnvSetPgfaultUpcall k cur envid func)
  | .yield => some (.resched k)
  | .ipcTrySend envid value srcva perm => returning (sysIpcTrySend k cur envid value srcva perm)
  | .ipcRecv dstva => returning (sysIpcRecv k cur dstva)

/-- The call that the registers of a trap name (`inc/syscall.h`), with the conversions
of its arguments. -/
def Syscall.decode (console : ℤ) (no a1 a2 a3 a4 a5 : BitVec 64) : Option Syscall :=
  match no.toNat with
  | 0 => some (.cputs a1 a2)
  | 1 => some (.cgetc console)
  | 2 => some .getenvid
  | 3 => some (.envDestroy (a1.setWidth 32))
  | 4 => some (.pageAlloc (a1.setWidth 32) a2 (a3.setWidth 32))
  | 5 => some (.pageMap (a1.setWidth 32) a2 (a3.setWidth 32) a4 (a5.setWidth 32))
  | 6 => some (.pageUnmap (a1.setWidth 32) a2)
  | 7 => some .exofork
  | 8 => some (.envSetStatus (a1.setWidth 32) (a2.setWidth 32))
  | 10 => some (.envSetPgfaultUpcall (a1.setWidth 32) a2)
  | 11 => some .yield
  | 12 => some (.ipcTrySend (a1.setWidth 32) a2 a3 (a4.setWidth 32))
  | 13 => some (.ipcRecv a1)
  | _ => none

/-- `syscall(syscallno, a1, a2, a3, a4, a5)`. -/
def syscall (k : Kernel) (cur : EnvIdx) (console : ℤ) (no a1 a2 a3 a4 a5 : BitVec 64) :
    Option Outcome :=
  match Syscall.decode console no a1 a2 a3 a4 a5 with
  | some call => call.exec k cur
  | none => some (.ret (-eInval) k)

end Jos
