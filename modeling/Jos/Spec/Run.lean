import Jos.Spec.Mmu
import Jos.Spec.Syscall

/-!
# Runs of the kernel

The big kernel lock makes the kernel a state machine: an event is one stay in the kernel
(a system call, a fault, a switch to an environment, a new environment at boot) or one
store by the running environment, and `step` is the state after it, if it can happen and
the kernel does not panic.
-/

namespace Jos

/-- What can happen next. `cur` is the environment that runs on the CPU. -/
inductive Event
  | syscall (cur : EnvIdx) (call : Syscall)
  | trap (cur : EnvIdx) (tf : Trapframe)
  | fault (cur : EnvIdx)
  | reap (cur : EnvIdx)
  | run (curenv : Option EnvIdx) (e : EnvIdx)
  | store (cur : EnvIdx) (va : VA) (v : BitVec 64)
  | create (binary : Binary) (type : EnvType)

/-- The environment may enter the kernel: `trap` frees a dying one before anything else. -/
def Kernel.Enters (k : Kernel) (cur : EnvIdx) : Prop :=
  (k.envs cur).envStatus ≠ .free ∧ (k.envs cur).envStatus ≠ .dying

instance (k : Kernel) (cur : EnvIdx) : Decidable (k.Enters cur) :=
  inferInstanceAs (Decidable (_ ∧ _))

/-- The state after an event. -/
def step (k : Kernel) : Event → Option Kernel
  | .syscall cur call => if k.Enters cur then (call.exec k cur).map Outcome.state else none
  | .trap cur tf =>
    -- `curenv->env_tf = *tf`
    if k.Enters cur then some (k.setEnv cur { k.envs cur with envTf := tf }) else none
  | .fault cur =>
    -- a fault that the environment does not handle
    if k.Enters cur then (envDestroy k (some cur) cur).map (·.2) else none
  | .reap cur => if (k.envs cur).envStatus = .dying then envFree k cur else none
  | .run curenv e => if k.Live e then some (envRun k curenv e) else none
  | .store cur va v =>
    if k.Live cur then do
      let r ← (k.envs cur).envPml4e
      let m ← storeWord k.pm r va v
      some (k.setPm m)
    else none
  | .create binary type => envCreate k binary type

/-- The state after a list of events. -/
def runs (k : Kernel) (evs : List Event) : Option Kernel := evs.foldlM step k

/-- What `va` translates to in environment `e`. -/
def Kernel.translate (k : Kernel) (e : EnvIdx) (va : VA) : Option Translation := do
  let r ← (k.envs e).envPml4e
  Jos.translate k.pm r va

/-- The leaf entry that `va` resolves to in environment `e`. -/
def Kernel.leafEntry (k : Kernel) (e : EnvIdx) (va : VA) : Option PTE := do
  let r ← (k.envs e).envPml4e
  Jos.leafEntry k.pm r va

/-- The entries above the leaf that the walk of `va` meets in environment `e`. -/
def Kernel.tableEntries (k : Kernel) (e : EnvIdx) (va : VA) : List PTE :=
  match (k.envs e).envPml4e with
  | none => []
  | some r => Jos.tableEntries k.pm r va

/-- **The states of the runs** from `k₀` whose steps all meet the condition `G` on the
state before and the event. -/
inductive Reach (G : Kernel → Event → Prop) (k₀ : Kernel) : Kernel → Prop
  | init : Reach G k₀ k₀
  | step {k k' : Kernel} {ev : Event} : Reach G k₀ k → G k ev → step k ev = some k' →
    Reach G k₀ k'

end Jos
