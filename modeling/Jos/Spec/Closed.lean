import Jos.Spec.Fd

/-!
# Testing whether a pipe is closed

`_pipeisclosed` of `lib/pipe.c`, one read at a time, where `pipeisclosed`, `devpipe_read` and
`devpipe_write` call it, with the processes on any number of CPUs: a process takes steps while
it is in user mode on some CPU, and `env_run` counts in `env_runs` how often it has been put
there. `env_runs` is assumed not to wrap.
-/

namespace Jos.Fd

/-- Who calls `_pipeisclosed`: `pipeisclosed`, or a loop that has moved `i` of `n` bytes. -/
inductive Use
  | isClosed
  | read (n i : ℕ)
  | write (n i : ℕ)

/-- Where a process is, with its descriptor. -/
inductive Phase
  /-- in none of these functions -/
  | out
  /-- at the test of the loop of `devpipe_read` or `devpipe_write` -/
  | io (u : Use) (fd : Fin 32)
  /-- at the head of the loop of `_pipeisclosed` -/
  | top (u : Use) (fd : Fin 32)
  /-- `n` is read -/
  | counted (u : Use) (fd : Fin 32) (n : ℕ)
  /-- and `pageref(fd)`, which is `r` -/
  | readFd (u : Use) (fd : Fin 32) (n r : ℕ)
  /-- and `pageref(p)`, which is `r` -/
  | readData (u : Use) (fd : Fin 32) (n r : ℕ)
  /-- both are read -/
  | compared (u : Use) (fd : Fin 32) (n : ℕ) (ret : Bool)
  /-- the function has returned `r` -/
  | returned (u : Use) (fd : Fin 32) (r : ℕ)

/-- The processes, the one in user mode on each CPU, how often each has been run, and where
each is. -/
structure Smp (K : Type) where
  world : World
  cpuEnv : K → Option EnvIdx
  envRuns : EnvIdx → ℕ
  phase : EnvIdx → Phase

namespace Smp

variable {K : Type}

/-- `pageref(v)`. -/
def pageref (w : World) (e : EnvIdx) (va : Va) : ℕ :=
  match w.table e va with
  | none => 0
  | some pte => (w.ppRef pte.page).toNat

/-- What follows in the caller when `_pipeisclosed` returns `ret`. -/
def back (fd : Fin 32) (ret : Bool) : Use → Phase
  | .isClosed => .returned .isClosed fd ret.toNat
  | u => if ret then .returned u fd 0 else .io u fd

/-- The next step of process `e`. The two calls of `pageref` are made in either order, and there
is something to do for `devpipe_read` or `devpipe_write` or not: `b` decides. -/
def next (σ : Smp K) (e : EnvIdx) (b : Bool) : Phase → Phase
  | .out => .out
  | .io .isClosed _ => .out
  | .io (.read n i) fd =>
    if i < n then
      if b then .io (.read n (i + 1)) fd
      else if 0 < i then .returned (.read n i) fd i else .top (.read n i) fd
    else .returned (.read n i) fd i
  | .io (.write n i) fd =>
    if i < n then if b then .io (.write n (i + 1)) fd else .top (.write n i) fd
    else .returned (.write n i) fd i
  | .top u fd => .counted u fd (σ.envRuns e)
  | .counted u fd n =>
    if b then .readFd u fd n (pageref σ.world e (index2fd fd))
    else .readData u fd n (pageref σ.world e (index2data fd))
  | .readFd u fd n r => .compared u fd n (r == pageref σ.world e (index2data fd))
  | .readData u fd n r => .compared u fd n (pageref σ.world e (index2fd fd) == r)
  | .compared u fd n ret => if n = σ.envRuns e then back fd ret u else .top u fd
  | .returned _ _ _ => .out

/-- `fd_lookup` and `dev_lookup` succeed: a call begins. -/
def first (fd : Fin 32) : Use → Phase
  | .isClosed => .top .isClosed fd
  | u => .io u fd

def setPhase (σ : Smp K) (e : EnvIdx) (ph : Phase) : Smp K :=
  { σ with phase := Function.update σ.phase e ph }

/-- Process `e` is in user mode on some CPU. -/
def Current (σ : Smp K) (e : EnvIdx) : Prop := ∃ k, σ.cpuEnv k = some e

/-- A step of the system. A step of the processes needs the condition `D` on the state before it
and the tables after it. -/
inductive Step [DecidableEq K] (P : Pipe) (C : World → EnvIdx → World.Choice → Prop)
    (D : Smp K → World → Prop) : Smp K → Smp K → Prop
  /-- a process that is in none of the functions takes a step on its CPU -/
  | act {σ : Smp K} {e : EnvIdx} {w : World} : σ.Current e → σ.phase e = .out →
      World.Act P C e σ.world w → D σ w → Step P C D σ { σ with world := w }
  /-- a process calls one of the functions on an open descriptor -/
  | call {σ : Smp K} {e : EnvIdx} {fd : Fin 32} (u : Use) : σ.Current e → σ.phase e = .out →
      σ.world.Idle e → (σ.world.table e (index2fd fd)).isSome → Step P C D σ (σ.setPhase e (first fd u))
  /-- a process is in one of the functions -/
  | user {σ : Smp K} {e : EnvIdx} (b : Bool) : σ.Current e → Step P C D σ (σ.setPhase e (σ.next e b (σ.phase e)))
  /-- a CPU enters the kernel -/
  | trap {σ : Smp K} (k : K) : Step P C D σ { σ with cpuEnv := Function.update σ.cpuEnv k none }
  /-- a CPU leaves the kernel, for a process that no other CPU runs -/
  | envRun {σ : Smp K} {k : K} {e : EnvIdx} {v : User Unit} : σ.cpuEnv k = none → ¬ σ.Current e →
      σ.world.run e = .running v →
      Step P C D σ { σ with
        cpuEnv := Function.update σ.cpuEnv k (some e), envRuns := Function.update σ.envRuns e (σ.envRuns e + 1) }

/-- Any interleaving. -/
abbrev Run [DecidableEq K] (P : Pipe) (C : World → EnvIdx → World.Choice → Prop) (D : Smp K → World → Prop) :
    Smp K → Smp K → Prop :=
  Relation.ReflTransGen (Step P C D)

/-- Before the pipe: no process is in one of the functions. -/
structure Boot (P : Pipe) (σ : Smp K) : Prop where
  world : World.Boot P σ.world
  phase : ∀ e, σ.phase e = .out

/-- The function that process `e` is in has returned that the other end of the pipe at `fd` is
closed: `pipeisclosed` has returned true, or `devpipe_read` or `devpipe_write` has returned 0
when there was a byte to move. -/
def ReportsClosed (σ : Smp K) (e : EnvIdx) (fd : Fin 32) : Prop :=
  σ.phase e = .returned .isClosed fd 1 ∨
    ∃ n i, 0 < n ∧ (σ.phase e = .returned (.read n i) fd 0 ∨ σ.phase e = .returned (.write n i) fd 0)

end Smp

/-- **No process has the other end open**, where descriptor `fd` of process `e` is one end. -/
def PeerClosed (P : Pipe) (w : World) (e : EnvIdx) (fd : Fin 32) : Prop :=
  (w.page e (index2fd fd) = some P.r → ∀ e' va, w.page e' va ≠ some P.w) ∧
    (w.page e (index2fd fd) = some P.w → ∀ e' va, w.page e' va ≠ some P.r)

end Jos.Fd
