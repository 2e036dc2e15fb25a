import Jos.Spec.Lock

/-!
# The discipline of the big kernel lock

A CPU takes and frees the lock in different functions, and what it knows of the lock is its own:
whether it is inside, whether `kernel_lock.cpu` names it, and its `cpu_status`. From an entry
with the lock not taken, every way through the kernel takes it once before it touches an
environment, and leaves with the lock free (`trap_leaves`, `mpMain_leaves`, `i386Init_leaves`).
So at most one CPU is inside, and `holding` tells the truth (`lock_discipline`).
-/

namespace Jos.Lock

open Lib Prog

variable {K : Type} {e : EnvIdx} {k : Kern K Exit} {st : CpuStatus} {tf : Trapframe}

/-! ## What a CPU knows -/

/-- Whether the CPU is inside, whether `kernel_lock.cpu` names it, and its `cpu_status`. -/
structure Local where
  inside : Bool
  mine : Bool
  status : CpuStatus

/-- The lock is not taken. -/
def out (st : CpuStatus) : Local := ⟨false, false, st⟩

/-- The lock is taken. -/
def held (st : CpuStatus) : Local := ⟨true, true, st⟩

def LocalExec : (a : Call K) → Local → a.Result → Local → Prop
  | .locked, l, r, l' => (l.inside = true → r = true) ∧ l' = l
  | .cpuIsThis, l, r, l' => r = l.mine ∧ l' = l
  | .acquire, l, _, l' => l' = { l with inside := true }
  | .setCpu, l, _, l' => l' = { l with mine := true }
  | .clearCpu, l, _, l' => l' = { l with mine := false }
  | .release, l, _, l' => l' = { l with inside := false }
  | .xchgStatus v, l, r, l' => r = l.status ∧ l' = { l with status := v }
  | _, l, _, l' => l' = l

/-- What is done with environments is done inside. -/
def Data : Call K → Prop
  | .setCurenv _ | .envStatus _ | .setEnvStatus _ _ | .envx _ | .envid2env _ | .work | .monitor => True
  | _ => False

/-- What holds before a call: the lock is taken only by a CPU that is not inside, and freed only
by one that is. -/
def LocalInv (a : Call K) (l : Local) : Prop :=
  (a = .acquire → l.inside = false) ∧ (a = .setCpu ∨ a = .clearCpu → l.inside = true) ∧
    (a = .release → l.inside = true ∧ l.mine = false) ∧ (Data a → l.inside = true) ∧
    a ≠ .panic .acquire ∧ a ≠ .panic .release

/-- What holds where the CPU leaves the kernel. -/
def Left : Exit → Local → Prop
  | .user, l => l = out .started
  | .halt, l => l = out .halted

abbrev Wp {α : Type} (p : Kern K α) (Q : α → Local → Prop) (l : Local) : Prop := p.wp LocalInv LocalExec Q l

/-- The code leaves the kernel as it should. -/
abbrev Leaves (p : Kern K Exit) (l : Local) : Prop := Wp p Left l

section Calls

variable {α : Type} {Q : α → Local → Prop}

/-- What is done inside. -/
theorem data_wp {a : Call K} {f : a.Result → Kern K α} (ha : Data a) (h : ∀ r, Wp (f r) Q (held st)) :
    Wp (.call a f) Q (held st) := by
  refine ⟨⟨?_, fun _ => rfl, ?_, fun _ => rfl, ?_, ?_⟩, fun r l' hx => ?_⟩
  · rintro rfl
    exact ha.elim
  · rintro rfl
    exact ha.elim
  · rintro rfl
    exact ha.elim
  · rintro rfl
    exact ha.elim
  · cases a <;> first | exact ha.elim | (obtain rfl := hx; exact h r)

theorem envStatus_wp {f : EnvStatus → Kern K α} (h : ∀ r, Wp (f r) Q (held st)) :
    Wp (envStatus e >>= f) Q (held st) := data_wp trivial h

theorem setEnvStatus_wp {v : EnvStatus} {f : Unit → Kern K α} (h : Wp (f ()) Q (held st)) :
    Wp (setEnvStatus e v >>= f) Q (held st) := data_wp trivial fun _ => h

theorem setCurenv_wp {v : Option EnvIdx} {f : Unit → Kern K α} (h : Wp (f ()) Q (held st)) :
    Wp (setCurenv v >>= f) Q (held st) := data_wp trivial fun _ => h

theorem envx_wp {f : EnvIdx → Kern K α} (h : ∀ r, Wp (f r) Q (held st)) : Wp (envx e >>= f) Q (held st) :=
  data_wp trivial h

theorem envid2env_wp {envid : EnvId} {f : Option EnvIdx → Kern K α} (h : ∀ r, Wp (f r) Q (held st)) :
    Wp (envid2env envid >>= f) Q (held st) := data_wp trivial h

theorem work_wp {f : Bool → Kern K α} (h : ∀ r, Wp (f r) Q (held st)) : Wp (work >>= f) Q (held st) :=
  data_wp trivial h

theorem curenv_wp {l : Local} {f : Option EnvIdx → Kern K α} (h : ∀ r, Wp (f r) Q l) : Wp (curenv >>= f) Q l := by
  refine ⟨⟨nofun, ?_, nofun, nofun, nofun, nofun⟩, fun r l' hx => ?_⟩
  · rintro (h1 | h1) <;> cases h1
  · obtain rfl := hx
    exact h r

theorem xchgStatus_wp {l : Local} {v : CpuStatus} {f : CpuStatus → Kern K α}
    (h : Wp (f l.status) Q { l with status := v }) : Wp (xchgStatus v >>= f) Q l := by
  refine ⟨⟨nofun, ?_, nofun, nofun, nofun, nofun⟩, fun r l' hx => ?_⟩
  · rintro (h1 | h1) <;> cases h1
  · obtain ⟨rfl, rfl⟩ := hx
    exact h

theorem panic_wp {l : Local} : Wp (panic .other : Kern K α) Q l := by
  refine ⟨⟨nofun, ?_, nofun, nofun, nofun, nofun⟩, fun r _ _ => r.elim⟩
  rintro (h1 | h1) <;> cases h1

/-- `holding` is false where the lock is not taken. -/
theorem holding_out {f : Bool → Kern K α} (h : Wp (f false) Q (out st)) : Wp (holding >>= f) Q (out st) := by
  refine ⟨⟨nofun, ?_, nofun, nofun, nofun, nofun⟩, fun r l' hx => ?_⟩
  · rintro (h1 | h1) <;> cases h1
  obtain ⟨-, rfl⟩ := hx
  cases r
  · exact h
  · refine ⟨⟨nofun, ?_, nofun, nofun, nofun, nofun⟩, fun r l' hx => ?_⟩
    · rintro (h1 | h1) <;> cases h1
    obtain ⟨rfl, rfl⟩ := hx
    exact h

/-- `holding` is true where it is. -/
theorem holding_held {f : Bool → Kern K α} (h : Wp (f true) Q (held st)) : Wp (holding >>= f) Q (held st) := by
  refine ⟨⟨nofun, ?_, nofun, nofun, nofun, nofun⟩, fun r l' hx => ?_⟩
  · rintro (h1 | h1) <;> cases h1
  obtain ⟨h1, rfl⟩ := hx
  obtain rfl := h1 rfl
  refine ⟨⟨nofun, ?_, nofun, nofun, nofun, nofun⟩, fun r l' hx => ?_⟩
  · rintro (h1 | h1) <;> cases h1
  obtain ⟨rfl, rfl⟩ := hx
  exact h

/-- **`spin_lock`.** -/
theorem lockKernel_wp {f : Unit → Kern K α} (h : Wp (f ()) Q (held st)) : Wp (lockKernel >>= f) Q (out st) := by
  refine wp_bind (holding_out ?_)
  refine ⟨⟨fun _ => rfl, ?_, nofun, nofun, nofun, nofun⟩, fun r l' hx => ?_⟩
  · rintro (h1 | h1) <;> cases h1
  obtain rfl := hx
  refine ⟨⟨nofun, fun _ => rfl, nofun, nofun, nofun, nofun⟩, fun r l' hx => ?_⟩
  obtain rfl := hx
  exact h

/-- **`spin_unlock`.** -/
theorem unlockKernel_wp {f : Unit → Kern K α} (h : Wp (f ()) Q (out st)) : Wp (unlockKernel >>= f) Q (held st) := by
  refine wp_bind (holding_held ?_)
  refine ⟨⟨nofun, fun _ => rfl, nofun, nofun, nofun, nofun⟩, fun r l' hx => ?_⟩
  obtain rfl := hx
  refine ⟨⟨nofun, ?_, fun _ => ⟨rfl, rfl⟩, nofun, nofun, nofun⟩, fun r l' hx => ?_⟩
  · rintro (h1 | h1) <;> cases h1
  obtain rfl := hx
  exact h

end Calls

theorem thisEnv_leaves {l : Local} {f : EnvIdx → Kern K Exit} (h : ∀ e, Leaves (f e) l) : Leaves (thisEnv f) l := by
  refine curenv_wp fun r => ?_
  cases r with
  | none => exact panic_wp
  | some e => exact h e

/-! ## Leaving the kernel -/

theorem envRun_leaves : Leaves (envRun e : Kern K Exit) (held .started) := by
  have hend : Leaves (do setCurenv (some e); setEnvStatus e .running; unlockKernel; let _ ← curenv; return .user :
      Kern K Exit) (held .started) :=
    setCurenv_wp (setEnvStatus_wp (unlockKernel_wp (curenv_wp fun _ => rfl)))
  refine curenv_wp fun cur => ?_
  cases cur with
  | none => exact hend
  | some cur =>
    refine envStatus_wp fun status => ?_
    split
    · exact setEnvStatus_wp hend
    · exact hend

theorem anyLeft_wp {es : List EnvIdx} {Q : Bool → Local → Prop} (h : ∀ b, Q b (held st)) :
    Wp (anyLeft es : Kern K Bool) Q (held st) := by
  induction es with
  | nil => exact h false
  | cons e es ih =>
    refine envStatus_wp fun status => ?_
    split
    · exact h true
    · exact ih

theorem schedHalt_leaves : Leaves (schedHalt : Kern K Exit) (held .started) := by
  unfold schedHalt
  generalize List.finRange nenv = es
  refine wp_bind (anyLeft_wp fun b => ?_)
  cases b
  · exact data_wp trivial fun r => r.elim
  · exact setCurenv_wp (xchgStatus_wp (unlockKernel_wp rfl))

theorem search_leaves {es : List EnvIdx} (h : Leaves k (held .started)) : Leaves (search es k) (held .started) := by
  unfold search
  induction es with
  | nil => exact h
  | cons e es ih =>
    refine envStatus_wp fun status => ?_
    split
    · exact envRun_leaves
    · exact ih

theorem runCurenv_leaves : Leaves (runCurenv : Kern K Exit) (held .started) := by
  refine curenv_wp fun cur => ?_
  cases cur with
  | none => exact schedHalt_leaves
  | some e =>
    refine envStatus_wp fun status => ?_
    split
    · exact envRun_leaves
    · exact schedHalt_leaves

theorem schedYield_leaves : Leaves (schedYield : Kern K Exit) (held .started) := by
  unfold schedYield
  refine curenv_wp fun cur => ?_
  cases cur with
  | none =>
    dsimp only [pure_eq, ret_bind]
    exact search_leaves runCurenv_leaves
  | some e =>
    refine envx_wp fun index => ?_
    dsimp only
    exact search_leaves runCurenv_leaves

/-! ## Functions that may leave the kernel -/

section May

variable (hk : Leaves k (held .started))
include hk

theorem envDestroy_leaves : Leaves (envDestroy e k) (held .started) := by
  refine envStatus_wp fun status => curenv_wp fun cur => ?_
  split
  · exact setEnvStatus_wp hk
  · refine work_wp fun _ => curenv_wp fun cur => ?_
    split
    · exact setCurenv_wp schedYield_leaves
    · exact hk

theorem userMemAssert_leaves : Leaves (userMemAssert e k) (held .started) := by
  refine work_wp fun b => ?_
  split
  · exact hk
  · exact envDestroy_leaves hk

theorem syscall_leaves : Leaves (syscall tf k) (held .started) := by
  unfold syscall
  dsimp only
  generalize Syscall.decode 0 tf.tfRegs.rax tf.tfRegs.rdx tf.tfRegs.rcx tf.tfRegs.rbx tf.tfRegs.rdi tf.tfRegs.rsi = call
  rcases call with _ | call
  · exact work_wp fun _ => hk
  cases call with
  | cputs s len => exact thisEnv_leaves fun cur => userMemAssert_leaves (work_wp fun _ => hk)
  | envDestroy envid =>
    refine envid2env_wp fun r => ?_
    cases r with
    | none => exact hk
    | some e => exact envDestroy_leaves hk
  | yield => exact schedYield_leaves
  | _ => exact work_wp fun _ => hk

theorem pageFaultHandler_leaves : Leaves (pageFaultHandler tf k) (held .started) := by
  unfold pageFaultHandler
  split
  · exact panic_wp
  · refine thisEnv_leaves fun cur => work_wp fun b => ?_
    split
    · exact userMemAssert_leaves (work_wp fun _ => thisEnv_leaves fun _ => envRun_leaves)
    · exact envDestroy_leaves hk

theorem trapDispatch_leaves : Leaves (trapDispatch tf k) (held .started) := by
  unfold trapDispatch
  split_ifs
  · exact pageFaultHandler_leaves hk
  · exact work_wp fun _ => hk
  · exact syscall_leaves hk
  · exact hk
  · exact schedYield_leaves
  · exact panic_wp
  · exact thisEnv_leaves fun cur => envDestroy_leaves hk

end May

theorem trapEnd_leaves : Leaves (trapEnd : Kern K Exit) (held .started) := by
  refine curenv_wp fun cur => ?_
  cases cur with
  | none => exact schedYield_leaves
  | some e =>
    refine envStatus_wp fun status => ?_
    split
    · exact envRun_leaves
    · exact schedYield_leaves

/-! ## Entering the kernel -/

/-- **A trap from user mode** takes the lock for the privilege level. -/
theorem trap_leaves (h : tf.tfCs &&& 3 = 3) : Leaves (trap tf : Kern K Exit) (out .started) := by
  refine xchgStatus_wp ?_
  rw [if_neg (show (out .started).status ≠ .halted by decide)]
  unfold trapFrom
  rw [if_pos h]
  refine lockKernel_wp (thisEnv_leaves fun cur => envStatus_wp fun status => ?_)
  split
  · exact work_wp fun _ => setCurenv_wp schedYield_leaves
  · exact work_wp fun _ => trapDispatch_leaves trapEnd_leaves

/-- **A halted CPU that wakes** takes the lock for its `cpu_status`. -/
theorem wake_leaves (h : tf.tfCs = gdKt) : Leaves (trap tf : Kern K Exit) (out .halted) := by
  refine xchgStatus_wp ?_
  rw [if_pos (show (out .halted).status = .halted from rfl)]
  unfold trapFrom
  rw [if_neg (by rw [h]; decide)]
  exact lockKernel_wp (show Leaves _ (held .started) from trapDispatch_leaves trapEnd_leaves)

theorem mpMain_leaves : Leaves (mpMain : Kern K Exit) (out st) :=
  xchgStatus_wp (lockKernel_wp (show Leaves _ (held .started) from schedYield_leaves))

theorem bootAps_wp [DecidableEq K] {this : K} {cpus : List K} :
    Wp (bootAps this cpus) (fun _ l => l = held st) (held st) := by
  refine wp_forM (I := fun _ l => l = held st) (fun c cs l hl => ?_) rfl
  subst hl
  split
  · rfl
  · refine ⟨⟨nofun, ?_, nofun, nofun, nofun, nofun⟩, fun r l' hx => ?_⟩
    · rintro (h1 | h1) <;> cases h1
    obtain rfl := hx
    refine ⟨⟨nofun, ?_, nofun, nofun, nofun, nofun⟩, fun r l' hx => hx⟩
    rintro (h1 | h1) <;> cases h1

theorem i386Init_leaves [DecidableEq K] {this : K} {cpus : List K} :
    Leaves (i386Init this cpus) (out st) := by
  refine xchgStatus_wp (lockKernel_wp (show Leaves _ (held .started) from wp_bind (wp_mono bootAps_wp fun _ l hl => ?_)))
  subst hl
  exact work_wp fun _ => schedYield_leaves

/-! ## All CPUs -/

namespace Smp

variable [DecidableEq K] {σ σ' : Smp K} {c d : K}

/-- What CPU `c` knows. -/
def view (σ : Smp K) (c : K) : Local := ⟨σ.inside c, decide (σ.cpu = some c), σ.status c⟩

/-- What holds where a CPU is. -/
def At : Pc K → Local → Prop
  | .off, l => l = out .unused
  | .kernel p, l => Leaves p l
  | .user, l => l = out .started
  | .halted, l => l = out .halted

/-- The invariant: each CPU is on a way that leaves the kernel as it should, and the lock is
taken if and only if one CPU is inside. -/
structure Inv (σ : Smp K) : Prop where
  pc : ∀ c, At (σ.pc c) (σ.view c)
  locked : ∀ c, σ.inside c = true → σ.locked = true
  cpu : ∀ c, σ.cpu = some c → σ.inside c = true
  alone : ∀ c d, σ.inside c = true → σ.inside d = true → c = d

section Exec

variable {a : Call K} {r : a.Result} (h : Inv σ) (hi : LocalInv a (σ.view c)) (hx : σ.Exec c a r σ')
include h hi hx

/-- **A call**, for the CPU and for the others. -/
theorem exec_view : LocalExec a (σ.view c) r (σ'.view c) ∧ ∀ d, d ≠ c → σ'.view d = σ.view d := by
  have hcpu : σ.inside c = true → ∀ d, d ≠ c → decide (σ.cpu = some d) = false := fun hin d hd =>
    decide_eq_false fun h1 => hd (h.alone d c (h.cpu d h1) hin)
  cases a with
  | locked =>
    obtain ⟨rfl, rfl⟩ := hx
    exact ⟨⟨h.locked c, rfl⟩, fun _ _ => rfl⟩
  | cpuIsThis =>
    obtain ⟨rfl, rfl⟩ := hx
    exact ⟨⟨rfl, rfl⟩, fun _ _ => rfl⟩
  | acquire =>
    obtain ⟨-, rfl⟩ := hx
    refine ⟨congrArg (Local.mk · _ _) (Function.update_self ..), fun d hd => ?_⟩
    exact congrArg (Local.mk · _ _) (Function.update_of_ne hd _ _)
  | setCpu =>
    obtain rfl := hx
    refine ⟨congrArg (Local.mk _ · _) (decide_eq_true rfl), fun d hd => congrArg (Local.mk _ · _) ?_⟩
    rw [hcpu (hi.2.1 (Or.inl rfl)) d hd]
    exact decide_eq_false fun h1 => hd (Option.some.inj h1).symm
  | clearCpu =>
    obtain rfl := hx
    refine ⟨congrArg (Local.mk _ · _) (decide_eq_false nofun), fun d hd => congrArg (Local.mk _ · _) ?_⟩
    rw [hcpu (hi.2.1 (Or.inr rfl)) d hd]
    exact decide_eq_false nofun
  | release =>
    obtain rfl := hx
    refine ⟨congrArg (Local.mk · _ _) (Function.update_self ..), fun d hd => ?_⟩
    exact congrArg (Local.mk · _ _) (Function.update_of_ne hd _ _)
  | xchgStatus v =>
    obtain ⟨rfl, rfl⟩ := hx
    refine ⟨⟨rfl, congrArg (Local.mk _ _) (Function.update_self ..)⟩, fun d hd => ?_⟩
    exact congrArg (Local.mk _ _) (Function.update_of_ne hd _ _)
  | startap d | waitStarted d | curenv | envStatus e =>
    obtain ⟨-, rfl⟩ := hx
    exact ⟨rfl, fun _ _ => rfl⟩
  | setCurenv e | setEnvStatus e v | envx e | envid2env e =>
    obtain rfl := hx
    exact ⟨rfl, fun _ _ => rfl⟩
  | work =>
    obtain ⟨f, rfl⟩ := hx
    exact ⟨rfl, fun _ _ => rfl⟩
  | monitor => exact r.elim
  | panic p => exact r.elim

/-- What a call does to the lock. -/
theorem exec_lock : (∀ d, σ'.inside d = true → σ'.locked = true) ∧ (∀ d, σ'.cpu = some d → σ'.inside d = true) ∧
    ∀ d d', σ'.inside d = true → σ'.inside d' = true → d = d' := by
  cases a with
  | acquire =>
    obtain ⟨hfree, rfl⟩ := hx
    have hnone : ∀ d, σ.inside d = false := fun d => by
      rcases hd : σ.inside d with _ | _
      · rfl
      · rw [h.locked d hd] at hfree
        cases hfree
    have hin : ∀ d, Function.update σ.inside c true d = true → d = c := by
      intro d hd
      by_contra h1
      rw [Function.update_of_ne h1, hnone] at hd
      cases hd
    refine ⟨fun _ _ => rfl, fun d hd => ?_, fun d d' hd hd' => (hin d hd).trans (hin d' hd').symm⟩
    have h1 := h.cpu d hd
    rw [hnone] at h1
    cases h1
  | release =>
    obtain rfl := hx
    obtain ⟨hin, hmine⟩ := hi.2.2.1 rfl
    have hnone : ∀ d, Function.update σ.inside c false d = false := by
      intro d
      by_cases hd : d = c
      · rw [hd, Function.update_self]
      · rw [Function.update_of_ne hd]
        rcases h1 : σ.inside d with _ | _
        · rfl
        · exact absurd (h.alone d c h1 hin) hd
    refine ⟨fun d hd => ?_, fun d hd => ?_, fun d d' hd _ => ?_⟩
    · cases hd.symm.trans (hnone d)
    · obtain rfl := h.alone d c (h.cpu d hd) hin
      exact absurd hd (of_decide_eq_false hmine)
    · cases hd.symm.trans (hnone d)
  | setCpu =>
    obtain rfl := hx
    refine ⟨h.locked, fun d hd => ?_, h.alone⟩
    obtain rfl := Option.some.inj hd
    exact hi.2.1 (Or.inl rfl)
  | clearCpu =>
    obtain rfl := hx
    exact ⟨h.locked, nofun, h.alone⟩
  | locked | cpuIsThis | xchgStatus v | startap d | waitStarted d | curenv | envStatus e =>
    obtain ⟨-, rfl⟩ := hx
    exact ⟨h.locked, h.cpu, h.alone⟩
  | setCurenv e | setEnvStatus e v | envx e | envid2env e =>
    obtain rfl := hx
    exact ⟨h.locked, h.cpu, h.alone⟩
  | work =>
    obtain ⟨f, rfl⟩ := hx
    exact ⟨h.locked, h.cpu, h.alone⟩
  | monitor => exact r.elim
  | panic p => exact r.elim

omit h hi in
/-- A call moves no other CPU, but for one that it starts. -/
theorem exec_pc (d : K) : σ'.pc d = σ.pc d ∨ σ.pc d = .off ∧ σ'.pc d = .kernel mpMain := by
  cases a with
  | startap d' =>
    obtain ⟨hoff, rfl⟩ := hx
    by_cases hd : d = d'
    · subst hd
      exact Or.inr ⟨hoff, Function.update_self ..⟩
    · exact Or.inl (Function.update_of_ne hd _ _)
  | locked | cpuIsThis | acquire | xchgStatus v | waitStarted d | curenv | envStatus e =>
    obtain ⟨-, rfl⟩ := hx
    exact Or.inl rfl
  | setCpu | clearCpu | release | setCurenv e | setEnvStatus e v | envx e | envid2env e =>
    obtain rfl := hx
    exact Or.inl rfl
  | work =>
    obtain ⟨f, rfl⟩ := hx
    exact Or.inl rfl
  | monitor => exact r.elim
  | panic p => exact r.elim

end Exec

/-- A CPU goes on where it should. -/
theorem Inv.setPc {pc : Pc K} (h : Inv σ) (hc : At pc (σ.view c)) : Inv (σ.setPc c pc) := by
  refine ⟨fun d => ?_, h.locked, h.cpu, h.alone⟩
  show At (Function.update σ.pc c pc d) (σ.view d)
  by_cases hd : d = c
  · subst hd
    rw [Function.update_self]
    exact hc
  · rw [Function.update_of_ne hd]
    exact h.pc d

/-- **A step** keeps the invariant. -/
theorem Inv.step (h : Inv σ) (hs : Step c σ σ') : Inv σ' := by
  cases hs with
  | @call σ₁ a k r hpc hx =>
    have hc := h.pc c
    rw [hpc] at hc
    obtain ⟨hi, hnext⟩ := hc
    obtain ⟨h1, h2⟩ := exec_view h hi hx
    obtain ⟨h3, h4, h5⟩ := exec_lock h hi hx
    refine ⟨fun d => ?_, h3, h4, h5⟩
    show At (Function.update σ₁.pc c (.kernel (k r)) d) (σ₁.view d)
    by_cases hd : d = c
    · subst hd
      rw [Function.update_self]
      exact hnext r _ h1
    · rw [Function.update_of_ne hd, h2 d hd]
      have h6 := h.pc d
      rcases exec_pc hx d with h7 | ⟨h7, h8⟩
      · rw [h7]
        exact h6
      · rw [h7] at h6
        rw [h8, show σ.view d = out .unused from h6]
        exact mpMain_leaves
  | iret hpc =>
    have hc := h.pc c
    rw [hpc] at hc
    exact h.setPc hc
  | hlt hpc =>
    have hc := h.pc c
    rw [hpc] at hc
    exact h.setPc hc
  | trap hpc htf =>
    have hc := h.pc c
    rw [hpc] at hc
    exact h.setPc (by rw [show σ.view c = _ from hc]; exact trap_leaves htf)
  | wake hpc htf =>
    have hc := h.pc c
    rw [hpc] at hc
    exact h.setPc (by rw [show σ.view c = _ from hc]; exact wake_leaves htf)

theorem boot_inv {this : K} {cpus : List K} : Inv (boot this cpus) := by
  refine ⟨fun c => ?_, nofun, nofun, nofun⟩
  show At (Function.update (fun _ => Pc.off) this (.kernel (i386Init this cpus)) c) (out .unused)
  rw [Function.update_apply]
  split
  · exact i386Init_leaves
  · rfl

/-- The discipline of the lock. -/
structure Discipline (σ : Smp K) : Prop where
  /-- no two CPUs are inside -/
  alone : ∀ c d, σ.inside c = true → σ.inside d = true → c = d
  /-- a CPU in user mode or halted is not -/
  left : ∀ c, σ.pc c = .user ∨ σ.pc c = .halted → σ.inside c = false ∧ σ.cpu ≠ some c
  /-- the lock is taken by a CPU that is not inside -/
  acquire : ∀ c k, σ.pc c = .kernel (.call .acquire k) → σ.inside c = false
  /-- and freed by one that is -/
  release : ∀ c k, σ.pc c = .kernel (.call .release k) → σ.inside c = true
  /-- `spin_lock` and `spin_unlock` do not panic -/
  panic : ∀ c p k, σ.pc c = .kernel (.call (.panic p) k) → p = .other
  /-- environments are looked at and changed inside -/
  data : ∀ c a k, Data a → σ.pc c = .kernel (.call a k) → σ.inside c = true

/-- **The discipline of the big kernel lock**, with any CPUs and in any interleaving. -/
theorem lock_discipline {this : K} {cpus : List K} (hr : Run (boot this cpus) σ) : Discipline σ := by
  have h : Inv σ := by
    induction hr with
    | refl => exact boot_inv
    | tail _ hs ih =>
      obtain ⟨c, hs⟩ := hs
      exact ih.step hs
  have hcall : ∀ c (a : Call K) k, σ.pc c = .kernel (.call a k) → LocalInv a (σ.view c) := by
    intro c a k hpc
    have h1 := h.pc c
    rw [hpc] at h1
    exact h1.1
  refine ⟨h.alone, fun c hpc => ?_, fun c k hpc => (hcall c _ k hpc).1 rfl,
    fun c k hpc => ((hcall c _ k hpc).2.2.1 rfl).1, fun c p k hpc => ?_, fun c a k ha hpc => (hcall c a k hpc).2.2.2.1 ha⟩
  · obtain ⟨st, hst⟩ : ∃ st, σ.view c = out st := by
      have h1 := h.pc c
      rcases hpc with hpc | hpc <;> rw [hpc] at h1
      · exact ⟨_, h1⟩
      · exact ⟨_, h1⟩
    exact ⟨congrArg Local.inside hst, of_decide_eq_false (congrArg Local.mine hst)⟩
  · have h1 := (hcall c _ k hpc).2.2.2.2
    cases p
    · exact absurd rfl h1.1
    · exact absurd rfl h1.2
    · rfl

/-- The boot CPU takes the lock, with another CPU to be started. -/
theorem lock_discipline_boot : ∃ σ, Run (boot true [true, false]) σ ∧ σ.inside true = true ∧ Discipline σ := by
  have h1 : Step true (boot true [true, false]) _ := .call (a := .xchgStatus .started) rfl ⟨rfl, rfl⟩
  have hr₁ : Run (boot true [true, false]) _ := .single ⟨true, h1⟩
  have hr₂ : Run (boot true [true, false]) _ := hr₁.tail ⟨true, .call (a := .locked) rfl ⟨rfl, rfl⟩⟩
  have hr₃ : Run (boot true [true, false]) _ := hr₂.tail ⟨true, .call (a := .acquire) (r := ()) rfl ⟨rfl, rfl⟩⟩
  exact ⟨_, hr₃, rfl, lock_discipline hr₃⟩

end Smp

end Jos.Lock
