import Jos.Proof.Ids
import Jos.Proof.Sched

/-!
# Environments and CPUs

* `Polite` is the condition on requests: none makes an environment runnable, or not
  runnable, while another CPU runs it, and none destroys an environment that is dying.
* `Excl` is the invariant of the polite runs: the `cpu_env`s differ and are alive, `CR3` holds
  their page tables, and what the log says of `env_free`.
* `one_cpu` follows for the CPUs, and `envFree_alone` for `env_free`.

Without the condition a parent can have its child run on two CPUs
(`one_cpu_counterexample`), or freed while it runs (`envFree_alone_counterexample`).
-/

namespace Jos

variable {n : ℕ} {k₀ k k' : Kernel} {e cur : EnvIdx}

/-! ## The start -/

/-- `i386_init` has created the first environments. -/
def Started (k₀ k : Kernel) : Prop :=
  ∃ evs : List Event, (∀ ev ∈ evs, ∃ binary type, ev = .create binary type) ∧ runs k₀ evs = some k

/-- Every slot is free, or runnable and not waiting for a message, as before the CPUs start. -/
structure Fresh (k : Kernel) : Prop where
  slots : FreeSlots k
  status : ∀ e, (k.envs e).envStatus = .free ∨
    ((k.envs e).envStatus = .runnable ∧ (k.envs e).envIpcRecving = false)

theorem fresh_envInit : Fresh (envInit k₀) := by
  have h : SlotsInv [] (envInit k₀) := .init
  refine ⟨h.free, fun e => Or.inl (not_not.1 fun hl => ?_)⟩
  exact h.live e hl rfl

/-- `load_icode` changes the frame of an environment and the place of its binary. -/
theorem loadIcode_env {b : Binary} {α : Type} {f : Env → α} (h : loadIcode k e b = some k')
    (helf : ∀ v elf, f { v with elf := elf } = f v)
    (htf : ∀ v rip, f { v with envTf := { v.envTf with tfRip := rip } } = f v)
    (x : EnvIdx) : f (k'.envs x) = f (k.envs x) := by
  have hset : ∀ (k₁ : Kernel) (v : Env), f v = f (k₁.envs e) →
      ∀ x, f ((k₁.setEnv e v).envs x) = f (k₁.envs x) := by
    intro k₁ v hv x
    by_cases hx : x = e
    · subst hx; rw [Kernel.setEnv_self, hv]
    · rw [Kernel.setEnv_of_ne hx]
  have hreg : ∀ {k₁ k₂ : Kernel} {va len}, regionAlloc k₁ e va len = some k₂ → k₂.envs = k₁.envs := by
    intro k₁ k₂ va len h1
    unfold regionAlloc at h1
    obtain ⟨p, -, h1⟩ := Option.bind_eq_some_iff.1 h1
    obtain ⟨m, -, h1⟩ := Option.bind_eq_some_iff.1 h1
    cases h1; rfl
  unfold loadIcode at h
  obtain ⟨k₁, h1, h⟩ := Option.bind_eq_some_iff.1 h
  obtain ⟨k₂, h2, h⟩ := Option.bind_eq_some_iff.1 h
  cases h
  have h3 : f (k₁.envs x) = f (k.envs x) :=
    Lib.loop_inv (P := fun k₁ => f (k₁.envs x) = f (k.envs x))
      (fun a _ b b' hb hs => by rw [hreg hs]; exact hb) h1 (hset _ _ (helf _ _) x)
  rw [hset _ _ (htf _ _) x, hreg h2, h3]

theorem Fresh.create {b : Binary} {t : EnvType} (h : Fresh k) (hc : envCreate k b t = some k') :
    Fresh k' := by
  unfold envCreate at hc
  obtain ⟨⟨r, k₁⟩, h1, hc⟩ := Option.bind_eq_some_iff.1 hc
  cases r with
  | error r => cases hc
  | ok e =>
    obtain ⟨k₂, h2, hc⟩ := Option.bind_eq_some_iff.1 hc
    cases hc
    have hi := envAlloc_issued h1
    have hst := loadIcode_env (f := Env.envStatus) h2 (fun _ _ => rfl) fun _ _ => rfl
    have hrecv := loadIcode_env (f := Env.envIpcRecving) h2 (fun _ _ => rfl) fun _ _ => rfl
    refine ⟨((h.slots.issued hi).1.other (sameSlots_loadIcode h2)).other
      (SameSlots.refl.setEnv rfl rfl rfl Iff.rfl), fun x => ?_⟩
    by_cases hx : x = e
    · subst hx
      rw [Kernel.setEnv_self]
      exact Or.inr ⟨(hst x).trans hi.status, (hrecv x).trans hi.recving⟩
    · rw [Kernel.setEnv_of_ne hx, hst x, hrecv x, hi.other x hx]
      exact h.status x

theorem Fresh.started (h : Fresh k₀) (hs : Started k₀ k) : Fresh k := by
  obtain ⟨evs, h1, h2⟩ := hs
  refine Lib.loop_inv (P := Fresh) (fun ev hev b b' hb hstep => ?_) h2 h
  obtain ⟨binary, type, rfl⟩ := h1 ev hev
  exact hb.create hstep

/-! ## The invariant -/

/-- What `env_run` changes. -/
theorem envRun_env (k : Kernel) (o : Option EnvIdx) (e x : EnvIdx) : ∃ r, (envRun k o e).envs x =
    { k.envs x with
      envStatus := if x = e then .running else
        if o = some x ∧ (k.envs x).envStatus = .running then .runnable else (k.envs x).envStatus
      envRuns := r } := by
  have hlast : ∀ k₁ : Kernel, ∃ r, (k₁.setEnv e { k₁.envs e with
      envStatus := .running, envRuns := (k₁.envs e).envRuns + 1 }).envs x =
      { k₁.envs x with envStatus := if x = e then .running else (k₁.envs x).envStatus, envRuns := r } := by
    intro k₁
    by_cases hx : x = e
    · subst hx; exact ⟨_, by rw [Kernel.setEnv_self, if_pos rfl]⟩
    · exact ⟨_, by rw [Kernel.setEnv_of_ne hx, if_neg hx]⟩
  unfold envRun
  cases o with
  | none => simpa using hlast k
  | some c =>
    simp only
    split
    · rename_i hc
      obtain ⟨r, hr⟩ := hlast (k.setEnv c { k.envs c with envStatus := .runnable })
      refine ⟨r, hr.trans ?_⟩
      by_cases hx : x = c
      · subst hx; simp [hc]
      · rw [Kernel.setEnv_of_ne hx]; simp [Ne.symm hx]
    · rename_i hc
      obtain ⟨r, hr⟩ := hlast k
      refine ⟨r, hr.trans ?_⟩
      by_cases hx : x = c
      · subst hx; simp [hc]
      · simp [Ne.symm hx]

namespace Machine

variable {s s' s₀ : Machine n} {c : Fin n} {l : List (Act n)} {a : Act n} {tf : Trapframe}

/-- **No request meddles with an environment that another CPU runs**, and none destroys an
environment that is dying already. -/
def Polite (s : Machine n) (c : Fin n) : Req → Prop
  | .status e => ∀ c', c' ≠ c → s.curenv c' ≠ some e
  | .deliver e => ∀ c', c' ≠ c → s.curenv c' ≠ some e
  | .destroy e => (s.k.envs e).envStatus ≠ .dying

theorem stable_polite : Stable (Polite (n := n)) := by
  intro s c q cur tf h
  cases q with
  | status e => exact h
  | deliver e => exact h
  | destroy e =>
    simp only [Polite, addLog_k, setTf_env]
    exact h

/-- A good entry of the log, after the entries `l`: `env_free(e)` on a CPU when no other has
`e` as its `cpu_env`, and `e` was given out since it was freed last. -/
def FreeOk (l : List (Act n)) : Act n → Prop
  | .free c e cpuEnvs => (∀ c', c' ≠ c → cpuEnvs c' ≠ some e) ∧
    ∀ c' u, last isSlot e l ≠ some (.free c' e u)
  | _ => True

/-- Every entry of the log is good. -/
def FreesOk (l : List (Act n)) : Prop := ∀ l₂ a l₁, l = l₂ ++ a :: l₁ → FreeOk l₁ a

/-- **The invariant**, on every side of the kernel's border. -/
structure Excl (s : Machine n) : Prop where
  one : ∀ c c' e, s.curenv c = some e → s.curenv c' = some e → c = c'
  live : ∀ c e, s.curenv c = some e → s.k.Live e
  cr3 : ∀ c e, s.curenv c = some e → (s.cpus c).cr3 = (s.k.envs e).envCr3
  slots : FreeSlots s.k
  frees : FreesOk s.log
  issued : ∀ e, s.k.Live e → ∀ c u, last isSlot e s.log ≠ some (.free c e u)

/-- The environment of CPU `c` is running, or dying. -/
def InUser (s : Machine n) (c : Fin n) : Prop :=
  ∀ e, s.curenv c = some e → (s.k.envs e).envStatus = .running ∨ (s.k.envs e).envStatus = .dying

/-- CPU `c` is in the kernel. -/
structure Inside (c : Fin n) (s : Machine n) : Prop where
  excl : Excl s
  user : ∀ c', c' ≠ c → InUser s c'

/-- No CPU is in the kernel. -/
structure Outside (s : Machine n) : Prop where
  excl : Excl s
  user : ∀ c, InUser s c

/-- The part of the kernel that leaves the CPUs and the slots alone. -/
theorem Excl.other (h : Excl s) (hk : SameSlots s.k k)
    (hcr3 : ∀ e, (k.envs e).envCr3 = (s.k.envs e).envCr3) : Excl (s.setK k) := by
  have hlive : ∀ e, k.Live e ↔ s.k.Live e := fun e => not_congr (hk.status e)
  refine ⟨h.one, fun c e hc => (hlive e).2 (h.live c e hc), fun c e hc => ?_, h.slots.other hk,
    h.frees, fun e he => h.issued e ((hlive e).1 he)⟩
  exact (h.cr3 c e hc).trans (hcr3 e).symm

/-- An entry about no slot. -/
theorem Excl.addLog (h : Excl s) (ha : ∀ e, isSlot e a = false) : Excl (s.addLog [a]) := by
  refine ⟨h.one, h.live, h.cr3, h.slots, entry_cons ?_ h.frees, fun e he c u => ?_⟩
  · cases a with
    | free c e u => have := ha e; simp [isSlot] at this
    | _ => trivial
  · rw [addLog_log, List.singleton_append, last_cons, ha e]
    exact h.issued e he c u

theorem Inside.addLog (h : Inside c s) (ha : ∀ e, isSlot e a = false) : Inside c (s.addLog [a]) :=
  ⟨h.excl.addLog ha, h.user⟩

theorem setEnv_cr3 {v : Env} (h : v.envCr3 = (k.envs e).envCr3) (x : EnvIdx) :
    ((k.setEnv e v).envs x).envCr3 = (k.envs x).envCr3 := by
  by_cases hx : x = e
  · subst hx; rw [Kernel.setEnv_self, h]
  · rw [Kernel.setEnv_of_ne hx]

/-- The frame of an environment is saved, or a register in it. -/
theorem Excl.setTf (h : Excl s) : Excl (s.setTf cur tf) :=
  h.other (SameSlots.refl.setEnv rfl rfl rfl Iff.rfl) (setEnv_cr3 rfl)

theorem Inside.setTf (h : Inside c s) : Inside c (s.setTf cur tf) := by
  refine ⟨h.excl.setTf, fun c' hne x hx => ?_⟩
  rw [setTf_env]
  exact h.user c' hne x hx

/-- One environment's status changes, which no other CPU runs. -/
theorem Inside.status {v : Env} (h : Inside c s) (hl : s.k.Live e ∨ s.curenv c = some e)
    (hc : ∀ c', c' ≠ c → s.curenv c' ≠ some e) (h1 : v.envLink = (s.k.envs e).envLink)
    (h2 : v.envId = (s.k.envs e).envId) (h3 : v.envParentId = (s.k.envs e).envParentId)
    (h4 : v.envStatus ≠ .free) (h5 : v.envCr3 = (s.k.envs e).envCr3) :
    Inside c (s.setK (s.k.setEnv e v)) := by
  have hlive : s.k.Live e := hl.elim id (h.excl.live c e)
  refine ⟨h.excl.other (SameSlots.refl.setStatus hlive h1 h2 h3 h4) (setEnv_cr3 h5), fun c' hne x hx => ?_⟩
  have hxe : x ≠ e := by rintro rfl; exact hc c' hne hx
  rw [setK_k, Kernel.setEnv_of_ne hxe]
  exact h.user c' hne x hx

/-- `env_free(e)`, of an environment that no other CPU runs. -/
theorem Inside.freed (h : Inside c s) (hl : s.k.Live e) (hc : ∀ c', c' ≠ c → s.curenv c' ≠ some e)
    (hf : Freed s.k k e) (hs : s'.k = k) (hlog : s'.log = .free c e s.curenv :: s.log)
    (hcur : ∀ c' x, s'.curenv c' = some x → x ≠ e ∧ s.curenv c' = some x)
    (hcr3 : ∀ c', c' ≠ c → (s'.cpus c').cr3 = (s.cpus c').cr3)
    (hself : ∀ x, s'.curenv c = some x → (s'.cpus c).cr3 = (s.cpus c).cr3) : Inside c s' := by
  subst hs
  refine ⟨⟨fun c₁ c₂ x h1 h2 => ?_, fun c' x h1 => ?_, fun c' x h1 => ?_, h.excl.slots.freed hl hf, ?_,
    fun x hx c' u => ?_⟩, fun c' hne x h1 => ?_⟩
  · exact h.excl.one c₁ c₂ x (hcur _ _ h1).2 (hcur _ _ h2).2
  · obtain ⟨h2, h3⟩ := hcur _ _ h1
    unfold Kernel.Live
    rw [hf.other x h2]
    exact h.excl.live c' x h3
  · obtain ⟨h2, h3⟩ := hcur _ _ h1
    rw [hf.other x h2, ← h.excl.cr3 c' x h3]
    by_cases hne : c' = c
    · subst hne; exact hself x h1
    · exact hcr3 c' hne
  · rw [hlog]
    exact entry_cons ⟨hc, h.excl.issued e hl⟩ h.excl.frees
  · rw [hlog, last_cons]
    by_cases hxe : x = e
    · subst hxe; exact absurd hf.status hx
    · have h2 : isSlot x (Act.free c e s.curenv) = false := by simp [isSlot, Ne.symm hxe]
      rw [h2]
      refine h.excl.issued x ?_ c' u
      unfold Kernel.Live at hx ⊢
      rwa [hf.other x hxe] at hx
  · obtain ⟨h2, h3⟩ := hcur _ _ h1
    rw [hf.other x h2]
    exact h.user c' hne x h3

/-- **Every polite move keeps the invariant.** -/
theorem Inside.move (h : Inside c s) (hm : Move Polite c s s') : Inside c s' := by
  have hother : ∀ {e}, s.curenv c = some e → ∀ c', c' ≠ c → s.curenv c' ≠ some e :=
    fun hc c' hne hc' => hne (h.excl.one _ _ _ hc' hc)
  cases hm with
  | @frame cur tf hc hf => exact h.setTf
  | @other k hk =>
    refine ⟨h.excl.other hk.slots hk.cr3, fun c' hne x hx => ?_⟩
    rw [setK_k, hk.status]
    exact h.user c' hne x hx
  | @mark e hr hc =>
    have hl : s.k.Live e := by unfold Kernel.Live; rw [hr]; decide
    refine ⟨h.excl.other (SameSlots.refl.setStatus hl rfl rfl rfl nofun) (setEnv_cr3 rfl),
      fun c' hne x hx => ?_⟩
    rw [setK_k]
    by_cases hxe : x = e
    · subst hxe; rw [Kernel.setEnv_self]; exact Or.inr rfl
    · rw [Kernel.setEnv_of_ne hxe]; exact h.user c' hne x hx
  | @freeSelf cur k hc hf =>
    refine h.freed (h.excl.live c cur hc) (hother hc) hf rfl rfl (fun c' x hx => ?_) (fun c' hne => ?_)
      fun x hx => ?_
    · simp only [setCurenv_curenv] at hx
      by_cases hne : c' = c
      · rw [if_pos hne] at hx; cases hx
      · rw [if_neg hne, setK_curenv, lcr3_curenv, addLog_curenv] at hx
        refine ⟨?_, hx⟩
        rintro rfl
        exact hother hc c' hne hx
    · simp [setCurenv, setCpu, lcr3, setK, hne]
    · simp only [setCurenv_curenv, if_true] at hx
      cases hx
  | @freeOther e k hq hr hl hc hf =>
    -- what another CPU runs is running or dying, and a polite request destroys neither
    have hnot : ∀ c', c' ≠ c → s.curenv c' ≠ some e := fun c' hne hc' =>
      (h.user c' hne e hc').elim hr hq
    refine h.freed hl hnot hf rfl rfl (fun c' x hx => ⟨?_, hx⟩) (fun _ _ => rfl) fun _ _ => rfl
    rintro rfl
    by_cases hne : c' = c
    · subst hne; exact hc hx
    · exact hnot c' hne hx
  | @fork parent e k₁ tf hi =>
    obtain ⟨hslots, hdead⟩ := h.excl.slots.issued hi
    -- the slot was free, and no CPU runs a free one
    have hcur : ∀ {c' x}, s.curenv c' = some x → x ≠ e := by
      rintro c' x hx rfl
      exact hdead (h.excl.live c' x hx)
    have henv : ∀ {x}, x ≠ e → (k₁.setEnv e { k₁.envs e with
        envStatus := .notRunnable, envTf := tf }).envs x = s.k.envs x := fun hx => by
      rw [Kernel.setEnv_of_ne hx, hi.other _ hx]
    refine ⟨⟨h.excl.one, fun c' x hx => ?_, fun c' x hx => ?_, ?_, ?_, fun x hx c' u => ?_⟩,
      fun c' hne x hx => ?_⟩
    · simp only [addLog_k, setK_k, Kernel.Live]
      rw [henv (hcur hx)]
      exact h.excl.live c' x hx
    · simp only [addLog_k, setK_k]
      rw [henv (hcur hx)]
      exact h.excl.cr3 c' x hx
    · exact hslots.other (SameSlots.refl.setStatus hi.live rfl rfl rfl nofun)
    · exact entry_cons trivial h.excl.frees
    · rw [addLog_log, List.singleton_append, last_cons]
      by_cases hxe : x = e
      · subst hxe; simp [isSlot]
      · have h1 : isSlot x (Act.alloc e : Act n) = false := by simp [isSlot, Ne.symm hxe]
        simp only [addLog_k, setK_k, Kernel.Live] at hx
        rw [henv hxe] at hx
        rw [h1]
        exact h.excl.issued x hx c' u
    · simp only [addLog_k, setK_k]
      rw [henv (hcur hx)]
      exact h.user c' hne x hx
  | @status e st hq hst hl =>
    exact h.status hl hq rfl rfl rfl (by rcases hst with rfl | rfl <;> nofun) rfl
  | @sent cur e m value p hq hl hrecv =>
    have h1 : Inside c (s.setK (s.k.setPm m)) :=
      ⟨h.excl.other SameSlots.refl.setPm fun _ => rfl, h.user⟩
    have h2 : Inside c (s.setK (ipcDeliver (s.k.setPm m) cur e value p)) :=
      h1.status hl hq rfl rfl rfl nofun rfl
    exact h2.addLog fun _ => rfl
  | @recv cur dstva tf hc hf hrax =>
    have h1 : Inside c (s.setK (s.k.setEnv cur { s.k.envs cur with
        envIpcRecving := true, envIpcDstva := dstva, envStatus := .notRunnable })) :=
      h.status (Or.inr hc) (hother hc) rfl rfl rfl nofun rfl
    exact (h1.addLog fun _ => rfl).setTf

theorem envRun_curenv (c' : Fin n) :
    (s.envRun c e).curenv c' = if c' = c then some e else s.curenv c' := by
  unfold envRun
  simp only [lcr3_curenv, addLog_curenv, setCurenv_curenv, setK_curenv]

/-- **Leaving the kernel** keeps it: what `env_run` takes is no other CPU's environment. -/
theorem Inside.leave (h : Inside c s) (hl : Leaves c s s') : Outside s' := by
  have hrun : ∀ e, s.k.Live e → (∀ c', c' ≠ c → s.curenv c' ≠ some e) → Outside (s.envRun c e) := by
    intro e he hne
    have hk : (s.envRun c e).k = Jos.envRun s.k (s.curenv c) e := rfl
    have hsame := sameSlots_envRun (c := s.curenv c) he
    have hlive : ∀ x, (s.envRun c e).k.Live x ↔ s.k.Live x := fun x => not_congr (hsame.status x)
    have henv : ∀ {c' x}, (s.envRun c e).curenv c' = some x →
        (c' = c ∧ x = e) ∨ (c' ≠ c ∧ x ≠ e ∧ s.curenv c' = some x) := by
      intro c' x hx
      rw [envRun_curenv] at hx
      by_cases hc : c' = c
      · rw [if_pos hc] at hx; cases hx; exact Or.inl ⟨hc, rfl⟩
      · rw [if_neg hc] at hx
        refine Or.inr ⟨hc, ?_, hx⟩
        rintro rfl
        exact hne c' hc hx
    have hcr3 : ∀ x, ((s.envRun c e).k.envs x).envCr3 = (s.k.envs x).envCr3 := by
      intro x
      obtain ⟨r, hr⟩ := envRun_env s.k (s.curenv c) e x
      rw [hk, hr]
    refine ⟨⟨fun c₁ c₂ x h1 h2 => ?_, fun c' x hx => ?_, fun c' x hx => ?_, h.excl.slots.other hsame, ?_,
      fun x hx c' u => ?_⟩, fun c' x hx => ?_⟩
    · rcases henv h1 with ⟨rfl, rfl⟩ | ⟨h3, h4, h5⟩ <;> rcases henv h2 with ⟨rfl, h6⟩ | ⟨h6, h7, h8⟩
      · rfl
      · exact absurd rfl h7
      · exact absurd h6 h4
      · exact h.excl.one _ _ _ h5 h8
    · rw [hlive]
      rcases henv hx with ⟨-, rfl⟩ | ⟨-, -, h1⟩
      · exact he
      · exact h.excl.live c' x h1
    · rw [hcr3]
      rcases henv hx with ⟨rfl, rfl⟩ | ⟨h1, -, h2⟩
      · have h3 := hcr3 x
        rw [← h3]
        simp [envRun, lcr3, setCpu]
      · rw [← h.excl.cr3 c' x h2]
        simp [envRun, lcr3, setCpu, setCurenv, setK, h1]
    · exact entry_cons trivial h.excl.frees
    · exact h.excl.issued x ((hlive x).1 hx) c' u
    · obtain ⟨r, hr⟩ := envRun_env s.k (s.curenv c) e x
      rw [hk, hr]
      rcases henv hx with ⟨-, rfl⟩ | ⟨h1, h2, h3⟩
      · exact Or.inl (if_pos rfl)
      · have h4 : ¬ (s.curenv c = some x ∧ (s.k.envs x).envStatus = .running) := fun h4 =>
          h1 (h.excl.one _ _ _ h3 h4.1)
        simp only [if_neg h2, if_neg h4]
        exact h.user c' h1 x h3
  cases hl with
  | @sched e hr =>
    refine hrun e (by unfold Kernel.Live; rw [hr]; decide) fun c' hne hc' => ?_
    rcases h.user c' hne e hc' with h1 | h1 <;> rw [hr] at h1 <;> cases h1
  | @back cur hc hr =>
    exact hrun cur (h.excl.live c cur hc) fun c' hne hc' => hne (h.excl.one _ _ _ hc' hc)
  | @upcall cur hc hf =>
    exact hrun cur (h.excl.live c cur hc) fun c' hne hc' => hne (h.excl.one _ _ _ hc' hc)
  | halt =>
    have hcur : ∀ {c' x}, (s.setCpu c { cpuEnv := none, cr3 := s.bootCr3 }).curenv c' = some x →
        c' ≠ c ∧ s.curenv c' = some x := by
      intro c' x hx
      unfold curenv setCpu at hx
      by_cases hc : c' = c
      · simp [hc] at hx
      · simpa [hc, curenv] using hx
    refine ⟨⟨fun c₁ c₂ x h1 h2 => h.excl.one _ _ _ (hcur h1).2 (hcur h2).2,
      fun c' x hx => h.excl.live c' x (hcur hx).2, fun c' x hx => ?_, h.excl.slots, h.excl.frees,
      h.excl.issued⟩, fun c' x hx => h.user c' (hcur hx).1 x (hcur hx).2⟩
    have h1 := h.excl.cr3 c' x (hcur hx).2
    simpa [setCpu, (hcur hx).1] using h1

/-- Before the CPUs start. -/
theorem outside_start (h : Fresh k) : Outside (start (n := n) k) := by
  refine ⟨⟨nofun, nofun, nofun, h.slots, fun l₂ a l₁ hl => ?_, fun e he c u => nofun⟩, nofun⟩
  cases l₂ <;> cases hl

/-- **The polite runs keep the invariant.** -/
theorem Outside.reach {G : Machine n → Ev n → Prop} (h : Fresh k) (hG : ∀ s ev, G s ev → Asks Polite s ev)
    (hr : Reach G (start k) s) : Outside s := by
  refine Reach.rule (O := Outside) (I := Inside) stable_polite hG (outside_start h)
    (fun s c hs => ⟨hs.excl, fun c' _ => hs.user c'⟩) (fun s c cur tf hs hc hd => ?_)
    (fun s s' c => Inside.move) (fun s s' c => Inside.leave) (fun s m hs => ?_) hr
  · refine ⟨hs.excl.setTf.addLog fun _ => rfl, fun c' _ x hx => ?_⟩
    rw [addLog_k, setTf_env]
    exact hs.user c' x hx
  · exact ⟨hs.excl.other SameSlots.refl.setPm fun _ => rfl, hs.user⟩

/-- What a CPU runs when it leaves the kernel is not what another CPU runs. -/
theorem Outside.leaves_alone (h : Outside s) (hl : Leaves c s s') {c' : Fin n} (hne : c' ≠ c)
    (hc : s.curenv c' = some e) : s'.curenv c ≠ some e := by
  have hin : Inside c s := ⟨h.excl, fun c' _ => h.user c'⟩
  have hout := hin.leave hl
  have hkeep : s'.curenv c' = s.curenv c' := by
    cases hl with
    | halt => simp [curenv, setCpu, hne]
    | _ => rw [envRun_curenv, if_neg hne]
  exact fun h1 => hne (hout.excl.one _ _ _ (hkeep.trans hc) h1)

/-- **No environment runs on two CPUs**, in the runs whose requests are all polite: then no
environment is the `cpu_env` of two CPUs, that of a CPU in user mode is running or dying, and
`sched_yield` on another CPU does not pick it. -/
theorem one_cpu (hs : Started (envInit k₀) k) (hr : Reach (Asks Polite) (start k) s) :
    (∀ c c' e, s.curenv c = some e → s.curenv c' = some e → c = c') ∧
    (∀ c e, s.curenv c = some e →
      (s.k.envs e).envStatus = .running ∨ (s.k.envs e).envStatus = .dying) ∧
    ∀ c c' e s', c' ≠ c → s.curenv c' = some e → s.schedYield c = some s' → s'.curenv c ≠ some e := by
  have h := Outside.reach (fresh_envInit.started hs) (fun _ _ hg => hg) hr
  exact ⟨h.excl.one, h.user, fun c c' e s' hne hc hy => h.leaves_alone (schedYield_leaves hy) hne hc⟩

/-! ### Runs on two CPUs -/

/-- A system call of the environment that runs on CPU `c`. -/
def callEv (c : Fin n) (no a1 a2 a3 : BitVec 64) : Ev n :=
  .trap c { tfTrapno := tSyscall, tfCs := 0x1b,
            tfRegs := { rax := no, rdx := a1, rcx := a2, rbx := a3 } } {}

instance cpu_neZero : NeZero (2 : ℕ) := ⟨two_ne_zero⟩

/-- The first program runs on CPU 0 and makes a child (`0x1001`), which CPU 1 runs. -/
def pairRun : List (Ev 2) :=
  [.sched 0, callEv 0 7 0 0 0, callEv 0 8 0x1001 2 0, .sched 1]

instance {ok : Machine n → Fin n → Req → Prop} [∀ s c q, Decidable (ok s c q)] (s : Machine n)
    (ev : Ev n) : Decidable (Asks ok s ev) :=
  match ev with
  | .sched _ | .store .. => .isTrue trivial
  | .trap c tf io => decidable_of_iff (∀ cur ∈ s.curenv c, (s.k.envs cur).envStatus ≠ .dying →
      ∀ call ∈ callOf tf io, ∀ q ∈ call.request s.k cur, ok s c q)
      ⟨fun h cur call q h1 h2 h3 h4 => h cur h1 h2 call h3 q h4,
        fun h cur h1 h2 call h3 q h4 => h cur call q h1 h2 h3 h4⟩

instance (s : Machine n) (c : Fin n) : (q : Req) → Decidable (Polite s c q)
  | .status e => inferInstanceAs (Decidable (∀ c', c' ≠ c → s.curenv c' ≠ some e))
  | .deliver e => inferInstanceAs (Decidable (∀ c', c' ≠ c → s.curenv c' ≠ some e))
  | .destroy e => inferInstanceAs (Decidable ((s.k.envs e).envStatus ≠ .dying))

/-- A run whose events are checked one by one. -/
theorem reach_of_checked {G G' : Machine n → Ev n → Prop} [∀ s ev, Decidable (G s ev)]
    {evs : List (Ev n)} (hG : ∀ ev ∈ evs, ∀ s, G s ev → G' s ev)
    (h : evs.foldlM (fun s ev => if G s ev then s.step ev else none) s₀ = some s) : Reach G' s₀ s := by
  refine Lib.loop_inv (P := Reach G' s₀) (fun ev hev b b' hb hs => ?_) h .init
  split at hs
  · exact .step hb (hG ev hev b ‹_›) hs
  · cases hs

/-- The kernel with the first program. -/
theorem started_boot {k : Kernel} (h : Jos.runs (envInit bootKernel) [.create bootBinary .user] = some k) :
    Started (envInit bootKernel) k :=
  ⟨_, by simp, h⟩

/-- Two CPUs run the program and its child. -/
theorem one_cpu_pair : ∃ k, ∃ s : Machine 2, Started (envInit bootKernel) k ∧
    Reach (Asks Polite) (start k) s ∧ s.curenv 0 = some 0 ∧ s.curenv 1 = some 1 ∧
    (s.k.envs 0).envStatus = .running ∧ ∀ c c' e, s.curenv c = some e → s.curenv c' = some e → c = c' := by
  have h : ((Jos.runs (envInit bootKernel) [.create bootBinary .user]).any fun k =>
      (pairRun.foldlM (fun s ev => if Asks Polite s ev then s.step ev else none) (start k)).any fun s =>
        decide (s.curenv 0 = some 0) && decide (s.curenv 1 = some 1) &&
        decide ((s.k.envs 0).envStatus = .running)) = true := by decide +kernel
  obtain ⟨k, hk, h⟩ := (Option.any_eq_true _ _).1 h
  obtain ⟨s, hs, h⟩ := (Option.any_eq_true _ _).1 h
  simp only [Bool.and_eq_true, decide_eq_true_eq] at h
  have hr := reach_of_checked (fun _ _ _ hq => hq) hs
  exact ⟨k, s, started_boot hk, hr, h.1.1, h.1.2, h.2, (one_cpu (started_boot hk) hr).1⟩

/-- **A child on two CPUs**: its parent sets its status to `ENV_RUNNABLE` while CPU 1 runs
it, and yields. -/
theorem one_cpu_counterexample : ∃ k, ∃ s : Machine 2, Started (envInit bootKernel) k ∧
    Reach (fun _ _ => True) (start k) s ∧ s.curenv 0 = some 1 ∧ s.curenv 1 = some 1 := by
  have h : ((Jos.runs (envInit bootKernel) [.create bootBinary .user]).any fun k =>
      ((pairRun ++ [callEv 0 8 0x1001 2 0, callEv 0 11 0 0 0]).foldlM
        (fun s ev => if True then step s ev else none) (start k)).any fun s : Machine 2 =>
        decide (s.curenv 0 = some 1) && decide (s.curenv 1 = some 1)) = true := by decide +kernel
  obtain ⟨k, hk, h⟩ := (Option.any_eq_true _ _).1 h
  obtain ⟨s, hs, h⟩ := (Option.any_eq_true _ _).1 h
  simp only [Bool.and_eq_true, decide_eq_true_eq] at h
  exact ⟨k, s, started_boot hk, reach_of_checked (fun _ _ _ _ => trivial) hs, h.1, h.2⟩

end Machine

end Jos
