import Jos.Proof.Cr3

/-!
# The privileges of the saved frames

An environment's frame is made by `env_alloc` and `env_create`, saved by `trap`, copied by
`sys_exofork` and redirected by `page_fault_handler`. The processor keeps the privileges of the
frame that it was given (`Hw`), so the frames are right (`FrameOk`) as long as a slot has the type
of the frame that is saved in it, and `sys_exofork` copies the frame of an environment of the type
that it gives to the child (`ForkOk`): a child of the file server has its `IOPL`
(`privileges_counterexample`).
-/

namespace Jos

variable {n : ℕ} {k₀ k k' : Kernel} {e cur : EnvIdx} {o : Outcome} {call : Syscall} {r : ℤ} {type : EnvType}

/-- `FL_IOPL_MASK`. -/
def flIoplMask : BitVec 64 := 0x3000#64

/-- **No more privilege** than an environment of this type has: level 3, interrupts on and no
`IOPL`, but for the file server. -/
structure TfOk (type : EnvType) (tf : Trapframe) : Prop where
  cs : tf.tfCs &&& 3 = 3
  ss : tf.tfSs &&& 3 = 3
  flIf : type ≠ .fs → tf.tfEflags &&& flIf ≠ 0
  iopl : tf.tfEflags &&& flIoplMask ≠ 0 → type = .fs

/-- The saved frame of an environment is right for its type. -/
def FrameOk (v : Env) : Prop := TfOk v.envType v.envTf

/-- What counts. -/
def priv (v : Env) : EnvType × BitVec 16 × BitVec 16 × BitVec 64 :=
  (v.envType, v.envTf.tfCs, v.envTf.tfSs, v.envTf.tfEflags)

theorem TfOk.congr {tf tf' : Trapframe} (h : TfOk type tf) (h1 : tf'.tfCs = tf.tfCs) (h2 : tf'.tfSs = tf.tfSs)
    (h3 : tf'.tfEflags = tf.tfEflags) : TfOk type tf' :=
  ⟨by rw [h1]; exact h.cs, by rw [h2]; exact h.ss, by rw [h3]; exact h.flIf, by rw [h3]; exact h.iopl⟩

theorem FrameOk.congr {v v' : Env} (h : FrameOk v) (hp : priv v' = priv v) : FrameOk v' := by
  simp only [priv, Prod.mk.injEq] at hp
  obtain ⟨h1, h2, h3, h4⟩ := hp
  unfold FrameOk at *
  rw [h1]
  exact h.congr h2 h3 h4

theorem type_congr {v v' : Env} (hp : priv v' = priv v) : v'.envType = v.envType := congrArg Prod.fst hp

/-! ## The kernel's functions -/

/-- A change that leaves the privileges alone, and makes at most `cur` alive. -/
def SamePriv (cur : EnvIdx) (k k' : Kernel) : Prop :=
  (∀ x, priv (k'.envs x) = priv (k.envs x)) ∧ ∀ x, k'.Live x → k.Live x ∨ x = cur

theorem SamePriv.refl : SamePriv cur k k := ⟨fun _ => rfl, fun _ => Or.inl⟩

theorem samePriv_setEnv {v : Env} (hp : priv v = priv (k.envs e)) (hl : k.Live e ∨ e = cur ∨ v.envStatus = .free) :
    SamePriv cur k (k.setEnv e v) := by
  refine ⟨fun x => ?_, fun x hx => ?_⟩
  · by_cases hxe : x = e
    · rw [hxe, Kernel.setEnv_self, hp]
    · rw [Kernel.setEnv_of_ne hxe]
  · by_cases hxe : x = e
    · subst hxe
      rcases hl with h | h | h
      · exact Or.inl h
      · exact Or.inr h
      · unfold Kernel.Live at hx
        rw [Kernel.setEnv_self] at hx
        exact absurd h hx
    · unfold Kernel.Live at *
      rw [Kernel.setEnv_of_ne hxe] at hx
      exact Or.inl hx

theorem envFree_samePriv (h : envFree k e = some k') : SamePriv cur k k' := by
  unfold envFree at h
  obtain ⟨root, -, h⟩ := Option.bind_eq_some_iff.1 h
  obtain ⟨m, -, h⟩ := Option.bind_eq_some_iff.1 h
  cases h
  exact samePriv_setEnv (k := k.setPm m) rfl (Or.inr (Or.inr rfl))

theorem envDestroy_samePriv {c : Option EnvIdx} {g : Bool} (h : envDestroy k c e = some (g, k')) :
    SamePriv cur k k' := by
  rcases envDestroy_cases h with ⟨hr, -, -, rfl⟩ | ⟨-, -, h1⟩
  · exact samePriv_setEnv rfl (Or.inl (by unfold Kernel.Live; rw [hr]; decide))
  · exact envFree_samePriv h1

/-- **The system calls**, but for `sys_exofork`. -/
theorem exec_samePriv (h : call.exec k cur = some o) (hne : call ≠ .exofork) : SamePriv cur k o.state := by
  cases exec_envEffect h with
  | memory => exact .refl
  | yield => exact .refl
  | @killed s len m g k' h1 => exact envDestroy_samePriv (k := k.setPm m) h1
  | @destroy envid e g k' h1 h2 =>
    have h3 : SamePriv cur k k' := envDestroy_samePriv h2
    cases g <;> exact h3
  | failedFork => exact absurd rfl hne
  | fork => exact absurd rfl hne
  | @setStatus envid status e hst h1 => exact samePriv_setEnv rfl ((envid2env_live_or h1).imp_right Or.inl)
  | @upcall envid func e =>
    refine ⟨fun x => ?_, fun x hx => Or.inl ?_⟩ <;> unfold Outcome.state at * <;> by_cases hxe : x = e
    · rw [hxe, Kernel.setEnv_self]
      rfl
    · rw [Kernel.setEnv_of_ne hxe]
    · unfold Kernel.Live at *
      rw [hxe, Kernel.setEnv_self] at hx
      rwa [hxe]
    · unfold Kernel.Live at *
      rwa [Kernel.setEnv_of_ne hxe] at hx
  | @sent envid value srcva perm e m p h1 h2 =>
    exact samePriv_setEnv (k := k.setPm m) rfl ((envid2env_live_or h1).imp_right Or.inl)
  | recv => exact samePriv_setEnv rfl (Or.inr (Or.inl rfl))

/-- The frame that `env_alloc` makes. -/
theorem envAlloc_frame {parent : EnvId} (h : envAlloc k parent = some (.ok e, k')) :
    (k'.envs e).envType = .user ∧ FrameOk (k'.envs e) := by
  unfold envAlloc at h
  cases hh : k.envFreeList with
  | none => rw [hh] at h; cases h
  | some a =>
    rw [hh] at h
    obtain ⟨⟨r, k₁⟩, h1, h⟩ := Option.bind_eq_some_iff.1 h
    rcases envSetupVm_cases h1 with ⟨hr, -⟩ | ⟨rfl, m, p, c, rfl⟩
    · simp only [if_pos hr] at h
      cases h
    · simp only [lt_irrefl, if_false] at h
      cases h
      simp only [Kernel.setFree_envs, Kernel.setEnv_self, true_and]
      unfold FrameOk
      dsimp only
      exact ⟨by decide, by decide, fun _ => by decide, fun h => absurd h (by decide)⟩

/-- **`sys_exofork`**: the child has the privileges of its parent. -/
theorem sysExofork_frame (h : sysExofork k cur = some (r, k')) : SamePriv cur k k' ∨
    ∃ e, k.envFreeList = some e ∧ (∀ x, x ≠ e → k'.envs x = k.envs x) ∧ (k'.envs e).envType = .user ∧
      (FrameOk (k.envs cur) → (k.envs cur).envType = .user → FrameOk (k'.envs e)) := by
  obtain ⟨⟨r₁, k₁⟩, h1, h⟩ := Option.bind_eq_some_iff.1 h
  rcases r₁ with r₁ | e
  · cases h
    obtain ⟨-, h2, -⟩ := envAlloc_failed h1
    exact Or.inl ⟨fun x => by rw [h2], fun x hx => Or.inl (by unfold Kernel.Live at *; rwa [h2] at hx)⟩
  · cases h
    have hi := envAlloc_issued h1
    obtain ⟨h2, h3⟩ := envAlloc_frame h1
    refine Or.inr ⟨e, hi.head, fun x hx => ?_, ?_, fun hf ht => ?_⟩
    · rw [Kernel.setEnv_of_ne hx, hi.other x hx]
    · rw [Kernel.setEnv_self]
      exact h2
    · rw [Kernel.setEnv_self]
      have h4 : TfOk .user (k₁.envs cur).envTf := by
        by_cases hx : cur = e
        · rw [hx, ← h2]
          exact h3
        · rw [hi.other cur hx, ← ht]
          exact hf
      unfold FrameOk
      dsimp only
      rw [h2]
      exact h4.congr rfl rfl rfl

/-- The environments that `i386_init` makes. -/
theorem envCreate_frames {b : Binary} (h : ∀ e, k.Live e → FrameOk (k.envs e))
    (hc : envCreate k b type = some k') : ∀ e, k'.Live e → FrameOk (k'.envs e) := by
  unfold envCreate at hc
  obtain ⟨⟨r, k₁⟩, h1, hc⟩ := Option.bind_eq_some_iff.1 hc
  cases r with
  | error r => cases hc
  | ok e =>
    obtain ⟨k₂, h2, hc⟩ := Option.bind_eq_some_iff.1 hc
    cases hc
    have hi := envAlloc_issued h1
    obtain ⟨h3, h4⟩ := envAlloc_frame h1
    have hp := loadIcode_env (f := priv) h2 (fun _ _ => rfl) fun _ _ => rfl
    have hst := loadIcode_env (f := Env.envStatus) h2 (fun _ _ => rfl) fun _ _ => rfl
    intro x hx
    by_cases hxe : x = e
    · subst hxe
      rw [Kernel.setEnv_self]
      have h5 : FrameOk (k₂.envs x) := h4.congr (hp x)
      have h6 : TfOk .user (k₂.envs x).envTf := by
        have h7 := type_congr (hp x)
        rw [h3] at h7
        rw [← h7]
        exact h5
      unfold FrameOk
      dsimp only
      cases type with
      | user => exact h6
      | fs => exact ⟨h6.cs, h6.ss, fun h => absurd rfl h, fun _ => rfl⟩
    · unfold Kernel.Live at hx
      rw [Kernel.setEnv_of_ne hxe] at hx ⊢
      rw [hst x, hi.other x hxe] at hx
      refine (h x hx).congr ?_
      rw [hp x, hi.other x hxe]

namespace Machine

variable {s s' : Machine n} {c : Fin n} {tf : Trapframe} {io : Io} {as : List (Act n)}

/-! ## The CPUs -/

/-- The frame that CPU `c` has resumed last. -/
def lastTf (c : Fin n) (l : List (Act n)) : Option Trapframe :=
  l.findSome? fun
    | .resume c' _ tf => if c' = c then some tf else none
    | _ => none

/-- **The processor**: from the frame that it resumed to the one that a trap saves, user code
cannot change `IOPL`, nor the interrupt flag where `IOPL` is 0; it stays in level 3. -/
structure Hw (tf₀ tf : Trapframe) : Prop where
  ss : tf.tfSs &&& 3 = 3
  iopl : tf.tfEflags &&& flIoplMask = tf₀.tfEflags &&& flIoplMask
  flIf : tf₀.tfEflags &&& flIoplMask = 0 → tf.tfEflags &&& flIf = tf₀.tfEflags &&& flIf

/-- What the processor does in a trap. -/
def HwOk (s : Machine n) : Ev n → Prop
  | .trap c tf _ => ∀ tf₀ ∈ lastTf c s.log, Hw tf₀ tf
  | _ => True

/-- **No child of the file server**: the environment that calls `sys_exofork` is none, and the
slot that it gives out is not one that the file server still runs in. -/
def ForkOk (s : Machine n) : Ev n → Prop
  | .trap c tf io => callOf tf io = some .exofork →
    (∀ cur ∈ s.curenv c, (s.k.envs cur).envType = .user) ∧
      ∀ e ∈ s.k.envFreeList, (∃ c', s.curenv c' = some e) → (s.k.envs e).envType = .user
  | _ => True

theorem Hw.tfOk {tf₀ : Trapframe} (hw : Hw tf₀ tf) (h : TfOk type tf₀) (hcs : tf.tfCs &&& 3 = 3) :
    TfOk type tf := by
  refine ⟨hcs, hw.ss, fun ht => ?_, fun h1 => h.iopl (by rwa [← hw.iopl])⟩
  have h1 : tf₀.tfEflags &&& flIoplMask = 0 := by_contra fun h1 => ht (h.iopl h1)
  rw [hw.flIf h1]
  exact h.flIf ht

/-- An environment that is alive or on some CPU. -/
def Used (s : Machine n) (e : EnvIdx) : Prop := s.k.Live e ∨ ∃ c, s.curenv c = some e

theorem used_lcr3 {v : BitVec 64} : (s.lcr3 c v).Used e ↔ s.Used e := by
  unfold Used
  rw [lcr3_curenv]
  rfl

/-- The invariant: the frames are right, and so is the frame that each CPU has resumed for the
environment that it runs. -/
structure Priv (s : Machine n) : Prop where
  frames : ∀ e, s.Used e → FrameOk (s.k.envs e)
  user : ∀ c e, s.curenv c = some e → ∃ tf, lastTf c s.log = some tf ∧ TfOk (s.k.envs e).envType tf

/-- An entry of the log that is no `env_run`. -/
def NoResume (as : List (Act n)) : Prop := ∀ a ∈ as, ∀ c e tf, a ≠ .resume c e tf

theorem lastTf_append {l : List (Act n)} (h : NoResume as) : lastTf c (as ++ l) = lastTf c l := by
  unfold lastTf
  rw [List.findSome?_append, List.findSome?_eq_none_iff.2 fun a ha => ?_]
  · rfl
  · cases a with
    | resume c' e tf => exact absurd rfl (h _ ha c' e tf)
    | _ => rfl

theorem noResume_acts : NoResume (acts (n := n) k cur r call) := by
  intro a ha c e tf
  cases call with
  | exofork | ipcTrySend _ _ _ _ =>
    unfold acts at ha
    dsimp only at ha
    split at ha
    · obtain ⟨x, -, rfl⟩ := List.mem_map.1 ha
      simp
    · cases ha
  | ipcRecv _ =>
    unfold acts at ha
    dsimp only at ha
    split at ha
    · rw [List.mem_singleton.1 ha]
      simp
    · cases ha
  | _ => cases ha

namespace Priv

variable (h : Priv s)
include h

theorem addLog (ha : NoResume as) : Priv (s.addLog as) := by
  refine ⟨h.frames, fun c e hc => ?_⟩
  rw [addLog_log, lastTf_append ha]
  exact h.user c e hc

/-- A step that leaves the privileges alone. -/
theorem setK (hu : s.Used cur) (hk : SamePriv cur s.k k) : Priv (s.setK k) := by
  refine ⟨fun e he => ?_, fun c' e hc' => ?_⟩
  · refine (h.frames e ?_).congr (hk.1 e)
    rcases he with he | he
    · rcases hk.2 e he with h1 | rfl
      · exact Or.inl h1
      · exact hu
    · exact Or.inr he
  · rw [setK_k, type_congr (hk.1 e)]
    exact h.user c' e hc'

theorem setPm (m : Pmap) : Priv (s.setK (s.k.setPm m)) := ⟨h.frames, h.user⟩

/-- A CPU without an environment. -/
theorem drop (hk : s'.k = s.k) (hl : s'.log = s.log) (hc : ∀ c e, s'.curenv c = some e → s.curenv c = some e) :
    Priv s' := by
  refine ⟨fun e he => ?_, fun c e h1 => ?_⟩
  · rw [hk]
    refine h.frames e (he.imp (fun h1 => hk ▸ h1) ?_)
    rintro ⟨c, h1⟩
    exact ⟨c, hc c e h1⟩
  · rw [hk, hl]
    exact h.user c e (hc c e h1)

theorem setTf (ht : TfOk (s.k.envs cur).envType tf) : Priv (s.setTf cur tf) := by
  refine ⟨fun e he => ?_, fun c e hc => ?_⟩
  · rw [setTf_env]
    unfold FrameOk
    dsimp only
    split
    · rename_i hx
      rw [hx]
      exact ht
    · refine h.frames e (he.imp_left fun h1 => ?_)
      unfold Kernel.Live at *
      rwa [setTf_env] at h1
  · rw [setTf_env]
    exact h.user c e hc

/-- `env_run` resumes a frame that is right. -/
theorem envRun (he : s.Used e) : Priv (s.envRun c e) := by
  have hk : (s.envRun c e).k = Jos.envRun s.k (s.curenv c) e := rfl
  have hp : ∀ x, priv ((s.envRun c e).k.envs x) = priv (s.k.envs x) := by
    intro x
    obtain ⟨r, hr⟩ := envRun_env s.k (s.curenv c) e x
    rw [hk, hr]
    rfl
  have hused : ∀ x, (s.envRun c e).Used x → s.Used x := by
    rintro x (hx | ⟨c', hx⟩)
    · by_cases hxe : x = e
      · rwa [hxe]
      · refine Or.inl fun h1 => hx ?_
        obtain ⟨r, hr⟩ := envRun_env s.k (s.curenv c) e x
        rw [hk, hr]
        dsimp only
        have h2 : ¬ (s.curenv c = some x ∧ (s.k.envs x).envStatus = .running) := by
          rw [h1]
          simp
        rw [if_neg hxe, if_neg h2, h1]
    · rw [envRun_curenv] at hx
      split at hx
      · cases hx
        exact he
      · exact Or.inr ⟨c', hx⟩
  have hlog : (s.envRun c e).log = .resume c e ((s.envRun c e).k.envs e).envTf :: s.log := rfl
  have hframes : ∀ x, (s.envRun c e).Used x → FrameOk ((s.envRun c e).k.envs x) :=
    fun x hx => (h.frames x (hused x hx)).congr (hp x)
  refine ⟨hframes, fun c' x hx => ?_⟩
  rw [hlog]
  unfold lastTf
  rw [List.findSome?_cons]
  rw [envRun_curenv] at hx
  by_cases hc : c' = c
  · rw [if_pos hc] at hx
    cases hx
    refine ⟨_, by rw [hc]; simp, hframes e (Or.inr ⟨c, ?_⟩)⟩
    rw [envRun_curenv, if_pos rfl]
  · rw [if_neg hc] at hx
    obtain ⟨tf, h1, h2⟩ := h.user c' x hx
    refine ⟨tf, by simpa [Ne.symm hc, lastTf] using h1, ?_⟩
    rw [type_congr (hp x)]
    exact h2

/-- **Leaving the kernel.** -/
theorem leave (hl : Leaves c s s') : Priv s' := by
  cases hl with
  | sched hr => exact h.envRun (Or.inl (by unfold Kernel.Live; rw [hr]; decide))
  | back hc hr => exact h.envRun (Or.inr ⟨c, hc⟩)
  | upcall hc hf => exact h.envRun (Or.inr ⟨c, hc⟩)
  | halt =>
    refine h.drop rfl rfl fun c' e h1 => ?_
    unfold curenv setCpu at h1
    by_cases hc : c' = c
    · simp [hc] at h1
    · simpa [hc, curenv] using h1

end Priv

/-! ## A stay in the kernel -/

/-- What a function leaves that works for `cur`: the invariant, and the type of `cur`. -/
structure Good (cur : EnvIdx) (s s' : Machine n) : Prop where
  priv : Priv s'
  type : (s'.k.envs cur).envType = (s.k.envs cur).envType

namespace Priv

variable (h : Priv s)
include h

theorem good_setK (hu : s.Used cur) (hk : SamePriv cur s.k k) : Good cur s (s.setK k) :=
  ⟨h.setK hu hk, type_congr (hk.1 cur)⟩

theorem envFree (hu : s.Used cur) (hs : s.envFree c e = some s') : Good cur s s' := by
  unfold Machine.envFree at hs
  obtain ⟨k', h1, hs⟩ := Option.bind_eq_some_iff.1 hs
  cases hs
  have hlog : Priv (s.addLog [.free c e s.curenv]) := h.addLog fun a ha => by
    rw [List.mem_singleton.1 ha]
    simp
  -- loading `boot_cr3` changes neither the environments nor who runs
  split at h1
  · rename_i hc
    rw [if_pos hc]
    have hcr3 : Priv ((s.addLog [.free c e s.curenv]).lcr3 c (s.addLog [.free c e s.curenv]).bootCr3) :=
      hlog.drop rfl rfl fun c' x hx => by rwa [lcr3_curenv] at hx
    have h2 := hcr3.good_setK (used_lcr3.2 hu) (envFree_samePriv h1)
    exact ⟨h2.priv, h2.type⟩
  · rename_i hc
    rw [if_neg hc]
    have h2 := hlog.good_setK hu (envFree_samePriv h1)
    exact ⟨h2.priv, h2.type⟩

theorem envDestroy {r : Result n Unit} (hu : s.Used cur) (hs : s.envDestroy c e = some r) :
    Good cur s r.state := by
  unfold Machine.envDestroy at hs
  split at hs
  · rename_i hrun
    cases hs
    exact h.good_setK hu (samePriv_setEnv rfl (Or.inl (by unfold Kernel.Live; rw [hrun.1]; decide)))
  · obtain ⟨s₁, h1, hs⟩ := Option.bind_eq_some_iff.1 hs
    have h2 := h.envFree hu h1
    split at hs
    · cases hs
      refine ⟨h2.priv.drop rfl rfl fun c' x hx => ?_, h2.type⟩
      change (s₁.setCurenv c none).curenv c' = some x at hx
      rw [setCurenv_curenv] at hx
      dsimp only at hx
      split at hx
      · cases hx
      · exact hx
    · cases hs
      exact h2

/-- `sys_exofork` in a run that makes no child of the file server. -/
theorem fork (hother : ∀ x, x ≠ e → k.envs x = s.k.envs x)
    (ht : (k.envs e).envType = .user) (hf : FrameOk (k.envs e)) (hcur : (s.k.envs cur).envType = .user)
    (hrun : (∃ c', s.curenv c' = some e) → (s.k.envs e).envType = .user) : Good cur s (s.setK k) := by
  refine ⟨⟨fun x hx => ?_, fun c' x hx => ?_⟩, ?_⟩
  · by_cases hxe : x = e
    · rw [hxe]
      exact hf
    · rw [setK_k, hother x hxe]
      refine h.frames x (hx.imp_left fun h1 => ?_)
      unfold Kernel.Live at *
      rwa [setK_k, hother x hxe] at h1
  · obtain ⟨tf, h1, h2⟩ := h.user c' x hx
    refine ⟨tf, h1, ?_⟩
    by_cases hxe : x = e
    · rw [hxe] at h2 hx ⊢
      rw [setK_k, ht, ← hrun ⟨c', hx⟩]
      exact h2
    · rw [setK_k, hother x hxe]
      exact h2
  · by_cases hxe : cur = e
    · rw [hcur, hxe, setK_k, ht]
    · rw [setK_k, hother cur hxe]

theorem syscall {r : Result n ℤ} (hu : s.Used cur)
    (hfork : call = .exofork → (s.k.envs cur).envType = .user ∧
      ∀ e ∈ s.k.envFreeList, (∃ c', s.curenv c' = some e) → (s.k.envs e).envType = .user)
    (hs : s.syscall c cur call = some r) : Good cur s r.state := by
  have hexec : (∀ va len, call ≠ .cputs va len) → (∀ envid, call ≠ .envDestroy envid) →
      call ≠ .exofork → Good cur s r.state := by
    intro hn hd hne
    obtain ⟨x, k, h1, rfl⟩ | ⟨k, h1, rfl⟩ := syscall_exec hs hn hd
    · have h2 := h.good_setK hu (exec_samePriv h1 hne)
      exact ⟨h2.priv.addLog noResume_acts, h2.type⟩
    · exact h.good_setK hu (exec_samePriv h1 hne)
  cases call with
  | envDestroy envid =>
    simp only [Machine.syscall] at hs
    split at hs
    · cases hs
      exact ⟨h, rfl⟩
    · obtain ⟨r₁, h2, hs⟩ := Option.bind_eq_some_iff.1 hs
      cases hs
      rw [Result.map_state]
      exact h.envDestroy hu h2
  | cputs va len =>
    simp only [Machine.syscall] at hs
    obtain ⟨p, -, hs⟩ := Option.bind_eq_some_iff.1 hs
    obtain ⟨⟨y, m⟩, -, hs⟩ := Option.bind_eq_some_iff.1 hs
    have hm : Priv (s.setK (s.k.setPm m)) := h.setPm m
    cases y with
    | none =>
      cases hs
      exact ⟨hm, rfl⟩
    | some a =>
      obtain ⟨r₁, h2, hs⟩ := Option.bind_eq_some_iff.1 hs
      cases hs
      rw [Result.map_state]
      have h3 := hm.envDestroy hu h2
      exact ⟨h3.priv, h3.type⟩
  | exofork =>
    obtain ⟨hcur, hrun⟩ := hfork rfl
    obtain ⟨x, k, h1, rfl⟩ | ⟨k, h1, -⟩ := syscall_exec hs (by simp) (by simp)
    · obtain ⟨⟨y, k₁⟩, h1, h2⟩ := Option.map_eq_some_iff.1 h1
      cases h2
      have h3 : Good cur s (s.setK k) := by
        rcases sysExofork_frame h1 with h2 | ⟨e, hnew, hother, ht, hf⟩
        · exact h.good_setK hu h2
        · exact h.fork hother ht (hf (h.frames cur hu) hcur) hcur (hrun e hnew)
      exact ⟨h3.priv.addLog noResume_acts, h3.type⟩
    · obtain ⟨y, -, h2⟩ := Option.map_eq_some_iff.1 h1
      cases h2
  | _ => exact hexec (by simp) (by simp) (by simp)

theorem pageFaultHandler {r : Result n Unit} (hc : s.curenv c = some cur)
    (ht : TfOk (s.k.envs cur).envType tf) (hs : s.pageFaultHandler c cur tf io = some r) : Priv r.state := by
  have hu : s.Used cur := Or.inr ⟨c, hc⟩
  unfold Machine.pageFaultHandler at hs
  split at hs
  · obtain ⟨p, -, hs⟩ := Option.bind_eq_some_iff.1 hs
    obtain ⟨⟨y, m⟩, -, hs⟩ := Option.bind_eq_some_iff.1 hs
    cases y with
    | some a => exact ((h.setPm m).envDestroy hu hs).priv
    | none =>
      obtain ⟨m', -, hs⟩ := Option.bind_eq_some_iff.1 hs
      cases hs
      refine Priv.envRun (Priv.setTf ((h.setPm m).setPm m') ?_) (Or.inr ⟨c, hc⟩)
      exact ht.congr rfl rfl rfl
  · exact (h.envDestroy hu hs).priv

theorem trapDispatch {r : Result n Unit} (hc : s.curenv c = some cur) (ht : TfOk (s.k.envs cur).envType tf)
    (hfork : callOf tf io = some .exofork → (s.k.envs cur).envType = .user ∧
      ∀ e ∈ s.k.envFreeList, (∃ c', s.curenv c' = some e) → (s.k.envs e).envType = .user)
    (hs : s.trapDispatch c cur tf io = some r) : Priv r.state := by
  have hu : s.Used cur := Or.inr ⟨c, hc⟩
  unfold Machine.trapDispatch at hs
  split at hs
  · exact h.pageFaultHandler hc ht hs
  split at hs
  · cases hs
    exact h
  split at hs
  · rename_i hsys
    simp only at hs
    split at hs
    · cases hs
      exact h.setTf (ht.congr rfl rfl rfl)
    · rename_i call hcall
      obtain ⟨r₁, h1, hs⟩ := Option.bind_eq_some_iff.1 hs
      have hco : callOf tf io = some call := by
        unfold callOf
        rw [if_pos hsys]
        exact hcall
      have h2 := h.syscall hu (fun he => hfork (he ▸ hco)) h1
      cases r₁ with
      | ret x s₁ =>
        cases hs
        refine h2.priv.setTf ?_
        rw [h2.type]
        exact ht.congr rfl rfl rfl
      | yield s₁ =>
        cases hs
        exact h2.priv
      | left s₁ =>
        cases hs
        exact h2.priv
  split at hs
  · cases hs
    exact h
  split at hs
  · cases hs
    exact h
  split at hs
  · cases hs
  · exact (h.envDestroy hu hs).priv

/-- **A step keeps the invariant.** -/
theorem step {ev : Ev n} (hhw : HwOk s ev) (hfork : ForkOk s ev) (hs : s.step ev = some s') : Priv s' := by
  cases ev with
  | sched c => exact h.leave (sched_leaves hs).2
  | store c va v =>
    obtain ⟨m, rfl⟩ := store_alike hs
    exact h.setPm m
  | trap c tf io =>
    simp only [Machine.step] at hs
    split at hs
    · rename_i hcs
      unfold trap at hs
      split at hs
      · cases hs
      rename_i cur hc
      have hu : s.Used cur := Or.inr ⟨c, hc⟩
      split at hs
      · obtain ⟨s₁, h1, hs⟩ := Option.bind_eq_some_iff.1 hs
        have h2 : Priv (s₁.setCurenv c none) := (h.envFree hu h1).priv.drop rfl rfl fun c' x hx => by
          rw [setCurenv_curenv] at hx
          dsimp only at hx
          split at hx
          · cases hx
          · exact hx
        exact h2.leave (schedYield_leaves hs)
      · obtain ⟨r, h1, hs⟩ := Option.bind_eq_some_iff.1 hs
        -- the frame that is saved has the privileges of the one that was resumed
        obtain ⟨tf₀, h2, h3⟩ := h.user c cur hc
        have ht : TfOk (s.k.envs cur).envType tf := (hhw tf₀ h2).tfOk h3 hcs
        have henter : Priv ((s.setTf cur tf).addLog [.enter c cur]) := (h.setTf ht).addLog fun a ha => by
          rw [List.mem_singleton.1 ha]
          simp
        have htype : ∀ x, (((s.setTf cur tf).addLog [.enter c cur]).k.envs x).envType = (s.k.envs x).envType :=
          fun x => by rw [addLog_k, setTf_env]
        have h4 := henter.trapDispatch (c := c) hc (by rw [htype]; exact ht) (fun hco => by
          obtain ⟨h5, h6⟩ := hfork hco
          simp only [htype]
          exact ⟨h5 cur hc, h6⟩) h1
        cases r with
        | yield s₁ => exact h4.leave (schedYield_leaves hs)
        | left s₁ =>
          cases hs
          exact h4
        | ret u s₁ =>
          simp only at hs
          split at hs
          · rename_i x hx
            split at hs
            · cases hs
              exact h4.envRun (Or.inr ⟨c, hx⟩)
            · exact h4.leave (schedYield_leaves hs)
          · exact h4.leave (schedYield_leaves hs)
    · cases hs

end Priv

/-! ## The runs -/

theorem priv_start (h : ∀ e, k.Live e → FrameOk (k.envs e)) : Priv (start (n := n) k) :=
  ⟨fun e he => h e (he.resolve_right fun ⟨_, hc⟩ => by cases hc), fun _ _ hc => by cases hc⟩

theorem frames_started (hs : Started (envInit k₀) k) : ∀ e, k.Live e → FrameOk (k.envs e) := by
  obtain ⟨evs, h1, h2⟩ := hs
  refine Lib.loop_inv (P := fun k => ∀ e, k.Live e → FrameOk (k.envs e)) (fun ev hev b b' hb hstep => ?_) h2 ?_
  · obtain ⟨binary, type, rfl⟩ := h1 ev hev
    exact envCreate_frames hb hstep
  · intro e he
    have h3 : SlotsInv [] (envInit k₀) := .init
    exact absurd rfl (h3.live e he)

theorem Priv.reach {s₀ : Machine n} (h : Priv s₀) (hr : Reach (fun s ev => HwOk s ev ∧ ForkOk s ev) s₀ s) :
    Priv s := by
  induction hr with
  | init => exact h
  | step _ hg hs ih => exact ih.step hg.1 hg.2 hs

/-- **The saved frames gain no privilege**, in the runs that make no child of the file server: every
environment that is alive has a frame of level 3, with interrupts on and no `IOPL` unless it is the
file server. -/
theorem frames_privilege (hs : Started (envInit k₀) k)
    (hr : Reach (fun s ev => HwOk s ev ∧ ForkOk s ev) (start k) s) (he : s.k.Live e) :
    FrameOk (s.k.envs e) := by
  have h : Priv s := (priv_start (frames_started hs)).reach hr
  exact h.frames e (Or.inl he)

/-! ### Runs with the file server -/

deriving instance DecidableEq for Syscall

instance (tf₀ tf : Trapframe) : Decidable (Hw tf₀ tf) :=
  decidable_of_iff (tf.tfSs &&& 3 = 3 ∧ tf.tfEflags &&& flIoplMask = tf₀.tfEflags &&& flIoplMask ∧
    (tf₀.tfEflags &&& flIoplMask = 0 → tf.tfEflags &&& flIf = tf₀.tfEflags &&& flIf))
    ⟨fun h => ⟨h.1, h.2.1, h.2.2⟩, fun h => ⟨h.ss, h.iopl, h.flIf⟩⟩

instance (s : Machine n) : (ev : Ev n) → Decidable (HwOk s ev)
  | .sched _ | .store .. => .isTrue trivial
  | .trap c tf _ => inferInstanceAs (Decidable (∀ tf₀ ∈ lastTf c s.log, Hw tf₀ tf))

instance (s : Machine n) : (ev : Ev n) → Decidable (ForkOk s ev)
  | .sched _ | .store .. => .isTrue trivial
  | .trap c tf io => inferInstanceAs (Decidable (callOf tf io = some .exofork →
      (∀ cur ∈ s.curenv c, (s.k.envs cur).envType = .user) ∧
        ∀ e ∈ s.k.envFreeList, (∃ c', s.curenv c' = some e) → (s.k.envs e).envType = .user))

/-- A system call without arguments, from a program with these flags. -/
def flagsEv (c : Fin n) (no eflags : BitVec 64) : Ev n :=
  .trap c { tfTrapno := tSyscall, tfCs := 0x1b, tfSs := 0x23, tfEflags := eflags, tfRegs := { rax := no } } {}

/-- The file server and a program. -/
def fsBoot : List Event := [.create bootBinary .fs, .create bootBinary .user]

theorem started_fsBoot (h : Jos.runs (envInit bootKernel) fsBoot = some k) : Started (envInit bootKernel) k :=
  ⟨fsBoot, by simp [fsBoot], h⟩

/-- The file server yields, and the program makes a child. -/
theorem frames_privilege_fs : ∃ k, ∃ s : Machine 2, Started (envInit bootKernel) k ∧
    Reach (fun s ev => HwOk s ev ∧ ForkOk s ev) (start k) s ∧ s.k.Live 2 ∧ FrameOk (s.k.envs 2) ∧
    (s.k.envs 0).envTf.tfEflags = 0x3202 := by
  have h : ((Jos.runs (envInit bootKernel) fsBoot).any fun k =>
      ([.sched 0, flagsEv 0 11 0x3202, flagsEv 0 7 0x202].foldlM
        (fun s ev => if HwOk s ev ∧ ForkOk s ev then step s ev else none) (start k)).any fun s : Machine 2 =>
        decide (s.k.Live 2) && decide ((s.k.envs 0).envTf.tfEflags = 0x3202)) = true := by decide +kernel
  obtain ⟨k, hk, h⟩ := (Option.any_eq_true _ _).1 h
  obtain ⟨s, hs, h⟩ := (Option.any_eq_true _ _).1 h
  simp only [Bool.and_eq_true, decide_eq_true_eq] at h
  have hr : Reach (fun s ev => HwOk s ev ∧ ForkOk s ev) (start k) s := reach_of_checked (fun _ _ _ hq => hq) hs
  exact ⟨k, s, started_fsBoot hk, hr, h.1, frames_privilege (started_fsBoot hk) hr h.1, h.2⟩

/-- **A child of the file server** has `ENV_TYPE_USER`, and the `IOPL` of its parent. -/
theorem frames_privilege_counterexample : ∃ k, ∃ s : Machine 2, Started (envInit bootKernel) k ∧
    Reach HwOk (start k) s ∧ s.k.Live 2 ∧ (s.k.envs 2).envType = .user ∧
    (s.k.envs 2).envTf.tfEflags &&& flIoplMask ≠ 0 ∧ ¬ FrameOk (s.k.envs 2) := by
  have h : ((Jos.runs (envInit bootKernel) fsBoot).any fun k =>
      ([.sched 0, flagsEv 0 7 0x3202].foldlM
        (fun s ev => if HwOk s ev then step s ev else none) (start k)).any fun s : Machine 2 =>
        decide (s.k.Live 2) && decide ((s.k.envs 2).envType = .user) &&
          decide ((s.k.envs 2).envTf.tfEflags &&& flIoplMask ≠ 0)) = true := by decide +kernel
  obtain ⟨k, hk, h⟩ := (Option.any_eq_true _ _).1 h
  obtain ⟨s, hs, h⟩ := (Option.any_eq_true _ _).1 h
  simp only [Bool.and_eq_true, decide_eq_true_eq] at h
  obtain ⟨⟨h1, h2⟩, h3⟩ := h
  refine ⟨k, s, started_fsBoot hk, reach_of_checked (fun _ _ _ hq => hq) hs, h1, h2, h3, fun hf => ?_⟩
  cases h2.symm.trans (hf.iopl h3)

end Machine

end Jos
