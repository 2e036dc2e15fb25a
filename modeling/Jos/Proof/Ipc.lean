import Jos.Proof.Cpus

/-!
# Messages

`sys_ipc_recv` and `sys_ipc_try_send` on any number of CPUs. The log says which environment
waits (`Waits`): its last entry about messages is that `sys_ipc_recv` has blocked it.

* `MailOk` is what an entry says of the log before it: a message goes to an environment that
  waits, one that waits does not ask again, and one that returns from `sys_ipc_recv` finds 0 in
  `rax` and has got a message since.
* `Slot` is the invariant of one environment: it ties the log to `env_ipc_recving`,
  `env_status` and the saved frame.
* `ipc_exact` assembles what follows for sends and receives.
-/

namespace Jos

namespace Machine

variable {n : ℕ} {k₀ k k' : Kernel} {e x cur : EnvIdx} {s s' : Machine n} {c : Fin n}
variable {l : List (Act n)} {a : Act n} {tf : Trapframe}

/-- **The condition on requests**: no environment that waits for a message, or that another CPU
runs, gets its status set. Sends and destructions are free. -/
def Untouched (s : Machine n) (c : Fin n) : Req → Prop
  | .status e => (s.k.envs e).envIpcRecving = false ∧ ∀ c', c' ≠ c → s.curenv c' ≠ some e
  | .deliver _ => True
  | .destroy _ => True

theorem stable_untouched : Stable (Untouched (n := n)) := by
  intro s c q cur tf h
  cases q with
  | status e =>
    refine ⟨?_, h.2⟩
    rw [addLog_k, setTf_env]
    exact h.1
  | deliver e => trivial
  | destroy e => trivial

/-- After the entries `l`, environment `e` waits for a message. -/
def Waits (e : EnvIdx) (l : List (Act n)) : Prop := last isMail e l = some (.recv e)

/-- After the entries `l`, the saved frame of `e` returns from `sys_ipc_recv`. -/
def Returns (e : EnvIdx) (l : List (Act n)) : Prop := last isFrame e l = some (.recv e)

/-- A good entry of the log, after the entries `l`. -/
def MailOk (l : List (Act n)) : Act n → Prop
  | .sent _ _ e _ => Waits e l
  | .recv e => ¬ Waits e l
  | .resume _ e tf => Returns e l →
    tf.tfRegs.rax = 0 ∧ ∃ src srcId value, last isMail e l = some (.sent src srcId e value)
  | _ => True

/-- **The invariant of environment `e`.** -/
structure Slot (s : Machine n) (e : EnvIdx) : Prop where
  waits : Waits e s.log → (s.k.envs e).envIpcRecving = true
  recving : (s.k.envs e).envIpcRecving = true →
    Waits e s.log ∨ ((s.k.envs e).envStatus = .free ∧ ∀ c, s.curenv c ≠ some e)
  blocked : (s.k.envs e).envIpcRecving = true →
    (s.k.envs e).envStatus = .notRunnable ∨ (s.k.envs e).envStatus = .free
  got : ∀ src srcId value, last isMail e s.log = some (.sent src srcId e value) →
    (s.k.envs e).envIpcFrom = srcId ∧ (s.k.envs e).envIpcValue = value.setWidth 32
  rax : Returns e s.log → (s.k.envs e).envTf.tfRegs.rax = 0
  frame : Returns e s.log →
    Waits e s.log ∨ ∃ src srcId value, last isMail e s.log = some (.sent src srcId e value)

/-- What environment `e` has in its slot and in the log is the same in both states. -/
structure Kept (s s' : Machine n) (e : EnvIdx) : Prop where
  recving : (s'.k.envs e).envIpcRecving = (s.k.envs e).envIpcRecving
  status : (s'.k.envs e).envStatus = (s.k.envs e).envStatus
  sender : (s'.k.envs e).envIpcFrom = (s.k.envs e).envIpcFrom
  value : (s'.k.envs e).envIpcValue = (s.k.envs e).envIpcValue
  tf : (s'.k.envs e).envTf = (s.k.envs e).envTf
  mail : last isMail e s'.log = last isMail e s.log
  frame : last isFrame e s'.log = last isFrame e s.log

theorem Slot.kept (h : Slot s e) (hk : Kept s s' e)
    (hc : ∀ c, s'.curenv c = some e → s.curenv c = some e) : Slot s' e := by
  have hw : Waits e s'.log ↔ Waits e s.log := by unfold Waits; rw [hk.mail]
  have hr : Returns e s'.log ↔ Returns e s.log := by unfold Returns; rw [hk.frame]
  refine ⟨fun h1 => ?_, fun h1 => ?_, fun h1 => ?_, fun src id v h1 => ?_, fun h1 => ?_, fun h1 => ?_⟩
  · rw [hk.recving]; exact h.waits (hw.1 h1)
  · rw [hk.recving] at h1
    rw [hw, hk.status]
    exact (h.recving h1).imp id fun h2 => ⟨h2.1, fun c hcur => h2.2 c (hc c hcur)⟩
  · rw [hk.recving] at h1
    rw [hk.status]
    exact h.blocked h1
  · rw [hk.mail] at h1
    rw [hk.sender, hk.value]
    exact h.got _ _ _ h1
  · rw [hk.tf]; exact h.rax (hr.1 h1)
  · rw [hw, hk.mail]; exact h.frame (hr.1 h1)

/-- A slot that does not wait, and whose frame does not return from `sys_ipc_recv`, with no
message since it was given out or blocked. -/
theorem Slot.idle (h1 : (s.k.envs e).envIpcRecving = false) (h2 : ¬ Waits e s.log)
    (h3 : ∀ src srcId value, last isMail e s.log = some (.sent src srcId e value) →
      (s.k.envs e).envIpcFrom = srcId ∧ (s.k.envs e).envIpcValue = value.setWidth 32)
    (h4 : Returns e s.log → (s.k.envs e).envTf.tfRegs.rax = 0 ∧
      ∃ src srcId value, last isMail e s.log = some (.sent src srcId e value)) : Slot s e :=
  have hnot : (s.k.envs e).envIpcRecving ≠ true := by rw [h1]; decide
  ⟨fun h => absurd h h2, fun h => absurd h hnot, fun h => absurd h hnot, h3, fun h => (h4 h).1,
    fun h => Or.inr (h4 h).2⟩

/-- A slot that stays as it is, but for its status, if it does not wait. -/
theorem Slot.status (h : Slot s e) (h0 : (s.k.envs e).envIpcRecving = false)
    (h1 : (s'.k.envs e).envIpcRecving = (s.k.envs e).envIpcRecving)
    (h2 : (s'.k.envs e).envIpcFrom = (s.k.envs e).envIpcFrom)
    (h3 : (s'.k.envs e).envIpcValue = (s.k.envs e).envIpcValue)
    (h4 : (s'.k.envs e).envTf = (s.k.envs e).envTf) (hl : s'.log = s.log) : Slot s' e := by
  have hw : ¬ Waits e s.log := fun hw => by have := h.waits hw; rw [h0] at this; cases this
  refine .idle (h1.trans h0) (by rwa [hl]) (fun src id v hv => ?_) fun hr => ?_
  · rw [h2, h3]
    rw [hl] at hv
    exact h.got _ _ _ hv
  · rw [h4, hl]
    rw [hl] at hr
    exact ⟨h.rax hr, (h.frame hr).resolve_left hw⟩

/-- **The invariant.** -/
structure IpcInv (s : Machine n) : Prop where
  one : ∀ c c' e, s.curenv c = some e → s.curenv c' = some e → c = c'
  slot : ∀ e, Slot s e
  log : ∀ l₂ a l₁, s.log = l₂ ++ a :: l₁ → MailOk l₁ a

/-- The environment of CPU `c` does not wait, and the scheduler cannot pick it. -/
def Busy (s : Machine n) (c : Fin n) : Prop := ∀ e, s.curenv c = some e →
  (s.k.envs e).envIpcRecving = false ∧ (s.k.envs e).envStatus ≠ .runnable

/-- CPU `c` is in the kernel; until its environment has called `sys_ipc_recv`, it does not
wait. -/
structure IpcIn (c : Fin n) (s : Machine n) : Prop where
  inv : IpcInv s
  busy : ∀ c', c' ≠ c → Busy s c'
  entered : ∀ e, s.curenv c = some e → last isFrame e s.log = some (.enter c e) →
    (s.k.envs e).envIpcRecving = false

/-- No CPU is in the kernel. -/
structure IpcOut (s : Machine n) : Prop where
  inv : IpcInv s
  busy : ∀ c, Busy s c

/-- **One environment changes**: the others keep their slots, no CPU gets another
environment, and the new entry of the log, if there is one, is good. -/
theorem IpcIn.change (h : IpcIn c s) (e : EnvIdx) (hkept : ∀ x, x ≠ e → Kept s s' x)
    (hcur : ∀ c' x, s'.curenv c' = some x → s.curenv c' = some x) (hslot : Slot s' e)
    (hlog : ∀ l₂ a l₁, s'.log = l₂ ++ a :: l₁ → MailOk l₁ a)
    (hbusy : ∀ c', c' ≠ c → s.curenv c' = some e →
      (s'.k.envs e).envIpcRecving = false ∧ (s'.k.envs e).envStatus ≠ .runnable)
    (hent : s'.curenv c = some e → last isFrame e s'.log = some (.enter c e) →
      (s'.k.envs e).envIpcRecving = false) : IpcIn c s' := by
  refine ⟨⟨fun c₁ c₂ x h1 h2 => h.inv.one _ _ _ (hcur _ _ h1) (hcur _ _ h2), fun x => ?_, hlog⟩,
    fun c' hne x hx => ?_, fun x hx hf => ?_⟩
  · by_cases hxe : x = e
    · subst hxe; exact hslot
    · exact (h.inv.slot x).kept (hkept x hxe) fun c' hc' => hcur c' x hc'
  · by_cases hxe : x = e
    · subst hxe; exact hbusy c' hne (hcur _ _ hx)
    · rw [(hkept x hxe).recving, (hkept x hxe).status]
      exact h.busy c' hne x (hcur _ _ hx)
  · by_cases hxe : x = e
    · subst hxe; exact hent hx hf
    · rw [(hkept x hxe).recving]
      rw [(hkept x hxe).frame] at hf
      exact h.entered x (hcur _ _ hx) hf

theorem Kept.of_env {v : Env} (hx : x ≠ e) : Kept s (s.setK (s.k.setEnv e v)) x := by
  have h1 : (s.setK (s.k.setEnv e v)).k.envs x = s.k.envs x := Kernel.setEnv_of_ne hx
  exact ⟨by rw [h1], by rw [h1], by rw [h1], by rw [h1], by rw [h1], rfl, rfl⟩

/-- An entry that is not about the environment. -/
theorem Kept.addLog (h : Kept s s' x) (h1 : isMail x a = false) (h2 : isFrame x a = false) :
    Kept s (s'.addLog [a]) x := by
  refine ⟨h.recving, h.status, h.sender, h.value, h.tf, ?_, ?_⟩
  · rw [addLog_log, List.singleton_append, last_cons, h1]; exact h.mail
  · rw [addLog_log, List.singleton_append, last_cons, h2]; exact h.frame

theorem Kept.freed (hf : Freed s.k k e) (hk : s'.k = k) (hx : x ≠ e)
    (hl : s'.log = .free c e s.curenv :: s.log) : Kept s s' x := by
  have h1 : s'.k.envs x = s.k.envs x := by rw [hk]; exact hf.other x hx
  refine ⟨by rw [h1], by rw [h1], by rw [h1], by rw [h1], by rw [h1], ?_, ?_⟩
  · rw [hl, last_cons]; rfl
  · rw [hl, last_cons]; rfl

/-- `env_free(e)`: a slot that waits is still marked, but nobody finds it. -/
theorem IpcIn.freed (h : IpcIn c s) (hf : Freed s.k k e) (hk : s'.k = k)
    (hl : s'.log = .free c e s.curenv :: s.log) (hown : s.k.Live e ∨ s.curenv c = some e)
    (hcur : ∀ c' x, s'.curenv c' = some x → s.curenv c' = some x) : IpcIn c s' := by
  have hmail : last isMail e s'.log = last isMail e s.log := by rw [hl, last_cons]; rfl
  have hframe : last isFrame e s'.log = last isFrame e s.log := by rw [hl, last_cons]; rfl
  have hw : Waits e s'.log ↔ Waits e s.log := by unfold Waits; rw [hmail]
  have hr : Returns e s'.log ↔ Returns e s.log := by unfold Returns; rw [hframe]
  have hs := h.inv.slot e
  have hrecv : (s.k.envs e).envIpcRecving = true → Waits e s.log := fun h1 =>
    (hs.recving h1).elim id fun h2 => (hown.elim (fun hl => absurd h2.1 hl) fun hc => absurd hc (h2.2 c))
  subst hk
  refine h.change e (fun x hx => .freed hf rfl hx hl) hcur ?_ ?_ (fun c' hne hc' => ?_) fun hc hen => ?_
  · refine ⟨fun h1 => ?_, fun h1 => ?_, fun _ => Or.inr hf.status, fun src id v h1 => ?_, fun h1 => ?_,
      fun h1 => ?_⟩
    · rw [hf.recving]; exact hs.waits (hw.1 h1)
    · rw [hf.recving] at h1
      exact Or.inl (hw.2 (hrecv h1))
    · rw [hmail] at h1
      rw [hf.sender, hf.value]
      exact hs.got _ _ _ h1
    · rw [hf.tf]; exact hs.rax (hr.1 h1)
    · rw [hw, hmail]; exact hs.frame (hr.1 h1)
  · rw [hl]
    exact entry_cons trivial h.inv.log
  · rw [hf.recving, hf.status]
    exact ⟨(h.busy c' hne e hc').1, nofun⟩
  · rw [hf.recving]
    rw [hframe] at hen
    exact h.entered e (hcur _ _ hc) hen

/-- **Every move keeps the invariant.** -/
theorem IpcIn.move (h : IpcIn c s) (hm : Move Untouched c s s') : IpcIn c s' := by
  have hother : ∀ {e}, s.curenv c = some e → ∀ c', c' ≠ c → s.curenv c' ≠ some e :=
    fun hc c' hne hc' => hne (h.inv.one _ _ _ hc' hc)
  cases hm with
  | @frame cur tf hc hf =>
    have hs := h.inv.slot cur
    have h1 : (s.setTf cur tf).k.envs cur = { s.k.envs cur with envTf := tf } := Kernel.setEnv_self
    refine h.change cur (fun x hx => .of_env hx) (fun _ _ hx => hx) ?_ h.inv.log
      (fun c' hne hc' => absurd hc' (hother hc c' hne)) fun _ hen => ?_
    · refine ⟨fun h2 => ?_, fun h2 => ?_, fun h2 => ?_, fun src id v h2 => ?_, fun h2 => absurd h2 hf,
        fun h2 => absurd h2 hf⟩
      · rw [h1]; exact hs.waits h2
      · rw [h1] at h2 ⊢; exact hs.recving h2
      · rw [h1] at h2 ⊢; exact hs.blocked h2
      · rw [h1]; exact hs.got _ _ _ h2
    · rw [h1]; exact h.entered cur hc hen
  | @other k hk =>
    have hkept : ∀ x, Kept s (s.setK k) x := fun x =>
      ⟨hk.recving x, hk.status x, hk.sender x, hk.value x, hk.tf x, rfl, rfl⟩
    refine ⟨⟨h.inv.one, fun x => (h.inv.slot x).kept (hkept x) fun _ hc => hc, h.inv.log⟩,
      fun c' hne x hx => ?_, fun x hx hf => ?_⟩
    · rw [(hkept x).recving, (hkept x).status]; exact h.busy c' hne x hx
    · rw [(hkept x).recving]; exact h.entered x hx hf
  | @mark e hr hc =>
    have hs := h.inv.slot e
    have h0 : (s.k.envs e).envIpcRecving = false := by
      refine Bool.eq_false_iff.2 fun h1 => ?_
      rcases hs.blocked h1 with h2 | h2 <;> rw [hr] at h2 <;> cases h2
    have h1 : ((s.setK (s.k.setEnv e { s.k.envs e with envStatus := .dying })).k.envs e) =
        { s.k.envs e with envStatus := .dying } := Kernel.setEnv_self
    refine h.change e (fun x hx => .of_env hx) (fun _ _ hx => hx) ?_ h.inv.log (fun _ _ _ => ?_)
      fun hce _ => absurd hce hc
    · exact hs.status h0 (by rw [h1]) (by rw [h1]) (by rw [h1]) (by rw [h1]) rfl
    · rw [h1]; exact ⟨h0, by simp⟩
  | @freeSelf cur k hc hf =>
    refine h.freed hf rfl rfl (Or.inr hc) fun c' x hx => ?_
    simp only [setCurenv_curenv] at hx
    split at hx
    · cases hx
    · rwa [setK_curenv, lcr3_curenv, addLog_curenv] at hx
  | @freeOther e k hq hr hl hc hf => exact h.freed hf rfl rfl (Or.inl hl) fun _ _ hx => hx
  | @fork parent e k₁ tf hi =>
    have h1 : ((s.setK (k₁.setEnv e { k₁.envs e with
        envStatus := .notRunnable, envTf := tf })).addLog [.alloc e]).k.envs e =
        { k₁.envs e with envStatus := .notRunnable, envTf := tf } := Kernel.setEnv_self
    have hmail : last isMail e (Act.alloc e :: s.log) = some (.alloc e) := by
      rw [last_cons]; simp [isMail]
    have hframe : last isFrame e (Act.alloc e :: s.log) = some (.alloc e) := by
      rw [last_cons]; simp [isFrame]
    refine h.change e (fun x hx => ?_) (fun _ _ hx => hx) ?_ (entry_cons trivial h.inv.log)
      (fun _ _ _ => ?_) fun _ _ => ?_
    · refine Kept.addLog ?_ (by simp [isMail, Ne.symm hx]) (by simp [isFrame, Ne.symm hx])
      have h2 : (s.setK (k₁.setEnv e { k₁.envs e with
          envStatus := .notRunnable, envTf := tf })).k.envs x = s.k.envs x := by
        rw [setK_k, Kernel.setEnv_of_ne hx, hi.other x hx]
      exact ⟨by rw [h2], by rw [h2], by rw [h2], by rw [h2], by rw [h2], rfl, rfl⟩
    · refine .idle (by rw [h1]; exact hi.recving) (fun hw => ?_) (fun src id v hv => ?_) fun hr => ?_
      · cases hmail.symm.trans hw
      · cases hmail.symm.trans hv
      · cases hframe.symm.trans hr
    · rw [h1]; exact ⟨hi.recving, by simp⟩
    · rw [h1]; exact hi.recving
  | @status e st hq hst hl =>
    have hs := h.inv.slot e
    have h1 : ((s.setK (s.k.setEnv e { s.k.envs e with envStatus := st })).k.envs e) =
        { s.k.envs e with envStatus := st } := Kernel.setEnv_self
    refine h.change e (fun x hx => .of_env hx) (fun _ _ hx => hx) ?_ h.inv.log
      (fun c' hne hc' => absurd hc' (hq.2 c' hne)) fun _ _ => ?_
    · exact hs.status hq.1 (by rw [h1]) (by rw [h1]) (by rw [h1]) (by rw [h1]) rfl
    · rw [h1]; exact hq.1
  | @sent cur e m value p hq hl hrecv =>
    have hs := h.inv.slot e
    have hwait : Waits e s.log := (hs.recving hrecv).elim id fun h2 =>
      hl.elim (fun hl => absurd h2.1 hl) fun hc => absurd hc (h2.2 c)
    have h1 : (((s.setK (ipcDeliver (s.k.setPm m) cur e value p)).addLog
        [.sent cur (s.k.envs cur).envId e value]).k.envs e) = { s.k.envs e with
          envIpcPerm := p, envIpcRecving := false, envIpcFrom := (s.k.envs cur).envId,
          envIpcValue := value.setWidth 32, envStatus := .runnable } := Kernel.setEnv_self
    have hmail : last isMail e (Act.sent cur (s.k.envs cur).envId e value :: s.log) =
        some (.sent cur (s.k.envs cur).envId e value) := by rw [last_cons]; simp [isMail]
    have hframe : last isFrame e (Act.sent cur (s.k.envs cur).envId e value :: s.log) =
        last isFrame e s.log := by rw [last_cons]; rfl
    refine h.change e (fun x hx => ?_) (fun _ _ hx => hx) ?_ (entry_cons hwait h.inv.log)
      (fun c' hne hc' => ?_) fun _ _ => ?_
    · refine Kept.addLog ?_ (by simp [isMail, Ne.symm hx]) rfl
      have h2 : (s.setK (ipcDeliver (s.k.setPm m) cur e value p)).k.envs x = s.k.envs x :=
        Kernel.setEnv_of_ne hx
      exact ⟨by rw [h2], by rw [h2], by rw [h2], by rw [h2], by rw [h2], rfl, rfl⟩
    · refine .idle (by rw [h1]) (fun hw => ?_) (fun src id v hv => ?_) fun hr => ⟨?_, _, _, _, hmail⟩
      · cases hmail.symm.trans hw
      · have h2 := hmail.symm.trans hv
        cases h2
        rw [h1]
        exact ⟨rfl, rfl⟩
      · rw [h1]; exact hs.rax (hframe.symm.trans hr)
    · -- an environment that another CPU runs does not wait
      rw [(h.busy c' hne e hc').1] at hrecv
      cases hrecv
    · rw [h1]
  | @recv cur dstva tf hc hf hrax =>
    have hs := h.inv.slot cur
    have h0 := h.entered cur hc hf
    have hnot : ¬ Waits cur s.log := fun hw => by
      rw [hs.waits hw] at h0
      cases h0
    have h1 : (((s.setK (s.k.setEnv cur { s.k.envs cur with
        envIpcRecving := true, envIpcDstva := dstva, envStatus := .notRunnable })).addLog
          [.recv cur]).setTf cur tf).k.envs cur = { s.k.envs cur with
        envIpcRecving := true, envIpcDstva := dstva, envStatus := .notRunnable, envTf := tf } := by
      rw [setTf_env, if_pos rfl, addLog_k, setK_k, Kernel.setEnv_self]
    have hmail : last isMail cur (Act.recv cur :: s.log) = some (.recv cur) := by
      rw [last_cons]; simp [isMail]
    have hframe : last isFrame cur (Act.recv cur :: s.log) = some (.recv cur) := by
      rw [last_cons]; simp [isFrame]
    refine h.change cur (fun x hx => ?_) (fun _ _ hx => hx) ?_ (entry_cons hnot h.inv.log)
      (fun c' hne hc' => absurd hc' (hother hc c' hne)) fun _ hen => by cases hframe.symm.trans hen
    · have h2 : (((s.setK (s.k.setEnv cur { s.k.envs cur with
          envIpcRecving := true, envIpcDstva := dstva, envStatus := .notRunnable })).addLog
            [.recv cur]).setTf cur tf).k.envs x = s.k.envs x := by
        rw [setTf_env, if_neg hx, addLog_k, setK_k, Kernel.setEnv_of_ne hx]
      refine ⟨by rw [h2], by rw [h2], by rw [h2], by rw [h2], by rw [h2], ?_, ?_⟩
      · rw [setTf_log, addLog_log, List.singleton_append, last_cons]; simp [isMail, Ne.symm hx]
      · rw [setTf_log, addLog_log, List.singleton_append, last_cons]; simp [isFrame, Ne.symm hx]
    · refine ⟨fun _ => ?_, fun _ => Or.inl hmail, fun _ => ?_, fun src id v hv => ?_, fun _ => ?_,
        fun _ => Or.inl hmail⟩
      · rw [h1]
      · rw [h1]; exact Or.inl rfl
      · cases hmail.symm.trans hv
      · rw [h1]; exact hrax

/-- **Leaving the kernel keeps the invariant**: what `env_run` takes does not wait. -/
theorem IpcIn.leave (h : IpcIn c s) (hl : Leaves c s s') : IpcOut s' := by
  have hrun : ∀ e, (s.k.envs e).envIpcRecving = false → (∀ c', c' ≠ c → s.curenv c' ≠ some e) →
      (Returns e s.log → (s.k.envs e).envTf.tfRegs.rax = 0 ∧
        ∃ src srcId value, last isMail e s.log = some (.sent src srcId e value)) →
      IpcOut (s.envRun c e) := by
    intro e h0 hne hret
    have hs := h.inv.slot e
    have henv := envRun_env s.k (s.curenv c) e
    have hlog : (s.envRun c e).log = .resume c e (s.k.envs e).envTf :: s.log := by
      obtain ⟨r, hr⟩ := henv e
      have h1 : (s.envRun c e).log = .resume c e ((Jos.envRun s.k (s.curenv c) e).envs e).envTf :: s.log :=
        rfl
      rw [h1, hr]
    have hmail : ∀ x, last isMail x (s.envRun c e).log = last isMail x s.log := by
      intro x; rw [hlog, last_cons]; rfl
    have hframe : ∀ x, x ≠ e → last isFrame x (s.envRun c e).log = last isFrame x s.log := by
      intro x hx; rw [hlog, last_cons]; simp [isFrame, Ne.symm hx]
    have hcur : ∀ {c' x}, (s.envRun c e).curenv c' = some x →
        (c' = c ∧ x = e) ∨ (c' ≠ c ∧ x ≠ e ∧ s.curenv c' = some x) := by
      intro c' x hx
      rw [envRun_curenv] at hx
      by_cases hc : c' = c
      · rw [if_pos hc] at hx; cases hx; exact Or.inl ⟨hc, rfl⟩
      · rw [if_neg hc] at hx
        refine Or.inr ⟨hc, ?_, hx⟩
        rintro rfl
        exact hne c' hc hx
    refine ⟨⟨fun c₁ c₂ x h1 h2 => ?_, fun x => ?_, ?_⟩, fun c' x hx => ?_⟩
    · rcases hcur h1 with ⟨rfl, rfl⟩ | ⟨h3, h4, h5⟩ <;> rcases hcur h2 with ⟨rfl, h6⟩ | ⟨h6, h7, h8⟩
      · rfl
      · exact absurd rfl h7
      · exact absurd h6 h4
      · exact h.inv.one _ _ _ h5 h8
    · obtain ⟨r, hr⟩ := henv x
      have hx' : (s.envRun c e).k.envs x = _ := hr
      by_cases hxe : x = e
      · subst hxe
        refine .idle (by rw [hx']; exact h0) (fun hw => ?_) (fun src id v hv => ?_) fun hr => ?_
        · unfold Waits at hw
          rw [hmail] at hw
          rw [hs.waits hw] at h0
          cases h0
        · rw [hmail] at hv
          rw [hx']
          exact hs.got _ _ _ hv
        · unfold Returns at hr
          rw [hlog, last_cons] at hr
          simp [isFrame] at hr
      · -- the environment that ran here may become runnable, if it was running
        have hsx := h.inv.slot x
        by_cases hrun : (s.k.envs x).envStatus = .running
        · have h1 : (s.k.envs x).envIpcRecving = false := by
            refine Bool.eq_false_iff.2 fun h1 => ?_
            rcases hsx.blocked h1 with h2 | h2 <;> rw [hrun] at h2 <;> cases h2
          have hw : ¬ Waits x s.log := fun hw => by rw [hsx.waits hw] at h1; cases h1
          refine .idle (by rw [hx']; exact h1) (fun hw' => ?_) (fun src id v hv => ?_) fun hr => ?_
          · unfold Waits at hw'
            rw [hmail] at hw'
            exact hw hw'
          · rw [hmail] at hv
            rw [hx']
            exact hsx.got _ _ _ hv
          · unfold Returns at hr
            rw [hframe x hxe] at hr
            rw [hx', hmail]
            exact ⟨hsx.rax hr, (hsx.frame hr).resolve_left hw⟩
        · refine hsx.kept ⟨by rw [hx'], ?_, by rw [hx'], by rw [hx'], by rw [hx'], hmail x, hframe x hxe⟩
            fun c' hc' => ?_
          · rw [hx']
            simp [hxe, hrun]
          · rcases hcur hc' with ⟨-, h1⟩ | ⟨-, -, h1⟩
            · exact absurd h1 hxe
            · exact h1
    · rw [hlog]
      exact entry_cons hret h.inv.log
    · obtain ⟨r, hr⟩ := henv x
      have hx' : (s.envRun c e).k.envs x = _ := hr
      rw [hx']
      rcases hcur hx with ⟨-, rfl⟩ | ⟨h1, h2, h3⟩
      · exact ⟨h0, by simp⟩
      · have h4 : ¬ (s.curenv c = some x ∧ (s.k.envs x).envStatus = .running) := fun h4 =>
          h1 (h.inv.one _ _ _ h3 h4.1)
        simp only [if_neg h2, if_neg h4]
        exact h.busy c' h1 x h3
  have hother : ∀ {e}, s.curenv c = some e → ∀ c', c' ≠ c → s.curenv c' ≠ some e :=
    fun hc c' hne hc' => hne (h.inv.one _ _ _ hc' hc)
  -- an environment whose status lets it run does not wait
  have hgo : ∀ e, (s.k.envs e).envStatus = .runnable ∨ (s.k.envs e).envStatus = .running →
      (s.k.envs e).envIpcRecving = false ∧ (Returns e s.log → (s.k.envs e).envTf.tfRegs.rax = 0 ∧
        ∃ src srcId value, last isMail e s.log = some (.sent src srcId e value)) := by
    intro e he
    have hs := h.inv.slot e
    have h0 : (s.k.envs e).envIpcRecving = false := by
      refine Bool.eq_false_iff.2 fun h1 => ?_
      rcases hs.blocked h1 with h2 | h2 <;> rw [h2] at he <;> rcases he with he | he <;> cases he
    have hw : ¬ Waits e s.log := fun hw => by rw [hs.waits hw] at h0; cases h0
    exact ⟨h0, fun hr => ⟨hs.rax hr, (hs.frame hr).resolve_left hw⟩⟩
  cases hl with
  | @sched e hr =>
    obtain ⟨h1, h2⟩ := hgo e (Or.inl hr)
    exact hrun e h1 (fun c' hne hc' => (h.busy c' hne e hc').2 hr) h2
  | @back cur hc hr =>
    obtain ⟨h1, h2⟩ := hgo cur (Or.inr hr)
    exact hrun cur h1 (hother hc) h2
  | @upcall cur hc hf =>
    exact hrun cur (h.entered cur hc hf) (hother hc) fun hr => by cases hf.symm.trans hr
  | halt =>
    have hcur : ∀ {c' x}, (s.setCpu c { cpuEnv := none, cr3 := s.bootCr3 }).curenv c' = some x →
        c' ≠ c ∧ s.curenv c' = some x := by
      intro c' x hx
      unfold curenv setCpu at hx
      by_cases hc : c' = c
      · simp [hc] at hx
      · simpa [hc, curenv] using hx
    refine ⟨⟨fun c₁ c₂ x h1 h2 => h.inv.one _ _ _ (hcur h1).2 (hcur h2).2, fun x => ?_, h.inv.log⟩,
      fun c' x hx => h.busy c' (hcur hx).1 x (hcur hx).2⟩
    exact (h.inv.slot x).kept ⟨rfl, rfl, rfl, rfl, rfl, rfl, rfl⟩ fun c' hc' => (hcur hc').2

/-- **The runs keep the invariant.** -/
theorem IpcOut.reach {G : Machine n → Ev n → Prop} (h : Fresh k)
    (hG : ∀ s ev, G s ev → Asks Untouched s ev) (hr : Reach G (start k) s) : IpcOut s := by
  refine Reach.rule (O := IpcOut) (I := IpcIn) stable_untouched hG ?_
    (fun s c hs => ⟨hs.inv, fun c' _ => hs.busy c', fun e he _ => (hs.busy c e he).1⟩)
    (fun s c cur tf hs hc hd => ?_) (fun s s' c => IpcIn.move) (fun s s' c => IpcIn.leave)
    (fun s m hs => ?_) hr
  · -- nothing is logged yet, and no CPU runs an environment
    have hcur : ∀ c' x, (start k : Machine n).curenv c' ≠ some x := fun _ _ hx => by cases hx
    have hlast : ∀ p x a, last p x (start k : Machine n).log ≠ some a := fun _ _ _ hx => by cases hx
    refine ⟨⟨fun c' _ x hx => absurd hx (hcur c' x), fun e => ⟨fun hw => absurd hw (hlast _ _ _),
      fun hr => ?_, fun hr => ?_, fun _ _ _ hx => absurd hx (hlast _ _ _), fun hx => absurd hx (hlast _ _ _),
      fun hx => absurd hx (hlast _ _ _)⟩, fun l₂ a l₁ hl => ?_⟩, fun c' x hx => absurd hx (hcur c' x)⟩
    · rcases h.status e with h1 | ⟨-, h1⟩
      · exact Or.inr ⟨h1, fun c' => hcur c' e⟩
      · cases h1.symm.trans hr
    · rcases h.status e with h1 | ⟨-, h1⟩
      · exact Or.inr h1
      · cases h1.symm.trans hr
    · cases l₂ <;> cases hl
  · -- the frame is saved
    have hslot := hs.inv.slot cur
    have h0 := (hs.busy c cur hc).1
    have h1 : ((s.setTf cur tf).addLog [.enter c cur]).k.envs cur = { s.k.envs cur with envTf := tf } :=
      Kernel.setEnv_self
    have hmail : last isMail cur (Act.enter c cur :: s.log) = last isMail cur s.log := by
      rw [last_cons]; rfl
    have hframe : last isFrame cur (Act.enter c cur :: s.log) = some (.enter c cur) := by
      rw [last_cons]; simp [isFrame]
    have hin : IpcIn c s := ⟨hs.inv, fun c' _ => hs.busy c', fun e he _ => (hs.busy c e he).1⟩
    refine hin.change cur (fun x hx => (Kept.of_env hx).addLog rfl (by simp [isFrame, Ne.symm hx]))
      (fun _ _ hx => hx) ?_ (entry_cons trivial hs.inv.log)
      (fun c' hne hc' => absurd (hs.inv.one _ _ _ hc' hc) hne) fun _ _ => ?_
    · refine .idle (by rw [h1]; exact h0) (fun hw => ?_) (fun src id v hv => ?_) fun hr => ?_
      · rw [hslot.waits (hmail.symm.trans hw)] at h0
        cases h0
      · rw [h1]
        exact hslot.got _ _ _ (hmail.symm.trans hv)
      · cases hframe.symm.trans hr
    · rw [h1]; exact h0
  · have hkept : ∀ x, Kept s (s.setK (s.k.setPm m)) x := fun x => ⟨rfl, rfl, rfl, rfl, rfl, rfl, rfl⟩
    exact ⟨⟨hs.inv.one, fun x => (hs.inv.slot x).kept (hkept x) fun _ hc => hc, hs.inv.log⟩, hs.busy⟩

/-- **Messages are neither lost nor duplicated**, on any number of CPUs, in any order of their
steps.

A `sys_ipc_try_send` that returns 0 goes to an environment that waits, that is, whose last entry
about messages is its `sys_ipc_recv`; and one that waits does not ask again. So a message
answers exactly one `sys_ipc_recv`, and a `sys_ipc_recv` is answered at most once. An environment
that returns from `sys_ipc_recv` returns 0, and has been sent a message since. Until its next
`sys_ipc_recv`, what it reads is that message and its sender. A send to an environment that does not
wait returns `-E_IPC_NOT_RECV` and does nothing. -/
theorem ipc_exact (hs : Started (envInit k₀) k) (hr : Reach (Asks Untouched) (start k) s) :
    (∀ l₂ src srcId e value l₁, s.log = l₂ ++ .sent src srcId e value :: l₁ → Waits e l₁) ∧
    (∀ l₂ e l₁, s.log = l₂ ++ .recv e :: l₁ → ¬ Waits e l₁) ∧
    (∀ l₂ c e tf l₁, s.log = l₂ ++ .resume c e tf :: l₁ → Returns e l₁ → tf.tfRegs.rax = 0 ∧
      ∃ src srcId value, last isMail e l₁ = some (.sent src srcId e value)) ∧
    (∀ e src srcId value, last isMail e s.log = some (.sent src srcId e value) →
      (s.k.envs e).envIpcFrom = srcId ∧ (s.k.envs e).envIpcValue = value.setWidth 32) ∧
    ∀ c cur tf envid value srcva perm e, s.curenv c = some cur →
      envid2env s.k cur envid false = some e → ¬ Waits e s.log →
      sysIpcTrySend (s.setTf cur tf).k cur envid value srcva perm =
        some (-eIpcNotRecv, (s.setTf cur tf).k) := by
  have h := IpcOut.reach (fresh_envInit.started hs) (fun _ _ hg => hg) hr
  refine ⟨fun l₂ src srcId e value l₁ hl => h.inv.log l₂ _ l₁ hl, fun l₂ e l₁ hl => h.inv.log l₂ _ l₁ hl,
    fun l₂ c e tf l₁ hl => h.inv.log l₂ _ l₁ hl, fun e => (h.inv.slot e).got,
    fun c cur tf envid value srcva perm e hc he hw => ?_⟩
  have h0 : (s.k.envs e).envIpcRecving = false := by
    refine Bool.eq_false_iff.2 fun h1 => ?_
    obtain ⟨h2, h3⟩ := ((h.inv.slot e).recving h1).resolve_left hw
    rcases envid2env_live_or he with h4 | rfl
    · exact h4 h2
    · exact h3 c hc
  have h1 : ((s.setTf cur tf).k.envs e).envIpcRecving = false := by rw [setTf_env]; exact h0
  unfold sysIpcTrySend
  rw [envid2env_setTf, he]
  simp only [h1, if_true]

/-- The first program makes a child and waits for a message; the child, which CPU 0 runs then,
sends 42, and CPU 1 runs the first program again. -/
def sendRun : List (Ev 2) :=
  [.sched 0, callEv 0 7 0 0 0, callEv 0 8 0x1001 2 0, callEv 0 13 utop 0 0,
    callEv 0 12 0x1000 42 utop, .sched 1]

instance (s : Machine n) (c : Fin n) : (q : Req) → Decidable (Untouched s c q)
  | .status e => inferInstanceAs (Decidable ((s.k.envs e).envIpcRecving = false ∧
      ∀ c', c' ≠ c → s.curenv c' ≠ some e))
  | .deliver _ => inferInstanceAs (Decidable True)
  | .destroy _ => inferInstanceAs (Decidable True)

/-- The last message that environment 0 got is 42 from `0x1001`. -/
def got42 (s : Machine 2) : Bool :=
  match last isMail 0 s.log with
  | some (.sent _ id e v) => id == 0x1001#32 && e == 0 && v == 42#64
  | _ => false

/-- The saved frame of environment 0 is that of `sys_ipc_recv`. -/
def inRecv (l : List (Act 2)) : Bool :=
  match last isFrame 0 l with
  | some (.recv e) => e == 0
  | _ => false

/-- The last entry resumes environment 0 on CPU 1, from `sys_ipc_recv`. -/
def resumed (s : Machine 2) : Bool :=
  match s.log with
  | .resume c e _ :: l => c == 1 && e == 0 && inRecv l
  | _ => false

/-- The first program returns from `sys_ipc_recv` with 0, and finds the value and the sender. -/
theorem ipc_exact_sendRun : ∃ k, ∃ s : Machine 2, Started (envInit bootKernel) k ∧
    Reach (Asks Untouched) (start k) s ∧
    (∃ tf l, s.log = .resume 1 0 tf :: l ∧ Returns 0 l ∧ tf.tfRegs.rax = 0) ∧
    (s.k.envs 0).envIpcFrom = 0x1001#32 ∧ (s.k.envs 0).envIpcValue = 42#32 := by
  have h : ((Jos.runs (envInit bootKernel) [.create bootBinary .user]).any fun k =>
      (sendRun.foldlM (fun s ev => if Asks Untouched s ev then step s ev else none) (start k)).any
        fun s : Machine 2 => got42 s && resumed s) = true := by decide +kernel
  obtain ⟨k, hk, h⟩ := (Option.any_eq_true _ _).1 h
  obtain ⟨s, hs, h⟩ := (Option.any_eq_true _ _).1 h
  rw [Bool.and_eq_true] at h
  obtain ⟨h1, h2⟩ := h
  have hr : Reach (Asks Untouched) (start k) s := reach_of_checked (fun _ _ _ hq => hq) hs
  obtain ⟨-, -, hret, hgot, -⟩ := ipc_exact (started_boot hk) hr
  refine ⟨k, s, started_boot hk, hr, ?_, ?_⟩
  · unfold resumed at h2
    split at h2
    · rename_i c e tf l hl
      simp only [Bool.and_eq_true, beq_iff_eq] at h2
      obtain ⟨⟨rfl, rfl⟩, h3⟩ := h2
      unfold inRecv at h3
      split at h3
      · rename_i x hx
        obtain rfl := beq_iff_eq.1 h3
        exact ⟨tf, l, hl, hx, (hret [] _ _ tf l hl hx).1⟩
      · cases h3
    · cases h2
  · unfold got42 at h1
    split at h1
    · rename_i src id e v hm
      simp only [Bool.and_eq_true, beq_iff_eq] at h1
      obtain ⟨⟨rfl, rfl⟩, rfl⟩ := h1
      exact hgot 0 _ _ _ hm
    · cases h1

end Machine

end Jos
