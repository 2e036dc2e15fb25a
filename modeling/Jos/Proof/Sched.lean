import Jos.Proof.Envs
import Jos.Spec.Smp

/-!
# A stay in the kernel

What one CPU can do to the environments between entering the kernel and leaving it: `Move`
is one change, `Leaves` the way out through `env_run` or `sched_halt`. `Machine.trap_moves`
and `Machine.sched_leaves` say once that every step of a CPU is made of these; the
invariants of several CPUs are then proved move by move.

The requests with which one environment changes another one's status (`Req`) are kept
apart: a condition `ok` on the requests of a run becomes a guard of the moves.
-/

namespace Jos

/-- A request of a system call about the environment it names. -/
inductive Req
  | status (e : EnvIdx)
  | deliver (e : EnvIdx)
  | destroy (e : EnvIdx)

/-- The request of a call that passes its checks. -/
def Syscall.request (k : Kernel) (cur : EnvIdx) : Syscall → Option Req
  | .envSetStatus envid status =>
    if status = 2 ∨ status = 4 then (envid2env k cur envid true).map .status else none
  | .ipcTrySend envid _ _ _ => (envid2env k cur envid false).bind fun e =>
    if (k.envs e).envIpcRecving then some (.deliver e) else none
  | .envDestroy envid => (envid2env k cur envid true).map .destroy
  | _ => none

namespace Machine

variable {n : ℕ} {s s₁ s' : Machine n} {c c' : Fin n} {e cur x : EnvIdx} {k k' : Kernel} {m : Pmap}
variable {tf : Trapframe} {io : Io} {call : Syscall} {as : List (Act n)} {a : Act n}

/-- The system call that a trap makes, if it makes one. -/
def callOf (tf : Trapframe) (io : Io) : Option Syscall :=
  let r := tf.tfRegs
  if tf.tfTrapno = tSyscall then Syscall.decode io.console r.rax r.rdx r.rcx r.rbx r.rdi r.rsi
  else none

/-- **The requests of an event all meet the condition `ok`.** -/
def Asks (ok : Machine n → Fin n → Req → Prop) (s : Machine n) : Ev n → Prop
  | .trap c tf io => ∀ cur call q, s.curenv c = some cur → (s.k.envs cur).envStatus ≠ .dying →
    callOf tf io = some call → call.request s.k cur = some q → ok s c q
  | _ => True

/-! ## Fields -/

@[simp] theorem setK_k : (s.setK k).k = k := rfl
@[simp] theorem setK_curenv : (s.setK k).curenv = s.curenv := rfl
@[simp] theorem setK_log : (s.setK k).log = s.log := rfl
@[simp] theorem setK_cpus : (s.setK k).cpus = s.cpus := rfl
@[simp] theorem setK_self : s.setK s.k = s := rfl
@[simp] theorem addLog_k : (s.addLog as).k = s.k := rfl
@[simp] theorem addLog_curenv : (s.addLog as).curenv = s.curenv := rfl
@[simp] theorem addLog_cpus : (s.addLog as).cpus = s.cpus := rfl
@[simp] theorem addLog_log : (s.addLog as).log = as ++ s.log := rfl
@[simp] theorem addLog_nil : s.addLog [] = s := rfl
@[simp] theorem lcr3_k {v : BitVec 64} : (s.lcr3 c v).k = s.k := rfl
@[simp] theorem lcr3_log {v : BitVec 64} : (s.lcr3 c v).log = s.log := rfl
@[simp] theorem setCurenv_k {o : Option EnvIdx} : (s.setCurenv c o).k = s.k := rfl
@[simp] theorem setCurenv_log {o : Option EnvIdx} : (s.setCurenv c o).log = s.log := rfl

@[simp] theorem lcr3_curenv {v : BitVec 64} : (s.lcr3 c v).curenv = s.curenv := by
  funext i
  unfold curenv lcr3 setCpu
  by_cases h : i = c
  · subst h; simp
  · simp [h]

theorem setCurenv_curenv {o : Option EnvIdx} :
    (s.setCurenv c o).curenv = fun i => if i = c then o else s.curenv i := by
  funext i
  unfold curenv setCurenv setCpu
  by_cases h : i = c <;> simp [h]

@[simp] theorem setTf_curenv : (s.setTf e tf).curenv = s.curenv := rfl
@[simp] theorem setTf_log : (s.setTf e tf).log = s.log := rfl

/-! ## The log -/

/-- The last entry of a kind about environment `e`. -/
def last (p : EnvIdx → Act n → Bool) (e : EnvIdx) (l : List (Act n)) : Option (Act n) := l.find? (p e)

/-- The entries that say what is in the saved frame of `e`. -/
def isFrame (e : EnvIdx) : Act n → Bool
  | .enter _ x => x = e
  | .resume _ x _ => x = e
  | .alloc x => x = e
  | .recv x => x = e
  | _ => false

/-- The entries about receiving. -/
def isMail (e : EnvIdx) : Act n → Bool
  | .recv x => x = e
  | .sent _ _ x _ => x = e
  | .alloc x => x = e
  | _ => false

/-- The entries about the life of slot `e`. -/
def isSlot (e : EnvIdx) : Act n → Bool
  | .alloc x => x = e
  | .free _ x _ => x = e
  | _ => false

theorem last_cons {p : EnvIdx → Act n → Bool} {l : List (Act n)} :
    last p e (a :: l) = if p e a then some a else last p e l := by
  unfold last
  rw [List.find?_cons]
  cases p e a <;> rfl

/-- A property of every entry and the log before it. -/
theorem entry_cons {P : List (Act n) → Act n → Prop} {l : List (Act n)} (ha : P l a)
    (h : ∀ l₂ b l₁, l = l₂ ++ b :: l₁ → P l₁ b) : ∀ l₂ b l₁, a :: l = l₂ ++ b :: l₁ → P l₁ b := by
  intro l₂ b l₁ hl
  rcases List.append_eq_cons_iff.1 hl.symm with ⟨rfl, h1⟩ | ⟨l₃, rfl, h1⟩
  · cases h1; exact ha
  · exact h l₃ b l₁ h1

/-! ## Moves -/

variable {ok : Machine n → Fin n → Req → Prop}

/-- **One change that the kernel makes on CPU `c`**, under the condition `ok` on requests. -/
inductive Move (ok : Machine n → Fin n → Req → Prop) (c : Fin n) : Machine n → Machine n → Prop
  /-- A register of the caller, in its frame. -/
  | frame {s : Machine n} {cur : EnvIdx} {tf : Trapframe} : s.curenv c = some cur →
    last isFrame cur s.log ≠ some (.recv cur) → Move ok c s (s.setTf cur tf)
  /-- Memory, or a field of an environment that no other move is about. -/
  | other {s : Machine n} {k : Kernel} : Alike s.k k → Move ok c s (s.setK k)
  | mark {s : Machine n} {e : EnvIdx} : (s.k.envs e).envStatus = .running → s.curenv c ≠ some e →
    Move ok c s (s.setK (s.k.setEnv e { s.k.envs e with envStatus := .dying }))
  | freeSelf {s : Machine n} {cur : EnvIdx} {k : Kernel} : s.curenv c = some cur →
    Freed s.k k cur → Move ok c s
      ((((s.addLog [.free c cur s.curenv]).lcr3 c s.bootCr3).setK k).setCurenv c none)
  | freeOther {s : Machine n} {e : EnvIdx} {k : Kernel} : ok s c (.destroy e) →
    (s.k.envs e).envStatus ≠ .running → s.k.Live e → s.curenv c ≠ some e → Freed s.k k e →
    Move ok c s ((s.addLog [.free c e s.curenv]).setK k)
  | fork {s : Machine n} {parent : EnvId} {e : EnvIdx} {k₁ : Kernel} {tf : Trapframe} :
    Issued s.k k₁ parent e →
    Move ok c s ((s.setK (k₁.setEnv e { k₁.envs e with envStatus := .notRunnable, envTf := tf })).addLog
      [.alloc e])
  | status {s : Machine n} {e : EnvIdx} {st : EnvStatus} : ok s c (.status e) →
    (st = .runnable ∨ st = .notRunnable) → (s.k.Live e ∨ s.curenv c = some e) →
    Move ok c s (s.setK (s.k.setEnv e { s.k.envs e with envStatus := st }))
  | sent {s : Machine n} {cur e : EnvIdx} {m : Pmap} {value : BitVec 64} {p : BitVec 32} :
    ok s c (.deliver e) → (s.k.Live e ∨ s.curenv c = some e) → (s.k.envs e).envIpcRecving = true →
    Move ok c s ((s.setK (ipcDeliver (s.k.setPm m) cur e value p)).addLog
      [.sent cur (s.k.envs cur).envId e value])
  /-- `sys_ipc_recv`, with the store of its result in the caller's frame. -/
  | recv {s : Machine n} {cur : EnvIdx} {dstva : VA} {tf : Trapframe} : s.curenv c = some cur →
    last isFrame cur s.log = some (.enter c cur) → tf.tfRegs.rax = 0 →
    Move ok c s (((s.setK (s.k.setEnv cur { s.k.envs cur with
      envIpcRecving := true, envIpcDstva := dstva, envStatus := .notRunnable })).addLog
        [.recv cur]).setTf cur tf)

/-- Some moves. -/
abbrev Moves (ok : Machine n → Fin n → Req → Prop) (c : Fin n) : Machine n → Machine n → Prop :=
  Relation.ReflTransGen (Move ok c)

/-- **How CPU `c` leaves the kernel.** -/
inductive Leaves (c : Fin n) : Machine n → Machine n → Prop
  | sched {s : Machine n} {e : EnvIdx} : (s.k.envs e).envStatus = .runnable →
    Leaves c s (s.envRun c e)
  | back {s : Machine n} {cur : EnvIdx} : s.curenv c = some cur →
    (s.k.envs cur).envStatus = .running → Leaves c s (s.envRun c cur)
  | upcall {s : Machine n} {cur : EnvIdx} : s.curenv c = some cur →
    last isFrame cur s.log = some (.enter c cur) → Leaves c s (s.envRun c cur)
  | halt {s : Machine n} : Leaves c s (s.setCpu c { cpuEnv := none, cr3 := s.bootCr3 })

/-! ### The scheduler -/

theorem schedHalt_leaves (h : s.schedHalt c = some s') : Leaves c s s' := by
  unfold schedHalt at h
  split at h
  · cases h; exact .halt
  · cases h

/-- `sched_yield` runs an environment that is runnable, or the one that ran here. -/
theorem schedYield_leaves (h : s.schedYield c = some s') : Leaves c s s' := by
  unfold schedYield at h
  simp only at h
  split at h
  · rename_i i hi
    cases h
    exact .sched (by simpa using List.find?_some hi)
  · split at h
    · rename_i e he
      split at h
      · cases h; exact .back he ‹_›
      · exact schedHalt_leaves h
    · exact schedHalt_leaves h

/-! ### Functions of the kernel -/

/-- `env_destroy` is one move. -/
theorem envDestroy_moves {r : Result n Unit} (h : s.envDestroy c e = some r)
    (hq : s.curenv c = some e ∨ (ok s c (.destroy e) ∧ s.k.Live e)) :
    (∃ s', r = .ret () s' ∧ Move ok c s s' ∧ s'.curenv c = s.curenv c ∧
      ∀ x, last isFrame x s'.log = last isFrame x s.log) ∨
    ∃ s', r = .yield s' ∧ Move ok c s s' := by
  unfold envDestroy at h
  split at h
  · rename_i hc
    cases h
    exact Or.inl ⟨_, rfl, .mark hc.1 hc.2, rfl, fun x => rfl⟩
  · rename_i hc
    obtain ⟨s₁, h1, h⟩ := Option.bind_eq_some_iff.1 h
    unfold envFree at h1
    obtain ⟨k', h2, h1⟩ := Option.bind_eq_some_iff.1 h1
    cases h1
    by_cases he : s.curenv c = some e
    · simp only [addLog_curenv, he, if_true, lcr3_k, addLog_k, setK_curenv, lcr3_curenv] at h h2
      cases h
      exact Or.inr ⟨_, rfl, .freeSelf he (envFree_freed h2)⟩
    · simp only [addLog_curenv, he, if_false, addLog_k, setK_curenv] at h h2
      cases h
      obtain ⟨h3, h4⟩ := hq.resolve_left he
      exact Or.inl ⟨_, rfl, .freeOther h3 (fun hr => hc ⟨hr, he⟩) h4 he (envFree_freed h2), rfl,
        fun x => rfl⟩

/-- What a function that works for `cur` on CPU `c` has done: it returns to it, or it never
returns. -/
inductive Did {α : Type} (ok : Machine n → Fin n → Req → Prop) (c : Fin n) (cur : EnvIdx)
    (post : α → Machine n → Prop) (s : Machine n) : Result n α → Prop
  | ret {a : α} {s' : Machine n} : Moves ok c s s' → s'.curenv c = some cur → post a s' →
    Did ok c cur post s (.ret a s')
  | yield {s' : Machine n} : Moves ok c s s' → Did ok c cur post s (.yield s')
  | left {s₁ s' : Machine n} : Moves ok c s s₁ → Leaves c s₁ s' → Did ok c cur post s (.left s')

variable {α : Type} {post : α → Machine n → Prop}

theorem Did.before {s₀ : Machine n} {r : Result n α} (hm : Moves ok c s₀ s) (h : Did ok c cur post s r) :
    Did ok c cur post s₀ r := by
  cases h with
  | ret h1 h2 h3 => exact .ret (hm.trans h1) h2 h3
  | yield h1 => exact .yield (hm.trans h1)
  | left h1 h2 => exact .left (hm.trans h1) h2

theorem envDestroy_did {r : Result n Unit} (h : s.envDestroy c e = some r) (hc : s.curenv c = some cur)
    (hq : e = cur ∨ (ok s c (.destroy e) ∧ s.k.Live e)) :
    Did ok c cur (fun _ s' => last isFrame cur s'.log = last isFrame cur s.log) s r := by
  have hq' : s.curenv c = some e ∨ (ok s c (.destroy e) ∧ s.k.Live e) := by
    rcases hq with rfl | hq
    · exact Or.inl hc
    · exact Or.inr hq
  rcases envDestroy_moves h hq' with ⟨s', rfl, h1, h2, h3⟩ | ⟨s', rfl, h1⟩
  · exact .ret (.single h1) (h2.trans hc) (h3 cur)
  · exact .yield (.single h1)

theorem Did.map {β : Type} {post' : β → Machine n → Prop} {f : α → β} {r : Result n α}
    (h : Did ok c cur post s r) (hp : ∀ a s', post a s' → post' (f a) s') :
    Did ok c cur post' s (r.map f) := by
  cases h with
  | ret h1 h2 h3 => exact .ret h1 h2 (hp _ _ h3)
  | yield h1 => exact .yield h1
  | left h1 h2 => exact .left h1 h2

/-- What a system call for `cur` has done, once its result is in the caller's frame. -/
def SysDid (ok : Machine n → Fin n → Req → Prop) (c : Fin n) (cur : EnvIdx) (s : Machine n) :
    Result n ℤ → Prop
  | .ret x s' => s'.curenv c = some cur ∧
    ∀ tf : Trapframe, tf.tfRegs.rax = BitVec.ofInt 64 x → Moves ok c s (s'.setTf cur tf)
  | .yield s' => Moves ok c s s'
  | .left s' => ∃ s₁, Moves ok c s s₁ ∧ Leaves c s₁ s'

/-- A call that returns, other than `sys_ipc_recv`. -/
theorem Did.sysDid {r : Result n ℤ}
    (h : Did ok c cur (fun _ s' => last isFrame cur s'.log ≠ some (.recv cur)) s r) :
    SysDid ok c cur s r := by
  cases h with
  | ret h1 h2 h3 => exact ⟨h2, fun tf _ => h1.tail (.frame h2 h3)⟩
  | yield h1 => exact h1
  | left h1 h2 => exact ⟨_, h1, h2⟩

/-- The calls that one CPU makes as any other. -/
theorem exec_did {o : Outcome} (h : call.exec s.k cur = some o) (hc : s.curenv c = some cur)
    (hf : last isFrame cur s.log = some (.enter c cur))
    (hq : ∀ q, call.request s.k cur = some q → ok s c q)
    (h1 : ∀ va len, call ≠ .cputs va len) (h2 : ∀ envid, call ≠ .envDestroy envid) :
    match o with
    | .ret r k => SysDid ok c cur s (.ret r ((s.setK k).addLog (acts s.k cur r call)))
    | .resched k => SysDid ok c cur s (.yield (s.setK k)) := by
  have hf' : last isFrame cur s.log ≠ some (.recv cur) := by rw [hf]; exact nofun
  have hsame : ∀ {k r}, Alike s.k k → acts (n := n) s.k cur r call = [] →
      SysDid ok c cur s (.ret r ((s.setK k).addLog (acts s.k cur r call))) := by
    intro k r hk ha
    rw [ha, addLog_nil]
    exact Did.sysDid (.ret (.single (.other hk)) hc hf')
  cases exec_envEffect h with
  | @memory _ r m hr =>
    refine hsame alike_setPm ?_
    cases call with
    | exofork => exact if_neg (not_le.2 (hr trivial))
    | ipcTrySend => exact if_neg (hr trivial).ne
    | ipcRecv => exact if_neg (hr trivial).ne
    | _ => rfl
  | yield => exact (Relation.ReflTransGen.refl : Moves ok c s s)
  | killed => exact absurd rfl (h1 _ _)
  | destroy => exact absurd rfl (h2 _)
  | @failedFork r k' h3 =>
    obtain ⟨hr, h4, h5⟩ := envAlloc_failed h3
    exact hsame (.of_envs h4 h5) (if_neg (not_le.2 hr))
  | @fork e k₁ tf h3 =>
    have hi := envAlloc_issued h3
    have hacts : acts (n := n) s.k cur (k₁.envs e).envId.toInt .exofork = [.alloc e] := by
      unfold acts
      rw [if_pos (by rw [hi.id]; exact nextEnvId_nonneg _ _), hi.head]
      rfl
    simp only [hacts]
    refine Did.sysDid (.ret (.single (.fork hi)) hc fun hn => ?_)
    rw [addLog_log, List.singleton_append, last_cons] at hn
    split at hn
    · cases hn
    · exact absurd hn hf'
  | @setStatus envid status e hst h3 =>
    have hr : (Syscall.envSetStatus envid status).request s.k cur = some (.status e) := by
      simp only [Syscall.request, if_pos hst, h3, Option.map_some]
    refine Did.sysDid (.ret (.single (.status (hq _ hr) ?_ ?_)) hc hf')
    · split
      · exact Or.inl rfl
      · exact Or.inr rfl
    · rcases envid2env_live_or h3 with h4 | rfl
      · exact Or.inl h4
      · exact Or.inr hc
  | upcall => exact hsame alike_upcall rfl
  | @sent envid value srcva perm e m p h3 h4 =>
    have hr : (Syscall.ipcTrySend envid value srcva perm).request s.k cur = some (.deliver e) := by
      simp only [Syscall.request, h3, Option.bind_some, h4, if_true]
    have hacts : acts (n := n) s.k cur 0 (.ipcTrySend envid value srcva perm) =
        [.sent cur (s.k.envs cur).envId e value] := by
      simp only [acts, if_true, h3]
      rfl
    simp only [hacts]
    refine Did.sysDid (.ret (.single (.sent (hq _ hr) ?_ h4)) hc hf')
    rcases envid2env_live_or h3 with h5 | rfl
    · exact Or.inl h5
    · exact Or.inr hc
  | recv => exact ⟨hc, fun tf h3 => .single (.recv hc hf h3)⟩

/-- A call that does not destroy and does not print ends as `exec` says. -/
theorem syscall_exec {r : Result n ℤ} (h : s.syscall c cur call = some r)
    (h1 : ∀ va len, call ≠ .cputs va len) (h2 : ∀ envid, call ≠ .envDestroy envid) :
    (∃ x k, call.exec s.k cur = some (.ret x k) ∧ r = .ret x ((s.setK k).addLog (acts s.k cur x call))) ∨
      ∃ k, call.exec s.k cur = some (.resched k) ∧ r = .yield (s.setK k) := by
  cases call with
  | envDestroy envid => exact absurd rfl (h2 envid)
  | cputs va len => exact absurd rfl (h1 va len)
  | _ =>
    simp only [syscall] at h
    obtain ⟨o, h3, h4⟩ := Option.bind_eq_some_iff.1 h
    cases o with
    | ret x k => exact Or.inl ⟨x, k, h3, (Option.some.inj h4).symm⟩
    | resched k => exact Or.inr ⟨k, h3, (Option.some.inj h4).symm⟩

/-- **What a system call does** on CPU `c`. -/
theorem syscall_did {r : Result n ℤ} (h : s.syscall c cur call = some r) (hc : s.curenv c = some cur)
    (hf : last isFrame cur s.log = some (.enter c cur))
    (hq : ∀ q, call.request s.k cur = some q → ok s c q) : SysDid ok c cur s r := by
  have hf' : last isFrame cur s.log ≠ some (.recv cur) := by rw [hf]; simp
  have hexec : (∀ va len, call ≠ .cputs va len) → (∀ envid, call ≠ .envDestroy envid) →
      SysDid ok c cur s r := by
    intro h1 h2
    obtain ⟨x, k, h3, rfl⟩ | ⟨k, h3, rfl⟩ := syscall_exec h h1 h2
    · exact exec_did h3 hc hf hq h1 h2
    · exact exec_did h3 hc hf hq h1 h2
  cases call with
  | envDestroy envid =>
    simp only [syscall] at h
    split at h
    · cases h; exact Did.sysDid (.ret .refl hc hf')
    · rename_i e he
      obtain ⟨r₁, h1, h⟩ := Option.bind_eq_some_iff.1 h
      cases h
      have hok : ok s c (.destroy e) := hq _ (by simp only [Syscall.request, he, Option.map_some])
      refine ((envDestroy_did h1 hc ?_).map fun _ s' h2 => by rw [h2]; exact hf').sysDid
      rcases envid2env_live_or he with h4 | h4
      · exact Or.inr ⟨hok, h4⟩
      · exact Or.inl h4
  | cputs va len =>
    simp only [syscall] at h
    obtain ⟨p, -, h⟩ := Option.bind_eq_some_iff.1 h
    obtain ⟨⟨y, m⟩, -, h⟩ := Option.bind_eq_some_iff.1 h
    have hm : Moves ok c s (s.setK (s.k.setPm m)) := .single (.other alike_setPm)
    cases y with
    | none => cases h; exact Did.sysDid (.ret hm hc hf')
    | some a =>
      obtain ⟨r₁, h1, h⟩ := Option.bind_eq_some_iff.1 h
      cases h
      have h2 : Did ok c cur _ _ r₁ := envDestroy_did h1 hc (Or.inl rfl)
      exact (Did.before hm (h2.map fun _ s' h3 => by rw [h3]; exact hf')).sysDid
  | _ => exact hexec (by simp) (by simp)

theorem pageFaultHandler_did {r : Result n Unit} (h : s.pageFaultHandler c cur tf io = some r)
    (hc : s.curenv c = some cur) (hf : last isFrame cur s.log = some (.enter c cur)) :
    Did ok c cur (fun _ _ => True) s r := by
  have hdestroy : ∀ {s₁ : Machine n} {r}, s₁.envDestroy c cur = some r → s₁.curenv c = some cur →
      Did ok c cur (fun _ _ => True) s₁ r := by
    intro s₁ r h1 h2
    have h3 : Did ok c cur (fun _ _ => True) s₁ (r.map id) :=
      (envDestroy_did h1 h2 (Or.inl rfl)).map fun _ _ _ => trivial
    cases r <;> exact h3
  unfold pageFaultHandler at h
  split at h
  · obtain ⟨p, -, h⟩ := Option.bind_eq_some_iff.1 h
    obtain ⟨⟨y, m⟩, -, h⟩ := Option.bind_eq_some_iff.1 h
    have hm : Moves ok c s (s.setK (s.k.setPm m)) := .single (.other alike_setPm)
    cases y with
    | some a => exact Did.before hm (hdestroy h hc)
    | none =>
      obtain ⟨m', -, h⟩ := Option.bind_eq_some_iff.1 h
      cases h
      have hm' : Moves ok c (s.setK (s.k.setPm m)) ((s.setK (s.k.setPm m)).setK ((s.k.setPm m).setPm m')) :=
        .single (.other alike_setPm)
      refine .left ((hm.trans hm').tail (.frame hc ?_)) (.upcall hc hf)
      rw [show (((s.setK (s.k.setPm m)).setK ((s.k.setPm m).setPm m')).log) = s.log from rfl, hf]
      exact nofun
  · exact hdestroy h hc

theorem trapDispatch_did {r : Result n Unit} (h : s.trapDispatch c cur tf io = some r)
    (hc : s.curenv c = some cur) (hf : last isFrame cur s.log = some (.enter c cur))
    (hq : ∀ call q, callOf tf io = some call → call.request s.k cur = some q → ok s c q) :
    Did ok c cur (fun _ _ => True) s r := by
  have hf' : last isFrame cur s.log ≠ some (.recv cur) := by rw [hf]; exact nofun
  unfold trapDispatch at h
  split at h
  · exact pageFaultHandler_did h hc hf
  split at h
  · cases h; exact .ret .refl hc trivial
  split at h
  · rename_i hsys
    simp only at h
    split at h
    · cases h
      exact .ret (.single (.frame hc hf')) hc trivial
    · rename_i call hcall
      obtain ⟨r₁, h1, h⟩ := Option.bind_eq_some_iff.1 h
      have hco : callOf tf io = some call := by
        unfold callOf
        rw [if_pos hsys]
        exact hcall
      have h2 := syscall_did h1 hc hf fun q => hq call q hco
      cases r₁ with
      | ret x s₁ => cases h; exact .ret (h2.2 _ rfl) h2.1 trivial
      | yield s₁ => cases h; exact .yield h2
      | left s₁ =>
        obtain ⟨s₂, h3, h4⟩ := h2
        cases h; exact .left h3 h4
  split at h
  · cases h; exact .ret .refl hc trivial
  split at h
  · cases h; exact .yield .refl
  split at h
  · cases h
  · have h3 : Did ok c cur (fun _ _ => True) s (r.map id) :=
      (envDestroy_did h hc (Or.inl rfl)).map fun _ _ _ => trivial
    cases r <;> exact h3

/-! ### The steps -/

/-- The fields of the environments after their frame is saved. -/
theorem setTf_env (x : EnvIdx) : (s.setTf cur tf).k.envs x =
    { s.k.envs x with envTf := if x = cur then tf else (s.k.envs x).envTf } := by
  unfold setTf
  by_cases hx : x = cur
  · subst hx; simp
  · rw [setK_k, Kernel.setEnv_of_ne hx, if_neg hx]

theorem envid2env_setTf {id : EnvId} {b : Bool} :
    envid2env (s.setTf cur tf).k cur id b = envid2env s.k cur id b := by
  unfold envid2env
  simp only [setTf_env]

theorem request_setTf : call.request (s.setTf cur tf).k cur = call.request s.k cur := by
  unfold Syscall.request
  simp only [setTf_env, envid2env_setTf]

/-- The condition on requests does not depend on the frame of the caller. -/
def Stable (ok : Machine n → Fin n → Req → Prop) : Prop :=
  ∀ s c q cur tf, ok s c q → ok ((s.setTf cur tf).addLog [.enter c cur]) c q

/-- **What a trap does**: it frees a dying environment, or saves its frame and goes on; then
the CPU leaves the kernel. -/
theorem trap_moves (hok : Stable ok) (h : s.trap c tf io = some s')
    (hq : Asks ok s (.trap c tf io)) : ∃ cur, s.curenv c = some cur ∧
      (((s.k.envs cur).envStatus = .dying ∧ ∃ s₁, Moves ok c s s₁ ∧ Leaves c s₁ s') ∨
      ((s.k.envs cur).envStatus ≠ .dying ∧ ∃ s₁,
        Moves ok c ((s.setTf cur tf).addLog [.enter c cur]) s₁ ∧ Leaves c s₁ s')) := by
  unfold trap at h
  split at h
  · cases h
  rename_i cur hc
  refine ⟨cur, hc, ?_⟩
  split at h
  · rename_i hd
    left
    refine ⟨hd, ?_⟩
    obtain ⟨s₁, h1, h⟩ := Option.bind_eq_some_iff.1 h
    unfold envFree at h1
    obtain ⟨k', h2, h1⟩ := Option.bind_eq_some_iff.1 h1
    simp only [addLog_curenv, hc, if_true, lcr3_k, addLog_k] at h1 h2
    cases h1
    exact ⟨_, .single (.freeSelf hc (envFree_freed h2)), schedYield_leaves h⟩
  · rename_i hd
    right
    refine ⟨hd, ?_⟩
    obtain ⟨r, h1, h⟩ := Option.bind_eq_some_iff.1 h
    have hlog : last isFrame cur ((s.setTf cur tf).addLog [.enter c cur]).log = some (.enter c cur) := by
      rw [addLog_log, List.singleton_append, last_cons]
      simp [isFrame]
    have hask : ∀ call q, callOf tf io = some call →
        call.request ((s.setTf cur tf).addLog [.enter c cur]).k cur = some q →
        ok ((s.setTf cur tf).addLog [.enter c cur]) c q := by
      intro call q h2 h3
      rw [addLog_k, request_setTf] at h3
      exact hok _ _ _ _ _ (hq cur call q hc hd h2 h3)
    cases trapDispatch_did h1 hc hlog hask with
    | yield h2 => exact ⟨_, h2, schedYield_leaves h⟩
    | left h2 h3 => cases h; exact ⟨_, h2, h3⟩
    | ret h2 h3 =>
      refine ⟨_, h2, ?_⟩
      simp only [h3] at h
      split at h
      · cases h; exact .back h3 ‹_›
      · exact schedYield_leaves h

/-- A step of a CPU without an environment. -/
theorem sched_leaves (h : s.step (.sched c) = some s') : s.curenv c = none ∧ Leaves c s s' := by
  simp only [step] at h
  split at h
  · rename_i hc
    exact ⟨hc, schedYield_leaves h⟩
  · exact absurd h nofun

/-- A store changes memory only. -/
theorem store_alike {va : VA} {v : BitVec 64} (h : s.step (.store c va v) = some s') :
    ∃ m, s' = s.setK (s.k.setPm m) := by
  simp only [step] at h
  split at h
  · exact absurd h nofun
  · obtain ⟨m, -, h1⟩ := Option.map_eq_some_iff.1 h
    exact ⟨m, h1.symm⟩

/-! ### Runs -/

/-- **The rule for runs**: `O` holds while no CPU is in the kernel, and `I c` while CPU `c`
is. -/
theorem Reach.rule {s₀ : Machine n} {G : Machine n → Ev n → Prop} {O : Machine n → Prop}
    {I : Fin n → Machine n → Prop} (hok : Stable ok) (hG : ∀ s ev, G s ev → Asks ok s ev)
    (hinit : O s₀) (hin : ∀ s c, O s → I c s)
    (henter : ∀ s c cur tf, O s → s.curenv c = some cur → (s.k.envs cur).envStatus ≠ .dying →
      I c ((s.setTf cur tf).addLog [.enter c cur]))
    (hmove : ∀ s s' c, I c s → Move ok c s s' → I c s')
    (hleave : ∀ s s' c, I c s → Leaves c s s' → O s')
    (hstore : ∀ s m, O s → O (s.setK (s.k.setPm m))) (h : Reach G s₀ s) : O s := by
  have hmoves : ∀ s s' c, I c s → Moves ok c s s' → I c s' := by
    intro s s' c hs hm
    induction hm with
    | refl => exact hs
    | tail _ hlast ih => exact hmove _ _ _ ih hlast
  induction h with
  | init => exact hinit
  | @step s s' ev _ hg hs ih =>
    cases ev with
    | sched c => exact hleave _ _ _ (hin _ c ih) (sched_leaves hs).2
    | store c va v =>
      obtain ⟨m, rfl⟩ := store_alike hs
      exact hstore _ m ih
    | trap c tf io =>
      simp only [Machine.step] at hs
      split at hs
      · obtain ⟨cur, hc, ⟨-, s₁, h1, h2⟩ | ⟨hd, s₁, h1, h2⟩⟩ := trap_moves hok hs (hG _ _ hg)
        · exact hleave _ _ _ (hmoves _ _ _ (hin _ c ih) h1) h2
        · exact hleave _ _ _ (hmoves _ _ _ (henter _ _ _ _ ih hc hd) h1) h2
      · exact absurd hs nofun

end Machine

end Jos
