import Jos.Proof.Calls

/-!
# What the kernel does to the environments

The functions of `kern/env.c` and the system calls, as far as they change the `envs` array
and `env_free_list`, in any state of the memory manager: `Issued` for `env_alloc`, `Freed`
for `env_free`, and `EnvEffect` for a system call.
-/

namespace Jos

open Lib

variable {k k₁ k' : Kernel} {cur e x : EnvIdx} {parent : EnvId} {r : ℤ} {m : Pmap} {o : Outcome}
variable {call : Syscall} {va srcva dstva : VA} {perm : BitVec 32}

/-- `env_alloc(&e, parent)` has given out slot `e`. -/
structure Issued (k k' : Kernel) (parent : EnvId) (e : EnvIdx) : Prop where
  head : k.envFreeList = some e
  free : k'.envFreeList = (k.envs e).envLink
  link : (k'.envs e).envLink = (k.envs e).envLink
  id : (k'.envs e).envId = nextEnvId e (k.envs e).envId
  parentId : (k'.envs e).envParentId = parent
  status : (k'.envs e).envStatus = .runnable
  recving : (k'.envs e).envIpcRecving = false
  other : ∀ x, x ≠ e → k'.envs x = k.envs x

/-- `env_free(e)` has put slot `e` on the free list. -/
structure Freed (k k' : Kernel) (e : EnvIdx) : Prop where
  head : k'.envFreeList = some e
  link : (k'.envs e).envLink = k.envFreeList
  id : (k'.envs e).envId = (k.envs e).envId
  parentId : (k'.envs e).envParentId = (k.envs e).envParentId
  status : (k'.envs e).envStatus = .free
  recving : (k'.envs e).envIpcRecving = (k.envs e).envIpcRecving
  value : (k'.envs e).envIpcValue = (k.envs e).envIpcValue
  sender : (k'.envs e).envIpcFrom = (k.envs e).envIpcFrom
  tf : (k'.envs e).envTf = (k.envs e).envTf
  other : ∀ x, x ≠ e → k'.envs x = k.envs x

/-- `env_setup_vm` fails and leaves the environments alone, or sets the page tables. -/
theorem envSetupVm_cases (h : envSetupVm k e = some (r, k')) :
    (r < 0 ∧ k'.envs = k.envs ∧ k'.envFreeList = k.envFreeList) ∨
    (r = 0 ∧ ∃ m p c, k' = (k.setPm m).setEnv e { k.envs e with envPml4e := p, envCr3 := c }) := by
  unfold envSetupVm at h
  obtain ⟨⟨p, m⟩, -, h⟩ := Option.bind_eq_some_iff.1 h
  cases p with
  | none => cases h; exact Or.inl ⟨by decide, rfl, rfl⟩
  | some p =>
    obtain ⟨root, -, h⟩ := Option.bind_eq_some_iff.1 h
    cases h
    exact Or.inr ⟨rfl, _, _, _, rfl⟩

/-- **What `env_alloc` does to the environments.** -/
theorem envAlloc_issued (h : envAlloc k parent = some (.ok e, k')) : Issued k k' parent e := by
  unfold envAlloc at h
  cases hh : k.envFreeList with
  | none => rw [hh] at h; cases h
  | some a =>
    rw [hh] at h
    obtain ⟨⟨r, k₁⟩, h1, h⟩ := Option.bind_eq_some_iff.1 h
    rcases envSetupVm_cases h1 with ⟨hr, -⟩ | ⟨rfl, m, p, c, rfl⟩
    · simp only [if_pos hr] at h; cases h
    · simp only [lt_irrefl, if_false] at h
      cases h
      refine ⟨hh, ?_, ?_, ?_, ?_, ?_, ?_, fun x hx => ?_⟩
      · simp
      · simp
      · simp
      · simp
      · simp
      · simp
      · rw [Kernel.setFree_envs, Kernel.setEnv_of_ne hx, Kernel.setEnv_of_ne hx, Kernel.setPm_envs]

/-- A failed `env_alloc` leaves the environments alone. -/
theorem envAlloc_failed (h : envAlloc k parent = some (.error r, k')) :
    r < 0 ∧ k'.envs = k.envs ∧ k'.envFreeList = k.envFreeList := by
  unfold envAlloc at h
  cases hh : k.envFreeList with
  | none => rw [hh] at h; cases h; exact ⟨by decide, rfl, hh⟩
  | some a =>
    rw [hh] at h
    obtain ⟨⟨y, k₁⟩, h1, h⟩ := Option.bind_eq_some_iff.1 h
    rcases envSetupVm_cases h1 with ⟨hr, h2, h3⟩ | ⟨rfl, m, p, c, rfl⟩
    · simp only [if_pos hr] at h
      cases h
      exact ⟨hr, h2, h3.trans hh⟩
    · simp only [lt_irrefl, if_false] at h; cases h

/-- **What `env_free` does to the environments.** -/
theorem envFree_freed (h : envFree k e = some k') : Freed k k' e := by
  unfold envFree at h
  obtain ⟨root, -, h⟩ := Option.bind_eq_some_iff.1 h
  obtain ⟨m, -, h⟩ := Option.bind_eq_some_iff.1 h
  cases h
  refine ⟨rfl, ?_, ?_, ?_, ?_, ?_, ?_, ?_, ?_, fun x hx => ?_⟩
  · simp
  · simp
  · simp
  · simp
  · simp
  · simp
  · simp
  · simp
  · rw [Kernel.setFree_envs, Kernel.setEnv_of_ne hx, Kernel.setPm_envs]

/-- `env_destroy(e)` marks an environment that runs elsewhere, and frees any other. -/
theorem envDestroy_cases {c : Option EnvIdx} {g : Bool} (h : envDestroy k c e = some (g, k')) :
    ((k.envs e).envStatus = .running ∧ c ≠ some e ∧ g = false ∧
      k' = k.setEnv e { k.envs e with envStatus := .dying }) ∨
    (((k.envs e).envStatus = .running → c = some e) ∧ g = decide (c = some e) ∧
      envFree k e = some k') := by
  unfold envDestroy at h
  split at h
  · rename_i hc
    cases h
    exact Or.inl ⟨hc.1, hc.2, rfl, rfl⟩
  · rename_i hc
    obtain ⟨k₁, h1, h2⟩ := Option.bind_eq_some_iff.1 h
    cases h2
    exact Or.inr ⟨fun hr => by_contra fun hn => hc ⟨hr, hn⟩, by simp, h1⟩

/-! ## The slots -/

/-- `env_free_list` links exactly the free slots. -/
def FreeSlots (k : Kernel) : Prop :=
  ∃ efl, Chain k.link k.envFreeList efl ∧ ∀ e, e ∈ efl ↔ ¬ k.Live e

/-- The rest of the kernel, which leaves the slots alone: it changes no id, no parent id and
no list, and neither frees an environment nor makes one. -/
structure SameSlots (k k' : Kernel) : Prop where
  head : k'.envFreeList = k.envFreeList
  link : ∀ e, (k'.envs e).envLink = (k.envs e).envLink
  id : ∀ e, (k'.envs e).envId = (k.envs e).envId
  parentId : ∀ e, (k'.envs e).envParentId = (k.envs e).envParentId
  status : ∀ e, (k'.envs e).envStatus = .free ↔ (k.envs e).envStatus = .free

theorem Issued.live (h : Issued k k' parent e) : k'.Live e := by
  unfold Kernel.Live; rw [h.status]; decide

/-- `env_alloc` pops a free slot. -/
theorem FreeSlots.issued (h : FreeSlots k) (ha : Issued k k' parent e) :
    FreeSlots k' ∧ ¬ k.Live e := by
  obtain ⟨efl, hc, hfree⟩ := h
  rw [ha.head] at hc
  obtain ⟨efl', rfl, hne, hc⟩ := hc.pop
  refine ⟨⟨efl', ?_, fun x => ?_⟩, (hfree e).1 List.mem_cons_self⟩
  · rw [ha.free]
    refine hc.congr fun x hx => ?_
    have hxe : x ≠ e := by rintro rfl; exact hne hx
    unfold Kernel.link; rw [ha.other x hxe]
  · by_cases hx : x = e
    · subst hx; simp [hne, ha.live]
    · have h1 : k'.Live x ↔ k.Live x := by unfold Kernel.Live; rw [ha.other x hx]
      rw [h1, ← hfree x]; simp [hx]

/-- `env_free` pushes a live slot. -/
theorem FreeSlots.freed (h : FreeSlots k) (hl : k.Live e) (hf : Freed k k' e) : FreeSlots k' := by
  obtain ⟨efl, hc, hfree⟩ := h
  have hne : e ∉ efl := fun hm => (hfree e).1 hm hl
  refine ⟨e :: efl, ?_, fun x => ?_⟩
  · rw [hf.head]
    refine hc.push hne hf.link fun x hx => ?_
    unfold Kernel.link; rw [hf.other x hx]
  · by_cases hx : x = e
    · subst hx
      simp [show ¬ k'.Live x from fun hn => hn hf.status]
    · have h1 : k'.Live x ↔ k.Live x := by unfold Kernel.Live; rw [hf.other x hx]
      rw [h1, ← hfree x]; simp [hx]

theorem FreeSlots.other (h : FreeSlots k) (hs : SameSlots k k') : FreeSlots k' := by
  obtain ⟨efl, hc, hfree⟩ := h
  refine ⟨efl, ?_, fun x => ?_⟩
  · rw [hs.head]
    exact hc.congr fun x _ => hs.link x
  · rw [hfree]
    exact not_congr (not_congr (hs.status x).symm)

theorem SameSlots.refl : SameSlots k k := ⟨rfl, fun _ => rfl, fun _ => rfl, fun _ => rfl, fun _ => Iff.rfl⟩

theorem SameSlots.setPm {m : Pmap} (h : SameSlots k k') : SameSlots k (k'.setPm m) :=
  ⟨h.head, h.link, h.id, h.parentId, h.status⟩

theorem SameSlots.setEnv {v : Env} (h : SameSlots k k') (h1 : v.envLink = (k'.envs e).envLink)
    (h2 : v.envId = (k'.envs e).envId) (h3 : v.envParentId = (k'.envs e).envParentId)
    (h4 : v.envStatus = .free ↔ (k'.envs e).envStatus = .free) : SameSlots k (k'.setEnv e v) := by
  have hx : ∀ x, x = e ∧ (k'.setEnv e v).envs x = v ∨ (k'.setEnv e v).envs x = k'.envs x := by
    intro x
    by_cases hx : x = e
    · subst hx; exact Or.inl ⟨rfl, Kernel.setEnv_self⟩
    · exact Or.inr (Kernel.setEnv_of_ne hx)
  refine ⟨h.head, fun x => ?_, fun x => ?_, fun x => ?_, fun x => ?_⟩
  · rcases hx x with ⟨rfl, hx⟩ | hx <;> rw [hx, ← h.link]; exact h1
  · rcases hx x with ⟨rfl, hx⟩ | hx <;> rw [hx, ← h.id]; exact h2
  · rcases hx x with ⟨rfl, hx⟩ | hx <;> rw [hx, ← h.parentId]; exact h3
  · rcases hx x with ⟨rfl, hx⟩ | hx <;> rw [hx, ← h.status]; exact h4

/-- A live environment gets another status. -/
theorem SameSlots.setStatus {v : Env} (h : SameSlots k k') (hl : k'.Live e)
    (h1 : v.envLink = (k'.envs e).envLink) (h2 : v.envId = (k'.envs e).envId)
    (h3 : v.envParentId = (k'.envs e).envParentId) (h4 : v.envStatus ≠ .free) :
    SameSlots k (k'.setEnv e v) :=
  h.setEnv h1 h2 h3 ⟨fun hf => absurd hf h4, fun hf => absurd hf hl⟩

theorem sameSlots_envRun {c : Option EnvIdx} (he : k.Live e) : SameSlots k (envRun k c e) := by
  have hlast : ∀ {k₁ : Kernel}, SameSlots k k₁ → k₁.Live e → SameSlots k (k₁.setEnv e { k₁.envs e with
      envStatus := .running, envRuns := (k₁.envs e).envRuns + 1 }) := fun h₁ he₁ =>
    h₁.setStatus he₁ rfl rfl rfl (by simp)
  unfold envRun
  cases c with
  | none => exact hlast .refl he
  | some c =>
    simp only
    split
    · rename_i hrun
      have h1 : SameSlots k (k.setEnv c { k.envs c with envStatus := .runnable }) :=
        SameSlots.refl.setEnv rfl rfl rfl ⟨nofun, fun hf => by rw [hrun] at hf; cases hf⟩
      exact hlast h1 fun hf => he ((h1.status e).1 hf)
    · exact hlast .refl he

theorem sameSlots_regionAlloc {va len : VA} (h : regionAlloc k e va len = some k') : SameSlots k k' := by
  unfold regionAlloc at h
  obtain ⟨p, -, h⟩ := Option.bind_eq_some_iff.1 h
  obtain ⟨m, -, h⟩ := Option.bind_eq_some_iff.1 h
  cases h
  exact SameSlots.refl.setPm

theorem SameSlots.trans {k₂ : Kernel} (h : SameSlots k k') (h' : SameSlots k' k₂) : SameSlots k k₂ :=
  ⟨h'.head.trans h.head, fun e => (h'.link e).trans (h.link e), fun e => (h'.id e).trans (h.id e),
    fun e => (h'.parentId e).trans (h.parentId e), fun e => (h'.status e).trans (h.status e)⟩

theorem sameSlots_loadIcode {b : Binary} (h : loadIcode k e b = some k') : SameSlots k k' := by
  unfold loadIcode at h
  obtain ⟨k₁, h1, h⟩ := Option.bind_eq_some_iff.1 h
  obtain ⟨k₂, h2, h⟩ := Option.bind_eq_some_iff.1 h
  cases h
  have h3 : SameSlots k k₁ := loop_inv (P := fun k₁ => SameSlots k k₁)
    (fun a _ b b' hb hs => hb.trans (sameSlots_regionAlloc hs)) h1
    (SameSlots.refl.setEnv rfl rfl rfl Iff.rfl)
  exact (h3.trans (sameSlots_regionAlloc h2)).setEnv rfl rfl rfl Iff.rfl

/-- Two states whose environments differ at most in the receiver's fields and the upcall that
no other environment's affairs depend on. -/
structure Alike (k k' : Kernel) : Prop where
  slots : SameSlots k k'
  status : ∀ e, (k'.envs e).envStatus = (k.envs e).envStatus
  cr3 : ∀ e, (k'.envs e).envCr3 = (k.envs e).envCr3
  tf : ∀ e, (k'.envs e).envTf = (k.envs e).envTf
  recving : ∀ e, (k'.envs e).envIpcRecving = (k.envs e).envIpcRecving
  sender : ∀ e, (k'.envs e).envIpcFrom = (k.envs e).envIpcFrom
  value : ∀ e, (k'.envs e).envIpcValue = (k.envs e).envIpcValue

theorem Alike.of_envs (h : k'.envs = k.envs) (hf : k'.envFreeList = k.envFreeList) : Alike k k' :=
  ⟨⟨hf, fun e => by rw [h], fun e => by rw [h], fun e => by rw [h], fun e => by rw [h]⟩, fun e => by rw [h],
    fun e => by rw [h], fun e => by rw [h], fun e => by rw [h], fun e => by rw [h], fun e => by rw [h]⟩

theorem alike_setPm : Alike k (k.setPm m) := .of_envs rfl rfl

theorem alike_upcall {func : VA} : Alike k (k.setEnv e { k.envs e with envPgfaultUpcall := func }) := by
  have h : ∀ x, (k.setEnv e { k.envs e with envPgfaultUpcall := func }).envs x =
      { k.envs x with envPgfaultUpcall := if x = e then func else (k.envs x).envPgfaultUpcall } := by
    intro x
    by_cases hx : x = e
    · subst hx; rw [Kernel.setEnv_self, if_pos rfl]
    · rw [Kernel.setEnv_of_ne hx, if_neg hx]
  exact ⟨SameSlots.refl.setEnv rfl rfl rfl Iff.rfl, fun x => by rw [h], fun x => by rw [h],
    fun x => by rw [h], fun x => by rw [h], fun x => by rw [h], fun x => by rw [h]⟩

/-- `envid2env` finds live environments, or the caller. -/
theorem envid2env_live_or {id : EnvId} {b : Bool} (h : envid2env k cur id b = some e) :
    k.Live e ∨ e = cur := by
  unfold envid2env at h
  split at h
  · cases h; exact Or.inr rfl
  · dsimp only at h
    split at h
    · cases h
    · rename_i h1
      split at h
      · cases h
      · cases h; exact Or.inl fun h2 => h1 (Or.inl h2)

/-! ## The system calls -/

/-- The calls whose success changes an environment. -/
def Syscall.Acts : Syscall → Prop
  | .exofork | .envSetStatus .. | .ipcTrySend .. | .ipcRecv _ => True
  | _ => False

/-- **What a system call does to the environments.** A call that does nothing else only
changes memory. -/
inductive EnvEffect (k : Kernel) (cur : EnvIdx) : Syscall → Outcome → Prop
  | memory {call : Syscall} {r : ℤ} {m : Pmap} : (call.Acts → r < 0) →
    EnvEffect k cur call (.ret r (k.setPm m))
  | yield : EnvEffect k cur .yield (.resched k)
  | killed {s len : VA} {m : Pmap} {g : Bool} {k' : Kernel} :
    envDestroy (k.setPm m) (some cur) cur = some (g, k') →
    EnvEffect k cur (.cputs s len) (.resched k')
  | destroy {envid : EnvId} {e : EnvIdx} {g : Bool} {k' : Kernel} :
    envid2env k cur envid true = some e → envDestroy k (some cur) e = some (g, k') →
    EnvEffect k cur (.envDestroy envid) (if g then .resched k' else .ret 0 k')
  | failedFork {r : ℤ} {k' : Kernel} : envAlloc k (k.envs cur).envId = some (.error r, k') →
    EnvEffect k cur .exofork (.ret r k')
  | fork {e : EnvIdx} {k₁ : Kernel} {tf : Trapframe} :
    envAlloc k (k.envs cur).envId = some (.ok e, k₁) →
    EnvEffect k cur .exofork (.ret (k₁.envs e).envId.toInt
      (k₁.setEnv e { k₁.envs e with envStatus := .notRunnable, envTf := tf }))
  | setStatus {envid : EnvId} {status : BitVec 32} {e : EnvIdx} : (status = 2 ∨ status = 4) →
    envid2env k cur envid true = some e →
    EnvEffect k cur (.envSetStatus envid status) (.ret 0 (k.setEnv e { k.envs e with
      envStatus := if status = 2 then .runnable else .notRunnable }))
  | upcall {envid : EnvId} {func : VA} {e : EnvIdx} :
    EnvEffect k cur (.envSetPgfaultUpcall envid func)
      (.ret 0 (k.setEnv e { k.envs e with envPgfaultUpcall := func }))
  | sent {envid : EnvId} {value : BitVec 64} {srcva : VA} {perm : BitVec 32} {e : EnvIdx}
    {m : Pmap} {p : BitVec 32} : envid2env k cur envid false = some e →
    (k.envs e).envIpcRecving = true →
    EnvEffect k cur (.ipcTrySend envid value srcva perm)
      (.ret 0 (ipcDeliver (k.setPm m) cur e value p))
  | recv {dstva : VA} : EnvEffect k cur (.ipcRecv dstva) (.ret 0 (k.setEnv cur { k.envs cur with
      envIpcRecving := true, envIpcDstva := dstva, envStatus := .notRunnable }))

/-- A call that changes nothing. -/
theorem EnvEffect.unchanged (h : call.Acts → r < 0) : EnvEffect k cur call (.ret r k) := by
  have h1 : EnvEffect k cur call (.ret r (k.setPm k.pm)) := .memory h
  rwa [Kernel.setPm_self] at h1

/-- A transfer changes only memory, and its result is an error or 0. -/
theorem transferPage_pm {src dst : EnvIdx} (h : transferPage k src srcva dst dstva perm = some (r, k')) :
    (r < 0 ∨ r = 0) ∧ ∃ m, k' = k.setPm m := by
  unfold transferPage at h
  obtain ⟨p, -, h⟩ := Option.bind_eq_some_iff.1 h
  obtain ⟨⟨y, m⟩, -, h⟩ := Option.bind_eq_some_iff.1 h
  cases y with
  | none => cases h; exact ⟨Or.inl (by decide), _, rfl⟩
  | some y =>
    simp only at h
    split at h
    · cases h; exact ⟨Or.inl (by decide), _, rfl⟩
    · obtain ⟨p', -, h⟩ := Option.bind_eq_some_iff.1 h
      obtain ⟨⟨z, m'⟩, hz, h⟩ := Option.bind_eq_some_iff.1 h
      cases h
      refine ⟨?_, _, rfl⟩
      have hneg : -eNoMem < 0 := by decide
      rcases pageInsert_code hz with rfl | rfl
      · exact Or.inr rfl
      · exact Or.inl hneg

theorem allocPage_pm (h : allocPage k e va perm = some (r, k')) : ∃ m, k' = k.setPm m := by
  unfold allocPage at h
  obtain ⟨⟨y, m⟩, -, h⟩ := Option.bind_eq_some_iff.1 h
  cases y with
  | none => cases h; exact ⟨_, rfl⟩
  | some y =>
    simp only at h
    obtain ⟨p, -, h⟩ := Option.bind_eq_some_iff.1 h
    obtain ⟨⟨z, m'⟩, -, h⟩ := Option.bind_eq_some_iff.1 h
    split at h
    · obtain ⟨m'', -, h⟩ := Option.bind_eq_some_iff.1 h
      cases h; exact ⟨_, rfl⟩
    · cases h; exact ⟨_, rfl⟩

/-- **Every system call has one of these effects.** -/
theorem exec_envEffect (h : call.exec k cur = some o) : EnvEffect k cur call o := by
  cases call with
  | cputs s len =>
    obtain ⟨p, -, h⟩ := Option.bind_eq_some_iff.1 h
    obtain ⟨⟨y, m⟩, -, h⟩ := Option.bind_eq_some_iff.1 h
    cases y with
    | none => cases h; exact .memory nofun
    | some a =>
      obtain ⟨⟨g, k'⟩, h1, h⟩ := Option.bind_eq_some_iff.1 h
      cases h; exact .killed h1
  | cgetc c => cases h; exact .unchanged nofun
  | getenvid => cases h; exact .unchanged nofun
  | envDestroy id =>
    simp only [Syscall.exec, sysEnvDestroy] at h
    split at h
    · cases h; exact .unchanged nofun
    · rename_i e h1
      obtain ⟨⟨g, k'⟩, h2, h⟩ := Option.bind_eq_some_iff.1 h
      cases h; exact .destroy h1 h2
  | pageAlloc id va perm =>
    obtain ⟨⟨x, k'⟩, h1, rfl⟩ := Option.map_eq_some_iff.1 h
    rcases sysPageAlloc_eq k cur id va perm with ⟨y, -, h2⟩ | ⟨e, -, -, -, -, h2⟩
    · rw [h2] at h1; cases h1; exact .unchanged nofun
    · obtain ⟨m, rfl⟩ := allocPage_pm (h2.symm.trans h1)
      exact .memory nofun
  | pageMap sid srcva did dstva perm =>
    obtain ⟨⟨x, k'⟩, h1, rfl⟩ := Option.map_eq_some_iff.1 h
    rcases sysPageMap_eq k cur sid srcva did dstva perm with ⟨y, -, h2⟩ | ⟨src, dst, -, -, -, -, -, h2⟩
    · rw [h2] at h1; cases h1; exact .unchanged nofun
    · obtain ⟨-, m, rfl⟩ := transferPage_pm (h2.symm.trans h1)
      exact .memory nofun
  | pageUnmap id va =>
    obtain ⟨⟨x, k'⟩, h1, rfl⟩ := Option.map_eq_some_iff.1 h
    rcases sysPageUnmap_eq k cur id va with ⟨y, -, h2⟩ | ⟨e, -, -, -, h2⟩
    · rw [h2] at h1; cases h1; exact .unchanged nofun
    · rw [h2] at h1
      obtain ⟨root, -, h1⟩ := Option.bind_eq_some_iff.1 h1
      obtain ⟨m, -, h1⟩ := Option.map_eq_some_iff.1 h1
      cases h1; exact .memory nofun
  | exofork =>
    obtain ⟨⟨x, k'⟩, h1, rfl⟩ := Option.map_eq_some_iff.1 h
    unfold sysExofork at h1
    obtain ⟨⟨y, k₁⟩, h2, h1⟩ := Option.bind_eq_some_iff.1 h1
    cases y with
    | error y => cases h1; exact .failedFork h2
    | ok e =>
      cases h1
      rw [Kernel.setEnv_self]
      exact .fork h2
  | envSetStatus id status =>
    obtain ⟨⟨x, k'⟩, h1, rfl⟩ := Option.map_eq_some_iff.1 h
    unfold sysEnvSetStatus at h1
    split at h1
    · cases h1; exact .unchanged fun _ => by decide
    · rename_i hst
      split at h1
      · cases h1; exact .unchanged fun _ => by decide
      · rename_i e h2
        cases h1
        exact .setStatus (by by_contra hn; exact hst (not_or.1 hn)) h2
  | envSetPgfaultUpcall id func =>
    obtain ⟨⟨x, k'⟩, h1, rfl⟩ := Option.map_eq_some_iff.1 h
    unfold sysEnvSetPgfaultUpcall at h1
    split at h1
    · cases h1; exact .unchanged nofun
    · cases h1; exact .upcall
  | yield => cases h; exact .yield
  | ipcTrySend id value srcva perm =>
    obtain ⟨⟨x, k'⟩, h1, rfl⟩ := Option.map_eq_some_iff.1 h
    rcases sysIpcTrySend_eq k cur id value srcva perm with
      ⟨y, hy, h2⟩ | ⟨e, h2, h3, ⟨-, h4⟩ | ⟨-, -, h4⟩⟩
    · rw [h2] at h1; cases h1; exact .unchanged fun _ => hy
    · rw [h4] at h1; cases h1
      exact .sent (m := k.pm) h2 h3
    · rw [h4] at h1
      obtain ⟨⟨z, k₁⟩, h5, h6⟩ := Option.map_eq_some_iff.1 h1
      obtain ⟨hz, m, rfl⟩ := transferPage_pm h5
      unfold ipcFinish at h6
      split at h6
      · cases h6; exact .sent h2 h3
      · rename_i h0
        cases h6
        exact .memory fun _ => hz.resolve_right h0
  | ipcRecv dstva =>
    obtain ⟨⟨x, k'⟩, h1, rfl⟩ := Option.map_eq_some_iff.1 h
    unfold sysIpcRecv at h1
    split at h1
    · cases h1; exact .unchanged fun _ => by decide
    · cases h1; exact .recv

end Jos
