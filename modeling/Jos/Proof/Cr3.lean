import Jos.Proof.Cpus
import Jos.Proof.Frames

/-!
# The page tables of a CPU

`KInv` along the runs of several CPUs: each function of a stay in the kernel keeps it, if the
system calls are clean. With the invariant of `Jos.Proof.Cpus`, the tables that `CR3` of a CPU
in user mode leads to are those of its `cpu_env`, and none of them is on `page_free_list`.
-/

namespace Jos

variable {F : Set ℕ} {K : Vpn → Option PTE} {k₀ k k' : Kernel} {m m' : Pmap} {fl : List ℕ}
variable {r : ℕ} {e cur : EnvIdx} {va : VA} {n : ℕ}

/-- The invariant, with no property of the entries. -/
def Sane (F : Set ℕ) (K : Vpn → Option PTE) (k : Kernel) : Prop :=
  ∃ fl efl, KInv F K (fun _ => True) k fl efl

theorem Sane.storeBytes {bs : List (BitVec 8)} (h : Sane F K k) (hK : Guarded K) (he : k.Live e)
    (hr : (k.envs e).envPml4e = some r) (hs : Jos.storeBytes k.pm r va bs = some m) :
    Sane F K (k.setPm m) := by
  induction bs generalizing k va with
  | nil => cases hs; exact h
  | cons b bs ih =>
    unfold Jos.storeBytes at hs
    obtain ⟨m₁, h1, hs⟩ := Option.bind_eq_some_iff.1 hs
    unfold storeByte at h1
    obtain ⟨x, -, h1⟩ := Option.bind_eq_some_iff.1 h1
    obtain ⟨fl, efl, h⟩ := h
    obtain ⟨r', hr', hroot⟩ := h.pml4e he
    rw [hr] at hr'; cases hr'
    obtain ⟨h2, h3⟩ := h.inv.storeWord hK hroot h1
    exact ih (k := k.setPm m₁) ⟨fl, efl, h.setPm h2 h3⟩ he hr hs

theorem Sane.setEnv {v : Env} (h : Sane F K k) (hv : SameRoot v (k.envs e)) : Sane F K (k.setEnv e v) := by
  obtain ⟨fl, efl, h⟩ := h
  exact ⟨fl, efl, h.setEnv hv⟩

theorem Sane.envFree (h : Sane F K k) (he : k.Live e) (hs : Jos.envFree k e = some k') : Sane F K k' := by
  obtain ⟨fl, efl, h⟩ := h
  obtain ⟨root, m₁, fl₁, -, h1, h2, -⟩ := h.envFree he
  rw [h1] at hs; cases hs
  exact ⟨_, _, h2⟩

namespace Machine

variable {s s' s₁ : Machine n} {c : Fin n} {tf : Trapframe} {io : Io} {call : Syscall} {ev : Ev n}

/-- The system call of an event is clean. -/
def CleanEv (s : Machine n) : Ev n → Prop
  | .trap c tf io => ∀ cur call, s.curenv c = some cur → (s.k.envs cur).envStatus ≠ .dying →
    callOf tf io = some call → CleanCall s.k cur call
  | _ => True

theorem cleanCall_setTf : CleanCall (s.setTf cur tf).k cur call ↔ CleanCall s.k cur call := by
  unfold CleanCall
  simp only [setTf_env, envid2env_setTf]
  rfl

/-! ## The functions -/

/-- The state that a function leaves. -/
def Result.state {α : Type} : Result n α → Machine n
  | .ret _ s => s
  | .yield s => s
  | .left s => s

theorem Result.map_state {α β : Type} {f : α → β} (r : Result n α) : (r.map f).state = r.state := by
  cases r <;> rfl

theorem sane_envRun (h : Sane F K s.k) (he : s.k.Live e) : Sane F K (s.envRun c e).k := by
  obtain ⟨fl, efl, h⟩ := h
  exact ⟨fl, efl, h.envRun he⟩

theorem envFree_k (h : s.envFree c e = some s') : Jos.envFree s.k e = some s'.k := by
  unfold envFree at h
  obtain ⟨k', h1, h⟩ := Option.bind_eq_some_iff.1 h
  cases h
  split at h1 <;> exact h1

theorem sane_envDestroy {r : Result n Unit} (h : Sane F K s.k) (he : s.k.Live e)
    (hs : s.envDestroy c e = some r) : Sane F K r.state.k := by
  unfold envDestroy at hs
  split at hs
  · cases hs
    exact h.setEnv (sameRoot_status he (by simp) rfl rfl rfl)
  · obtain ⟨s₁, h1, hs⟩ := Option.bind_eq_some_iff.1 hs
    have h2 := h.envFree he (envFree_k h1)
    split at hs <;> cases hs <;> exact h2

/-- `sched_yield` runs an environment that is alive, or halts. -/
theorem sane_schedYield (h : Sane F K s.k) (hs : s.schedYield c = some s') : Sane F K s'.k := by
  have hlive : ∀ {e st}, (s.k.envs e).envStatus = st → st ≠ .free → s.k.Live e := by
    rintro e st rfl h1
    exact h1
  unfold schedYield at hs
  simp only at hs
  split at hs
  · rename_i i hi
    cases hs
    exact sane_envRun h (hlive (by simpa using List.find?_some hi) (by decide))
  · have hhalt : s.schedHalt c = some s' → Sane F K s'.k := by
      intro hs
      unfold schedHalt at hs
      split at hs <;> cases hs
      exact h
    split at hs
    · split at hs
      · cases hs; exact sane_envRun h (hlive ‹_› (by decide))
      · exact hhalt hs
    · exact hhalt hs

theorem sane_syscall {r : Result n ℤ} (h : Sane F K s.k) (he : s.k.Live cur)
    (hok : CleanCall s.k cur call) (hs : s.syscall c cur call = some r) : Sane F K r.state.k := by
  have hexec : (∀ va len, call ≠ .cputs va len) → (∀ envid, call ≠ .envDestroy envid) →
      Sane F K r.state.k := by
    intro hn hd
    obtain ⟨fl, efl, h⟩ := h
    have hclean : Clean s.k (.syscall cur call) := hok
    obtain ⟨x, k, h1, rfl⟩ | ⟨k, h1, rfl⟩ := syscall_exec hs hn hd
    · exact h.exec he hok hclean.grants_true.2 h1
    · exact h.exec he hok hclean.grants_true.2 h1
  cases call with
  | envDestroy envid =>
    simp only [syscall] at hs
    split at hs
    · cases hs; exact h
    · rename_i e h1
      obtain ⟨r₁, h2, hs⟩ := Option.bind_eq_some_iff.1 hs
      cases hs
      rw [Result.map_state]
      exact sane_envDestroy h (envid2env_live he h1) h2
  | cputs va len =>
    simp only [syscall] at hs
    obtain ⟨p, -, hs⟩ := Option.bind_eq_some_iff.1 hs
    obtain ⟨⟨y, m⟩, h1, hs⟩ := Option.bind_eq_some_iff.1 hs
    obtain rfl := userMemCheckLoop_state h1
    cases y with
    | none => cases hs; exact h
    | some a =>
      obtain ⟨r₁, h2, hs⟩ := Option.bind_eq_some_iff.1 hs
      cases hs
      rw [Result.map_state]
      exact sane_envDestroy (s := s.setK (s.k.setPm s.k.pm)) h he h2
  | _ => exact hexec (by simp) (by simp)

theorem sane_pageFaultHandler {r : Result n Unit} (h : Sane F K s.k) (hK : Guarded K) (he : s.k.Live cur)
    (hs : s.pageFaultHandler c cur tf io = some r) : Sane F K r.state.k := by
  unfold pageFaultHandler at hs
  split at hs
  · obtain ⟨p, hp, hs⟩ := Option.bind_eq_some_iff.1 hs
    obtain ⟨⟨y, m⟩, h1, hs⟩ := Option.bind_eq_some_iff.1 hs
    obtain rfl := userMemCheckLoop_state h1
    cases y with
    | some a => exact sane_envDestroy (s := s.setK (s.k.setPm s.k.pm)) h he hs
    | none =>
      obtain ⟨m', h2, hs⟩ := Option.bind_eq_some_iff.1 hs
      cases hs
      have h3 : Sane F K (s.k.setPm m') := h.storeBytes hK he hp h2
      have hv : SameRoot { (s.k.setPm m').envs cur with envTf := { tf with
          tfRip := (s.k.envs cur).envPgfaultUpcall, tfRsp := utfAddr tf.tfRsp } }
          ((s.k.setPm m').envs cur) := ⟨Iff.rfl, rfl, rfl, rfl⟩
      exact sane_envRun (h3.setEnv hv) ((Kernel.setEnv_live hv).2 he)
  · exact sane_envDestroy h he hs

theorem sane_trapDispatch {r : Result n Unit} (h : Sane F K s.k) (hK : Guarded K) (he : s.k.Live cur)
    (hok : ∀ call, callOf tf io = some call → CleanCall s.k cur call)
    (hs : s.trapDispatch c cur tf io = some r) : Sane F K r.state.k := by
  unfold trapDispatch at hs
  split at hs
  · exact sane_pageFaultHandler h hK he hs
  split at hs
  · cases hs; exact h
  split at hs
  · rename_i hsys
    simp only at hs
    split at hs
    · cases hs; exact h.setEnv ⟨Iff.rfl, rfl, rfl, rfl⟩
    · rename_i call hcall
      obtain ⟨r₁, h1, hs⟩ := Option.bind_eq_some_iff.1 hs
      have hco : callOf tf io = some call := by
        unfold callOf
        rw [if_pos hsys]
        exact hcall
      have h2 := sane_syscall h he (hok call hco) h1
      cases r₁ with
      | ret x s₁ => cases hs; exact Sane.setEnv (k := s₁.k) h2 ⟨Iff.rfl, rfl, rfl, rfl⟩
      | yield s₁ => cases hs; exact h2
      | left s₁ => cases hs; exact h2
  split at hs
  · cases hs; exact h
  split at hs
  · cases hs; exact h
  split at hs
  · cases hs
  · exact sane_envDestroy h he hs

/-! ## The runs -/

theorem page2pa_ppn {fl : List ℕ} {efl : List EnvIdx} (h : KInv F K (fun _ => True) k fl efl)
    (he : k.Live e) : ∃ r, (k.envs e).envPml4e = some r ∧ roots k (.env e) = some r ∧
      ppn (k.envs e).envCr3 = r := by
  obtain ⟨r, h1, h2⟩ := h.root e he
  have hroot : roots k (.env e) = some r := by rw [roots_env he, h1]
  have h3 := h.inv.sound.wf.node_lt r (root_at hroot).node
  have h4 := h.inv.sound.wf.npages_le
  exact ⟨r, h1, hroot, by rw [h2]; exact ppn_page2pa (by omega)⟩

/-- **A step keeps it.** -/
theorem sane_step (h : Sane F K s.k) (hK : Guarded K) (ho : Outside s) (hok : CleanEv s ev)
    (hs : s.step ev = some s') : Sane F K s'.k := by
  cases ev with
  | sched c =>
    simp only [step] at hs
    split at hs
    · exact sane_schedYield h hs
    · cases hs
  | store c va v =>
    simp only [step] at hs
    split at hs
    · cases hs
    · rename_i hc
      obtain ⟨m, h1, rfl⟩ := Option.map_eq_some_iff.1 hs
      obtain ⟨e, he⟩ := Option.ne_none_iff_exists'.1 hc
      obtain ⟨fl, efl, h⟩ := h
      obtain ⟨r, -, hroot, hr⟩ := page2pa_ppn h (ho.excl.live c e he)
      rw [ho.excl.cr3 c e he, hr] at h1
      obtain ⟨h2, h3⟩ := h.inv.storeWord hK hroot h1
      exact ⟨fl, efl, h.setPm h2 h3⟩
  | trap c tf io =>
    simp only [step] at hs
    split at hs
    · unfold trap at hs
      split at hs
      · cases hs
      rename_i cur hc
      have hl := ho.excl.live c cur hc
      split at hs
      · obtain ⟨s₁, h1, hs⟩ := Option.bind_eq_some_iff.1 hs
        have h2 : Sane F K s₁.k := h.envFree hl (envFree_k h1)
        exact sane_schedYield (s := s₁.setCurenv c none) h2 hs
      · rename_i hd
        obtain ⟨r, h1, hs⟩ := Option.bind_eq_some_iff.1 hs
        have hv : SameRoot { s.k.envs cur with envTf := tf } (s.k.envs cur) := ⟨Iff.rfl, rfl, rfl, rfl⟩
        have h2 : Sane F K ((s.setTf cur tf).addLog [.enter c cur]).k := h.setEnv hv
        have h3 : ((s.setTf cur tf).addLog [.enter c cur]).k.Live cur := (Kernel.setEnv_live hv).2 hl
        have h4 := sane_trapDispatch h2 hK h3 (fun call hcall =>
          cleanCall_setTf.2 (hok cur call hc hd hcall)) h1
        cases r with
        | yield s₁ => exact sane_schedYield (s := s₁) h4 hs
        | left s₁ => cases hs; exact h4
        | ret u s₁ =>
          simp only at hs
          split at hs
          · rename_i x hx
            split at hs
            · rename_i hrun
              cases hs
              exact sane_envRun (s := s₁) h4 (by unfold Kernel.Live; rw [hrun]; decide)
            · exact sane_schedYield (s := s₁) h4 hs
          · exact sane_schedYield (s := s₁) h4 hs
    · cases hs

/-- The runs whose requests are polite and whose system calls are clean keep both
invariants. -/
theorem sane_reach (hf : Fresh k) (h : Sane F K k) (hK : Guarded K)
    (hr : Reach (fun s ev => Asks Polite s ev ∧ CleanEv s ev) (start k) s) : Sane F K s.k ∧ Outside s := by
  refine ⟨?_, Outside.reach hf (fun _ _ hg => hg.1) hr⟩
  induction hr with
  | init => exact h
  | step hr hg hs ih => exact sane_step ih hK (Outside.reach hf (fun _ _ hg => hg.1) hr) hg.2 hs

/-- **No environment is freed under a CPU.** In the runs whose requests are all polite,
`env_free(e)` is executed when `e` is not the `cpu_env` of another CPU, and at most once
after each `env_alloc`. If the system calls are clean too, then the PML4 in `CR3` of a CPU in user
mode is that of its `cpu_env`, and neither it nor a table below it is on `page_free_list`. -/
theorem envFree_alone (hboot : Boot k₀ fl) (hs : Started k₀ k) (hk : Jos.Reach Clean k₀ k) :
    (∀ s : Machine n, Reach (Asks Polite) (start k) s → FreesOk s.log) ∧
    ∀ s : Machine n, Reach (fun s ev => Asks Polite s ev ∧ CleanEv s ev) (start k) s →
      ∀ c e, s.curenv c = some e → (s.cpus c).cr3 = (s.k.envs e).envCr3 ∧
        ¬ s.k.pm.OnFreeList (ppn (s.cpus c).cr3) ∧
        ∀ va, ∀ v ∈ tableEntries s.k.pm (ppn (s.cpus c).cr3) va, ¬ s.k.pm.OnFreeList (ppn v) := by
  have hfresh : Fresh k₀ := by
    obtain ⟨efl, h1, h2⟩ := hboot.envs
    exact ⟨⟨efl, h1, fun e => ⟨fun _ => hboot.dead e, fun _ => h2 e⟩⟩,
      fun e => Or.inl (not_not.1 (hboot.dead e))⟩
  have hf := hfresh.started hs
  refine ⟨fun s hr => (Outside.reach hf (fun _ _ hg => hg) hr).excl.frees, fun s hr c e hc => ?_⟩
  obtain ⟨⟨fl', efl, h⟩, ho⟩ := sane_reach hf (hboot.reach (fun _ _ => Clean.grants_true) hk)
    hboot.guarded hr
  obtain ⟨r, -, hroot, hr⟩ := page2pa_ppn h (ho.excl.live c e hc)
  have hw := h.inv.sound.wf
  have hnode : ∀ p, (tables (roots s.k) s.k.pm).Node p → ¬ s.k.pm.OnFreeList p := fun p hn hf =>
    hw.free_node p (hw.free.onFreeList.1 hf) hn
  refine ⟨ho.excl.cr3 c e hc, ?_, fun va v hv => ?_⟩
  · rw [ho.excl.cr3 c e hc, hr]
    exact hnode r (root_at hroot).node
  · rw [ho.excl.cr3 c e hc, hr] at hv
    exact hnode _ (hw.tableEntries_node hroot v hv)

/-- A run with calls that map nothing is clean. -/
theorem cleanEv_callEv {no a1 a2 a3 : BitVec 64} (h : ∀ x ∈ Syscall.decode 0 no a1 a2 a3 0 0,
    ∀ k cur, CleanCall k cur x) : CleanEv s (callEv c no a1 a2 a3) := fun cur call _ _ hc =>
  h call hc s.k cur

/-- The calls of `pairRun` and `sys_env_destroy` map nothing. -/
theorem clean_pairRun : ∀ ev ∈ pairRun ++ [callEv 0 3 0x1001 0 0, callEv 1 11 0 0 0], ∀ s, CleanEv s ev := by
  intro ev hev s
  simp only [pairRun, List.cons_append, List.nil_append, List.mem_cons, List.not_mem_nil, or_false] at hev
  rcases hev with rfl | rfl | rfl | rfl | rfl | rfl
  · trivial
  · refine cleanEv_callEv ?_
    rintro x ⟨⟩ k cur
    trivial
  · refine cleanEv_callEv ?_
    rintro x ⟨⟩ k cur
    trivial
  · trivial
  · refine cleanEv_callEv ?_
    rintro x ⟨⟩ k cur
    trivial
  · refine cleanEv_callEv ?_
    rintro x ⟨⟩ k cur
    trivial

/-- The first program destroys its child, which CPU 1 frees when it enters the kernel. -/
theorem envFree_alone_pair : ∃ k, ∃ s : Machine 2, Jos.runs bootKernel [.create bootBinary .user] = some k ∧
    Reach (fun s ev => Asks Polite s ev ∧ CleanEv s ev) (start k) s ∧ s.curenv 0 = some 0 ∧
    (s.k.envs 1).envStatus = .free ∧ FreesOk s.log ∧ ¬ s.k.pm.OnFreeList (ppn (s.cpus 0).cr3) := by
  have h : ((Jos.runs bootKernel [.create bootBinary .user]).any fun k =>
      ((pairRun ++ [callEv 0 3 0x1001 0 0, callEv 1 11 0 0 0]).foldlM
        (fun s ev => if Asks Polite s ev then step s ev else none) (start k)).any fun s : Machine 2 =>
        decide (s.curenv 0 = some 0) && decide ((s.k.envs 1).envStatus = EnvStatus.free)) = true := by
    decide +kernel
  obtain ⟨k, hk, h⟩ := (Option.any_eq_true _ _).1 h
  obtain ⟨s, hs, h⟩ := (Option.any_eq_true _ _).1 h
  simp only [Bool.and_eq_true, decide_eq_true_eq] at h
  have hr : Reach (fun s ev => Asks Polite s ev ∧ CleanEv s ev) (start k) s :=
    reach_of_checked (fun ev hev s hq => ⟨hq, clean_pairRun ev hev s⟩) hs
  have hstart : Started bootKernel k := ⟨_, by simp, hk⟩
  have hclean : Jos.Reach Clean bootKernel k := by
    refine reach_of_runs (fun ev hev k => ?_) hk
    exact clean_bootRun ev (List.mem_append_left _ hev) k
  have hall := envFree_alone (n := 2) boot_bootKernel hstart hclean
  have hmono : Reach (Asks Polite) (start k) s := reach_of_checked (fun _ _ _ hq => hq) hs
  exact ⟨k, s, hk, hr, h.1, h.2, hall.1 s hmono, (hall.2 s hr 0 0 h.1).2.1⟩

/-- The last entry but one: CPU 0 frees environment 1, which is the `cpu_env` of CPU 1. -/
def freedUnder (s : Machine 2) : Bool :=
  match s.log with
  | _ :: .free c e u :: _ => c == 0 && e == 1 && decide (u 1 = some 1)
  | _ => false

/-- **A child freed under CPU 1**: its parent destroys it twice, and the second
`sys_env_destroy` finds it dying, not running, and frees it at once. The PML4 in `CR3` of CPU 1,
which is in user mode, is on `page_free_list`. -/
theorem envFree_alone_counterexample : ∃ k, ∃ s : Machine 2,
    Jos.runs bootKernel [.create bootBinary .user] = some k ∧
    Reach (fun _ _ => True) (start k) s ∧ s.curenv 1 = some 1 ∧ ¬ FreesOk s.log ∧
    s.k.pm.OnFreeList (ppn (s.cpus 1).cr3) := by
  have h : ((Jos.runs bootKernel [.create bootBinary .user]).any fun k =>
      ((pairRun ++ [callEv 0 3 0x1001 0 0, callEv 0 3 0x1001 0 0]).foldlM
        (fun s ev => if True then step s ev else none) (start k)).any fun s : Machine 2 =>
        decide (s.curenv 1 = some 1) && decide (s.k.pm.pageFreeList = some (ppn (s.cpus 1).cr3)) &&
          freedUnder s) = true := by
    decide +kernel
  obtain ⟨k, hk, h⟩ := (Option.any_eq_true _ _).1 h
  obtain ⟨s, hs, h⟩ := (Option.any_eq_true _ _).1 h
  simp only [Bool.and_eq_true, decide_eq_true_eq] at h
  obtain ⟨⟨h1, h2⟩, h3⟩ := h
  refine ⟨k, s, hk, reach_of_checked (fun _ _ _ _ => trivial) hs, h1, fun hfrees => ?_, ?_⟩
  · unfold freedUnder at h3
    split at h3
    · rename_i a c e u l hlog
      simp only [Bool.and_eq_true, beq_iff_eq, decide_eq_true_eq] at h3
      obtain ⟨⟨rfl, rfl⟩, hu⟩ := h3
      exact (hfrees [a] _ l hlog).1 1 (by decide) hu
    · cases h3
  · unfold Pmap.OnFreeList
    rw [h2]
    exact .head

end Machine

end Jos
