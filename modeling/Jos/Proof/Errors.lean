import Jos.Proof.Frames

/-!
# Calls that fail

`failed_unchanged`: a call that returns an error leaves every page-table entry, every count,
the set of free pages and every environment as they were, exactly unless it made tables for
the source address of a transfer: `page_lookup` walks with `create` set, and these tables
stay.
-/

namespace Jos

open Lib

variable {F : Set ℕ} {K : Vpn → Option PTE} {A : PTE → Prop} {R : Roots} {k k' : Kernel}
variable {m m' : Pmap} {fl : List ℕ} {efl : List EnvIdx} {cur e src dst : EnvIdx} {r t n pp : ℕ}
variable {va srcva dstva : VA} {perm : BitVec 32} {x : ℤ} {call : Syscall}

/-- **Nothing has changed**: no environment, no count, not the set of free pages, and no entry of
a page table. -/
structure Unchanged (k k' : Kernel) : Prop where
  envs : k'.envs = k.envs
  ref : ∀ p, (k'.pm.pages p).ppRef = (k.pm.pages p).ppRef
  free : ∀ p, k'.pm.OnFreeList p ↔ k.pm.OnFreeList p
  entry : ∀ t, (tables (roots k) k.pm).Node t → k'.pm.mem t = k.pm.mem t

/-- The transfer makes tables for its source address: some are missing, and there is memory
for them. -/
def Kernel.MakesTables (k : Kernel) (src : EnvIdx) (srcva : VA) : Prop :=
  ∃ r, (k.envs src).envPml4e = some r ∧ 0 < missingTables k.pm r srcva ∧
    missingTables k.pm r srcva ≤ k.pm.freeCount

/-- A call that passes its checks and makes tables for its source address. -/
def Syscall.Leaks (k : Kernel) (cur : EnvIdx) : Syscall → Prop
  | .pageMap srcenvid srcva dstenvid dstva perm => ∃ src dst,
    envid2env k cur srcenvid true = some src ∧ envid2env k cur dstenvid true = some dst ∧
    (srcva < utop ∧ srcva &&& 0xFFF = 0) ∧ (dstva < utop ∧ dstva &&& 0xFFF = 0) ∧ PermOk perm ∧
    k.MakesTables src srcva
  | .ipcTrySend envid _ srcva perm => ∃ e, envid2env k cur envid false = some e ∧
    (k.envs e).envIpcRecving = true ∧ (srcva < utop ∧ pgoff srcva = 0) ∧ IpcPermOk perm ∧
    k.MakesTables cur srcva
  | _ => False

theorem Unchanged.refl : Unchanged k k := ⟨rfl, fun _ => rfl, fun _ => Iff.rfl, fun _ _ => rfl⟩

theorem KInv.unchanged_restored (h : KInv F K A k fl efl) (hr : Restored k.pm m fl) :
    Unchanged k (k.setPm m) := by
  refine ⟨rfl, fun p => by rw [Kernel.setPm_pm, hr.pages], fun p => ?_, fun t ht => hr.mem t ?_⟩
  · have hl : m.link = k.pm.link := by funext q; unfold Pmap.link; rw [hr.pages]
    unfold Pmap.OnFreeList
    rw [Kernel.setPm_pm, hl, hr.head]
  · exact fun hf => h.inv.sound.wf.free_node t hf ht

/-! ## A transfer that fails -/

/-- Every walk from the PML4 of an environment is along tables. -/
theorem Wf.reached_steady (h : Wf R m fl) {ρ : List Idx} (ht : Reached R m e n t)
    (hn : n + ρ.length ≤ 3) : Steady m fl t ρ := by
  induction ρ generalizing n t with
  | nil => trivial
  | cons i ρ ih =>
    rw [List.length_cons] at hn
    have hnode : (tables R m).Node t := by
      obtain ⟨o, π, hat, -⟩ := ht
      exact hat.node
    refine ⟨fun hf => h.free_node t hf hnode, ?_⟩
    split
    · rename_i hp
      exact ih (h.reached_link ht (by omega) (presentAt_eq_some.2 ⟨rfl, hp⟩)) (by omega)
    · rename_i hp
      exact h.clean t hnode i (by simpa using hp)

/-- `page_insert` at any address, when it fails. -/
theorem Wf.pageInsert_failed (h : Wf R m fl) (hr : R (.env e) = some r)
    (hs : pageInsert m r pp va perm = some (x, m')) (hx : x < 0) : Restored m m' fl := by
  unfold pageInsert at hs
  obtain ⟨⟨pte, m₁⟩, h1, hs⟩ := Option.bind_eq_some_iff.1 hs
  cases pte with
  | none =>
    cases hs
    rw [pml4eWalk_eq] at h1
    exact walkPath_failed h.free (h.reached_steady (reached_root hr) (by simp [path])) h1
  | some pte =>
    simp only at hs
    split at hs
    all_goals
      obtain ⟨m₂, -, hs⟩ := Option.bind_eq_some_iff.1 hs
      cases hs
      omega

/-- **How a transfer fails**, to any address: with the state restored, or with new tables for
the source address. -/
theorem KInv.transferPage_failed (h : KInv F K A k fl efl) (hs : k.Live src) (hd : k.Live dst)
    (hva : srcva < utop) (ht : transferPage k src srcva dst dstva perm = some (x, k')) (hx : x < 0) :
    ∃ m', k' = k.setPm m' ∧ ((Restored k.pm m' fl ∧ ¬ k.MakesTables src srcva) ∨
      (k.MakesTables src srcva ∧ ∃ p ∈ fl, (m'.pages p).ppRef = 1)) := by
  obtain ⟨r, hr, hroot⟩ := h.pml4e hs
  obtain ⟨rd, hrd, hrootd⟩ := h.pml4e hd
  have hw := h.inv.sound.wf
  have hiff : k.MakesTables src srcva ↔
      0 < missingTables k.pm r srcva ∧ missingTables k.pm r srcva ≤ fl.length := by
    unfold Kernel.MakesTables
    rw [hr, hw.free.freeCount]
    simp
  -- the part after the lookup, from a state whose tables are well-formed
  have hwork : ∀ {m₁ fl₁ q y}, Wf (roots k) m₁ fl₁ →
      pageLookup k.pm r srcva = some (some (q, y), m₁) → ∃ m', k' = k.setPm m' ∧ Restored m₁ m' fl₁ := by
    intro m₁ fl₁ q y hw₁ hl
    unfold transferPage at ht
    simp only [hr, hl, hrd, Option.bind_eq_bind, Option.bind_some] at ht
    split at ht
    · cases ht; exact ⟨m₁, rfl, .refl⟩
    · obtain ⟨⟨z, m₂⟩, h1, h2⟩ := Option.bind_eq_some_iff.1 ht
      cases h2
      exact ⟨m₂, rfl, hw₁.pageInsert_failed hrootd h1 hx⟩
  rcases Nat.lt_or_ge fl.length (missingTables k.pm r srcva) with hm | hm
  · -- the lookup itself runs out of memory
    obtain ⟨m', h1, h2⟩ := h.transferPage_short dst dstva perm hr hs hva hm
    rw [h1] at ht; cases ht
    exact ⟨m', rfl, Or.inl ⟨h2, by rw [hiff]; omega⟩⟩
  rcases Nat.eq_zero_or_pos (missingTables k.pm r srcva) with h0 | hpos
  · -- the tables are there
    obtain ⟨q, hq⟩ := (hw.missingTables_eq_zero hroot hva).1 h0
    have hl : pageLookup k.pm r srcva = (pa2page k.pm (k.pm.mem q (ptx srcva))).map fun page =>
        (some (page, ⟨q, ptx srcva⟩), k.pm) := by
      unfold pageLookup
      rw [hw.pml4eWalk_at hroot hva hq]
      simp only [Option.bind_eq_bind, Option.bind_some]
      cases pa2page k.pm (k.pm.mem q (ptx srcva)) <;> rfl
    cases hpa : pa2page k.pm (k.pm.mem q (ptx srcva)) with
    | none =>
      rw [hpa] at hl
      unfold transferPage at ht
      simp [hr, hl] at ht
    | some page =>
      rw [hpa] at hl
      obtain ⟨m', h1, h2⟩ := hwork hw hl
      exact ⟨m', h1, Or.inl ⟨h2, by rw [hiff]; omega⟩⟩
  · -- they are made, and stay
    have hnone : leafEntry k.pm r srcva = none := by
      cases hv : leafEntry k.pm r srcva with
      | none => rfl
      | some v =>
        obtain ⟨q, hq, -⟩ := hw.mapped_at hroot hva hv
        have := (hw.missingTables_eq_zero hroot hva).2 ⟨q, hq⟩
        omega
    obtain ⟨m₁, q, hl, -, hg, -⟩ := hw.pageLookup_unmapped hroot hva hnone hm
    obtain ⟨m', h1, h2⟩ := hwork hg.wf hl
    refine ⟨m', h1, Or.inr ⟨hiff.2 ⟨hpos, hm⟩, ?_⟩⟩
    cases fl with
    | nil => simp at hm; omega
    | cons p fl =>
      refine ⟨p, List.mem_cons_self, ?_⟩
      rw [h2.pages, hg.ref, if_pos]
      obtain ⟨j, hj⟩ := Nat.exists_eq_succ_of_ne_zero (Nat.pos_iff_ne_zero.1 hpos)
      rw [hj, List.take_succ_cons]
      exact List.mem_cons_self

/-- So a transfer that fails changes nothing, exactly unless it made tables. -/
theorem KInv.unchanged_transfer (h : KInv F K A k fl efl) (hs : k.Live src) (hd : k.Live dst)
    (hva : srcva < utop) (ht : transferPage k src srcva dst dstva perm = some (x, k')) (hx : x < 0) :
    Unchanged k k' ↔ ¬ k.MakesTables src srcva := by
  obtain ⟨m', rfl, ⟨h1, h2⟩ | ⟨h1, p, hp, h2⟩⟩ := h.transferPage_failed hs hd hva ht hx
  · exact iff_of_true (h.unchanged_restored h1) h2
  · refine iff_of_false (fun hu => ?_) (not_not.2 h1)
    have h3 : (m'.pages p).ppRef = (k.pm.pages p).ppRef := hu.ref p
    rw [h2, h.inv.sound.wf.free.ref p hp] at h3
    cases h3

/-! ## The calls -/

/-- **A call that returns an error changes nothing, exactly unless it makes tables** for the
source address of a transfer. The state is any that meets the kernel's invariant, with any
number of free pages. -/
theorem failed_unchanged (h : KInv F K A k fl efl) (hc : k.Enters cur)
    (hs : call.exec k cur = some (.ret x k')) (hx : x < 0) : Unchanged k k' ↔ ¬ call.Leaks k cur := by
  have hsame : k' = k → ¬ call.Leaks k cur → (Unchanged k k' ↔ ¬ call.Leaks k cur) := by
    rintro rfl hn
    exact iff_of_true .refl hn
  cases call with
  | cputs s len =>
    simp only [Syscall.exec, sysCputs] at hs
    obtain ⟨r, -, hs⟩ := Option.bind_eq_some_iff.1 hs
    obtain ⟨⟨y, m'⟩, -, hs⟩ := Option.bind_eq_some_iff.1 hs
    cases y with
    | none => cases hs; omega
    | some a =>
      obtain ⟨⟨g, k₁⟩, -, hs⟩ := Option.bind_eq_some_iff.1 hs
      cases hs
  | cgetc c => cases hs; exact hsame rfl id
  | getenvid => cases hs; exact hsame rfl id
  | envDestroy envid =>
    simp only [Syscall.exec, sysEnvDestroy] at hs
    split at hs
    · cases hs; exact hsame rfl id
    · obtain ⟨⟨g, k₁⟩, -, hs⟩ := Option.bind_eq_some_iff.1 hs
      cases g
      · cases hs; omega
      · cases hs
  | pageAlloc envid va perm =>
    obtain ⟨⟨y, k₁⟩, h1, h2⟩ := Option.map_eq_some_iff.1 hs
    cases h2
    rcases sysPageAlloc_eq k cur envid va perm with ⟨y, -, h2⟩ | ⟨e, h2, hva, -, -, h3⟩
    · rw [h2] at h1; cases h1; exact hsame rfl id
    · rw [h3] at h1
      rcases h.allocPage_cases perm (envid2env_live hc.1 h2) hva with
        ⟨m', h4, h5⟩ | ⟨p, fl₁, m', fl', -, h4, -⟩
      · rw [h4] at h1; cases h1
        exact iff_of_true (h.unchanged_restored h5) id
      · rw [h4] at h1; cases h1; omega
  | pageMap sid srcva did dstva perm =>
    obtain ⟨⟨y, k₁⟩, h1, h2⟩ := Option.map_eq_some_iff.1 hs
    cases h2
    refine ⟨fun hu hl => ?_, fun hl => ?_⟩
    · obtain ⟨src, dst, hsrc, hdst, hva, hdva, hperm, hm⟩ := hl
      rw [sysPageMap_work hsrc hdst hva hdva hperm] at h1
      exact (h.unchanged_transfer (envid2env_live hc.1 hsrc) (envid2env_live hc.1 hdst) hva.1 h1
        hx).1 hu hm
    · rcases sysPageMap_eq k cur sid srcva did dstva perm with
        ⟨y, -, h2⟩ | ⟨src, dst, hsrc, hdst, hva, hdva, hperm, h2⟩
      · rw [h2] at h1; cases h1; exact .refl
      · rw [h2] at h1
        exact (h.unchanged_transfer (envid2env_live hc.1 hsrc) (envid2env_live hc.1 hdst) hva.1 h1
          hx).2 fun hm => hl ⟨src, dst, hsrc, hdst, hva, hdva, hperm, hm⟩
  | pageUnmap envid va =>
    obtain ⟨⟨y, k₁⟩, h1, h2⟩ := Option.map_eq_some_iff.1 hs
    cases h2
    rcases sysPageUnmap_eq k cur envid va with ⟨y, -, h2⟩ | ⟨e, -, -, -, h2⟩
    · rw [h2] at h1; cases h1; exact hsame rfl id
    · rw [h2] at h1
      obtain ⟨r, -, h1⟩ := Option.bind_eq_some_iff.1 h1
      obtain ⟨m', -, h1⟩ := Option.map_eq_some_iff.1 h1
      cases h1; omega
  | exofork =>
    obtain ⟨⟨y, k₁⟩, h1, h2⟩ := Option.map_eq_some_iff.1 hs
    cases h2
    unfold sysExofork at h1
    rcases h.envAlloc_cases (k.envs cur).envId with ⟨y, h2, -⟩ | ⟨e, k₁, p, fl₁, h2, -, h3⟩
    · rw [h2] at h1; cases h1; exact hsame rfl id
    · rw [h2] at h1
      simp only [Option.bind_eq_bind, Option.bind_some, Kernel.setEnv_self, h3.id] at h1
      cases h1
      have := nextEnvId_nonneg e (k.envs e).envId
      omega
  | envSetStatus envid status =>
    obtain ⟨⟨y, k₁⟩, h1, h2⟩ := Option.map_eq_some_iff.1 hs
    cases h2
    unfold sysEnvSetStatus at h1
    split at h1
    · cases h1; exact hsame rfl id
    split at h1
    · cases h1; exact hsame rfl id
    · cases h1; omega
  | envSetPgfaultUpcall envid func =>
    obtain ⟨⟨y, k₁⟩, h1, h2⟩ := Option.map_eq_some_iff.1 hs
    cases h2
    unfold sysEnvSetPgfaultUpcall at h1
    split at h1
    · cases h1; exact hsame rfl id
    · cases h1; omega
  | yield => cases hs
  | ipcTrySend envid value srcva perm =>
    obtain ⟨⟨y, k₁⟩, h1, h2⟩ := Option.map_eq_some_iff.1 hs
    cases h2
    -- an error is that of the transfer
    have hwork : ∀ {e}, (transferPage k cur srcva e (k.envs e).envIpcDstva perm).map
        (ipcFinish cur e value perm) = some (x, k') →
        transferPage k cur srcva e (k.envs e).envIpcDstva perm = some (x, k') := by
      intro e he
      obtain ⟨⟨z, k₂⟩, h2, h3⟩ := Option.map_eq_some_iff.1 he
      unfold ipcFinish at h3
      split at h3
      · cases h3; omega
      · cases h3; exact h2
    refine ⟨fun hu hl => ?_, fun hl => ?_⟩
    · obtain ⟨e, he, hrecv, hva, hperm, hm⟩ := hl
      rw [sysIpcTrySend_work he hrecv hva hperm] at h1
      exact (h.unchanged_transfer hc.1 (envid2env_live hc.1 he) hva.1 (hwork h1) hx).1 hu hm
    · rcases sysIpcTrySend_eq k cur envid value srcva perm with
        ⟨y, -, h2⟩ | ⟨e, he, hrecv, ⟨-, h2⟩ | ⟨hva, hperm, h2⟩⟩
      · rw [h2] at h1; cases h1; exact .refl
      · rw [h2] at h1; cases h1; omega
      · rw [h2] at h1
        exact (h.unchanged_transfer hc.1 (envid2env_live hc.1 he) hva.1 (hwork h1) hx).2
          fun hm => hl ⟨e, he, hrecv, hva, hperm, hm⟩
  | ipcRecv dstva =>
    obtain ⟨⟨y, k₁⟩, h1, h2⟩ := Option.map_eq_some_iff.1 hs
    cases h2
    unfold sysIpcRecv at h1
    split at h1
    · cases h1; exact hsame rfl id
    · cases h1; omega

/-- It applies to a send to the child, which does not wait for one. -/
theorem failed_unchanged_send : ∃ k k', runs bootKernel bootRun = some k ∧
    (Syscall.ipcTrySend 0x1001 0 0x800000 7).exec k 0 = some (.ret (-eIpcNotRecv) k') ∧
    Unchanged k k' := by
  have h : ((runs bootKernel bootRun).any fun k => decide (k.Enters 0) &&
      envid2env k 0 0x1001 false == some 1 && !(k.envs 1).envIpcRecving &&
      (sysIpcTrySend k 0 0x1001 0 0x800000 7).any fun o => o.1 == -eIpcNotRecv) = true := by
    decide +kernel
  obtain ⟨k, hk, h⟩ := (Option.any_eq_true _ _).1 h
  simp only [Bool.and_eq_true, decide_eq_true_eq, beq_iff_eq, Bool.not_eq_true',
    Option.any_eq_true] at h
  obtain ⟨⟨⟨h1, h2⟩, h3⟩, ⟨x, k'⟩, h4, rfl⟩ := h
  have hs : (Syscall.ipcTrySend 0x1001 0 0x800000 7).exec k 0 = some (.ret (-eIpcNotRecv) k') := by
    rw [Syscall.exec_ipcTrySend, h4]; rfl
  obtain ⟨fl, efl, h⟩ := boot_bootKernel.reach (fun _ _ => Clean.grants_true) (reach_bootRun hk)
  refine ⟨k, k', hk, hs, (failed_unchanged h h1 hs (by decide)).2 ?_⟩
  rintro ⟨e, he, hrecv, -⟩
  rw [h2] at he
  cases he
  rw [h3] at hrecv
  cases hrecv

/-- **A failed `sys_page_map` leaves a table behind**: the source is not mapped and has no page
table; the call returns `-E_INVAL`, and page 2029 has become the table. -/
theorem failed_leaves_table : ∃ k k', runs bootKernel bootRun = some k ∧ k.Enters 0 ∧
    (Syscall.pageMap 0 0x2000 0 0x1000 7).exec k 0 = some (.ret (-eInval) k') ∧
    ¬ Unchanged k k' := by
  have h : ((runs bootKernel bootRun).any fun k => decide (k.Enters 0) &&
      (sysPageMap k 0 0 0x2000 0 0x1000 7).any fun o => o.1 == -eInval &&
        (o.2.pm.pages 2029).ppRef != (k.pm.pages 2029).ppRef) = true := by decide +kernel
  obtain ⟨k, hk, h⟩ := (Option.any_eq_true _ _).1 h
  simp only [Bool.and_eq_true, decide_eq_true_eq, beq_iff_eq, Option.any_eq_true,
    bne_iff_ne] at h
  obtain ⟨h1, ⟨x, k'⟩, h2, rfl, h3⟩ := h
  exact ⟨k, k', hk, h1, by rw [Syscall.exec_pageMap, h2]; rfl, fun hu => h3 (hu.ref 2029)⟩

end Jos
