import Jos.Proof.Boot

/-!
# Physical frames

* `freed_unreferenced`: in every clean run, no page on `page_free_list` is referred to by an
  entry that a walk from a live environment's PML4 meets, at any level. (The kernel's own
  leaf entries, which map all memory, are the exception.)
* `mapped_allocated`: in every clean run, the leaf entries below `UTOP` refer to pages that
  `page_alloc` handed out; a page that is not mapped is not sent.
-/

namespace Jos

open Lib

variable {F : Set ℕ} {K : Vpn → Option PTE} {A : PTE → Prop} {R : Roots} {k k₀ k' : Kernel}
variable {m : Pmap} {fl : List ℕ} {efl : List EnvIdx} {cur e src dst : EnvIdx} {r t n : ℕ}
variable {va srcva dstva : VA} {perm : BitVec 32} {v : PTE} {o : Outcome} {call : Syscall}

/-! ## The entries of a walk -/

/-- A table that a walk from the PML4 of `e` can reach over `n` links: one of the
environment's own tree or of the kernel's, at most `n` links down. -/
def Reached (R : Roots) (m : Pmap) (e : EnvIdx) (n t : ℕ) : Prop :=
  ∃ o π, (tables R m).At o π t ∧ π.length ≤ n ∧ (o = .env e ∨ (o = .kern ∧ π ≠ []))

/-- **One link** leads from a table to a table. The entries of a PML4 outside its own slot
lead to the kernel's tree and back to the PML4. -/
theorem Wf.reached_link (h : Wf R m fl) {i : Idx} (ht : Reached R m e n t) (hn : n ≤ 2)
    (hi : presentAt m t i = some v) : Reached R m e (n + 1) (ppn v) := by
  obtain ⟨o, π, hat, hlen, ho⟩ := ht
  obtain ⟨rfl, hp⟩ := presentAt_eq_some.1 hi
  by_cases hd : inTree o (π ++ [i])
  · refine ⟨o, π ++ [i], child_at hat hd hp, by simp; omega, ?_⟩
    rcases ho with ho | ⟨ho, -⟩
    · exact Or.inl ho
    · exact Or.inr ⟨ho, by simp⟩
  · -- only the root has slots outside the tree
    have hπ : π = [] := by
      by_contra hne
      refine hd ⟨by simp; omega, fun j hj => hat.1.2 j ?_⟩
      cases π with
      | nil => exact absurd rfl hne
      | cons a π => exact hj
    subst hπ
    have hoe : o = .env e := by
      rcases ho with ho | ⟨-, ho⟩
      · exact ho
      · exact absurd rfl ho
    subst hoe
    have hr : R (.env e) = some t := Forest.at_nil.1 hat
    rcases h.root_entry hr hi with rfl | ⟨-, h1⟩ | ⟨-, -, h1⟩
    · exact absurd (inTree_one.2 rfl) hd
    · rw [h1]
      exact ⟨.kern, [1], h.kern_link.2, by simp, Or.inr ⟨rfl, by simp⟩⟩
    · rw [h1]
      exact ⟨.env e, [], hat, by simp, Or.inl rfl⟩

/-- The entries above the leaf refer to tables. -/
theorem Wf.walkEntries_node (h : Wf R m fl) {ρ : List Idx} (ht : Reached R m e n t)
    (hn : n + ρ.length ≤ 3) : ∀ v ∈ walkEntries m t ρ, (tables R m).Node (ppn v) := by
  induction ρ generalizing n t with
  | nil => intro v hv; cases hv
  | cons i ρ ih =>
    intro v hv
    rw [List.length_cons] at hn
    unfold walkEntries at hv
    split at hv
    · cases hv
    · rename_i w hw
      have hl := h.reached_link ht (by omega) hw
      rcases List.mem_cons.1 hv with rfl | hv
      · obtain ⟨o, π, hat, -⟩ := hl
        exact hat.node
      · exact ih hl (by omega) v hv

/-- The PML4 of an environment. -/
theorem reached_root (hr : R (.env e) = some r) : Reached R m e 0 r :=
  ⟨.env e, [], root_at hr, le_rfl, Or.inl rfl⟩

theorem Wf.tableEntries_node (h : Wf R m fl) (hr : R (.env e) = some r) :
    ∀ v ∈ tableEntries m r va, (tables R m).Node (ppn v) :=
  h.walkEntries_node (reached_root hr) (by simp)

/-- The leaf entry of an address outside the kernel's slot is in the environment's own
half, or reached through the PML4 itself as an entry above the leaf. -/
theorem Wf.leafEntry_cases (h : Wf R m fl) (hr : R (.env e) = some r)
    (hva : va < utop ∨ pml4 va ≠ 1) (hv : leafEntry m r va = some v) :
    (∃ s, User s ∧ view R m s = some v) ∨ (tables R m).Node (ppn v) := by
  by_cases h0 : va < utop
  · rw [h.leafEntry_view hr h0] at hv
    exact Or.inl ⟨_, user_vpn h0, hv⟩
  have h1 : pml4 va ≠ 1 := hva.resolve_left h0
  by_cases h2 : pml4 va = 0
  · have ho : ownerOf e va = .env e := if_pos h2
    rw [h.leafEntry_slot hr (by rw [ho, h2]; rfl), ho] at hv
    exact Or.inl ⟨(.env e, vpn va), trivial, hv⟩
  · obtain ⟨x, hx, rfl⟩ := Option.map_eq_some_iff.1 hv
    unfold translate at hx
    obtain ⟨e4, h4, hx⟩ := Option.bind_eq_some_iff.1 hx
    obtain ⟨e3, h3, hx⟩ := Option.bind_eq_some_iff.1 hx
    obtain ⟨e2, h5, hx⟩ := Option.bind_eq_some_iff.1 hx
    obtain ⟨e1, h6, hx⟩ := Option.bind_eq_some_iff.1 hx
    cases hx
    -- the first link leads back to the PML4
    have hself : ppn e4 = r := by
      rcases h.root_entry hr h4 with h7 | ⟨h7, -⟩ | ⟨-, -, h7⟩
      · exact absurd h7 h2
      · exact absurd h7 h1
      · exact h7
    rw [hself] at h3
    refine Or.inr (h.walkEntries_node (ρ := [pdpe va, pdx va, ptx va]) (reached_root hr) (by simp) _ ?_)
    simp only [walkEntries, h3, h5, h6, List.mem_cons, true_or, or_true]

/-! ## No use after free -/

/-- **No use after free.** In every state of a clean run, no present entry that a walk from
a live environment's PML4 meets refers to a page on `page_free_list`: neither one above the
leaf, for any address, nor a leaf entry below `UTOP` or outside the kernel's slot. -/
theorem freed_unreferenced (hboot : Boot k₀ fl) (hr : Reach Clean k₀ k) (he : k.Live e) :
    (∀ v ∈ k.tableEntries e va, ¬ k.pm.OnFreeList (ppn v)) ∧
    (va < utop ∨ pml4 va ≠ 1 → ∀ v, k.leafEntry e va = some v → ¬ k.pm.OnFreeList (ppn v)) := by
  obtain ⟨fl', efl, h⟩ := hboot.reach (fun _ _ => Clean.grants_true) hr
  obtain ⟨r, hr, hroot⟩ := h.pml4e he
  have hw := h.inv.sound.wf
  have hnode : ∀ v : PTE, (tables (roots k) k.pm).Node (ppn v) → ¬ k.pm.OnFreeList (ppn v) :=
    fun v hn hf => hw.free_node _ (hw.free.onFreeList.1 hf) hn
  refine ⟨fun v hv => hnode v ?_, fun hva v hv => ?_⟩
  · unfold Kernel.tableEntries at hv
    rw [hr] at hv
    exact hw.tableEntries_node hroot v hv
  · unfold Kernel.leafEntry at hv
    rw [hr] at hv
    rcases hw.leafEntry_cases hroot hva hv with ⟨s, hs, hv⟩ | hn
    · exact fun hf => (hw.leaf s v hs hv).2.1 (hw.free.onFreeList.1 hf)
    · exact hnode v hn

/-- It applies to the first program and its child. -/
theorem freed_unreferenced_boot : ∃ k, runs bootKernel bootRun = some k ∧ k.Live 1 ∧
    ∀ v ∈ k.tableEntries 1 uvpt, ¬ k.pm.OnFreeList (ppn v) := by
  have h : ((runs bootKernel bootRun).any fun k => decide (k.Live 1)) = true := by decide +kernel
  obtain ⟨k, hk, h⟩ := (Option.any_eq_true _ _).1 h
  have hl := of_decide_eq_true h
  exact ⟨k, hk, hl, (freed_unreferenced boot_bootKernel (reach_bootRun hk) hl).1⟩

/-- The first program maps an address that is not mapped, unmaps the copy, and maps again. -/
def useAfterFreeRun : List Event := bootRun ++
  [.syscall 0 (.pageMap 0 0x2000 0 0x1000 5), .syscall 0 (.pageUnmap 0 0x1000),
    .syscall 0 (.pageMap 0 0x2000 0 0x1000 5)]

/-- **Page 0 is mapped while it is free**: the absent source passes for page 0, and the
`sys_page_unmap` of the copy, which is mapped, frees it. -/
theorem useAfterFree : ∃ k v, runs bootKernel useAfterFreeRun = some k ∧ k.Live 0 ∧
    k.leafEntry 0 0x1000 = some v ∧ k.pm.OnFreeList (ppn v) := by
  have h : ((runs bootKernel useAfterFreeRun).any fun k => decide (k.Live 0) &&
      (k.leafEntry 0 0x1000).any fun v => k.pm.pageFreeList == some (ppn v)) = true := by
    decide +kernel
  obtain ⟨k, hk, h⟩ := (Option.any_eq_true _ _).1 h
  simp only [Bool.and_eq_true, decide_eq_true_eq, Option.any_eq_true, beq_iff_eq] at h
  obtain ⟨h1, v, hv, h2⟩ := h
  refine ⟨k, v, hk, h1, hv, ?_⟩
  unfold Pmap.OnFreeList
  rw [h2]
  exact .head

/-! ## Only allocated frames -/

/-- The call offers a page at an address below `UTOP` that is not mapped, between
environments that exist; a receiver waits for it. -/
def Syscall.Unmapped (k : Kernel) (cur : EnvIdx) : Syscall → Prop
  | .pageMap srcenvid srcva dstenvid _ _ => ∃ src dst, envid2env k cur srcenvid true = some src ∧
    envid2env k cur dstenvid true = some dst ∧ srcva < utop ∧ k.leafEntry src srcva = none
  | .ipcTrySend envid _ srcva _ => ∃ e, envid2env k cur envid false = some e ∧
    (k.envs e).envIpcRecving = true ∧ srcva < utop ∧ k.leafEntry cur srcva = none
  | _ => False

/-- A state that is restored shows the same leaf entries. -/
theorem KInv.leafEntry_restored (h : KInv F K A k fl efl) (hr : Restored k.pm m fl) (he : k.Live e)
    (hva : va < utop) : (k.setPm m).leafEntry e va = k.leafEntry e va := by
  have h' : KInv F K A (k.setPm m) fl efl := h.setPm (h.inv.restored hr) hr.boot
  obtain ⟨-, -, hview⟩ := h.inv.sound.wf.restored hr
  rw [h'.leafEntry_view he hva, h.leafEntry_view he hva, roots_setPm hr.boot]
  exact congrFun hview _

/-- **A clean call that offers a page that is not there** fails and maps nothing. -/
theorem KInv.exec_unmapped (h : KInv F K A k fl efl) (hc : k.Live cur) (hok : CleanCall k cur call)
    (hu : call.Unmapped k cur) : ∃ k', call.exec k cur = some (.ret (-eInval) k') ∧
      ∀ e va, k.Live e → va < utop → k'.leafEntry e va = k.leafEntry e va := by
  -- the walk has too little memory for the missing tables
  have hshort : ∀ {src srcva r}, (k.envs src).envPml4e = some r → k.leafEntry src srcva = none →
      LookupOk k.pm r srcva → fl.length < missingTables k.pm r srcva := by
    intro src srcva r hr hn hl
    unfold Kernel.leafEntry at hn
    rw [hr] at hn
    rw [← h.inv.sound.wf.free.freeCount]
    exact hl.resolve_left fun hl => hl hn
  cases call with
  | pageMap sid srcva did dstva perm =>
    obtain ⟨src, dst, h1, h2, h3, h4⟩ := hu
    have hs := envid2env_live hc h1
    obtain ⟨r, hr, -⟩ := h.pml4e hs
    rw [Syscall.exec_pageMap]
    by_cases hchk : (srcva < utop ∧ srcva &&& 0xFFF = 0) ∧ (dstva < utop ∧ dstva &&& 0xFFF = 0) ∧
        PermOk perm
    · obtain ⟨hva, hdva, hperm⟩ := hchk
      have hl := (hok src r h1 (by rw [h2]; simp) hva.1 hva.2 hdva.1 hdva.2 hperm hr).1
      obtain ⟨m', h5, h6⟩ := h.transferPage_short dst dstva perm hr hs h3 (hshort hr h4 hl)
      rw [sysPageMap_work h1 h2 hva hdva hperm, h5]
      exact ⟨_, rfl, fun e va he hva => h.leafEntry_restored h6 he hva⟩
    · rw [sysPageMap_inval h1 h2 hchk]
      exact ⟨k, rfl, fun _ _ _ _ => rfl⟩
  | ipcTrySend id value srcva perm =>
    obtain ⟨e, h1, h2, h3, h4⟩ := hu
    obtain ⟨r, hr, -⟩ := h.pml4e hc
    rw [Syscall.exec_ipcTrySend]
    by_cases hchk : pgoff srcva = 0 ∧ IpcPermOk perm
    · have hl := (hok e r h1 h2 h3 hchk.1 hchk.2 hr).1.1
      obtain ⟨m', h5, h6⟩ := h.transferPage_short e (k.envs e).envIpcDstva perm hr hc h3
        (hshort hr h4 hl)
      rw [sysIpcTrySend_work h1 h2 ⟨h3, hchk.1⟩ hchk.2, h5]
      exact ⟨_, rfl, fun e va he hva => h.leafEntry_restored h6 he hva⟩
    · rw [sysIpcTrySend_inval h1 h2 h3 hchk]
      exact ⟨k, rfl, fun _ _ _ _ => rfl⟩
  | _ => exact hu.elim

/-- **Only allocated frames are mapped.** In every state of a clean run, a leaf entry below
`UTOP` refers to a page that was free after boot and is not free now: `page_alloc` handed it
out, and it was not freed since. A clean call that offers a page at an address that is not
mapped returns `-E_INVAL` and installs nothing. -/
theorem mapped_allocated (hboot : Boot k₀ fl) (hr : Reach Clean k₀ k) :
    (∀ e va v, k.Live e → va < utop → k.leafEntry e va = some v →
      k₀.pm.OnFreeList (ppn v) ∧ ¬ k.pm.OnFreeList (ppn v)) ∧
    ∀ cur call, k.Enters cur → CleanCall k cur call → call.Unmapped k cur →
      ∃ k', call.exec k cur = some (.ret (-eInval) k') ∧
        ∀ e va, k.Live e → va < utop → k'.leafEntry e va = k.leafEntry e va := by
  obtain ⟨fl', efl, h⟩ := hboot.reach (fun _ _ => Clean.grants_true) hr
  refine ⟨fun e va v he hva hv => ?_, fun cur call hc hok hu => h.exec_unmapped hc.1 hok hu⟩
  rw [h.leafEntry_view he hva] at hv
  have hs := user_vpn (e := e) hva
  refine ⟨h.inv.target _ _ (targets_eq_some.2 ⟨hs, v, hv, rfl⟩), fun hf => ?_⟩
  exact (h.inv.sound.wf.leaf _ v hs hv).2.1 (h.inv.sound.wf.free.onFreeList.1 hf)

/-- It applies to the first program: its code is on a page that was free after boot. -/
theorem mapped_allocated_boot : ∃ k v, runs bootKernel bootRun = some k ∧
    k.leafEntry 0 0x800000 = some v ∧ bootKernel.pm.OnFreeList (ppn v) := by
  have h : ((runs bootKernel bootRun).any fun k => decide (k.Live 0) &&
      (k.leafEntry 0 0x800000).isSome) = true := by decide +kernel
  obtain ⟨k, hk, h⟩ := (Option.any_eq_true _ _).1 h
  simp only [Bool.and_eq_true, decide_eq_true_eq] at h
  obtain ⟨v, hv⟩ := Option.isSome_iff_exists.1 h.2
  have hm := (mapped_allocated boot_bootKernel (reach_bootRun hk)).1 0 0x800000 v h.1 (by decide) hv
  exact ⟨k, v, hk, hv, hm.1⟩

/-- **Page 0 is mapped**: `sys_page_map` from an address that is not mapped returns 0 and
installs page 0, which the allocator never had. -/
theorem page0_mapped : ∃ k k' v, runs bootKernel bootRun = some k ∧ k.Enters 0 ∧
    k.leafEntry 0 0x2000 = none ∧
    (Syscall.pageMap 0 0x2000 0 0x1000 5).exec k 0 = some (.ret 0 k') ∧
    k'.leafEntry 0 0x1000 = some v ∧ ppn v = 0 ∧ ¬ bootKernel.pm.OnFreeList 0 := by
  have h : ((runs bootKernel bootRun).any fun k => decide (k.Enters 0) &&
      (k.leafEntry 0 0x2000).isNone && (sysPageMap k 0 0 0x2000 0 0x1000 5).any fun o =>
        o.1 == 0 && (o.2.leafEntry 0 0x1000).any fun v => ppn v == 0) = true := by decide +kernel
  obtain ⟨k, hk, h⟩ := (Option.any_eq_true _ _).1 h
  simp only [Bool.and_eq_true, decide_eq_true_eq, Option.any_eq_true, Option.isNone_iff_eq_none,
    beq_iff_eq] at h
  obtain ⟨⟨h1, h2⟩, ⟨x, k'⟩, h3, rfl, v, hv, h4⟩ := h
  have h3 : sysPageMap k 0 0 0x2000 0 0x1000 5 = some (0, k') := h3
  refine ⟨k, k', v, hk, h1, h2, ?_, hv, h4, fun hf => ?_⟩
  · rw [Syscall.exec_pageMap, h3]; rfl
  · have h5 := mem_bootList.1 (bootFree_ok.onFreeList.1 hf)
    unfold bootFree at h5
    omega

end Jos
