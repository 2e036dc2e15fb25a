import Jos.Proof.Free
import Jos.Spec.Run

/-!
# The calls that change mappings

Each of `sys_page_alloc`, `sys_page_map`, `sys_page_unmap` and `sys_ipc_try_send` checks
its arguments and then works on the page tables. The equations here separate the two
(`allocPage`, `transferPage`, `page_remove`), and the case lemmas say how the second
part ends in a state that meets the invariant.
-/

namespace Jos

open Lib

variable {F : Set ℕ} {K : Vpn → Option PTE} {A : PTE → Prop} {k k' : Kernel} {m m' : Pmap}
variable {fl fl' : List ℕ} {efl : List EnvIdx} {cur e src dst : EnvIdx} {x : ℤ} {r : ℕ} {v : PTE}
variable {va srcva dstva : VA} {perm : BitVec 32}

/-- The leaf entries that a live environment sees below `UTOP` are those of the view. -/
theorem KInv.leafEntry_view (h : KInv F K A k fl efl) (he : k.Live e) (hva : va < utop) :
    k.leafEntry e va = view (roots k) k.pm (ownerOf e va, vpn va) := by
  obtain ⟨r, hr, hroot⟩ := h.pml4e he
  unfold Kernel.leafEntry
  rw [hr]
  exact h.inv.sound.wf.leafEntry_view hroot hva

/-! ## Checks and work -/

section exec

variable {id sid did : EnvId} {value : BitVec 64}

theorem Syscall.exec_pageAlloc : (Syscall.pageAlloc id va perm).exec k cur =
    returning (sysPageAlloc k cur id va perm) := rfl
theorem Syscall.exec_pageMap : (Syscall.pageMap sid srcva did dstva perm).exec k cur =
    returning (sysPageMap k cur sid srcva did dstva perm) := rfl
theorem Syscall.exec_pageUnmap : (Syscall.pageUnmap id va).exec k cur =
    returning (sysPageUnmap k cur id va) := rfl
theorem Syscall.exec_ipcTrySend : (Syscall.ipcTrySend id value srcva perm).exec k cur =
    returning (sysIpcTrySend k cur id value srcva perm) := rfl

end exec

/-- What `sys_page_alloc` does after its checks. -/
def allocPage (k : Kernel) (e : EnvIdx) (va : VA) (perm : BitVec 32) : Option (ℤ × Kernel) := do
  let (pp, m) ← pageAlloc k.pm true
  match pp with
  | none => some (-eNoMem, k.setPm m)
  | some pp => do
    let pml4e ← (k.envs e).envPml4e
    let (x, m) ← pageInsert m pml4e pp va perm
    if x < 0 then do
      let m ← pageFree m pp
      some (x, k.setPm m)
    else some (0, k.setPm m)

/-- What `sys_page_map` and `sys_ipc_try_send` do after their checks. -/
def transferPage (k : Kernel) (src : EnvIdx) (srcva : VA) (dst : EnvIdx) (dstva : VA)
    (perm : BitVec 32) : Option (ℤ × Kernel) := do
  let srcPml4e ← (k.envs src).envPml4e
  let (r, m) ← pageLookup k.pm srcPml4e srcva
  match r with
  | none => some (-eInval, k.setPm m)
  | some (pp, pte) =>
    if !flag (m.mem pte.page pte.ix) pteW && flag perm pteW then some (-eInval, k.setPm m)
    else do
      let dstPml4e ← (k.envs dst).envPml4e
      let (x, m) ← pageInsert m dstPml4e pp dstva perm
      some (x, k.setPm m)

/-- A call that fails its checks returns an error and changes nothing. -/
def Rejected (k : Kernel) (r : Option (ℤ × Kernel)) : Prop := ∃ x, x < 0 ∧ r = some (x, k)

/-- The two address checks of a call that maps a page. -/
theorem addr_ok (h : va < utop ∧ va &&& 0xFFF = 0) : ¬ (va ≥ utop ∨ va &&& 0xFFF ≠ 0) := by
  rw [not_or, ge_iff_le, BitVec.not_le, not_not]
  exact h

theorem addr_bad (h : ¬ (va ≥ utop ∨ va &&& 0xFFF ≠ 0)) : va < utop ∧ va &&& 0xFFF = 0 := by
  rwa [not_or, ge_iff_le, BitVec.not_le, not_not] at h

theorem perm_ok (h : PermOk perm) : ¬ (perm ||| pteSyscall ≠ pteSyscall) := not_not.2 h

theorem sysPageAlloc_work {id : EnvId} (hid : envid2env k cur id true = some e) (hva : va < utop)
    (hal : va &&& 0xFFF = 0) (hperm : PermOk perm) :
    sysPageAlloc k cur id va perm = allocPage k e va perm := by
  unfold sysPageAlloc
  rw [if_neg (addr_ok ⟨hva, hal⟩), if_neg (perm_ok hperm), hid]
  rfl

/-- `sys_page_alloc` checks the address and the permissions before the environment. -/
theorem sysPageAlloc_inval {id : EnvId} (h : ¬ (va < utop ∧ va &&& 0xFFF = 0 ∧ PermOk perm)) :
    sysPageAlloc k cur id va perm = some (-eInval, k) := by
  unfold sysPageAlloc
  by_cases h1 : va ≥ utop ∨ va &&& 0xFFF ≠ 0
  · rw [if_pos h1]
  have h2 : perm ||| pteSyscall ≠ pteSyscall := fun hp => h ⟨(addr_bad h1).1, (addr_bad h1).2, hp⟩
  rw [if_neg h1, if_pos h2]

theorem sysPageAlloc_eq (k : Kernel) (cur : EnvIdx) (id : EnvId) (va : VA) (perm : BitVec 32) :
    Rejected k (sysPageAlloc k cur id va perm) ∨
    ∃ e, envid2env k cur id true = some e ∧ va < utop ∧ va &&& 0xFFF = 0 ∧ PermOk perm ∧
      sysPageAlloc k cur id va perm = allocPage k e va perm := by
  by_cases h : va < utop ∧ va &&& 0xFFF = 0 ∧ PermOk perm
  · obtain ⟨h1, h2, h3⟩ := h
    cases h4 : envid2env k cur id true with
    | some e => exact Or.inr ⟨e, rfl, h1, h2, h3, sysPageAlloc_work h4 h1 h2 h3⟩
    | none =>
      refine Or.inl ⟨-eBadEnv, by decide, ?_⟩
      unfold sysPageAlloc
      rw [if_neg (addr_ok ⟨h1, h2⟩), if_neg (perm_ok h3), h4]
  · exact Or.inl ⟨-eInval, by decide, sysPageAlloc_inval h⟩

theorem sysPageUnmap_eq (k : Kernel) (cur : EnvIdx) (id : EnvId) (va : VA) :
    Rejected k (sysPageUnmap k cur id va) ∨
    ∃ e, envid2env k cur id true = some e ∧ va < utop ∧ va &&& 0xFFF = 0 ∧
      sysPageUnmap k cur id va = (k.envs e).envPml4e.bind fun r =>
        (pageRemove k.pm r va).map fun m => (0, k.setPm m) := by
  unfold sysPageUnmap
  cases h3 : envid2env k cur id true with
  | none => exact Or.inl ⟨-eBadEnv, by decide, rfl⟩
  | some e =>
    simp only
    by_cases h1 : va ≥ utop ∨ va &&& 0xFFF ≠ 0
    · exact Or.inl ⟨-eInval, by decide, by rw [if_pos h1]⟩
    rw [if_neg h1]
    rw [not_or, ge_iff_le, BitVec.not_le, not_not] at h1
    refine Or.inr ⟨e, rfl, h1.1, h1.2, ?_⟩
    cases (k.envs e).envPml4e with
    | none => rfl
    | some r => cases h : pageRemove k.pm r va <;> simp [h]

/-- The result of `page_insert` is 0 or `-E_NO_MEM`. -/
theorem pageInsert_code {pp : ℕ} (h : pageInsert m r pp va perm = some (x, m')) :
    x = 0 ∨ x = -eNoMem := by
  unfold pageInsert at h
  obtain ⟨⟨pte, m₁⟩, -, h⟩ := Option.bind_eq_some_iff.1 h
  cases pte with
  | none => cases h; exact Or.inr rfl
  | some pte =>
    left
    simp only at h
    split at h
    all_goals
      obtain ⟨m₂, -, h⟩ := Option.bind_eq_some_iff.1 h
      cases h; rfl

theorem sysPageMap_work {sid did : EnvId} (h1 : envid2env k cur sid true = some src)
    (h2 : envid2env k cur did true = some dst) (hva : srcva < utop ∧ srcva &&& 0xFFF = 0)
    (hdva : dstva < utop ∧ dstva &&& 0xFFF = 0) (hperm : PermOk perm) :
    sysPageMap k cur sid srcva did dstva perm = transferPage k src srcva dst dstva perm := by
  unfold sysPageMap transferPage
  rw [h1, h2]
  simp only
  rw [if_neg (addr_ok hva), if_neg (addr_ok hdva), if_neg (perm_ok hperm)]
  refine Option.bind_congr fun r _ => Option.bind_congr fun walked _ => ?_
  obtain ⟨y, m⟩ := walked
  cases y with
  | none => rfl
  | some y =>
    simp only
    split
    · rfl
    refine Option.bind_congr fun r _ => Option.bind_congr fun inserted hx => ?_
    obtain ⟨x, m⟩ := inserted
    rcases pageInsert_code hx with rfl | rfl <;> rfl

/-- With both environments found, a failed check is `-E_INVAL`. -/
theorem sysPageMap_inval {sid did : EnvId} (h1 : envid2env k cur sid true = some src)
    (h2 : envid2env k cur did true = some dst) (h : ¬ ((srcva < utop ∧ srcva &&& 0xFFF = 0) ∧
      (dstva < utop ∧ dstva &&& 0xFFF = 0) ∧ PermOk perm)) :
    sysPageMap k cur sid srcva did dstva perm = some (-eInval, k) := by
  unfold sysPageMap
  rw [h1, h2]
  simp only
  by_cases h3 : srcva ≥ utop ∨ srcva &&& 0xFFF ≠ 0
  · rw [if_pos h3]
  by_cases h4 : dstva ≥ utop ∨ dstva &&& 0xFFF ≠ 0
  · rw [if_neg h3, if_pos h4]
  have h5 : perm ||| pteSyscall ≠ pteSyscall := fun hp => h ⟨addr_bad h3, addr_bad h4, hp⟩
  rw [if_neg h3, if_neg h4, if_pos h5]

theorem sysPageMap_eq (k : Kernel) (cur : EnvIdx) (sid : EnvId) (srcva : VA) (did : EnvId) (dstva : VA)
    (perm : BitVec 32) : Rejected k (sysPageMap k cur sid srcva did dstva perm) ∨
    ∃ src dst, envid2env k cur sid true = some src ∧ envid2env k cur did true = some dst ∧
      (srcva < utop ∧ srcva &&& 0xFFF = 0) ∧ (dstva < utop ∧ dstva &&& 0xFFF = 0) ∧ PermOk perm ∧
      sysPageMap k cur sid srcva did dstva perm = transferPage k src srcva dst dstva perm := by
  cases h1 : envid2env k cur sid true with
  | none => exact Or.inl ⟨-eBadEnv, by decide, by unfold sysPageMap; rw [h1]⟩
  | some src =>
    cases h2 : envid2env k cur did true with
    | none => exact Or.inl ⟨-eBadEnv, by decide, by unfold sysPageMap; rw [h1, h2]⟩
    | some dst =>
      by_cases h : (srcva < utop ∧ srcva &&& 0xFFF = 0) ∧ (dstva < utop ∧ dstva &&& 0xFFF = 0) ∧
          PermOk perm
      · obtain ⟨h3, h4, h5⟩ := h
        exact Or.inr ⟨src, dst, rfl, rfl, h3, h4, h5, sysPageMap_work h1 h2 h3 h4 h5⟩
      · exact Or.inl ⟨-eInval, by decide, sysPageMap_inval h1 h2 h⟩

/-- The permissions that `sys_ipc_try_send` accepts. -/
def IpcPermOk (perm : BitVec 32) : Prop :=
  perm &&& (pteU ||| pteP) = pteU ||| pteP ∧ perm &&& ~~~pteSyscall = 0

instance (perm : BitVec 32) : Decidable (IpcPermOk perm) := inferInstanceAs (Decidable (_ ∧ _))

/-- The two ways of testing that no other flag is set agree. -/
theorem permOk_iff : PermOk perm ↔ perm &&& ~~~pteSyscall = 0 := by
  unfold PermOk
  constructor
  · intro h
    have h1 : perm &&& ~~~(perm ||| pteSyscall) = 0 := by
      ext i hi
      simp only [BitVec.getElem_and, BitVec.getElem_not, BitVec.getElem_or]
      cases perm[i] <;> simp
    rwa [h] at h1
  · intro h
    ext i hi
    have h1 := congrArg (·.getLsbD i) h
    simp only [BitVec.getLsbD_and, BitVec.getLsbD_not, hi, decide_true, Bool.true_and] at h1
    rw [← BitVec.getLsbD_eq_getElem, ← BitVec.getLsbD_eq_getElem, BitVec.getLsbD_or]
    cases h2 : perm.getLsbD i <;> cases h3 : (pteSyscall : BitVec 32).getLsbD i <;> simp_all

/-- What `sys_ipc_try_send` does with the result of the transfer. -/
def ipcFinish (cur e : EnvIdx) (value : BitVec 64) (perm : BitVec 32) (r : ℤ × Kernel) : ℤ × Kernel :=
  if r.1 = 0 then (0, ipcDeliver r.2 cur e value perm) else r

theorem sysIpcTrySend_work {id : EnvId} {value : BitVec 64} (h1 : envid2env k cur id false = some e)
    (h2 : (k.envs e).envIpcRecving = true) (hva : srcva < utop ∧ pgoff srcva = 0)
    (hperm : IpcPermOk perm) : sysIpcTrySend k cur id value srcva perm =
      (transferPage k cur srcva e (k.envs e).envIpcDstva perm).map (ipcFinish cur e value perm) := by
  unfold sysIpcTrySend transferPage
  rw [h1]
  simp only
  rw [if_neg (by rw [h2]; decide), if_pos hva.1, if_neg (not_not.2 hva.2), if_neg (not_not.2 hperm.1),
    if_neg (not_not.2 hperm.2), Option.map_eq_bind]
  simp only [Option.bind_eq_bind, Option.bind_assoc]
  refine Option.bind_congr fun r _ => Option.bind_congr fun walked _ => ?_
  obtain ⟨y, m⟩ := walked
  cases y with
  | none => rfl
  | some y =>
    simp only
    split
    · rfl
    simp only [Option.bind_assoc]
    refine Option.bind_congr fun r _ => Option.bind_congr fun inserted hx => ?_
    obtain ⟨x, m⟩ := inserted
    rcases pageInsert_code hx with rfl | rfl <;> rfl

/-- With a receiver that waits, a failed check is `-E_INVAL`. -/
theorem sysIpcTrySend_inval {id : EnvId} {value : BitVec 64}
    (h1 : envid2env k cur id false = some e) (h2 : (k.envs e).envIpcRecving = true)
    (h3 : srcva < utop) (h : ¬ (pgoff srcva = 0 ∧ IpcPermOk perm)) :
    sysIpcTrySend k cur id value srcva perm = some (-eInval, k) := by
  unfold sysIpcTrySend
  rw [h1]
  simp only
  rw [if_neg (by rw [h2]; decide), if_pos h3]
  by_cases h4 : pgoff srcva ≠ 0
  · rw [if_pos h4]
  by_cases h5 : perm &&& (pteU ||| pteP) ≠ pteU ||| pteP
  · rw [if_neg h4, if_pos h5]
  have h6 : perm &&& ~~~pteSyscall ≠ 0 := fun h6 => h ⟨not_not.1 h4, not_not.1 h5, h6⟩
  rw [if_neg h4, if_neg h5, if_pos h6]

theorem sysIpcTrySend_eq (k : Kernel) (cur : EnvIdx) (id : EnvId) (value : BitVec 64) (srcva : VA)
    (perm : BitVec 32) :
    Rejected k (sysIpcTrySend k cur id value srcva perm) ∨
    ∃ e, envid2env k cur id false = some e ∧ (k.envs e).envIpcRecving = true ∧
      ((utop ≤ srcva ∧
        sysIpcTrySend k cur id value srcva perm = some (0, ipcDeliver k cur e value 0)) ∨
      ((srcva < utop ∧ pgoff srcva = 0) ∧ IpcPermOk perm ∧
        sysIpcTrySend k cur id value srcva perm =
          (transferPage k cur srcva e (k.envs e).envIpcDstva perm).map
            (ipcFinish cur e value perm))) := by
  cases h1 : envid2env k cur id false with
  | none => exact Or.inl ⟨-eBadEnv, by decide, by unfold sysIpcTrySend; rw [h1]⟩
  | some e =>
    by_cases h2 : (k.envs e).envIpcRecving = false
    · exact Or.inl ⟨-eIpcNotRecv, by decide, by unfold sysIpcTrySend; rw [h1]; exact if_pos h2⟩
    rw [Bool.not_eq_false] at h2
    by_cases h3 : srcva < utop
    · by_cases h4 : pgoff srcva = 0 ∧ IpcPermOk perm
      · exact Or.inr ⟨e, rfl, h2, Or.inr ⟨⟨h3, h4.1⟩, h4.2,
          sysIpcTrySend_work h1 h2 ⟨h3, h4.1⟩ h4.2⟩⟩
      · exact Or.inl ⟨-eInval, by decide, sysIpcTrySend_inval h1 h2 h3 h4⟩
    · refine Or.inr ⟨e, rfl, h2, Or.inl ⟨BitVec.not_lt.1 h3, ?_⟩⟩
      unfold sysIpcTrySend
      rw [h1]
      simp only
      rw [if_neg (by rw [h2]; decide), if_neg h3]

/-! ## How the work ends -/

/-- Giving back the page that was allocated restores the state. -/
theorem restored_freed {p : ℕ} (hf : FreeOK m (p :: fl)) (hr : Restored (taken m true p) m' fl) :
    pageFree m' p = some (freed m' p) ∧ Restored m (freed m' p) (p :: fl) := by
  have hpf : p ∉ fl := (List.nodup_cons.1 hf.nodup).1
  have hf' : FreeOK m' fl := (hf.taken true).congr hr.pages hr.head hr.npages
  have h0 : (m'.pages p).ppRef = 0 := by
    rw [hr.pages, taken_ref]; exact hf.ref p List.mem_cons_self
  have hhead : m.pageFreeList = some p := by
    have hc := hf.chain
    generalize m.pageFreeList = x at hc
    cases hc; rfl
  refine ⟨pageFree_eq hf' hpf h0, ?_, ?_, ?_, ?_, fun q hq => ?_⟩
  · exact hr.npages.trans taken_npages
  · funext q
    unfold freed
    ext1
    · rw [Pmap.setHead_pages, Pmap.setLink_link, hr.pages, taken_link, hr.head, taken_head]
      split
      · subst q; rfl
      · rfl
    · rw [Pmap.setHead_pages, Pmap.setLink_ref, hr.pages, taken_ref]
  · rw [hhead]; rfl
  · exact hr.boot.trans taken_boot
  · rw [List.mem_cons, not_or] at hq
    have h1 : (freed m' p).mem q = m'.mem q := rfl
    rw [h1, hr.mem q hq.2]
    funext j
    exact taken_mem_of_ne hq.1

/-- **How `sys_page_alloc` ends** after its checks. -/
theorem KInv.allocPage_cases (perm : BitVec 32) (h : KInv F K A k fl efl) (he : k.Live e) (hva : va < utop) :
    (∃ m', allocPage k e va perm = some (-eNoMem, k.setPm m') ∧ Restored k.pm m' fl) ∨
    ∃ p fl₁ m' fl', fl = p :: fl₁ ∧ allocPage k e va perm = some (0, k.setPm m') ∧
      Inserts (roots k) e va p perm (taken k.pm true p) fl₁ m' fl' := by
  obtain ⟨r, h1, hr⟩ := h.pml4e he
  unfold allocPage
  cases fl with
  | nil =>
    rw [pageAlloc_nil h.inv.sound.wf.free]
    exact Or.inl ⟨k.pm, rfl, .refl⟩
  | cons p fl =>
    have ht := h.inv.taken true
    rw [pageAlloc_cons h.inv.sound.wf.free]
    simp only [Option.bind_eq_bind, Option.bind_some, h1]
    rcases ht.sound.pageInsert_cases perm hr hva (h.inv.mappable_taken true) with
      ⟨-, m₁, h2, h3⟩ | ⟨-, m₁, fl₁, h2, h3⟩
    · obtain ⟨h4, h5⟩ := restored_freed h.inv.sound.wf.free h3
      refine Or.inl ⟨freed m₁ p, ?_, h5⟩
      simp [h2, h4, eNoMem]
    · refine Or.inr ⟨p, fl, m₁, fl₁, rfl, ?_, h3⟩
      simp [h2]

/-- The transfer of a page from an address that is not mapped, with too few free pages
for the tables of that address. -/
theorem KInv.transferPage_short (dst : EnvIdx) (dstva : VA) (perm : BitVec 32)
    (h : KInv F K A k fl efl) (hr : (k.envs src).envPml4e = some r)
    (hs : k.Live src) (hva : srcva < utop) (hm : fl.length < missingTables k.pm r srcva) :
    ∃ m', transferPage k src srcva dst dstva perm = some (-eInval, k.setPm m') ∧
      Restored k.pm m' fl := by
  have hroot : roots k (.env src) = some r := by rw [roots_env hs, hr]
  obtain ⟨m', h1, h2⟩ := h.inv.sound.wf.pageLookup_short hroot hva hm
  refine ⟨m', ?_, h2⟩
  unfold transferPage
  simp only [hr, h1, Option.bind_eq_bind, Option.bind_some]

/-- The transfer of a mapped page, up to `page_insert`. -/
theorem KInv.transferPage_lookup (h : KInv F K A k fl efl) (hr : (k.envs src).envPml4e = some r)
    (hs : k.Live src) (hva : srcva < utop) (hv : leafEntry k.pm r srcva = some v) :
    transferPage k src srcva dst dstva perm =
      if !flag v pteW && flag perm pteW then some (-eInval, k)
      else (k.envs dst).envPml4e.bind fun rd =>
        (pageInsert k.pm rd (ppn v) dstva perm).map fun r => (r.1, k.setPm r.2) := by
  have hroot : roots k (.env src) = some r := by rw [roots_env hs, hr]
  obtain ⟨q, h1, -, h2, -⟩ := h.inv.sound.wf.pageLookup_mapped hroot hva hv
  unfold transferPage
  simp only [hr, h1, h2, Option.bind_eq_bind, Option.bind_some, Kernel.setPm_self]
  split
  · rfl
  · refine Option.bind_congr fun rd _ => ?_
    rw [Option.map_eq_bind]; rfl

/-- **How the transfer of a mapped page ends**, to an address below `UTOP`. -/
theorem KInv.transferPage_cases (h : KInv F K A k fl efl) (hr : (k.envs src).envPml4e = some r)
    (hs : k.Live src) (hd : k.Live dst) (hva : srcva < utop) (hdva : dstva < utop)
    (hv : leafEntry k.pm r srcva = some v)
    (hmax : (flag perm pteW = true → flag v pteW = true) → (k.pm.pages (ppn v)).ppRef ≠ 0xFFFF#16) :
    ((flag perm pteW = true ∧ flag v pteW = false) ∧
      transferPage k src srcva dst dstva perm = some (-eInval, k)) ∨
    ((flag perm pteW = true → flag v pteW = true) ∧
      ((∃ m', transferPage k src srcva dst dstva perm = some (-eNoMem, k.setPm m') ∧
        Restored k.pm m' fl) ∨
      ∃ m' fl', transferPage k src srcva dst dstva perm = some (0, k.setPm m') ∧
        Inserts (roots k) dst dstva (ppn v) perm k.pm fl m' fl')) := by
  have hroot : roots k (.env src) = some r := by rw [roots_env hs, hr]
  obtain ⟨rd, hrd, hrootd⟩ := h.pml4e hd
  rw [h.transferPage_lookup hr hs hva hv]
  by_cases hw : (!flag v pteW && flag perm pteW) = true
  · simp only [Bool.and_eq_true, Bool.not_eq_true'] at hw
    exact Or.inl ⟨⟨hw.2, hw.1⟩, by rw [hw.1, hw.2]; rfl⟩
  · rw [if_neg hw]
    have hw' : flag perm pteW = true → flag v pteW = true := by
      intro hp; rw [hp] at hw; simpa using hw
    rw [h.inv.sound.wf.leafEntry_view hroot hva] at hv
    have hpp := h.inv.sound.mappable (user_vpn hva) hv (hmax hw')
    refine Or.inr ⟨hw', ?_⟩
    rw [hrd, Option.bind_some]
    rcases h.inv.sound.pageInsert_cases perm hrootd hdva hpp with
      ⟨-, m₁, h2, h3⟩ | ⟨-, m₁, fl₁, h2, h3⟩
    · exact Or.inl ⟨m₁, by rw [h2]; rfl, h3⟩
    · exact Or.inr ⟨m₁, fl₁, by rw [h2]; rfl, h3⟩

end Jos
