import Jos.Proof.Boot

/-!
# Permissions

* `write_not_from_nothing`: after a clean run, a clean call gives no writable mapping of a
  page that is not free and that all mappings below `UTOP` only let user code read.
* `perms_checked`: in every clean run whose accepted permissions have `PTE_U`, every leaf entry
  below `UTOP` has the flags that the three calls document; and exactly which permission
  words the calls reject.
-/

namespace Jos

open Lib

variable {F : Set ℕ} {K : Vpn → Option PTE} {A : PTE → Prop} {k k₀ k' : Kernel} {m m' : Pmap}
variable {fl fl' : List ℕ} {efl : List EnvIdx} {cur e src dst : EnvIdx} {p r : ℕ} {va : VA}
variable {perm : BitVec 32} {v : PTE} {o : Outcome} {call : Syscall} {s : Owner × Vpn} {x : ℤ}

/-! ## Where the mappings after a call come from -/

/-- An entry of the view belongs to the kernel or to a live environment. -/
theorem view_live {v : PTE} {n : Vpn} (hv : view (roots k) m (.env e, n) = some v) : k.Live e := by
  obtain ⟨a, b, c, d⟩ := n
  obtain ⟨t, ht, -⟩ := view_eq_some.1 hv
  obtain ⟨s, hs⟩ := Forest.At.prefix (π := []) ht
  have hr : roots k (.env e) = some s := Forest.at_nil.1 hs
  by_contra hl
  rw [roots_dead hl] at hr
  cases hr

/-- Clearing entries takes leaf entries away and adds none. -/
theorem Cleared.view_sub {R : Roots} {C : ℕ → Idx → Prop} (h : Cleared m fl m' fl' C)
    (hv : view R m' s = some v) : view R m s = some v := by
  have hmem : ∀ {t : ℕ} {i : Idx}, flag (m'.mem t i) pteP = true → m'.mem t i = m.mem t i := by
    intro t i hp
    refine h.keep t i fun hc => ?_
    rw [h.zero t i hc] at hp
    simp at hp
  have hat : ∀ {o π t}, (tables R m').At o π t → (tables R m).At o π t := by
    intro o π t ht
    induction π using List.reverseRecOn generalizing t with
    | nil => exact ht
    | append_singleton π i ih =>
      obtain ⟨hd, q, hq, hn⟩ := Forest.at_append.1 ht
      obtain ⟨h1, h2⟩ := next_eq_some.1 hn
      refine Forest.at_append.2 ⟨hd, q, ih hq, next_eq_some.2 ?_⟩
      rw [← hmem h1]
      exact ⟨h1, h2⟩
  obtain ⟨o, a, b, c, d⟩ := s
  obtain ⟨t, ht, h1, h2⟩ := view_eq_some.1 hv
  rw [← h1] at h2
  exact view_eq_some.2 ⟨t, hat ht, by rw [← hmem h2, h1], by rw [← h1]; exact h2⟩

/-- **A leaf entry below `UTOP` after a call** was there before, or is the one that the call
installed. -/
theorem KInv.effect_view (h : KInv F K A k fl efl) (he : Effect k fl cur call k') (hs : User s)
    (hv : view (roots k') k'.pm s = some v) : view (roots k) k.pm s = some v ∨
      ∃ perm pp m₁ fl₁, v = mkPte pp perm ∧ PermOk perm ∧ Source k fl perm pp m₁ fl₁ := by
  have hw := h.inv.sound.wf
  cases he with
  | same hse hr =>
    rw [hse.roots hr.boot, (hw.restored hr).2.2] at hv
    exact Or.inl hv
  | @map e va perm pp m₁ fl₁ fl' hl hse hva hperm hsrc hi hT hG =>
    obtain ⟨h1, -, h2, h3⟩ := h.source hsrc
    rw [hse.roots (hi.boot.trans h2), hi.view_eq h1.sound hva hperm, h3] at hv
    by_cases hst : s = (ownerOf e va, vpn va)
    · subst hst
      rw [Function.update_self] at hv
      cases hv
      exact Or.inr ⟨perm, pp, m₁, fl₁, rfl, hperm, hsrc⟩
    · rw [Function.update_of_ne hst] at hv
      exact Or.inl hv
  | @unmap e va q hse hva hq hp hm hT =>
    rw [hse.roots (by rw [hm, removeAt_boot]), hm, (view_removeAt hw hq).2] at hv
    by_cases hst : s = (ownerOf e va, (pml4 va, pdpe va, pdx va, ptx va))
    · subst hst
      rw [Function.update_self] at hv
      cases hv
    · rw [Function.update_of_ne hst] at hv
      exact Or.inl hv
  | @destroy e hl hf hn =>
    obtain ⟨root, m₁, fl₁, -, h1, -, -, hc⟩ := h.envFree hl
    rw [h1] at hf
    cases hf
    have hb : (dropped m₁ root).bootPml4e = k.pm.bootPml4e := by rw [dropped_boot, hc.boot]
    rw [roots_envFreed hb] at hv
    exact Or.inl (hc.view_sub (view_dropRoot.1 hv).1)
  | @fork e p fl₁ k₁ h0 ha hse hm hn =>
    subst h0
    have hdead := roots_dead (h.allocated ha).2
    rw [hse.roots (by rw [hm]), ha.roots, hm, ha.pm, hw.view_rooted hdead] at hv
    exact Or.inl hv

/-! ## Write access -/

/-- **Write access does not appear out of nothing.** After a clean run, let `p` be a page that
is not free and that no leaf entry below `UTOP`, in any live environment, maps with
`PTE_W`. Then this holds after any clean call too. -/
theorem write_not_from_nothing (hboot : Boot k₀ fl) (hr : Reach Clean k₀ k) (hcur : k.Enters cur)
    (hok : CleanCall k cur call) (hs : call.exec k cur = some o) (hp : ¬ k.pm.OnFreeList p)
    (hw : ∀ e va v, k.Live e → va < utop → k.leafEntry e va = some v → ppn v = p →
      flag v pteW = false) :
    ∀ e va v, o.state.Live e → va < utop → o.state.leafEntry e va = some v → ppn v = p →
      flag v pteW = false := by
  obtain ⟨fl', efl, h⟩ := hboot.reach (fun _ _ => Clean.grants_true) hr
  have he := h.effect hcur.1 hok hs
  have hclean : Clean k (.syscall cur call) := hok
  obtain ⟨fl₁, efl₁, h'⟩ := h.of_effect hclean.grants_true.2 he
  intro e va v hl hva hv hpv
  rw [h'.leafEntry_view hl hva] at hv
  rcases h.effect_view he (user_vpn hva) hv with hold | ⟨perm, pp, m₁, fl₂, rfl, hperm, hsrc⟩
  · -- an entry that was there, in the same environment or in the part that all share
    by_cases ho : pml4 va = 0
    · have hown : ownerOf e va = .env e := if_pos ho
      have hle : k.Live e := view_live (hown ▸ hold)
      exact hw e va v hle hva (by rw [h.leafEntry_view hle hva]; exact hold) hpv
    · have hown : ∀ x, ownerOf x va = .kern := fun x => if_neg ho
      refine hw cur va v hcur.1 hva ?_ hpv
      rw [h.leafEntry_view hcur.1 hva, hown cur, ← hown e]
      exact hold
  · -- the entry that the call installed
    obtain ⟨h1, hF, -, -⟩ := h.source hsrc
    have hlt : pp < 2 ^ 52 := by
      cases hsrc with
      | fresh h0 => exact h.inv.sound.wf.free.lt_two (by rw [h0]; exact List.mem_cons_self)
      | @copy src srcva v hl hsva hv hpp _ =>
        rw [h.leafEntry_view hl hsva] at hv
        have h2 := (h.inv.sound.wf.leaf _ v (user_vpn hsva) hv).1
        have h3 := h.inv.sound.wf.npages_le
        omega
    rw [ppn_mkPte hlt hperm] at hpv
    rw [flag_mkPte_w]
    cases hsrc with
    | fresh h0 =>
      refine absurd (h.inv.sound.wf.free.onFreeList.2 ?_) hp
      rw [h0, ← hpv]
      exact List.mem_cons_self
    | @copy src srcva v hl hsva hv hpp himp =>
      by_contra hne
      rw [Bool.not_eq_false] at hne
      have h2 := hw src srcva v hl hsva hv (hpp.trans hpv)
      rw [himp hne] at h2
      cases h2

/-- A page that is counted once has one mapping. -/
theorem KInv.only_mapping (h : KInv F K A k fl efl) (hl : k.Live src) (hva : va < utop)
    (hv : k.leafEntry src va = some v) (href : (k.pm.pages (ppn v)).ppRef = 1) :
    ∀ e va' v', k.Live e → va' < utop → k.leafEntry e va' = some v' → ppn v' = ppn v → v' = v := by
  intro e va' v' hl' hva' hv' hp
  rw [h.leafEntry_view hl hva] at hv
  rw [h.leafEntry_view hl' hva'] at hv'
  have h1 := h.inv.sound.counted (ppn v)
  rw [href] at h1
  have h2 : targets (roots k) k.pm (ownerOf src va, vpn va) = some (ppn v) :=
    targets_eq_some.2 ⟨user_vpn hva, v, hv, rfl⟩
  have h3 : targets (roots k) k.pm (ownerOf e va', vpn va') = some (ppn v) :=
    targets_eq_some.2 ⟨user_vpn hva', v', hv', hp⟩
  rw [refs_unique h1 h3 h2, hv] at hv'
  exact (Option.some.inj hv').symm

/-- The first program has a page that it can write at `0x1000` and one that it cannot at
`0x2000`, and stores in the first an entry for the second with `PTE_W`. Its child waits for
a page at `0x10000001000`, where `UVPT` shows entry 1 of the child's page directory. -/
def forgedRun : List Event := bootRun ++
  [.syscall 0 (.pageAlloc 0 0x1000 7), .syscall 0 (.pageAlloc 0 0x2000 5),
    .syscall 0 (.pageAlloc 0x1001 0x1000 7), .store 0 0x1000 0x7EB007,
    .syscall 0 (.envSetStatus 0x1001 2), .run (some 0) 1, .syscall 1 (.ipcRecv 0x10000001000),
    .run none 0]

theorem reach_forgedRun (h : runs bootKernel forgedRun = some k) : Reach Clean bootKernel k := by
  refine reach_of_runs (fun ev hev b => ?_) h
  unfold forgedRun at hev
  rcases List.mem_append.1 hev with hev | hev
  · exact clean_bootRun ev hev b
  · simp only [List.mem_cons, List.not_mem_nil, or_false] at hev
    rcases hev with rfl | rfl | rfl | rfl | rfl | rfl | rfl | rfl <;> exact trivial

/-- After that run, all mappings of the second page only let user code read it. -/
theorem forgedRun_readOnly (hk : runs bootKernel forgedRun = some k) (hl : k.Live 0)
    (hv : k.leafEntry 0 0x2000 = some 0x7EB005) (href : (k.pm.pages 2027).ppRef = 1) :
    ¬ k.pm.OnFreeList 2027 ∧ ∀ e va v, k.Live e → va < utop → k.leafEntry e va = some v →
      ppn v = 2027 → flag v pteW = false := by
  obtain ⟨fl, efl, h⟩ := boot_bootKernel.reach (fun _ _ => Clean.grants_true) (reach_forgedRun hk)
  have hp : ppn 0x7EB005 = 2027 := by decide
  have hva : (0x2000 : VA) < utop := by decide
  refine ⟨fun hf => ?_, fun e va v hle hva' hve hpv => ?_⟩
  · rw [h.leafEntry_view hl hva] at hv
    refine (h.inv.sound.wf.leaf _ _ (user_vpn hva) hv).2.1 ?_
    rw [hp]
    exact h.inv.sound.wf.free.onFreeList.1 hf
  · rw [h.only_mapping hl hva hv (by rw [hp]; exact href) e va v hle hva' hve (hpv.trans hp.symm)]
    decide

/-- It applies to a copy of the second page. -/
theorem write_not_from_nothing_copy : ∃ k o, runs bootKernel forgedRun = some k ∧
    (Syscall.pageMap 0 0x2000 0 0x3000 5).exec k 0 = some o ∧
    ∀ e va v, o.state.Live e → va < utop → o.state.leafEntry e va = some v → ppn v = 2027 →
      flag v pteW = false := by
  have h : ((runs bootKernel forgedRun).any fun k => decide (k.Enters 0) &&
      k.leafEntry 0 0x2000 == some 0x7EB005 && (k.pm.pages 2027).ppRef == 1 &&
      ((Syscall.pageMap 0 0x2000 0 0x3000 5).exec k 0).isSome) = true := by decide +kernel
  obtain ⟨k, hk, h⟩ := (Option.any_eq_true _ _).1 h
  simp only [Bool.and_eq_true, decide_eq_true_eq, beq_iff_eq] at h
  obtain ⟨⟨⟨h1, h2⟩, h3⟩, h4⟩ := h
  obtain ⟨o, ho⟩ := Option.isSome_iff_exists.1 h4
  obtain ⟨h5, h6⟩ := forgedRun_readOnly hk h1.1 h2 h3
  have hok : CleanCall k 0 (.pageMap 0 0x2000 0 0x3000 5) := by
    intro src r hsrc _ _ _ _ _ _ hr
    obtain rfl : 0 = src := Option.some.inj hsrc
    unfold Kernel.leafEntry at h2
    rw [hr] at h2
    have h2 : leafEntry k.pm r 0x2000 = some 0x7EB005 := h2
    refine ⟨Or.inl (by rw [h2]; simp), fun v hv _ => ?_⟩
    rw [h2] at hv
    obtain rfl := Option.some.inj hv
    rw [show ppn 0x7EB005 = 2027 by decide, h3]
    decide
  exact ⟨k, o, hk, ho, write_not_from_nothing boot_bootKernel (reach_forgedRun hk) h1 hok ho h5 h6⟩

/-- **A page sent into `UVPT`** becomes a page table of the child, and the entry forged in
it maps the second page with `PTE_W`. -/
theorem write_from_forged_table : ∃ k o v, runs bootKernel forgedRun = some k ∧ k.Enters 0 ∧
    ¬ k.pm.OnFreeList 2027 ∧ (∀ e va v, k.Live e → va < utop → k.leafEntry e va = some v →
      ppn v = 2027 → flag v pteW = false) ∧
    (Syscall.ipcTrySend 0x1001 0 0x1000 7).exec k 0 = some o ∧ o.state.Live 1 ∧
    o.state.leafEntry 1 0x200000 = some v ∧ ppn v = 2027 ∧ flag v pteW = true := by
  have h : ((runs bootKernel forgedRun).any fun k => decide (k.Enters 0) &&
      k.leafEntry 0 0x2000 == some 0x7EB005 && (k.pm.pages 2027).ppRef == 1 &&
      ((Syscall.ipcTrySend 0x1001 0 0x1000 7).exec k 0).any fun o => decide (o.state.Live 1) &&
        o.state.leafEntry 1 0x200000 == some 0x7EB007) = true := by decide +kernel
  obtain ⟨k, hk, h⟩ := (Option.any_eq_true _ _).1 h
  simp only [Bool.and_eq_true, decide_eq_true_eq, beq_iff_eq, Option.any_eq_true] at h
  obtain ⟨⟨⟨h1, h2⟩, h3⟩, o, ho, h4, h5⟩ := h
  obtain ⟨h6, h7⟩ := forgedRun_readOnly hk h1.1 h2 h3
  exact ⟨k, o, _, hk, h1, h6, h7, ho, h4, h5, by decide, by decide⟩

/-! ## Well-formed permissions -/

/-- The flags of a user mapping, as the three calls document them. -/
def WellFormed (v : PTE) : Prop :=
  flag v pteP = true ∧ flag v pteU = true ∧ v &&& 0xFFF &&& ~~~pteSyscall = 0

/-- An entry stored with accepted permissions that have `PTE_U` is well-formed: `page_insert`
adds `PTE_P`. -/
theorem wellFormed_mkPte (hperm : PermOk perm) (hu : flag perm pteU = true) :
    WellFormed (mkPte p perm) := by
  refine ⟨flag_mkPte p perm, by rw [flag_mkPte_u]; exact hu, ?_⟩
  have h1 : mkPte p perm &&& 0xFFF = (perm.signExtend 64 ||| pteP) &&& 0xFFF := by
    rw [mkPte_eq]; exact page2pa_or_and (by decide)
  have h2 : (pteSyscall : BitVec 64) = (pteSyscall : BitVec 32).setWidth 64 := by decide
  have h3 : (pteP : BitVec 64) = (pteP : BitVec 32).setWidth 64 := by decide
  have h4 : perm.signExtend 64 = perm.setWidth 64 := by
    have := hperm.lt
    refine BitVec.signExtend_eq_setWidth_of_msb_false ?_
    rw [BitVec.msb_eq_decide]; simp; omega
  rw [h1, h2, h3, h4]
  ext i hi
  have h5 := congrArg (·.getLsbD i) hperm
  have h6 : (pteP : BitVec 32).getLsbD i = true → (pteSyscall : BitVec 32).getLsbD i = true := by
    intro h
    rw [show (pteSyscall : BitVec 32) = pteP ||| pteSyscall by decide, BitVec.getLsbD_or, h]; rfl
  simp only [BitVec.getLsbD_or] at h5
  simp only [BitVec.getElem_and, BitVec.getElem_or, BitVec.getElem_not, BitVec.getElem_setWidth]
  cases h7 : (pteSyscall : BitVec 32).getLsbD i <;> cases h8 : perm.getLsbD i <;>
    cases h9 : (pteP : BitVec 32).getLsbD i <;> simp_all

/-- The condition on an event: it is clean, and accepted permissions have `PTE_U`. -/
def GrantsUser (k : Kernel) (ev : Event) : Prop :=
  Clean k ev ∧ match ev with
    | .syscall _ (.pageAlloc _ _ perm) => PermOk perm → flag perm pteU = true
    | .syscall _ (.pageMap _ _ _ _ perm) => PermOk perm → flag perm pteU = true
    | _ => True

theorem GrantsUser.grants {ev : Event} (h : GrantsUser k ev) : Grants WellFormed ev := by
  have hany : ∀ perm p, PermOk perm → flag perm pteU = true → WellFormed (mkPte p perm) :=
    fun _ _ => wellFormed_mkPte
  cases ev with
  | syscall cur call =>
    cases call with
    | pageAlloc id va perm => exact fun hp p => hany perm p hp (h.2 hp)
    | pageMap sid srcva did dstva perm => exact fun hp p => hany perm p hp (h.2 hp)
    | _ => exact hany
  | _ => exact hany

/-- The page at `srcva` can be shared with any permissions. -/
def Kernel.Shares (k : Kernel) (src : EnvIdx) (srcva : VA) : Prop :=
  ∃ v, k.leafEntry src srcva = some v ∧ flag v pteW = true ∧ (k.pm.pages (ppn v)).ppRef ≠ 0xFFFF#16

/-- The three calls that take permissions, with all other arguments right; `send` tells
`sys_ipc_try_send` from the other two. -/
inductive PermCall (k : Kernel) (cur : EnvIdx) : Bool → (BitVec 32 → Syscall) → Prop
  | alloc {id : EnvId} {e : EnvIdx} {va : VA} : envid2env k cur id true = some e → va < utop →
    va &&& 0xFFF = 0 → PermCall k cur false fun perm => .pageAlloc id va perm
  | map {sid did : EnvId} {src dst : EnvIdx} {srcva dstva : VA} : envid2env k cur sid true = some src →
    envid2env k cur did true = some dst → srcva < utop ∧ srcva &&& 0xFFF = 0 →
    dstva < utop ∧ dstva &&& 0xFFF = 0 → k.Shares src srcva →
    PermCall k cur false fun perm => .pageMap sid srcva did dstva perm
  | send {id : EnvId} {e : EnvIdx} {value : BitVec 64} {srcva : VA} :
    envid2env k cur id false = some e → (k.envs e).envIpcRecving = true →
    (k.envs e).envIpcDstva < utop → srcva < utop ∧ pgoff srcva = 0 → k.Shares cur srcva →
    PermCall k cur true fun perm => .ipcTrySend id value srcva perm

/-- The call returns `-E_INVAL`. -/
def Syscall.Invalid (k : Kernel) (cur : EnvIdx) (call : Syscall) : Prop :=
  ∃ k', call.exec k cur = some (.ret (-eInval) k')

/-- A transfer of a page that can be shared succeeds or runs out of memory. -/
theorem KInv.transferPage_shares {srcva dstva : VA} (perm : BitVec 32) (h : KInv F K A k fl efl)
    (hs : k.Live src) (hd : k.Live dst) (hva : srcva < utop) (hdva : dstva < utop) (hsh : k.Shares src srcva) :
    ∃ x k', transferPage k src srcva dst dstva perm = some (x, k') ∧ x ≠ -eInval := by
  obtain ⟨r, hr, -⟩ := h.pml4e hs
  obtain ⟨v, hv, hw, hmax⟩ := hsh
  unfold Kernel.leafEntry at hv
  rw [hr] at hv
  rcases h.transferPage_cases hr hs hd hva hdva hv (fun _ => hmax) with
    ⟨⟨-, hw'⟩, -⟩ | ⟨-, ⟨m', h1, -⟩ | ⟨m', fl', h1, -⟩⟩
  · rw [hw] at hw'; cases hw'
  · exact ⟨_, _, h1, by decide⟩
  · exact ⟨_, _, h1, by decide⟩

/-- **What the calls reject**: `sys_ipc_try_send` asks for `PTE_U` and `PTE_P`, the other two do
not. -/
theorem KInv.invalid_iff {send : Bool} {call : BitVec 32 → Syscall} (h : KInv F K A k fl efl)
    (hc : k.Live cur) (hcall : PermCall k cur send call) :
    (call perm).Invalid k cur ↔ ¬ (if send then IpcPermOk perm else PermOk perm) := by
  cases hcall with
  | @alloc id e va hid hva hal =>
    constructor
    · rintro ⟨k', h1⟩ hp
      have hp : PermOk perm := hp
      rw [Syscall.exec_pageAlloc, sysPageAlloc_work hid hva hal hp] at h1
      rcases h.allocPage_cases perm (envid2env_live hc hid) hva with
        ⟨m', h2, -⟩ | ⟨p, fl₁, m', fl', -, h2, -⟩
      · rw [h2] at h1; cases h1
      · rw [h2] at h1; cases h1
    · intro hp
      exact ⟨k, by rw [Syscall.exec_pageAlloc, sysPageAlloc_inval fun hn => hp hn.2.2]; rfl⟩
  | @map sid did src dst srcva dstva hsid hdid hva hdva hsh =>
    constructor
    · rintro ⟨k', h1⟩ hp
      have hp : PermOk perm := hp
      obtain ⟨x, k₁, h2, h3⟩ := h.transferPage_shares perm (envid2env_live hc hsid)
        (envid2env_live hc hdid) hva.1 hdva.1 hsh
      rw [Syscall.exec_pageMap, sysPageMap_work hsid hdid hva hdva hp, h2] at h1
      cases h1
      exact h3 rfl
    · intro hp
      refine ⟨k, ?_⟩
      rw [Syscall.exec_pageMap, sysPageMap_inval hsid hdid fun hn => hp hn.2.2]; rfl
  | @send id e value srcva hid hrecv hdva hva hsh =>
    constructor
    · rintro ⟨k', h1⟩ hp
      have hp : IpcPermOk perm := hp
      obtain ⟨x, k₁, h2, h3⟩ := h.transferPage_shares perm hc (envid2env_live hc hid)
        hva.1 hdva hsh
      rw [Syscall.exec_ipcTrySend, sysIpcTrySend_work hid hrecv hva hp, h2] at h1
      unfold ipcFinish at h1
      simp only [returning, Option.map_some] at h1
      split at h1
      · cases h1
      · cases h1
        exact h3 rfl
    · intro hp
      refine ⟨k, ?_⟩
      rw [Syscall.exec_ipcTrySend, sysIpcTrySend_inval hid hrecv hva.1 fun hn => hp hn.2]; rfl

/-- **Permissions.** In every state of a clean run in which the permissions that
`sys_page_alloc` and `sys_page_map` accept have `PTE_U`, every leaf entry below `UTOP` is
well-formed. And a call with right arguments rejects the documented permissions, those
without `PTE_U` or `PTE_P` or with a flag outside `PTE_SYSCALL`, and no others, exactly when
it is `sys_ipc_try_send`, or the permissions are documented as right, or they have a flag
outside `PTE_SYSCALL`. -/
theorem perms_checked (hboot : Boot k₀ fl) (hr : Reach GrantsUser k₀ k) :
    (∀ e va v, k.Live e → va < utop → k.leafEntry e va = some v → WellFormed v) ∧
    ∀ cur send call perm, k.Enters cur → PermCall k cur send call →
      (((call perm).Invalid k cur ↔ ¬ IpcPermOk perm) ↔
        (send = true ∨ IpcPermOk perm ∨ ¬ PermOk perm)) := by
  obtain ⟨fl', efl, h⟩ := hboot.reach (A := WellFormed) (fun k ev hev => ⟨hev.1, hev.grants⟩) hr
  refine ⟨fun e va v he hva hv => ?_, fun cur send call perm hc hcall => ?_⟩
  · rw [h.leafEntry_view he hva] at hv
    exact h.inv.perm _ v (user_vpn hva) hv
  · rw [h.invalid_iff hc.1 hcall]
    have himp : IpcPermOk perm → PermOk perm := ipcPermOk_permOk
    cases send with
    | true => simp
    | false =>
      simp only [Bool.false_eq_true, if_false, false_or]
      by_cases h1 : IpcPermOk perm
      · simp [h1, himp h1]
      · simp [h1]

/-- It applies to the first program and its child. -/
theorem perms_checked_boot : ∃ k v, runs bootKernel bootRun = some k ∧
    k.leafEntry 0 0x800000 = some v ∧ WellFormed v := by
  have h : ((runs bootKernel bootRun).any fun k => decide (k.Live 0) &&
      (k.leafEntry 0 0x800000).isSome) = true := by decide +kernel
  obtain ⟨k, hk, h⟩ := (Option.any_eq_true _ _).1 h
  simp only [Bool.and_eq_true, decide_eq_true_eq] at h
  obtain ⟨v, hv⟩ := Option.isSome_iff_exists.1 h.2
  have hG : ∀ ev ∈ bootRun, ∀ k, GrantsUser k ev := by
    intro ev hev k
    refine ⟨clean_bootRun ev hev k, ?_⟩
    unfold bootRun at hev
    simp only [List.mem_cons, List.not_mem_nil, or_false] at hev
    rcases hev with rfl | rfl | rfl <;> exact trivial
  exact ⟨k, v, hk, hv, (perms_checked boot_bootKernel (reach_of_runs hG hk)).1 0 0x800000 v h.1
    (by decide) hv⟩

/-- **A mapping without `PTE_U`**: `sys_page_alloc` accepts the permissions 0. -/
theorem alloc_without_user : ∃ k k' v, runs bootKernel bootRun = some k ∧ k.Enters 0 ∧
    (Syscall.pageAlloc 0 0x1000 0).exec k 0 = some (.ret 0 k') ∧
    k'.leafEntry 0 0x1000 = some v ∧ ¬ WellFormed v := by
  have h : ((runs bootKernel bootRun).any fun k => decide (k.Enters 0) &&
      (sysPageAlloc k 0 0 0x1000 0).any fun o => o.1 == 0 &&
        (o.2.leafEntry 0 0x1000).any fun v => !flag v pteU) = true := by decide +kernel
  obtain ⟨k, hk, h⟩ := (Option.any_eq_true _ _).1 h
  simp only [Bool.and_eq_true, decide_eq_true_eq, Option.any_eq_true, beq_iff_eq,
    Bool.not_eq_true'] at h
  obtain ⟨h1, ⟨x, k'⟩, h2, rfl, v, hv, h3⟩ := h
  have h2 : sysPageAlloc k 0 0 0x1000 0 = some (0, k') := h2
  refine ⟨k, k', v, hk, h1, by rw [Syscall.exec_pageAlloc, h2]; rfl, hv, fun hw => ?_⟩
  rw [hw.2.1] at h3
  cases h3

end Jos
