import Jos.Proof.Calls

/-!
# What a system call does

`CleanCall` is the condition under which a call does what it is meant to do: a page is
looked up only at an address that is mapped, its count has room for one more mapping, and a
page is not received at or above `UTOP`.

`Effect` lists the ways in which the state can change then: not at all, by one mapping more
or less, or by one environment more or less. `KInv.effect` goes through the calls once; what
holds after a call is then proved for each effect.
-/

namespace Jos

open Lib

/-! ## The condition -/

/-- The number of pages on `page_free_list`. -/
noncomputable def Pmap.freeCount (m : Pmap) : ℕ := {p | m.OnFreeList p}.ncard

/-- `page_lookup` of `va` tells whether it is mapped: it is, or the walk runs out of
memory. (With the tables in place or made, an absent entry passes for page 0.) -/
def LookupOk (m : Pmap) (r : ℕ) (va : VA) : Prop :=
  leafEntry m r va ≠ none ∨ m.freeCount < missingTables m r va

/-- The page at `va` may be mapped once more with `perm`: the lookup is right, and the
16-bit counter does not wrap. -/
def TransferOk (m : Pmap) (r : ℕ) (va : VA) (perm : BitVec 32) : Prop :=
  LookupOk m r va ∧ ∀ v, leafEntry m r va = some v →
    (flag perm pteW = true → flag v pteW = true) → (m.pages (ppn v)).ppRef ≠ 0xFFFF#16

/-- The condition on a call that passes its checks. -/
def CleanCall (k : Kernel) (cur : EnvIdx) : Syscall → Prop
  | .pageMap srcenvid srcva dstenvid dstva perm => ∀ src r,
    envid2env k cur srcenvid true = some src → envid2env k cur dstenvid true ≠ none →
    srcva < utop → srcva &&& 0xFFF = 0 → dstva < utop → dstva &&& 0xFFF = 0 → PermOk perm →
    (k.envs src).envPml4e = some r → TransferOk k.pm r srcva perm
  | .pageUnmap envid va => ∀ e r, envid2env k cur envid true = some e →
    va < utop → va &&& 0xFFF = 0 → (k.envs e).envPml4e = some r → LookupOk k.pm r va
  | .ipcTrySend envid _ srcva perm => ∀ e r, envid2env k cur envid false = some e →
    (k.envs e).envIpcRecving = true → srcva < utop → pgoff srcva = 0 → IpcPermOk perm →
    (k.envs cur).envPml4e = some r →
      TransferOk k.pm r srcva perm ∧ (k.envs e).envIpcDstva < utop
  | _ => True

/-- The permissions that a call installs satisfy `A`: those of `sys_page_alloc` and
`sys_page_map` are the caller's, the others have `PTE_U`. -/
def Syscall.Grants (A : PTE → Prop) : Syscall → Prop
  | .pageAlloc _ _ perm => PermOk perm → ∀ p, A (mkPte p perm)
  | .pageMap _ _ _ _ perm => PermOk perm → ∀ p, A (mkPte p perm)
  | _ => ∀ perm p, PermOk perm → flag perm pteU = true → A (mkPte p perm)

/-- The call changes the mapping of `va` in environment `a`. -/
def Syscall.Targets (k : Kernel) (cur a : EnvIdx) (va : VA) : Syscall → Prop
  | .pageAlloc envid v _ => envid2env k cur envid true = some a ∧ v = va
  | .pageMap _ _ dstenvid dstva _ => envid2env k cur dstenvid true = some a ∧ dstva = va
  | .pageUnmap envid v => envid2env k cur envid true = some a ∧ v = va
  | _ => False

variable {F : Set ℕ} {K : Vpn → Option PTE} {A : PTE → Prop} {k k₁ k' : Kernel} {m m' : Pmap}
variable {fl fl' : List ℕ} {efl : List EnvIdx} {cur e src dst : EnvIdx} {x : ℤ} {r : ℕ} {v : PTE}
variable {va srcva dstva : VA} {perm : BitVec 32} {o : Outcome} {call : Syscall} {w : Env}

theorem FreeOK.freeCount (h : FreeOK m fl) : m.freeCount = fl.length := by
  have hs : {p | m.OnFreeList p} = (fl.toFinset : Set ℕ) := by
    ext p
    simp only [Set.mem_ofPred_eq, List.coe_toFinset]
    exact h.onFreeList
  unfold Pmap.freeCount
  rw [hs, Set.ncard_coe_finset, List.toFinset_card_of_nodup h.nodup]

theorem ipcPermOk_permOk (h : IpcPermOk perm) : PermOk perm := permOk_iff.2 h.2

theorem ipcPermOk_u (h : IpcPermOk perm) : flag perm pteU = true := by
  have h1 := congrArg (·.getLsbD 2) h.1
  have h2 : (pteU ||| pteP : BitVec 32).getLsbD 2 = true := by decide
  rw [show (pteU : BitVec 32) = BitVec.twoPow 32 2 from rfl, flag_twoPow _ _ (by decide)]
  simp only [BitVec.getLsbD_and, h2, Bool.and_true] at h1
  exact h1

/-! ## Environments that own what they owned -/

/-- The environments and their free list are as before, up to fields that own nothing. -/
structure SameEnvs (k k' : Kernel) : Prop where
  env : ∀ e, SameRoot (k'.envs e) (k.envs e)
  free : k'.envFreeList = k.envFreeList

theorem SameRoot.refl : SameRoot w w := ⟨Iff.rfl, rfl, rfl, rfl⟩

theorem SameEnvs.refl : SameEnvs k k := ⟨fun _ => .refl, rfl⟩

theorem SameEnvs.setPm (h : SameEnvs k k') : SameEnvs k (k'.setPm m) := ⟨h.env, h.free⟩

theorem SameEnvs.setEnv (h : SameEnvs k k') (hw : SameRoot w (k'.envs e)) :
    SameEnvs k (k'.setEnv e w) := by
  refine ⟨fun x => ?_, h.free⟩
  by_cases hx : x = e
  · subst hx
    rw [Kernel.setEnv_self]
    have h1 := h.env x
    exact ⟨hw.status.trans h1.status, hw.link.trans h1.link, hw.pml4e.trans h1.pml4e,
      hw.cr3.trans h1.cr3⟩
  · rw [Kernel.setEnv_of_ne hx]; exact h.env x

theorem SameEnvs.live (h : SameEnvs k k') : k'.Live e ↔ k.Live e := not_congr (h.env e).status

theorem SameEnvs.roots (h : SameEnvs k k') (hb : k'.pm.bootPml4e = k.pm.bootPml4e) :
    Jos.roots k' = Jos.roots k :=
  roots_congr (fun _ => h.live) (fun e => (h.env e).pml4e) hb

/-- A step of the memory manager. -/
theorem KInv.sameEnvs (h : KInv F K A k fl efl) (hs : SameEnvs k k')
    (hm : Inv F K A (roots k) k'.pm fl') (hb : k'.pm.bootPml4e = k.pm.bootPml4e) :
    KInv F K A k' fl' efl := by
  refine ⟨by rw [hs.roots hb]; exact hm, fun e he => ?_, ?_, fun e => by rw [hs.live]; exact h.free e⟩
  · rw [(hs.env e).pml4e, (hs.env e).cr3]
    exact h.root e (hs.live.1 he)
  · rw [hs.free]
    exact h.chain.congr fun e _ => (hs.env e).link

/-- A live environment stays live when its status changes to one that is not free. -/
theorem sameRoot_status (he : k.Live e) (h0 : w.envStatus ≠ .free) (h1 : w.envLink = (k.envs e).envLink)
    (h2 : w.envPml4e = (k.envs e).envPml4e) (h3 : w.envCr3 = (k.envs e).envCr3) :
    SameRoot w (k.envs e) :=
  ⟨⟨fun hf => absurd hf h0, fun hf => absurd hf he⟩, h1, h2, h3⟩

/-! ## The effects -/

/-- The page that a call maps: taken from the free list, or that of a mapping below `UTOP`
which is writable if the copy is. -/
inductive Source (k : Kernel) (fl : List ℕ) (perm : BitVec 32) (pp : ℕ) : Pmap → List ℕ → Prop
  | fresh {fl₁ : List ℕ} : fl = pp :: fl₁ → Source k fl perm pp (taken k.pm true pp) fl₁
  | copy {src : EnvIdx} {srcva : VA} {v : PTE} : k.Live src → srcva < utop →
    k.leafEntry src srcva = some v → ppn v = pp → (flag perm pteW = true → flag v pteW = true) →
    Source k fl perm pp k.pm fl

/-- **What a call can do to the kernel**, from a state with free list `fl`. -/
inductive Effect (k : Kernel) (fl : List ℕ) (cur : EnvIdx) (call : Syscall) (k' : Kernel) : Prop
  | same : SameEnvs k k' → Restored k.pm k'.pm fl → Effect k fl cur call k'
  | map {e : EnvIdx} {va : VA} {perm : BitVec 32} {pp : ℕ} {m₁ : Pmap} {fl₁ fl' : List ℕ} :
    k.Live e → SameEnvs k k' → va < utop → PermOk perm → Source k fl perm pp m₁ fl₁ →
    Inserts (roots k) e va pp perm m₁ fl₁ k'.pm fl' →
    (∀ a x, call.Targets k cur a x → a = e ∧ x = va ∧ va &&& 0xFFF = 0) →
    (∀ A, call.Grants A → ∀ p, A (mkPte p perm)) → Effect k fl cur call k'
  | unmap {e : EnvIdx} {va : VA} {q : ℕ} : SameEnvs k k' → va < utop →
    (tables (roots k) k.pm).At (ownerOf e va) (path va) q → flag (k.pm.mem q (ptx va)) pteP = true →
    k'.pm = removeAt k.pm q (ptx va) →
    (∀ a x, call.Targets k cur a x → a = e ∧ x = va ∧ va &&& 0xFFF = 0) → Effect k fl cur call k'
  | destroy {e : EnvIdx} : k.Live e → envFree k e = some k' →
    (∀ a x, ¬ call.Targets k cur a x) → Effect k fl cur call k'
  | fork {e : EnvIdx} {p : ℕ} {fl₁ : List ℕ} {k₁ : Kernel} : fl = p :: fl₁ → Allocated k k₁ e p →
    SameEnvs k₁ k' → k'.pm = k₁.pm → (∀ a x, ¬ call.Targets k cur a x) → Effect k fl cur call k'

theorem Effect.unchanged : Effect k fl cur call k := .same .refl .refl

/-- A store to fields of an environment that own nothing. -/
theorem Effect.setEnv (hw : SameRoot w (k.envs e)) : Effect k fl cur call (k.setEnv e w) :=
  .same (SameEnvs.refl.setEnv hw) .refl

theorem KInv.sysPageAlloc_effect {id : EnvId} (h : KInv F K A k fl efl) (hc : k.Live cur)
    (hs : sysPageAlloc k cur id va perm = some (x, k')) :
    Effect k fl cur (.pageAlloc id va perm) k' := by
  rcases sysPageAlloc_eq k cur id va perm with ⟨y, -, h1⟩ | ⟨e, h1, hva, hal, hperm, h2⟩
  · rw [h1] at hs; cases hs; exact .unchanged
  · have he := envid2env_live hc h1
    rw [h2] at hs
    rcases h.allocPage_cases perm he hva with ⟨m', h3, h4⟩ | ⟨p, fl₁, m', fl', h0, h3, h4⟩
    · rw [h3] at hs; cases hs
      exact .same SameEnvs.refl.setPm h4
    · rw [h3] at hs; cases hs
      refine .map he SameEnvs.refl.setPm hva hperm (.fresh h0) h4 (fun a x ⟨h5, h6⟩ => ?_)
        fun A hA => hA hperm
      exact ⟨Option.some.inj (h5.symm.trans h1), h6.symm, hal⟩

/-- The effect of a transfer, as far as the memory manager goes. -/
theorem KInv.transferPage_effect (h : KInv F K A k fl efl) (hs : k.Live src) (hd : k.Live dst)
    (hva : srcva < utop) (hdva : dstva < utop)
    (hok : ∀ r, (k.envs src).envPml4e = some r → TransferOk k.pm r srcva perm)
    (ht : transferPage k src srcva dst dstva perm = some (x, k')) :
    (x < 0 ∧ ∃ m', k' = k.setPm m' ∧ Restored k.pm m' fl) ∨
    (x = 0 ∧ ∃ m' fl' pp, k' = k.setPm m' ∧ Source k fl perm pp k.pm fl ∧
      Inserts (roots k) dst dstva pp perm k.pm fl m' fl') := by
  obtain ⟨r, hr, -⟩ := h.pml4e hs
  obtain ⟨hl, hmax⟩ := hok r hr
  cases hv : leafEntry k.pm r srcva with
  | none =>
    have hm : fl.length < missingTables k.pm r srcva := by
      rw [← h.inv.sound.wf.free.freeCount]
      exact hl.resolve_left (fun hn => hn hv)
    obtain ⟨m', h1, h2⟩ := h.transferPage_short dst dstva perm hr hs hva hm
    rw [h1] at ht; cases ht
    exact Or.inl ⟨by decide, m', rfl, h2⟩
  | some v =>
    rcases h.transferPage_cases hr hs hd hva hdva hv (hmax v hv) with
      ⟨-, h1⟩ | ⟨hw, ⟨m', h1, h2⟩ | ⟨m', fl', h1, h2⟩⟩
    · rw [h1] at ht; cases ht
      exact Or.inl ⟨by decide, k.pm, rfl, .refl⟩
    · rw [h1] at ht; cases ht
      exact Or.inl ⟨by decide, m', rfl, h2⟩
    · rw [h1] at ht; cases ht
      have hk : k.leafEntry src srcva = some v := by unfold Kernel.leafEntry; rw [hr]; exact hv
      exact Or.inr ⟨rfl, m', fl', ppn v, rfl, .copy hs hva hk rfl hw, h2⟩

theorem KInv.sysPageMap_effect {sid did : EnvId} (h : KInv F K A k fl efl) (hc : k.Live cur)
    (hok : CleanCall k cur (.pageMap sid srcva did dstva perm))
    (hs : sysPageMap k cur sid srcva did dstva perm = some (x, k')) :
    Effect k fl cur (.pageMap sid srcva did dstva perm) k' := by
  rcases sysPageMap_eq k cur sid srcva did dstva perm with
    ⟨y, -, h1⟩ | ⟨src, dst, h1, h2, hva, hdva, hperm, h3⟩
  · rw [h1] at hs; cases hs; exact .unchanged
  · rw [h3] at hs
    have hd := envid2env_live hc h2
    rcases h.transferPage_effect (envid2env_live hc h1) hd hva.1 hdva.1
        (fun r hr => hok src r h1 (by rw [h2]; simp) hva.1 hva.2 hdva.1 hdva.2 hperm hr) hs with
      ⟨-, m', rfl, h4⟩ | ⟨-, m', fl', pp, rfl, h4, h5⟩
    · exact .same SameEnvs.refl.setPm h4
    · refine .map hd SameEnvs.refl.setPm hdva.1 hperm h4 h5 (fun a x ⟨h6, h7⟩ => ?_)
        fun A hA => hA hperm
      exact ⟨Option.some.inj (h6.symm.trans h2), h7.symm, hdva.2⟩

theorem KInv.sysPageUnmap_effect {id : EnvId} (h : KInv F K A k fl efl) (hc : k.Live cur)
    (hok : CleanCall k cur (.pageUnmap id va))
    (hs : sysPageUnmap k cur id va = some (x, k')) : Effect k fl cur (.pageUnmap id va) k' := by
  rcases sysPageUnmap_eq k cur id va with ⟨y, -, h1⟩ | ⟨e, h1, hva, hal, h2⟩
  · rw [h1] at hs; cases hs; exact .unchanged
  · obtain ⟨r, hr, hroot⟩ := h.pml4e (envid2env_live hc h1)
    have hl := hok e r h1 hva hal hr
    have hw := h.inv.sound.wf
    rw [h2, hr, Option.bind_some] at hs
    cases hv : leafEntry k.pm r va with
    | none =>
      obtain ⟨m', h3, h4⟩ := hw.pageLookup_short hroot hva (by
        rw [← hw.free.freeCount]; exact hl.resolve_left fun hn => hn hv)
      have h5 : pageRemove k.pm r va = some m' := by unfold pageRemove; rw [h3]; rfl
      rw [h5] at hs; cases hs
      exact .same SameEnvs.refl.setPm h4
    | some v =>
      obtain ⟨q, h3, h4, h5⟩ := hw.mapped_at hroot hva hv
      have hp : flag (k.pm.mem q (ptx va)) pteP = true := by rw [h4]; exact h5
      rw [hw.pageRemove_mapped hroot hva h3 hp] at hs
      cases hs
      refine .unmap SameEnvs.refl.setPm hva h3 hp rfl fun a x ⟨h6, h7⟩ => ?_
      exact ⟨Option.some.inj (h6.symm.trans h1), h7.symm, hal⟩

/-- The stores at the end of `sys_ipc_try_send` own nothing. -/
theorem sameEnvs_ipcDeliver {value : BitVec 64} (h : SameEnvs k k') (he : k'.Live e) :
    SameEnvs k (ipcDeliver k' cur e value perm) :=
  h.setEnv (sameRoot_status he (by simp) rfl rfl rfl)

theorem KInv.sysIpcTrySend_effect {id : EnvId} {value : BitVec 64} (h : KInv F K A k fl efl)
    (hc : k.Live cur) (hok : CleanCall k cur (.ipcTrySend id value srcva perm))
    (hs : sysIpcTrySend k cur id value srcva perm = some (x, k')) :
    Effect k fl cur (.ipcTrySend id value srcva perm) k' := by
  rcases sysIpcTrySend_eq k cur id value srcva perm with
    ⟨y, -, h1⟩ | ⟨e, h1, hrecv, ⟨-, h2⟩ | ⟨hva, hperm, h2⟩⟩
  · rw [h1] at hs; cases hs; exact .unchanged
  · rw [h2] at hs; cases hs
    exact .same (sameEnvs_ipcDeliver .refl (envid2env_live hc h1)) .refl
  · rw [h2] at hs
    obtain ⟨r, hr, -⟩ := h.pml4e hc
    have hdva := (hok e r h1 hrecv hva.1 hva.2 hperm hr).2
    have he := envid2env_live hc h1
    obtain ⟨⟨y, k₁⟩, h3, h4⟩ := Option.map_eq_some_iff.1 hs
    unfold ipcFinish at h4
    rcases h.transferPage_effect hc he hva.1 hdva
        (fun r hr => (hok e r h1 hrecv hva.1 hva.2 hperm hr).1) h3 with
      ⟨hy, m', rfl, h5⟩ | ⟨rfl, m', fl', pp, rfl, h5, h6⟩
    · rw [if_neg (by simp only; omega)] at h4
      cases h4
      exact .same SameEnvs.refl.setPm h5
    · rw [if_pos rfl] at h4
      cases h4
      exact .map he (sameEnvs_ipcDeliver SameEnvs.refl.setPm he) hdva (ipcPermOk_permOk hperm) h5 h6
        (fun a x hn => hn.elim)
        fun A hA p => hA perm p (ipcPermOk_permOk hperm) (ipcPermOk_u hperm)

/-- `user_mem_check` leaves the state alone. -/
theorem userMemCheckLoop_state {y : Option VA} {l : List VA}
    (h : userMemCheckLoop m r va perm l = some (y, m')) : m' = m := by
  induction l with
  | nil => cases h; rfl
  | cons a l ih =>
    unfold userMemCheckLoop at h
    obtain ⟨⟨pte, m₁⟩, h1, h⟩ := Option.bind_eq_some_iff.1 h
    rw [pml4eWalk_eq] at h1
    obtain ⟨q, h2⟩ := walkPath_false h1
    cases h2
    simp only at h
    split at h
    · cases h; rfl
    · exact ih h

theorem envDestroy_effect {c : Option EnvIdx} {g : Bool} (he : k.Live e)
    (hn : ∀ a x, ¬ call.Targets k cur a x) (hs : envDestroy k c e = some (g, k')) :
    Effect k fl cur call k' := by
  unfold Jos.envDestroy at hs
  split at hs
  · cases hs
    exact .setEnv (sameRoot_status he (by simp) rfl rfl rfl)
  · obtain ⟨k₁, h1, h2⟩ := Option.bind_eq_some_iff.1 hs
    cases h2
    exact .destroy he h1 hn

theorem KInv.sysExofork_effect (h : KInv F K A k fl efl)
    (hs : sysExofork k cur = some (x, k')) : Effect k fl cur .exofork k' := by
  unfold Jos.sysExofork at hs
  rcases h.envAlloc_cases (k.envs cur).envId with ⟨y, h1, -⟩ | ⟨e, k₁, p, fl₁, h1, h0, h2⟩
  · rw [h1] at hs; cases hs; exact .unchanged
  · rw [h1] at hs; cases hs
    have hl : k₁.Live e := by unfold Kernel.Live; rw [h2.live]; decide
    exact .fork h0 h2 (SameEnvs.refl.setEnv (sameRoot_status hl (by simp) rfl rfl rfl)) rfl
      fun a x hn => hn

/-- **The effect of a clean call.** -/
theorem KInv.effect (h : KInv F K A k fl efl) (hc : k.Live cur) (hok : CleanCall k cur call)
    (hs : call.exec k cur = some o) : Effect k fl cur call o.state := by
  cases call with
  | cputs s len =>
    obtain ⟨r, hr, -⟩ := h.pml4e hc
    simp only [Syscall.exec, sysCputs, hr, Option.bind_eq_bind, Option.bind_some] at hs
    obtain ⟨⟨y, m'⟩, h1, hs⟩ := Option.bind_eq_some_iff.1 hs
    obtain rfl := userMemCheckLoop_state h1
    rw [Kernel.setPm_self] at hs
    cases y with
    | none => cases hs; exact .unchanged
    | some a =>
      obtain ⟨⟨g, k'⟩, h2, hs⟩ := Option.bind_eq_some_iff.1 hs
      cases hs
      exact envDestroy_effect hc (fun a x hn => hn) h2
  | cgetc c => cases hs; exact .unchanged
  | getenvid => cases hs; exact .unchanged
  | envDestroy id =>
    simp only [Syscall.exec, sysEnvDestroy] at hs
    split at hs
    · cases hs; exact .unchanged
    · rename_i e h1
      obtain ⟨⟨g, k'⟩, h2, hs⟩ := Option.bind_eq_some_iff.1 hs
      have h3 : Effect k fl cur (.envDestroy id) k' :=
        envDestroy_effect (envid2env_live hc h1) (fun a x hn => hn) h2
      cases g <;> cases hs <;> exact h3
  | pageAlloc id va perm =>
    obtain ⟨⟨x, k'⟩, h1, rfl⟩ := Option.map_eq_some_iff.1 hs
    exact h.sysPageAlloc_effect hc h1
  | pageMap sid srcva did dstva perm =>
    obtain ⟨⟨x, k'⟩, h1, rfl⟩ := Option.map_eq_some_iff.1 hs
    exact h.sysPageMap_effect hc hok h1
  | pageUnmap id va =>
    obtain ⟨⟨x, k'⟩, h1, rfl⟩ := Option.map_eq_some_iff.1 hs
    exact h.sysPageUnmap_effect hc hok h1
  | exofork =>
    obtain ⟨⟨x, k'⟩, h1, rfl⟩ := Option.map_eq_some_iff.1 hs
    exact h.sysExofork_effect h1
  | envSetStatus id status =>
    obtain ⟨⟨x, k'⟩, h1, rfl⟩ := Option.map_eq_some_iff.1 hs
    unfold sysEnvSetStatus at h1
    split at h1
    · cases h1; exact .unchanged
    split at h1
    · cases h1; exact .unchanged
    · rename_i e h2
      cases h1
      refine .setEnv (sameRoot_status (envid2env_live hc h2) (fun hf => ?_) rfl rfl rfl)
      dsimp only at hf
      split at hf <;> cases hf
  | envSetPgfaultUpcall id func =>
    obtain ⟨⟨x, k'⟩, h1, rfl⟩ := Option.map_eq_some_iff.1 hs
    unfold sysEnvSetPgfaultUpcall at h1
    split at h1
    · cases h1; exact .unchanged
    · cases h1; exact .setEnv ⟨Iff.rfl, rfl, rfl, rfl⟩
  | yield => cases hs; exact .unchanged
  | ipcTrySend id value srcva perm =>
    obtain ⟨⟨x, k'⟩, h1, rfl⟩ := Option.map_eq_some_iff.1 hs
    exact h.sysIpcTrySend_effect hc hok h1
  | ipcRecv dstva =>
    obtain ⟨⟨x, k'⟩, h1, rfl⟩ := Option.map_eq_some_iff.1 hs
    unfold sysIpcRecv at h1
    split at h1
    · cases h1; exact .unchanged
    · cases h1
      exact .setEnv (sameRoot_status hc (by simp) rfl rfl rfl)

end Jos
