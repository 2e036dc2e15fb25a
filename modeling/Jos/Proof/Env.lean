import Jos.Lib.Loop
import Jos.Proof.Roots
import Jos.Spec.Env

/-!
# Environments

`KInv` is the invariant of the whole kernel: that of the memory manager, for the PML4s
of the live environments, and that of the environment list. `env_alloc` and
`region_alloc` keep it; `env_free` is in `Jos.Proof.Free`.
-/

namespace Jos

open Lib

/-- The PML4 pages of the live environments, and `boot_pml4e`. -/
def roots (k : Kernel) : Roots
  | .kern => some k.pm.bootPml4e
  | .env e => if k.Live e then (k.envs e).envPml4e else none

/-- `env_link` as a `next` function. -/
def Kernel.link (k : Kernel) (e : EnvIdx) : Option EnvIdx := (k.envs e).envLink

/-- **The kernel invariant.** The memory manager is sound, a live environment has a PML4
whose address is in `env_cr3`, and `env_free_list` is the list of the free slots. -/
structure KInv (F : Set ℕ) (K : Vpn → Option PTE) (A : PTE → Prop) (k : Kernel) (fl : List ℕ)
    (efl : List EnvIdx) : Prop where
  inv : Inv F K A (roots k) k.pm fl
  root : ∀ e, k.Live e → ∃ r, (k.envs e).envPml4e = some r ∧ (k.envs e).envCr3 = page2pa r
  chain : Chain k.link k.envFreeList efl
  free : ∀ e, e ∈ efl ↔ ¬ k.Live e

variable {F : Set ℕ} {K : Vpn → Option PTE} {A : PTE → Prop} {k k' : Kernel} {m m' : Pmap}
variable {fl fl' : List ℕ} {efl : List EnvIdx} {e cur : EnvIdx} {v : Env} {r : ℕ}

@[simp] theorem Kernel.setPm_pm : (k.setPm m).pm = m := rfl
@[simp] theorem Kernel.setPm_envs : (k.setPm m).envs = k.envs := rfl
@[simp] theorem Kernel.setPm_free : (k.setPm m).envFreeList = k.envFreeList := rfl
@[simp] theorem Kernel.setPm_self : k.setPm k.pm = k := rfl
@[simp] theorem Kernel.setEnv_pm : (k.setEnv e v).pm = k.pm := rfl
@[simp] theorem Kernel.setEnv_free : (k.setEnv e v).envFreeList = k.envFreeList := rfl
@[simp] theorem Kernel.setEnv_self : (k.setEnv e v).envs e = v := if_pos rfl
theorem Kernel.setEnv_of_ne {x : EnvIdx} (h : x ≠ e) : (k.setEnv e v).envs x = k.envs x := if_neg h
@[simp] theorem Kernel.setFree_pm {h : Option EnvIdx} : (k.setFree h).pm = k.pm := rfl
@[simp] theorem Kernel.setFree_envs {h : Option EnvIdx} : (k.setFree h).envs = k.envs := rfl
@[simp] theorem Kernel.setFree_free {h : Option EnvIdx} : (k.setFree h).envFreeList = h := rfl

theorem Kernel.live_iff : k.Live e ↔ (k.envs e).envStatus ≠ .free := Iff.rfl

@[simp] theorem roots_kern : roots k .kern = some k.pm.bootPml4e := rfl

theorem roots_env (h : k.Live e) : roots k (.env e) = (k.envs e).envPml4e := if_pos h

theorem roots_dead (h : ¬ k.Live e) : roots k (.env e) = none := if_neg h

/-- The roots depend on the statuses, the PML4s and `boot_pml4e`. -/
theorem roots_congr (hl : ∀ e, k'.Live e ↔ k.Live e)
    (hp : ∀ e, (k'.envs e).envPml4e = (k.envs e).envPml4e)
    (hb : k'.pm.bootPml4e = k.pm.bootPml4e) : roots k' = roots k := by
  funext o
  cases o with
  | kern => rw [roots_kern, roots_kern, hb]
  | env e => unfold roots; simp only [hl, hp]

theorem roots_setPm (hb : m.bootPml4e = k.pm.bootPml4e) : roots (k.setPm m) = roots k :=
  roots_congr (fun _ => Iff.rfl) (fun _ => rfl) hb

/-- The PML4 of a live environment. -/
theorem KInv.pml4e (h : KInv F K A k fl efl) (hl : k.Live e) :
    ∃ r, (k.envs e).envPml4e = some r ∧ roots k (.env e) = some r := by
  obtain ⟨r, h1, -⟩ := h.root e hl
  exact ⟨r, h1, by rw [roots_env hl, h1]⟩

/-- A step of the memory manager. -/
theorem KInv.setPm (h : KInv F K A k fl efl) (hm : Inv F K A (roots k) m fl')
    (hb : m.bootPml4e = k.pm.bootPml4e) : KInv F K A (k.setPm m) fl' efl :=
  ⟨by rw [roots_setPm hb]; exact hm, h.root, h.chain, h.free⟩

/-- The fields of `struct Env` that say whether it is free and what it owns. -/
structure SameRoot (v w : Env) : Prop where
  status : v.envStatus = .free ↔ w.envStatus = .free
  link : v.envLink = w.envLink
  pml4e : v.envPml4e = w.envPml4e
  cr3 : v.envCr3 = w.envCr3

theorem Kernel.setEnv_live (h : SameRoot v (k.envs e)) {x : EnvIdx} :
    (k.setEnv e v).Live x ↔ k.Live x := by
  unfold Kernel.Live
  by_cases hx : x = e
  · subst hx; rw [Kernel.setEnv_self]; exact not_congr h.status
  · rw [Kernel.setEnv_of_ne hx]

theorem roots_setEnv (h : SameRoot v (k.envs e)) : roots (k.setEnv e v) = roots k := by
  refine roots_congr (fun _ => Kernel.setEnv_live h) (fun x => ?_) rfl
  by_cases hx : x = e
  · subst hx; rw [Kernel.setEnv_self]; exact h.pml4e
  · rw [Kernel.setEnv_of_ne hx]

/-- A store to the other fields of an environment. -/
theorem KInv.setEnv (h : KInv F K A k fl efl) (hv : SameRoot v (k.envs e)) :
    KInv F K A (k.setEnv e v) fl efl := by
  refine ⟨by rw [roots_setEnv hv]; exact h.inv, fun x hx => ?_, h.chain.congr fun x _ => ?_,
    fun x => by rw [Kernel.setEnv_live hv]; exact h.free x⟩
  · rw [Kernel.setEnv_live hv] at hx
    obtain ⟨r, h1, h2⟩ := h.root x hx
    refine ⟨r, ?_⟩
    by_cases hxe : x = e
    · subst hxe; rw [Kernel.setEnv_self, hv.pml4e, hv.cr3]; exact ⟨h1, h2⟩
    · rw [Kernel.setEnv_of_ne hxe]; exact ⟨h1, h2⟩
  · unfold Kernel.link
    by_cases hxe : x = e
    · subst hxe; rw [Kernel.setEnv_self]; exact hv.link
    · rw [Kernel.setEnv_of_ne hxe]

/-- `envid2env` finds live environments. -/
theorem envid2env_live {id : EnvId} {c : Bool} (hc : k.Live cur)
    (h : envid2env k cur id c = some e) : k.Live e := by
  unfold envid2env at h
  split at h
  · cases h; exact hc
  · dsimp only at h
    split at h
    · cases h
    · rename_i h1
      split at h
      · cases h
      · cases h; exact fun h2 => h1 (Or.inl h2)

/-! ## `env_alloc` -/

/-- Environment ids are positive numbers. -/
theorem nextEnvId_nonneg (e : EnvIdx) (old : EnvId) : 0 ≤ (nextEnvId e old).toInt := by
  have key : ∀ g : EnvId, 0 < g.toInt → 0 ≤ (g ||| BitVec.ofNat 32 e).toInt := by
    intro g hg
    have he : e.val < 1024 := e.isLt
    have h1 : g.msb = false := by rw [BitVec.msb_eq_toInt]; simp; omega
    have h2 : (BitVec.ofNat 32 e).msb = false := by rw [BitVec.msb_eq_decide]; simp; omega
    have h3 : (g ||| BitVec.ofNat 32 e).msb = false := by rw [BitVec.msb_or, h1, h2]; rfl
    rw [BitVec.msb_eq_toInt] at h3
    simpa using h3
  unfold nextEnvId
  dsimp only
  split
  · exact key _ (by decide)
  · exact key _ (by omega)

/-- What `env_alloc` does to the kernel when it gives out slot `e`. -/
structure Allocated (k k' : Kernel) (e : EnvIdx) (p : ℕ) : Prop where
  pm : k'.pm = rooted k.pm p
  head : k.envFreeList = some e
  free : k'.envFreeList = (k.envs e).envLink
  link : (k'.envs e).envLink = (k.envs e).envLink
  live : (k'.envs e).envStatus = .runnable
  id : (k'.envs e).envId = nextEnvId e (k.envs e).envId
  root : (k'.envs e).envPml4e = some p
  cr3 : (k'.envs e).envCr3 = page2pa p
  other : ∀ x, x ≠ e → k'.envs x = k.envs x

/-- `env_setup_vm` with a free page. -/
theorem envSetupVm_cons {p : ℕ} (hf : FreeOK k.pm (p :: fl)) (hb : k.pm.bootPml4e ≠ p) :
    envSetupVm k e = some (0, (k.setPm (rooted k.pm p)).setEnv e
      { k.envs e with envPml4e := some p, envCr3 := page2pa p }) := by
  have hk : kaddr (taken k.pm true p) (page2pa p) = some p :=
    kaddr_page2pa (by rw [taken_npages]; exact hf.npages_le)
      (by rw [taken_npages]; exact hf.lt p List.mem_cons_self)
  have hu : pml4 uvpt = 2 := by decide
  unfold envSetupVm rooted
  rw [pageAlloc_cons hf]
  simp only [Option.bind_eq_bind, Option.bind_some, hk, Pmap.incRef_mem, Pmap.incRef_boot,
    taken_boot, taken_mem_of_ne hb, hu]

/-- **How `env_alloc` ends**: with an error and the state as it was, or with the first
slot of the list and the first free page as its PML4. -/
theorem KInv.envAlloc_cases (h : KInv F K A k fl efl) (parent : EnvId) :
    (∃ x, envAlloc k parent = some (.error x, k) ∧ x < 0 ∧ (efl = [] ∨ fl = [])) ∨
    ∃ e k' p fl', envAlloc k parent = some (.ok e, k') ∧ fl = p :: fl' ∧ Allocated k k' e p := by
  unfold envAlloc
  cases hh : k.envFreeList with
  | none => exact Or.inl ⟨_, rfl, by decide, Or.inl (h.chain.none_iff.1 hh)⟩
  | some e =>
    cases fl with
    | nil =>
      refine Or.inl ⟨-eNoMem, ?_, by decide, Or.inr rfl⟩
      have h1 : envSetupVm k e = some (-eNoMem, k) := by
        unfold envSetupVm
        rw [pageAlloc_nil h.inv.sound.wf.free]; rfl
      simp only [h1, Option.bind_eq_bind, Option.bind_some]
      rfl
    | cons p fl =>
      have hb : k.pm.bootPml4e ≠ p := by
        rintro hb
        exact h.inv.sound.wf.free_node p List.mem_cons_self (hb ▸ (root_at h.inv.sound.wf.kern).node)
      simp only [envSetupVm_cons h.inv.sound.wf.free hb, Option.bind_eq_bind, Option.bind_some,
        lt_irrefl, if_false]
      refine Or.inr ⟨e, _, p, fl, rfl, rfl, rfl, hh, ?_, ?_, ?_, ?_, ?_, ?_, fun x hx => ?_⟩
      · simp
      · simp
      · simp
      · simp
      · simp
      · simp
      · rw [Kernel.setFree_envs, Kernel.setEnv_of_ne hx, Kernel.setEnv_of_ne hx, Kernel.setPm_envs]

/-- The roots after `env_alloc`. -/
theorem Allocated.roots {p : ℕ} (h : Allocated k k' e p) :
    Jos.roots k' = setRoot (Jos.roots k) e (some p) := by
  funext o
  cases o with
  | kern =>
    rw [setRoot_of_ne (by simp), roots_kern, roots_kern, h.pm, rooted_boot]
  | env x =>
    by_cases hx : x = e
    · subst hx
      have hl : k'.Live x := by unfold Kernel.Live; rw [h.live]; decide
      rw [setRoot_self, roots_env hl, h.root]
    · have hl : k'.Live x ↔ k.Live x := by unfold Kernel.Live; rw [h.other x hx]
      rw [setRoot_of_ne (by simpa using hx)]
      unfold Jos.roots
      simp only [hl, h.other x hx]

/-- **`env_alloc` keeps the invariant.** -/
theorem KInv.allocated (h : KInv F K A k (r :: fl) efl) (ha : Allocated k k' e r) :
    KInv F K A k' fl efl.tail ∧ ¬ k.Live e := by
  have hc := h.chain
  rw [ha.head] at hc
  obtain ⟨efl', hefl, hne, hc⟩ := hc.pop
  have hdead : ¬ k.Live e := (h.free e).1 (by rw [hefl]; exact List.mem_cons_self)
  have hl : k'.Live e := by unfold Kernel.Live; rw [ha.live]; decide
  have hlive : ∀ x, x ≠ e → (k'.Live x ↔ k.Live x) := by
    intro x hx; unfold Kernel.Live; rw [ha.other x hx]
  refine ⟨⟨?_, fun x hx => ?_, ?_, fun x => ?_⟩, hdead⟩
  · rw [ha.roots, ha.pm]
    exact h.inv.rooted (if_neg hdead)
  · by_cases hxe : x = e
    · subst hxe; exact ⟨r, ha.root, ha.cr3⟩
    · rw [ha.other x hxe]; exact h.root x ((hlive x hxe).1 hx)
  · rw [hefl, List.tail_cons, ha.free]
    refine hc.congr fun x hx => ?_
    have hxe : x ≠ e := by rintro rfl; exact hne hx
    unfold Kernel.link; rw [ha.other x hxe]
  · rw [hefl, List.tail_cons]
    by_cases hxe : x = e
    · subst hxe; simp [hne, hl]
    · rw [hlive x hxe, ← h.free x, hefl]; simp [hxe]

/-! ## `region_alloc` -/

/-- The permissions that `region_alloc` gives. -/
theorem permOk_region : PermOk (pteW ||| pteU) := by decide

/-- One turn of `region_alloc`, if it does not panic. -/
theorem Inv.regionAllocPage {R : Roots} {start : VA} (h : Inv F K A R m fl)
    (hr : R (.env e) = some r) (hva : start < utop) (hA : ∀ p, A (mkPte p (pteW ||| pteU)))
    (hs : Jos.regionAllocPage r m start = some m') :
    ∃ fl', Inv F K A R m' fl' ∧ m'.bootPml4e = m.bootPml4e := by
  unfold Jos.regionAllocPage at hs
  cases fl with
  | nil => rw [pageAlloc_nil h.sound.wf.free] at hs; cases hs
  | cons p fl =>
    have hp := h.mappable_taken false
    have h1 := h.taken false
    have hF : p ∈ F := h.free p List.mem_cons_self
    have href : ((Jos.taken m false p).pages p).ppRef = 0 := by
      rw [taken_ref]; exact h.sound.wf.free.ref p List.mem_cons_self
    -- the page is counted before it is inserted
    have h2 : Inv F K A R ((Jos.taken m false p).incRef p) fl := by
      refine h1.of_sub (h1.sound.incRef hp.notFree hp.notNode hp.notMax) h1.free h1.node
        (fun _ => rfl) fun _ _ hv => hv
    have hp₂ : Mappable R ((Jos.taken m false p).incRef p) fl p := by
      refine ⟨hp.lt, hp.notFree, hp.notNode, ?_⟩
      rw [Pmap.incRef_ref, if_pos rfl, href]; decide
    rw [pageAlloc_cons h.sound.wf.free] at hs
    rcases h2.sound.pageInsert_cases (pteW ||| pteU) hr hva hp₂ with
      ⟨-, m₁, h3, -⟩ | ⟨-, m₁, fl₁, h3, h4⟩
    · simp [h3, eNoMem] at hs
    · simp only [Option.bind_eq_bind, Option.bind_some, h3] at hs
      cases hs
      exact ⟨fl₁, h4.inv h2 hva hF permOk_region (hA p), by
        rw [h4.boot, Pmap.incRef_boot, taken_boot]⟩

/-- **`region_alloc` keeps the invariant**, for a region below `UTOP`. -/
theorem KInv.regionAlloc {va len : VA} (h : KInv F K A k fl efl) (hl : k.Live e)
    (hva : ∀ a ∈ pagesFrom (roundDown va pgsize) (roundUp (va + len) pgsize), a < utop)
    (hA : ∀ p, A (mkPte p (pteW ||| pteU))) (hs : regionAlloc k e va len = some k') :
    ∃ fl', KInv F K A k' fl' efl ∧ k'.envs = k.envs := by
  obtain ⟨r, hr, hroot⟩ := h.pml4e hl
  unfold Jos.regionAlloc at hs
  simp only [hr, Option.bind_eq_bind, Option.bind_some] at hs
  obtain ⟨m, hm, he⟩ := Option.bind_eq_some_iff.1 hs
  cases he
  obtain ⟨fl', h1, h2⟩ := loop_inv (P := fun m => ∃ fl', Inv F K A (roots k) m fl' ∧
      m.bootPml4e = k.pm.bootPml4e) (fun a ha b b' ⟨fl₁, hb, hbb⟩ hstep => by
    obtain ⟨fl₂, h3, h4⟩ := hb.regionAllocPage hroot (hva a ha) hA hstep
    exact ⟨fl₂, h3, h4.trans hbb⟩) hm ⟨fl, h.inv, rfl⟩
  exact ⟨fl', h.setPm h1 h2, rfl⟩

end Jos
