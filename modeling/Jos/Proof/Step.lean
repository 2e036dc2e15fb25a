import Jos.Proof.Effect

/-!
# Steps keep the invariant

`Clean` is the condition under which an event keeps `KInv`: for a system call it is
`CleanCall`. `KInv.step` goes through the events, `KInv.reach` through a run.
-/

namespace Jos

open Lib

/-- The condition on an event. The regions that `env_create` loads are below `UTOP`. -/
def Clean (k : Kernel) : Event → Prop
  | .syscall cur call => CleanCall k cur call
  | .create binary _ => ∀ s ∈ binary.segments,
    ∀ a ∈ pagesFrom (roundDown s.1 pgsize) (roundUp (s.1 + s.2) pgsize), a < utop
  | _ => True

/-- The permissions that an event installs satisfy `A`; `region_alloc` gives `PTE_U`. -/
def Grants (A : PTE → Prop) : Event → Prop
  | .syscall _ call => call.Grants A
  | _ => ∀ perm p, PermOk perm → flag perm pteU = true → A (mkPte p perm)

variable {F : Set ℕ} {K : Vpn → Option PTE} {A : PTE → Prop} {k k' : Kernel} {m m' : Pmap}
variable {fl fl' : List ℕ} {efl : List EnvIdx} {cur e : EnvIdx} {r : ℕ} {va : VA} {perm : BitVec 32}
variable {o : Outcome} {call : Syscall}

/-! ## The system calls -/

/-- The page that a call maps is one that the allocator manages, in a state that keeps the
invariant. -/
theorem KInv.source {pp : ℕ} {m₁ : Pmap} {fl₁ : List ℕ} (h : KInv F K A k fl efl)
    (hs : Source k fl perm pp m₁ fl₁) : Inv F K A (roots k) m₁ fl₁ ∧ pp ∈ F ∧
      m₁.bootPml4e = k.pm.bootPml4e ∧ view (roots k) m₁ = view (roots k) k.pm := by
  cases hs with
  | fresh h0 =>
    subst h0
    have hv := (h.inv.sound.wf.taken true).2.2
    exact ⟨h.inv.taken true, h.inv.free pp List.mem_cons_self, taken_boot, hv⟩
  | copy hl hva hv hp hw =>
    rw [h.leafEntry_view hl hva] at hv
    exact ⟨h.inv, h.inv.target _ _ (targets_eq_some.2 ⟨user_vpn hva, _, hv, hp⟩), rfl, rfl⟩

/-- **Every effect keeps the invariant.** -/
theorem KInv.of_effect (h : KInv F K A k fl efl) (hA : call.Grants A)
    (he : Effect k fl cur call k') : ∃ fl' efl', KInv F K A k' fl' efl' := by
  cases he with
  | same hs hr => exact ⟨fl, efl, h.sameEnvs hs (h.inv.restored hr) hr.boot⟩
  | map _ hs hva hperm hsrc hi _ hG =>
    obtain ⟨h1, h2, h3, -⟩ := h.source hsrc
    exact ⟨_, efl, h.sameEnvs hs (hi.inv h1 hva h2 hperm (hG A hA _)) (hi.boot.trans h3)⟩
  | unmap hs hva hq hp hm _ =>
    have h1 := h.inv.removeAt hq (user_vpn hva) hp
    rw [← hm] at h1
    exact ⟨_, efl, h.sameEnvs hs h1 (by rw [hm, removeAt_boot])⟩
  | destroy hl hf _ =>
    obtain ⟨root, m₁, fl₁, -, h1, h2, -⟩ := h.envFree hl
    rw [h1] at hf; cases hf
    exact ⟨_, _, h2⟩
  | fork h0 ha hs hm _ =>
    subst h0
    have h1 := (h.allocated ha).1
    exact ⟨_, _, h1.sameEnvs hs (by rw [hm]; exact h1.inv) (by rw [hm])⟩

/-- **A system call keeps the invariant.** -/
theorem KInv.exec (h : KInv F K A k fl efl) (hc : k.Live cur) (hok : CleanCall k cur call)
    (hA : call.Grants A) (hs : call.exec k cur = some o) : ∃ fl' efl', KInv F K A o.state fl' efl' :=
  h.of_effect hA (h.effect hc hok hs)

/-! ## The other events -/

/-- A store to a page that is not a page table keeps the invariant. -/
theorem Inv.write {R : Roots} {t : ℕ} {i : Idx} {w : BitVec 64} (h : Inv F K A R m fl)
    (ht : ¬ (tables R m).Node t) : Inv F K A R (m.write t i w) fl := by
  have hm : ∀ q, (tables R m).Node q → (m.write t i w).mem q = m.mem q := by
    intro q hq
    funext j
    refine Pmap.write_mem_of_ne ?_
    rintro ⟨rfl, -⟩
    exact ht hq
  obtain ⟨h1, h2, h3⟩ := h.sound.wf.of_off hm (h.sound.wf.free.congr rfl rfl rfl) (fun _ h => h) rfl rfl
    fun _ _ => rfl
  refine h.of_sub ⟨h1, fun p => by rw [targets_congr h3]; exact h.sound.counted p⟩ h.free
    (fun e π p hp => h.node e π p ((h2 _ _ _).1 hp)) (fun v => by rw [h3]) fun s v hv => by rwa [h3] at hv

/-- No leaf entry of the kernel lets user code write. -/
def Guarded (K : Vpn → Option PTE) : Prop :=
  ∀ v x, K v = some x → ¬ (flag x pteW = true ∧ flag x pteU = true)

/-- **A store reaches no page table**: below `UTOP` a mapping refers to no table, from
there on no entry lets user code write. -/
theorem Inv.storeWord {R : Roots} {w : BitVec 64} (h : Inv F K A R m fl) (hK : Guarded K)
    (hr : R (.env e) = some r) (hs : Jos.storeWord m r va w = some m') :
    Inv F K A R m' fl ∧ m'.bootPml4e = m.bootPml4e := by
  have hw := h.sound.wf
  unfold Jos.storeWord at hs
  obtain ⟨x, hx, hs⟩ := Option.bind_eq_some_iff.1 hs
  split at hs
  · rename_i hx'
    simp only [Bool.and_eq_true, Bool.or_eq_true, decide_eq_true_eq] at hx'
    obtain ⟨hxw, hxu⟩ := hx'
    have hleaf : leafEntry m r va = some x.pte := by unfold leafEntry; rw [hx]; rfl
    -- the entries of the walk
    unfold translate at hx
    obtain ⟨e4, h4, hx⟩ := Option.bind_eq_some_iff.1 hx
    obtain ⟨e3, h3, hx⟩ := Option.bind_eq_some_iff.1 hx
    obtain ⟨e2, h2, hx⟩ := Option.bind_eq_some_iff.1 hx
    obtain ⟨e1, h1, hx⟩ := Option.bind_eq_some_iff.1 hx
    cases hx
    simp only [Bool.and_eq_true] at hxw
    -- the slot of the PML4 is one of the two that can be written
    have hslot : pml4 va = slot (ownerOf e va) := by
      unfold ownerOf
      rcases hw.root_entry hr h4 with h5 | ⟨h5, -⟩ | ⟨-, h5, -⟩
      · rw [if_pos h5, h5]; rfl
      · rw [if_neg (by rw [h5]; decide), h5]; rfl
      · rw [h5, BitVec.or_assoc, flag_or (by decide)] at hxw
        have h6 : flag (pteP ||| pteU : BitVec 64) pteW = false := by decide
        rw [h6] at hxw
        simp at hxw
    rw [hw.leafEntry_slot hr hslot] at hleaf
    have huser : User (ownerOf e va, vpn va) := by
      rcases hxu with hxu | hxu
      · by_contra hu
        simp only [Bool.and_eq_true] at hxu
        have ho : ownerOf e va = .kern := by
          cases ho : ownerOf e va with
          | kern => rfl
          | env e' => rw [ho] at hu; exact absurd trivial hu
        rw [ho] at hu hleaf
        rw [h.kern _ hu] at hleaf
        exact hK _ _ hleaf ⟨hxw.2, hxu.2⟩
      · exact user_vpn hxu
    have hn := (hw.leaf _ _ huser hleaf).2.2
    cases hs
    exact ⟨h.write hn, rfl⟩
  · cases hs

/-- `env_run` keeps the invariant. -/
theorem KInv.envRun {c : Option EnvIdx} (h : KInv F K A k fl efl) (he : k.Live e) :
    KInv F K A (Jos.envRun k c e) fl efl := by
  have hlast : ∀ {k₁ : Kernel}, KInv F K A k₁ fl efl → k₁.Live e →
      KInv F K A (k₁.setEnv e { k₁.envs e with
        envStatus := .running, envRuns := (k₁.envs e).envRuns + 1 }) fl efl := fun h₁ he₁ =>
    h₁.setEnv ⟨⟨fun hf => by simp at hf, fun hf => absurd hf he₁⟩, rfl, rfl, rfl⟩
  unfold Jos.envRun
  cases c with
  | none => exact hlast h he
  | some c =>
    simp only
    split
    · rename_i hrun
      have hv : SameRoot { k.envs c with envStatus := .runnable } (k.envs c) :=
        ⟨⟨fun hf => by simp at hf, fun hf => by rw [hrun] at hf; cases hf⟩, rfl, rfl, rfl⟩
      exact hlast (h.setEnv hv) ((Kernel.setEnv_live hv).2 he)
    · exact hlast h he

/-- The regions of the segments. -/
theorem KInv.segments {l : List (VA × VA)} (h : KInv F K A k fl efl) (he : k.Live e)
    (hva : ∀ s ∈ l, ∀ a ∈ pagesFrom (roundDown s.1 pgsize) (roundUp (s.1 + s.2) pgsize), a < utop)
    (hA : ∀ p, A (mkPte p (pteW ||| pteU)))
    (hs : l.foldlM (fun k s => Jos.regionAlloc k e s.1 s.2) k = some k') :
    ∃ fl', KInv F K A k' fl' efl ∧ k'.envs = k.envs := by
  refine loop_inv (P := fun k' => ∃ fl', KInv F K A k' fl' efl ∧ k'.envs = k.envs)
    (fun s hs b b' ⟨fl₁, h1, h2⟩ hb => ?_) hs ⟨fl, h, rfl⟩
  obtain ⟨fl₂, h3, h4⟩ := h1.regionAlloc (by unfold Kernel.Live; rw [h2]; exact he) (hva s hs) hA hb
  exact ⟨fl₂, h3, h4.trans h2⟩

/-- The stack of a new environment is one page. -/
theorem stack_pages : pagesFrom (roundDown (ustacktop - pgsize) pgsize)
    (roundUp (ustacktop - pgsize + pgsize) pgsize) = [ustacktop - pgsize] := by decide

/-- `env_create` keeps the invariant. -/
theorem KInv.envCreate {b : Binary} {type : EnvType} (h : KInv F K A k fl efl)
    (hva : ∀ s ∈ b.segments,
      ∀ a ∈ pagesFrom (roundDown s.1 pgsize) (roundUp (s.1 + s.2) pgsize), a < utop)
    (hA : ∀ p, A (mkPte p (pteW ||| pteU))) (hs : Jos.envCreate k b type = some k') :
    ∃ fl' efl', KInv F K A k' fl' efl' := by
  unfold Jos.envCreate at hs
  rcases h.envAlloc_cases 0 with ⟨y, h1, -⟩ | ⟨e, k₁, p, fl₁, h1, rfl, h2⟩
  · rw [h1] at hs; cases hs
  · simp only [h1, Option.bind_eq_bind, Option.bind_some] at hs
    obtain ⟨k₂, h3, hs⟩ := Option.bind_eq_some_iff.1 hs
    cases hs
    have h4 := (h.allocated h2).1
    have he₁ : k₁.Live e := by unfold Kernel.Live; rw [h2.live]; decide
    unfold loadIcode at h3
    obtain ⟨k₄, h5, h3⟩ := Option.bind_eq_some_iff.1 h3
    obtain ⟨k₅, h6, h3⟩ := Option.bind_eq_some_iff.1 h3
    cases h3
    have hv : SameRoot { k₁.envs e with elf := b.elf } (k₁.envs e) := ⟨Iff.rfl, rfl, rfl, rfl⟩
    have he₂ := (Kernel.setEnv_live hv).2 he₁
    obtain ⟨fl₂, h7, h8⟩ := (h4.setEnv hv).segments he₂ hva hA h5
    have he₃ : k₄.Live e := by unfold Kernel.Live; rw [h8]; exact he₂
    -- the stack page
    have hstack : ∀ a ∈ pagesFrom (roundDown (ustacktop - pgsize) pgsize)
        (roundUp (ustacktop - pgsize + pgsize) pgsize), a < utop := by
      rw [stack_pages]
      simp only [List.mem_singleton, forall_eq]
      decide
    obtain ⟨fl₃, h9, -⟩ := h7.regionAlloc he₃ hstack hA h6
    refine ⟨fl₃, _, KInv.setEnv (KInv.setEnv h9 ?_) ?_⟩
    · exact ⟨Iff.rfl, rfl, rfl, rfl⟩
    · exact ⟨Iff.rfl, rfl, rfl, rfl⟩

/-- `env_destroy` keeps the invariant. -/
theorem KInv.envDestroy {c : Option EnvIdx} {g : Bool} (h : KInv F K A k fl efl) (he : k.Live e)
    (hs : Jos.envDestroy k c e = some (g, k')) : ∃ fl' efl', KInv F K A k' fl' efl' := by
  unfold Jos.envDestroy at hs
  split at hs
  · cases hs
    exact ⟨fl, efl, h.setEnv (sameRoot_status he (by simp) rfl rfl rfl)⟩
  · obtain ⟨root, m₁, fl₁, -, h1, h2, -⟩ := h.envFree he
    rw [h1] at hs
    cases hs
    exact ⟨_, _, h2⟩

/-- **An event keeps the invariant.** -/
theorem KInv.step {ev : Event} (h : KInv F K A k fl efl) (hK : Guarded K) (hok : Clean k ev)
    (hA : Grants A ev) (hs : Jos.step k ev = some k') : ∃ fl' efl', KInv F K A k' fl' efl' := by
  cases ev with
  | syscall cur call =>
    simp only [Jos.step] at hs
    split at hs
    · rename_i hc
      obtain ⟨o, h1, rfl⟩ := Option.map_eq_some_iff.1 hs
      exact h.exec hc.1 hok hA h1
    · cases hs
  | trap cur tf =>
    simp only [Jos.step] at hs
    split at hs
    · cases hs; exact ⟨fl, efl, h.setEnv ⟨Iff.rfl, rfl, rfl, rfl⟩⟩
    · cases hs
  | fault cur =>
    simp only [Jos.step] at hs
    split at hs
    · rename_i hc
      obtain ⟨⟨g, k₁⟩, h1, rfl⟩ := Option.map_eq_some_iff.1 hs
      exact h.envDestroy hc.1 h1
    · cases hs
  | reap cur =>
    simp only [Jos.step] at hs
    split at hs
    · rename_i hc
      have hl : k.Live cur := by unfold Kernel.Live; rw [hc]; decide
      obtain ⟨root, m₁, fl₁, -, h1, h2, -⟩ := h.envFree hl
      rw [h1] at hs; cases hs
      exact ⟨_, _, h2⟩
    · cases hs
  | run c e =>
    simp only [Jos.step] at hs
    split at hs
    · cases hs; exact ⟨fl, efl, h.envRun ‹_›⟩
    · cases hs
  | store cur va w =>
    simp only [Jos.step] at hs
    split at hs
    · rename_i hl
      obtain ⟨r, hr, hroot⟩ := h.pml4e hl
      simp only [hr, Option.bind_eq_bind, Option.bind_some] at hs
      obtain ⟨m, h1, hs⟩ := Option.bind_eq_some_iff.1 hs
      cases hs
      obtain ⟨h2, h3⟩ := h.inv.storeWord hK hroot h1
      exact ⟨fl, efl, h.setPm h2 h3⟩
    · cases hs
  | create b type =>
    exact h.envCreate hok (fun p => hA _ p permOk_region (by decide)) hs

/-- **Every state of a run keeps the invariant**, if the steps are clean and grant only
what `A` allows. -/
theorem KInv.reach {G : Kernel → Event → Prop} {k₀ : Kernel} (h : KInv F K A k₀ fl efl)
    (hK : Guarded K) (hG : ∀ k ev, G k ev → Clean k ev ∧ Grants A ev) (hr : Reach G k₀ k) :
    ∃ fl' efl', KInv F K A k fl' efl' := by
  induction hr with
  | init => exact ⟨fl, efl, h⟩
  | step _ hg hs ih =>
    obtain ⟨fl₁, efl₁, h1⟩ := ih
    exact h1.step hK (hG _ _ hg).1 (hG _ _ hg).2 hs

end Jos
