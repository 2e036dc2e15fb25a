import Jos.Proof.Boot

/-!
# Isolation of address spaces

* `translate_isolated`: in every clean run, a page call on one environment changes no
  translation below `UTOP` in another, if the address it changes is in slot 0 of the
  PML4. (`UTOP` is above the end of that slot, and slot 1 is shared by all.)
* `kernel_leaf_fixed`: in every clean run, the leaf entries from `UTOP` to `UVPT` stay
  what they were after boot.
-/

namespace Jos

open Lib

variable {F : Set ℕ} {K : Vpn → Option PTE} {A : PTE → Prop} {R : Roots} {k k₀ k' : Kernel}
variable {m m' : Pmap} {fl fl' : List ℕ} {efl : List EnvIdx} {cur a b e src dst : EnvIdx} {x : ℤ}
variable {t r : ℕ} {va dva srcva dstva : VA} {perm : BitVec 32} {o : Outcome} {call : Syscall}

/-! ## The translation of an environment -/

/-- **The translation reads only the tables of two trees**: that of the environment, and
the kernel's. -/
theorem Wf.translate_congr (h : Wf R m fl) (hr : R (.env b) = some r) (hva : va < utop)
    (hm : ∀ o π t, o = .env b ∨ o = .kern → (tables R m).At o π t → m'.mem t = m.mem t) :
    translate m' r va = translate m r va := by
  have hread : ∀ {o π t} (i : Idx), o = .env b ∨ o = .kern → (tables R m).At o π t →
      presentAt m' t i = presentAt m t i := by
    intro o π t i ho ht
    unfold presentAt; rw [hm o π t ho ht]
  have howner : ownerOf b va = .env b ∨ ownerOf b va = .kern := by
    unfold ownerOf; split
    · exact Or.inl rfl
    · exact Or.inr rfl
  have hpath := inTree_path (e := b) hva
  have h1 : inTree (ownerOf b va) [pml4 va] := inTree_one.2 (slot_ownerOf hva)
  have h2 : inTree (ownerOf b va) ([pml4 va] ++ [pdpe va]) := ⟨by simp, hpath.2⟩
  have h3 : inTree (ownerOf b va) ([pml4 va, pdpe va] ++ [pdx va]) := hpath
  unfold translate
  rw [hread (pml4 va) (Or.inl rfl) (root_at hr)]
  -- the table that the PML4 links to is in the tree of the owner of the address
  obtain ⟨s, hs, hrs⟩ := h.owner_root hr (slot_ownerOf hva)
  refine Option.bind_congr fun e4 he4 => ?_
  obtain ⟨rfl, hp4⟩ := presentAt_eq_some.1 he4
  have ht1 : (tables R m).At (ownerOf b va) [pml4 va] (ppn (m.mem r (pml4 va))) := by
    rw [hrs] at hp4 ⊢
    exact child_at (root_at hs) h1 hp4
  rw [hread (pdpe va) howner ht1]
  refine Option.bind_congr fun e3 he3 => ?_
  obtain ⟨rfl, hp3⟩ := presentAt_eq_some.1 he3
  have ht2 := child_at ht1 h2 hp3
  rw [hread (pdx va) howner ht2]
  refine Option.bind_congr fun e2 he2 => ?_
  obtain ⟨rfl, hp2⟩ := presentAt_eq_some.1 he2
  rw [hread (ptx va) howner (child_at ht2 h3 hp2)]

/-- The memory changes only in the tables of environment `a`, and on free pages. -/
def Within (k : Kernel) (fl : List ℕ) (a : EnvIdx) (m : Pmap) : Prop :=
  ∀ t, (∀ π, ¬ (tables (roots k) k.pm).At (.env a) π t) → t ∉ fl → m.mem t = k.pm.mem t

theorem Restored.within (hr : Restored k.pm m fl) : Within k fl a m := fun t _ hf => hr.mem t hf

/-- Such a change leaves the translations of the other environments alone. -/
theorem KInv.translate_within (h : KInv F K A k fl efl) (hb : k.Live b) (hab : a ≠ b)
    (hva : va < utop) (he : SameEnvs k k') (hm : Within k fl a k'.pm) :
    k'.translate b va = k.translate b va := by
  unfold Kernel.translate
  rw [(he.env b).pml4e]
  refine Option.bind_congr fun r hr => ?_
  have hw := h.inv.sound.wf
  refine hw.translate_congr (by rw [roots_env hb]; exact hr) hva fun o π t ho ht => ?_
  refine hm t (fun π' ht' => ?_) fun hf => hw.free_node t hf ht.node
  obtain ⟨rfl, -⟩ := hw.unshared ht ht'
  rcases ho with ho | ho
  · exact hab (by simpa using ho)
  · cases ho

/-! ## The page calls -/

/-- **A clean page call on `a`, in slot 0**, changes only the tables of `a`. -/
theorem KInv.exec_within (h : KInv F K A k fl efl) (hc : k.Live cur) (hok : CleanCall k cur call)
    (ht : call.Targets k cur a dva) (hlow : dva < utop → dva &&& 0xFFF = 0 → pml4 dva = 0)
    (hs : call.exec k cur = some o) : SameEnvs k o.state ∧ Within k fl a o.state.pm := by
  cases h.effect hc hok hs with
  | same he hr => exact ⟨he, hr.within⟩
  | @map e va perm pp m₁ fl₁ fl' _ he hva _ hsrc hi hT _ =>
    obtain ⟨rfl, rfl, hal⟩ := hT a dva ht
    have ho : ownerOf a dva = .env a := if_pos (hlow hva hal)
    refine ⟨he, fun t hn hf => ?_⟩
    cases hsrc with
    | fresh h0 =>
      subst h0
      rw [List.mem_cons, not_or] at hf
      obtain ⟨-, hat, -⟩ := h.inv.sound.wf.taken true
      rw [hi.off (fun π hp => hn π (by rw [ho] at hp; exact (hat _ _ _).1 hp)) hf.2]
      funext j
      exact taken_mem_of_ne hf.1
    | copy => exact hi.off (by rw [ho]; exact hn) hf
  | @unmap e va q he hva hq _ hm hT =>
    obtain ⟨rfl, rfl, hal⟩ := hT a dva ht
    have ho : ownerOf a dva = .env a := if_pos (hlow hva hal)
    refine ⟨he, fun t hn _ => ?_⟩
    have htq : t ≠ q := by rintro rfl; exact hn _ (ho ▸ hq)
    funext j
    rw [hm, removeAt_mem, Pmap.write_mem_of_ne fun hc => htq hc.1]
  | destroy _ _ hn => exact absurd ht (hn a dva)
  | fork _ _ _ _ hn => exact absurd ht (hn a dva)

/-- **Isolation.** After any clean run, a clean page call that targets `a` at an address
in slot 0 of the PML4 leaves every translation of every other environment below `UTOP`
as it was, whether it succeeds or fails. -/
theorem translate_isolated (hboot : Boot k₀ fl) (hr : Reach Clean k₀ k) (hcur : k.Enters cur)
    (hb : k.Live b) (hab : a ≠ b) (ht : call.Targets k cur a dva)
    (hok : CleanCall k cur call) (hlow : dva < utop → dva &&& 0xFFF = 0 → pml4 dva = 0)
    (hs : call.exec k cur = some o) (hva : va < utop) : o.state.translate b va = k.translate b va := by
  obtain ⟨fl', efl, h⟩ := hboot.reach (fun _ _ => Clean.grants_true) hr
  obtain ⟨h1, h2⟩ := h.exec_within hcur.1 hok ht hlow hs
  exact h.translate_within hb hab hva h1 h2

/-- It applies to the first program, which allocates a page, and its child. -/
theorem translate_isolated_boot : ∃ k o, runs bootKernel bootRun = some k ∧ k.Enters 0 ∧ k.Live 1 ∧
    (Syscall.pageAlloc 0 0x1000 7).exec k 0 = some o ∧
    o.state.translate 1 0x1000 = k.translate 1 0x1000 := by
  have h : ((runs bootKernel bootRun).any fun k => decide (k.Enters 0) && decide (k.Live 1) &&
      ((Syscall.pageAlloc 0 0x1000 7).exec k 0).isSome) = true := by decide +kernel
  obtain ⟨k, hk, h⟩ := (Option.any_eq_true _ _).1 h
  simp only [Bool.and_eq_true, decide_eq_true_eq] at h
  obtain ⟨⟨h1, h2⟩, h3⟩ := h
  obtain ⟨o, ho⟩ := Option.isSome_iff_exists.1 h3
  have ht : (Syscall.pageAlloc 0 0x1000 7).Targets k 0 0 0x1000 := ⟨rfl, rfl⟩
  have hok : CleanCall k 0 (.pageAlloc 0 0x1000 7) := trivial
  exact ⟨k, o, hk, h1, h2, ho, translate_isolated boot_bootKernel (reach_bootRun hk) h1 h2
    (by decide) ht hok (fun _ _ => by decide) ho (by decide)⟩

/-- **Slot 1 is shared**: a page that the first program allocates at `0x8000000000`,
below `UTOP`, appears in its child. -/
theorem isolation_shared_slot : ∃ k o, Reach (fun _ _ => True) bootKernel k ∧
    (k.Enters 0 ∧ k.Live 1) ∧ (Syscall.pageAlloc 0 0x8000000000 7).Targets k 0 0 0x8000000000 ∧
    0x8000000000#64 < utop ∧ (Syscall.pageAlloc 0 0x8000000000 7).exec k 0 = some o ∧
    o.state.translate 1 0x8000000000 ≠ k.translate 1 0x8000000000 := by
  have h : ((runs bootKernel bootRun).any fun k => decide (k.Enters 0) && decide (k.Live 1) &&
      ((Syscall.pageAlloc 0 0x8000000000 7).exec k 0).any fun o =>
        (k.translate 1 0x8000000000).isNone && (o.state.translate 1 0x8000000000).isSome) = true := by
    decide +kernel
  obtain ⟨k, hk, h⟩ := (Option.any_eq_true _ _).1 h
  simp only [Bool.and_eq_true, decide_eq_true_eq, Option.any_eq_true, Option.isNone_iff_eq_none] at h
  obtain ⟨⟨h1, h2⟩, o, ho, h3, h4⟩ := h
  refine ⟨k, o, reach_any hk, ⟨h1, h2⟩, ⟨rfl, rfl⟩, by decide, ho, fun he => ?_⟩
  rw [he, h3] at h4
  cases h4

/-! ## The kernel's mappings -/

/-- The slot and the indices of an address from `UTOP` to `UVPT`. -/
theorem above_utop (h1 : utop ≤ va) (h2 : va < uvpt) :
    pml4 va = 1 ∧ ¬ User (.kern, vpn va) := by
  have h3 : 0x8000800000 ≤ va.toNat := by rw [← utop_toNat]; exact h1
  have h4 : va.toNat < 0x10000000000 := h2
  have e4 := field_val va 39
  have e3 := field_val va 30
  have e2 := field_val va 21
  refine ⟨?_, fun hu => ?_⟩
  · ext; unfold pml4; rw [e4]; simp; omega
  · obtain ⟨hu1, hu2⟩ : pdpe va = 0 ∧ (pdx va).val < 4 := hu
    have hu1 := congrArg Fin.val hu1
    unfold pdpe at hu1
    unfold pdx at hu2
    rw [e3] at hu1
    rw [e2] at hu2
    simp at hu1
    omega

/-- **The kernel's mappings are fixed.** In every state of a clean run, every address from
`UTOP` to `UVPT` resolves, in every environment, to the leaf entry that the kernel gave
it at boot. -/
theorem kernel_leaf_fixed (hboot : Boot k₀ fl) (hr : Reach Clean k₀ k) (he : k.Live e)
    (h1 : utop ≤ va) (h2 : va < uvpt) :
    k.leafEntry e va = leafEntry k₀.pm k₀.pm.bootPml4e va := by
  obtain ⟨fl', efl, h⟩ := hboot.reach (fun _ _ => Clean.grants_true) hr
  obtain ⟨h3, h4⟩ := above_utop h1 h2
  obtain ⟨r, hr, hroot⟩ := h.pml4e he
  have ho : ownerOf e va = .kern := if_neg (by rw [h3]; decide)
  have hs : pml4 va = slot (ownerOf e va) := by rw [ho, h3]; rfl
  have hk := h.inv.sound.wf.leafEntry_slot hroot hs
  have hb : leafEntry k₀.pm k₀.pm.bootPml4e va = view (roots k₀) k₀.pm (.kern, vpn va) := by
    rw [leafEntry_eq]
    unfold view
    exact (if_pos h3).symm
  rw [hb]
  unfold Kernel.leafEntry
  rw [hr]
  exact hk.trans ((congrArg _ (by rw [ho])).trans (h.inv.kern _ h4))

/-- It applies to the first program and its child. -/
theorem kernel_leaf_fixed_boot : ∃ k, runs bootKernel bootRun = some k ∧ k.Live 1 ∧
    k.leafEntry 1 utop = leafEntry bootKernel.pm bootKernel.pm.bootPml4e utop := by
  have h : ((runs bootKernel bootRun).any fun k => decide (k.Live 1)) = true := by decide +kernel
  obtain ⟨k, hk, h⟩ := (Option.any_eq_true _ _).1 h
  have hl := of_decide_eq_true h
  exact ⟨k, hk, hl, kernel_leaf_fixed boot_bootKernel (reach_bootRun hk) hl (by decide) (by decide)⟩

/-- The child waits for a page at `UTOP`, and the parent has one to send. -/
def sendAboveRun : List Event := bootRun ++
  [.syscall 0 (.envSetStatus 0x1001 2), .run (some 0) 1, .syscall 1 (.ipcRecv utop), .run none 0,
    .syscall 0 (.pageAlloc 0 0x1000 7)]

/-- **A page sent to `UTOP`** replaces the kernel's entry there. -/
theorem send_above_utop : ∃ k o, Reach (fun _ _ => True) bootKernel k ∧ (k.Enters 0 ∧ k.Live 1) ∧
    (Syscall.ipcTrySend 0x1001 0 0x1000 7).exec k 0 = some o ∧
    o.state.leafEntry 1 utop ≠ k.leafEntry 1 utop := by
  have h : ((runs bootKernel sendAboveRun).any fun k => decide (k.Enters 0) && decide (k.Live 1) &&
      ((Syscall.ipcTrySend 0x1001 0 0x1000 7).exec k 0).any fun o =>
        o.state.leafEntry 1 utop != k.leafEntry 1 utop) = true := by
    decide +kernel
  obtain ⟨k, hk, h⟩ := (Option.any_eq_true _ _).1 h
  simp only [Bool.and_eq_true, decide_eq_true_eq, Option.any_eq_true, bne_iff_ne] at h
  obtain ⟨⟨h1, h2⟩, o, ho, h3⟩ := h
  exact ⟨k, o, reach_any hk, ⟨h1, h2⟩, ho, h3⟩

end Jos
