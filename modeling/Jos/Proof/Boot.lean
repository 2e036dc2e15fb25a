import Jos.Proof.Step

/-!
# The state after boot

`Boot` is what `x64_vm_init` and `env_init` leave: well-formed kernel tables with
nothing mapped below `UTOP` and no entry that lets user code write, and no environment.
`bootKernel` is such a state, of a machine with 8 MB.
-/

namespace Jos

open Lib

/-- **The state after boot.** -/
structure Boot (k : Kernel) (fl : List ℕ) : Prop where
  wf : Wf (roots k) k.pm fl
  dead : ∀ e, ¬ k.Live e
  envs : ∃ efl, Chain k.link k.envFreeList efl ∧ ∀ e, e ∈ efl
  empty : ∀ v, User (.kern, v) → view (roots k) k.pm (.kern, v) = none
  guarded : Guarded fun v => view (roots k) k.pm (.kern, v)

variable {k : Kernel} {fl : List ℕ} {A : PTE → Prop}

/-- The invariant holds after boot, for the pages that are free then and the kernel's
mappings that are there then. -/
theorem Boot.inv (h : Boot k fl) : ∃ efl, KInv {p | k.pm.OnFreeList p}
    (fun v => view (roots k) k.pm (.kern, v)) A k fl efl := by
  obtain ⟨efl, h1, h2⟩ := h.envs
  have hroot : ∀ e, roots k (.env e) = none := fun e => if_neg (h.dead e)
  have hnode : ∀ e π p, ¬ (tables (roots k) k.pm).At (.env e) π p := by
    intro e π p hp
    obtain ⟨t, ht⟩ := Forest.At.prefix (π := []) hp
    have := Forest.at_nil.1 ht
    change roots k (.env e) = some t at this
    rw [hroot e] at this; cases this
  have hview : ∀ s, User s → view (roots k) k.pm s = none := by
    rintro ⟨o, a, b, c, d⟩ hs
    cases o with
    | kern => exact h.empty _ hs
    | env e =>
      refine Option.eq_none_iff_forall_ne_some.2 fun v hv => ?_
      obtain ⟨t, ht, -⟩ := view_eq_some.1 hv
      exact hnode e _ t ht
  have htarget : ∀ s, targets (roots k) k.pm s = none := by
    intro s
    unfold targets
    split
    · rename_i hs; rw [hview s hs]; rfl
    · rfl
  refine ⟨efl, ⟨⟨h.wf, fun p => ?_⟩, fun p hp => h.wf.free.onFreeList.2 hp, fun s p hp => ?_,
    fun e π p hp => absurd hp (hnode e π p), fun v _ => rfl, fun s v hs hv => ?_⟩,
    fun e he => absurd he (h.dead e), h1, fun e => ⟨fun _ => h.dead e, fun _ => h2 e⟩⟩
  · have h3 : refs (targets (roots k) k.pm) p = 0 :=
      refs_eq_zero.2 fun s hs => by rw [htarget s] at hs; cases hs
    omega
  · rw [htarget s] at hp; cases hp
  · rw [hview s hs] at hv; cases hv

variable {k₀ : Kernel} {G : Kernel → Event → Prop}

/-- **Every clean run keeps the invariant**, relative to the state after boot. -/
theorem Boot.reach (h : Boot k₀ fl) (hG : ∀ k ev, G k ev → Clean k ev ∧ Grants A ev)
    (hr : Reach G k₀ k) : ∃ fl' efl, KInv {p | k₀.pm.OnFreeList p}
      (fun v => view (roots k₀) k₀.pm (.kern, v)) A k fl' efl := by
  obtain ⟨efl, h1⟩ := h.inv
  exact h1.reach h.guarded hG hr

/-- A run of `G` is a run of a weaker condition. -/
theorem Reach.mono {G' : Kernel → Event → Prop} (h : ∀ k ev, G k ev → G' k ev) (hr : Reach G k₀ k) :
    Reach G' k₀ k := by
  induction hr with
  | init => exact .init
  | step _ hg hs ih => exact .step ih (h _ _ hg) hs

theorem Clean.grants_true {ev : Event} (h : Clean k ev) :
    Clean k ev ∧ Grants (fun _ => True) ev := by
  refine ⟨h, ?_⟩
  cases ev with
  | syscall cur call =>
    unfold Grants Syscall.Grants
    cases call <;> simp
  | _ => exact fun _ _ _ _ => trivial

/-- A list of events that meet the condition in any state is a run. -/
theorem reach_of_runs {evs : List Event} (hG : ∀ ev ∈ evs, ∀ k, G k ev) (h : runs k₀ evs = some k) :
    Reach G k₀ k :=
  loop_inv (P := fun k => Reach G k₀ k)
    (fun ev hev b _ hb hs => .step hb (hG ev hev b) hs) h .init

/-! ## A machine with 8 MB -/

/-- The entry of a page directory or above. -/
def linkTo (p : ℕ) : PTE := page2pa p ||| pteP ||| pteW ||| pteU

/-- The page tables of the kernel, by index in its page directory: `UENVS`, `UPAGES`, the
kernel stacks and the map of all memory. -/
def bootTable (i : Idx) : Option ℕ :=
  if i.val = 4 then some 2044
  else if i.val = 5 then some 2045
  else if i.val = 31 then some 2043
  else if 32 ≤ i.val ∧ i.val ≤ 35 then some (2042 - (i.val - 32))
  else none

/-- The entries of these tables. -/
def bootLeaf (t : ℕ) (i : Idx) : PTE :=
  if t = 2044 then if i.val < 75 then page2pa (310 + i.val) ||| (pteU ||| pteP) else 0
  else if t = 2045 then if i.val < 8 then page2pa (302 + i.val) ||| (pteU ||| pteP) else 0
  else if t = 2043 then
    if 320 ≤ i.val ∧ 8 ≤ (i.val - 320) % 24 then page2pa (400 + i.val) ||| (pteW ||| pteP) else 0
  else if 2039 ≤ t ∧ t ≤ 2042 then page2pa ((2042 - t) * 512 + i.val) ||| (pteW ||| pteP)
  else 0

def bootMem (t : ℕ) (i : Idx) : PTE :=
  if t = 300 then if i = 1 then linkTo 2047 else 0
  else if t = 2047 then if i = 0 then linkTo 2046 else 0
  else if t = 2046 then
    match bootTable i with
    | some p => linkTo p
    | none => 0
  else bootLeaf t i

/-- The free pages: 1 to 6 below `MPENTRY_PADDR`, and 1024 to 2038 above the kernel. -/
def bootFree (p : ℕ) : Prop := (1 ≤ p ∧ p ≤ 6) ∨ (1024 ≤ p ∧ p ≤ 2038)

instance (p : ℕ) : Decidable (bootFree p) := inferInstanceAs (Decidable (_ ∨ _))

def bootPages (p : ℕ) : PageInfo where
  ppLink :=
    if 1024 < p ∧ p ≤ 2038 then some (p - 1) else if p = 1024 then some 6
    else if 1 < p ∧ p ≤ 6 then some (p - 1) else none
  ppRef := if 160 ≤ p ∧ p < 2048 ∧ ¬ bootFree p then 1 else 0

def bootPmap : Pmap where
  npages := 2048
  pages := bootPages
  pageFreeList := some 2038
  mem := bootMem
  bootPml4e := 300

/-- A zeroed `struct Env`, with its place on the list. -/
def bootEnv (e : EnvIdx) : Env where
  envTf := {}
  envLink := if h : e.val + 1 < nenv then some ⟨e.val + 1, h⟩ else none
  envId := 0
  envParentId := 0
  envType := .user
  envStatus := .free
  envRuns := 0
  envCpunum := 0
  envPml4e := none
  envCr3 := 0
  envPgfaultUpcall := 0
  envIpcRecving := false
  envIpcDstva := 0
  envIpcValue := 0
  envIpcFrom := 0
  envIpcPerm := 0
  elf := 0

def bootKernel : Kernel where
  pm := bootPmap
  envs := bootEnv
  envFreeList := some 0

/-- A program with one page of text. -/
def bootBinary : Binary where
  elf := 0x8004200000
  entry := 0x800020
  segments := [(0x800000, 0x1000)]

/-- `page_free_list` of the machine. -/
def bootList : List ℕ := ((List.range 1015).map (2038 - ·)) ++ [6, 5, 4, 3, 2, 1]

theorem mem_bootList {p : ℕ} : p ∈ bootList ↔ bootFree p := by
  unfold bootList bootFree
  simp only [List.mem_append, List.mem_map, List.mem_range, List.mem_cons, List.not_mem_nil, or_false]
  constructor
  · rintro (⟨i, hi, rfl⟩ | h)
    · right; omega
    · left; omega
  · rintro (h | h)
    · right; omega
    · exact Or.inl ⟨2038 - p, by omega, by omega⟩

theorem bootList_chain : Chain bootPmap.link (some 2038) bootList := by
  have hlow : Chain bootPmap.link (some 6) [6, 5, 4, 3, 2, 1] := by
    have hl : ∀ p, 1 < p → p ≤ 6 → bootPmap.link p = some (p - 1) := by
      intro p h1 h2
      change (bootPages p).ppLink = some (p - 1)
      unfold bootPages
      simp only [if_neg (show ¬ (1024 < p ∧ p ≤ 2038) by omega), if_neg (show ¬ p = 1024 by omega),
        if_pos (And.intro h1 h2)]
    refine .cons ?_
    rw [hl 6 (by decide) (by decide)]; refine .cons ?_
    rw [hl 5 (by decide) (by decide)]; refine .cons ?_
    rw [hl 4 (by decide) (by decide)]; refine .cons ?_
    rw [hl 3 (by decide) (by decide)]; refine .cons ?_
    rw [hl 2 (by decide) (by decide)]; refine .cons ?_
    exact .nil
  -- from page 1024 + n down
  have key : ∀ n, n ≤ 1014 → Chain bootPmap.link (some (1024 + n))
      (((List.range (n + 1)).map (1024 + n - ·)) ++ [6, 5, 4, 3, 2, 1]) := by
    intro n
    induction n with
    | zero =>
      intro _
      exact .cons hlow
    | succ n ih =>
      intro hn
      have h1 : bootPmap.link (1024 + (n + 1)) = some (1024 + n) := by
        change (bootPages _).ppLink = _
        unfold bootPages
        simp only [if_pos (show 1024 < 1024 + (n + 1) ∧ 1024 + (n + 1) ≤ 2038 by omega)]
        rfl
      have h2 : (List.range (n + 1 + 1)).map (1024 + (n + 1) - ·) =
          (1024 + (n + 1)) :: (List.range (n + 1)).map (1024 + n - ·) := by
        rw [List.range_succ_eq_map, List.map_cons, List.map_map]
        refine congrArg _ (List.map_congr_left fun i _ => ?_)
        simp only [Function.comp]; omega
      rw [h2]
      refine .cons ?_
      rw [h1]
      exact ih (by omega)
  exact key 1014 le_rfl

theorem bootFree_ok : FreeOK bootPmap bootList := by
  refine ⟨by decide, bootList_chain, fun p hp => ?_, fun p hp => ?_, fun p hp => ?_⟩
  · rw [mem_bootList] at hp
    unfold bootFree at hp
    change p < 2048; omega
  · rw [mem_bootList] at hp
    change (bootPages p).ppRef = 0
    unfold bootPages
    exact if_neg fun h => h.2.2 hp
  · rw [mem_bootList] at hp
    change (bootPages p).ppLink = none
    unfold bootPages
    unfold bootFree at hp
    simp only
    rw [if_neg (by omega), if_neg (by omega), if_neg (by omega)]

/-! ### Its tables -/

theorem flag_linkTo (p : ℕ) : flag (linkTo p) pteP = true := flag_link p

theorem next_linkTo {m : Pmap} {t p : ℕ} {i : Idx} (h : m.mem t i = linkTo p) (hp : p < 2 ^ 52) :
    next m t i = some p := next_eq_some.2 ⟨by rw [h]; exact flag_linkTo p, by rw [h]; exact ppn_link hp⟩

theorem next_zero {m : Pmap} {t : ℕ} {i : Idx} (h : m.mem t i = 0) : next m t i = none :=
  next_eq_none.2 (by rw [h]; exact flag_zero _)

theorem bootTable_lt {i : Idx} {p : ℕ} (h : bootTable i = some p) : 2039 ≤ p ∧ p ≤ 2045 := by
  unfold bootTable at h
  split at h
  · cases h; decide
  split at h
  · cases h; decide
  split at h
  · cases h; decide
  split at h
  · cases h; omega
  · cases h

theorem bootTable_inj {i j : Idx} {p : ℕ} (hi : bootTable i = some p) (hj : bootTable j = some p) :
    i = j := by
  ext
  unfold bootTable at hi hj
  split at hi <;> split at hj <;> (try split at hi) <;> (try split at hj) <;> (try split at hi) <;>
    (try split at hj) <;> (try split at hi) <;> (try split at hj) <;>
    simp only [Option.some.injEq, reduceCtorEq] at hi hj <;> omega

theorem boot_next {t : ℕ} {i : Idx} {p : ℕ} (h : next bootPmap t i = some p)
    (ht : t = 300 ∨ t = 2047 ∨ t = 2046) :
    (t = 300 ∧ i = 1 ∧ p = 2047) ∨ (t = 2047 ∧ i = 0 ∧ p = 2046) ∨ (t = 2046 ∧ bootTable i = some p) := by
  rcases ht with rfl | rfl | rfl
  · left
    by_cases hi : i = 1
    · subst hi
      rw [next_linkTo (p := 2047) rfl (by decide)] at h
      exact ⟨rfl, rfl, (Option.some.inj h).symm⟩
    · rw [next_zero (if_neg hi)] at h; cases h
  · right; left
    by_cases hi : i = 0
    · subst hi
      rw [next_linkTo (p := 2046) rfl (by decide)] at h
      exact ⟨rfl, rfl, (Option.some.inj h).symm⟩
    · rw [next_zero (if_neg hi)] at h; cases h
  · right; right
    have hm : bootPmap.mem 2046 i = match bootTable i with
      | some p => linkTo p
      | none => 0 := rfl
    cases hb : bootTable i with
    | none => rw [hb] at hm; rw [next_zero hm] at h; cases h
    | some q =>
      rw [hb] at hm
      have := bootTable_lt hb
      rw [next_linkTo hm (by omega)] at h
      exact ⟨rfl, h⟩

theorem boot_top : next bootPmap 300 1 = some 2047 := next_linkTo (p := 2047) rfl (by decide)

theorem boot_dir : next bootPmap 2047 0 = some 2046 := next_linkTo (p := 2046) rfl (by decide)

/-- The roots after boot. -/
theorem roots_boot : roots bootKernel (.kern) = some 300 ∧ ∀ e, roots bootKernel (.env e) = none := by
  have hd : ∀ e, ¬ bootKernel.Live e := fun e h => h rfl
  refine ⟨rfl, fun e => ?_⟩
  unfold roots
  exact if_neg (hd e)

/-- The tables of the machine. -/
theorem boot_at {o : Owner} {π : List Idx} {t : ℕ} :
    (tables (roots bootKernel) bootPmap).At o π t ↔ o = .kern ∧
      ((π = [] ∧ t = 300) ∨ (π = [1] ∧ t = 2047) ∨ (π = [1, 0] ∧ t = 2046) ∨
        ∃ c, π = [1, 0, c] ∧ bootTable c = some t) := by
  induction π using List.reverseRecOn generalizing t with
  | nil =>
    rw [Forest.at_nil]
    change roots bootKernel o = some t ↔ _
    cases o with
    | kern =>
      rw [roots_boot.1]
      constructor
      · intro h; exact ⟨rfl, Or.inl ⟨rfl, (Option.some.inj h).symm⟩⟩
      · rintro ⟨-, ⟨-, rfl⟩ | ⟨h, -⟩ | ⟨h, -⟩ | ⟨c, h, -⟩⟩
        · rfl
        · cases h
        · cases h
        · cases h
    | env e =>
      rw [roots_boot.2]
      simp
  | append_singleton π i ih =>
    rw [Forest.at_append]
    constructor
    · rintro ⟨hd, s, hs, hn⟩
      obtain ⟨rfl, h⟩ := ih.1 hs
      refine ⟨rfl, ?_⟩
      change next bootPmap s i = some t at hn
      rcases h with ⟨rfl, rfl⟩ | ⟨rfl, rfl⟩ | ⟨rfl, rfl⟩ | ⟨c, rfl, -⟩
      · rcases boot_next hn (by decide) with ⟨-, rfl, rfl⟩ | ⟨h, -⟩ | ⟨h, -⟩
        · exact Or.inr (Or.inl ⟨rfl, rfl⟩)
        · cases h
        · cases h
      · rcases boot_next hn (by decide) with ⟨h, -⟩ | ⟨-, rfl, rfl⟩ | ⟨h, -⟩
        · cases h
        · exact Or.inr (Or.inr (Or.inl ⟨rfl, rfl⟩))
        · cases h
      · rcases boot_next hn (by decide) with ⟨h, -⟩ | ⟨h, -⟩ | ⟨-, h⟩
        · cases h
        · cases h
        · exact Or.inr (Or.inr (Or.inr ⟨i, rfl, h⟩))
      · exact absurd hd.1 (by simp)
    · rintro ⟨rfl, h⟩
      have hcase : (π = [] ∧ i = 1 ∧ t = 2047) ∨ (π = [1] ∧ i = 0 ∧ t = 2046) ∨
          (π = [1, 0] ∧ bootTable i = some t) := by
        rcases h with ⟨h, -⟩ | ⟨h, rfl⟩ | ⟨h, rfl⟩ | ⟨c, h, hc⟩
        · simp at h
        · obtain ⟨h1, h2⟩ := List.append_inj' (show π ++ [i] = [] ++ [1] from h) rfl
          exact Or.inl ⟨h1, List.singleton_inj.1 h2, rfl⟩
        · obtain ⟨h1, h2⟩ := List.append_inj' (show π ++ [i] = [1] ++ [0] from h) rfl
          exact Or.inr (Or.inl ⟨h1, List.singleton_inj.1 h2, rfl⟩)
        · obtain ⟨h1, h2⟩ := List.append_inj' (show π ++ [i] = [1, 0] ++ [c] from h) rfl
          rw [← List.singleton_inj.1 h2] at hc
          exact Or.inr (Or.inr ⟨h1, hc⟩)
      rcases hcase with ⟨rfl, rfl, rfl⟩ | ⟨rfl, rfl, rfl⟩ | ⟨rfl, hc⟩
      · exact ⟨by simp [tables, inTree, slot], 300, ih.2 ⟨rfl, Or.inl ⟨rfl, rfl⟩⟩, boot_top⟩
      · exact ⟨by simp [tables, inTree, slot], 2047, ih.2 ⟨rfl, Or.inr (Or.inl ⟨rfl, rfl⟩)⟩,
          boot_dir⟩
      · refine ⟨by simp [tables, inTree, slot], 2046,
          ih.2 ⟨rfl, Or.inr (Or.inr (Or.inl ⟨rfl, rfl⟩))⟩, ?_⟩
        have hm : bootPmap.mem 2046 i = linkTo t := by
          change (match bootTable i with
            | some p => linkTo p
            | none => 0) = linkTo t
          rw [hc]
        have := bootTable_lt hc
        exact next_linkTo hm (by omega)

/-- A leaf entry of the machine: present, and not both writable and open to user code. -/
theorem bootLeaf_cases {t : ℕ} {i : Idx} : bootLeaf t i = 0 ∨
    (flag (bootLeaf t i) pteP = true ∧ ¬ (flag (bootLeaf t i) pteW = true ∧ flag (bootLeaf t i) pteU = true)) := by
  have hu : ∀ p, flag (page2pa p ||| (pteU ||| pteP)) pteP = true ∧
      ¬ (flag (page2pa p ||| (pteU ||| pteP)) pteW = true ∧
        flag (page2pa p ||| (pteU ||| pteP)) pteU = true) := fun p => by
    rw [flag_or (by decide), flag_or (by decide), flag_or (by decide)]; decide
  have hw : ∀ p, flag (page2pa p ||| (pteW ||| pteP)) pteP = true ∧
      ¬ (flag (page2pa p ||| (pteW ||| pteP)) pteW = true ∧
        flag (page2pa p ||| (pteW ||| pteP)) pteU = true) := fun p => by
    rw [flag_or (by decide), flag_or (by decide), flag_or (by decide)]; decide
  unfold bootLeaf
  split
  · split
    · exact Or.inr (hu _)
    · exact Or.inl rfl
  split
  · split
    · exact Or.inr (hu _)
    · exact Or.inl rfl
  split
  · split
    · exact Or.inr (hw _)
    · exact Or.inl rfl
  split
  · exact Or.inr (hw _)
  · exact Or.inl rfl

theorem bootMem_leaf {t : ℕ} (h : 2039 ≤ t ∧ t ≤ 2045) : bootMem t = bootLeaf t := by
  funext i
  unfold bootMem
  rw [if_neg (by omega), if_neg (by omega), if_neg (by omega)]

/-- **The machine has booted.** -/
theorem boot_bootKernel : Boot bootKernel bootList := by
  have hnode : ∀ {t}, (tables (roots bootKernel) bootPmap).Node t →
      t = 300 ∨ (2039 ≤ t ∧ t ≤ 2047) := by
    rintro t ⟨o, π, ht⟩
    obtain ⟨-, ⟨-, h⟩ | ⟨-, h⟩ | ⟨-, h⟩ | ⟨c, -, hc⟩⟩ := boot_at.1 ht
    · exact Or.inl h
    · right; omega
    · right; omega
    · have := bootTable_lt hc
      right; omega
  refine ⟨⟨bootFree_ok, fun p hp hn => ?_, ?_, fun p hp => ?_, fun o π p hp hne => ?_,
    fun p hp i hi => ?_, roots_boot.1, ⟨2046, boot_at.2 ⟨rfl, by simp⟩⟩, fun e r hr => ?_,
    fun s v hs hv => ?_⟩, fun e h => h rfl, ?_, fun v hv => ?_, fun v x hx => ?_⟩
  · rw [mem_bootList] at hp
    unfold bootFree at hp
    rcases hnode hn with h | h <;> omega
  · intro o π o' π' n hn hn'
    obtain ⟨rfl, h1⟩ := boot_at.1 hn
    obtain ⟨rfl, h2⟩ := boot_at.1 hn'
    refine ⟨rfl, ?_⟩
    rcases h1 with ⟨rfl, rfl⟩ | ⟨rfl, rfl⟩ | ⟨rfl, rfl⟩ | ⟨c, rfl, hc⟩ <;>
      rcases h2 with ⟨rfl, h2⟩ | ⟨rfl, h2⟩ | ⟨rfl, h2⟩ | ⟨c', rfl, hc'⟩
    all_goals first
      | rfl
      | (exfalso; omega)
      | (exfalso; have := bootTable_lt hc'; omega)
      | (exfalso; have := bootTable_lt hc; omega)
      | rw [bootTable_inj hc hc']
  · change p < 2048
    rcases hnode hp with h | h <;> omega
  · change (bootPages p).ppRef = 1
    unfold bootPages
    have h1 := hnode hp.node
    refine if_pos ⟨by omega, by omega, ?_⟩
    unfold bootFree
    omega
  · change flag (bootMem p i) pteP = false at hi
    change bootMem p i = 0
    rcases hp with ⟨o, π, hp⟩
    obtain ⟨-, ⟨-, rfl⟩ | ⟨-, rfl⟩ | ⟨-, rfl⟩ | ⟨c, -, hc⟩⟩ := boot_at.1 hp
    · by_cases h1 : i = 1
      · subst h1; exact absurd hi (by rw [show bootMem 300 1 = linkTo 2047 from rfl, flag_linkTo]; simp)
      · exact if_neg h1
    · by_cases h1 : i = 0
      · subst h1; exact absurd hi (by rw [show bootMem 2047 0 = linkTo 2046 from rfl, flag_linkTo]; simp)
      · exact if_neg h1
    · have hm : bootMem 2046 i = match bootTable i with
        | some p => linkTo p
        | none => 0 := rfl
      cases hb : bootTable i with
      | none => rw [hm, hb]
      | some q => rw [hm, hb, flag_linkTo] at hi; cases hi
    · rw [bootMem_leaf (bootTable_lt hc)] at hi ⊢
      rcases bootLeaf_cases (t := p) (i := i) with h | h
      · exact h
      · rw [h.1] at hi; cases hi
  · rw [roots_boot.2] at hr; cases hr
  · obtain ⟨o, a, b, c, d⟩ := s
    obtain ⟨t, ht, -⟩ := view_eq_some.1 hv
    obtain ⟨rfl, h | h | h | ⟨c', h, hc⟩⟩ := boot_at.1 ht
    · cases h.1
    · cases h.1
    · cases h.1
    · cases h
      -- nothing is mapped below `UTOP`
      have h4 : c.val < 4 := hs.2
      unfold bootTable at hc
      rw [if_neg (by omega), if_neg (by omega), if_neg (by omega), if_neg (by omega)] at hc
      cases hc
  · have key : ∀ n, n ≤ 1023 → ∃ l, Chain bootKernel.link (some ⟨1023 - n, Nat.lt_of_le_of_lt (Nat.sub_le _ _) (by decide)⟩) l ∧
        ∀ e : EnvIdx, 1023 - n ≤ e.val → e ∈ l := by
      intro n
      induction n with
      | zero =>
        intro _
        refine ⟨[⟨1023, by decide⟩], .cons ?_, fun e he => ?_⟩
        · exact .nil
        · have h1 : e.val < 1024 := e.isLt
          rw [List.mem_singleton]; ext; simp only; omega
      | succ n ih =>
        intro hn
        obtain ⟨l, h1, h2⟩ := ih (by omega)
        have hlt : 1023 - (n + 1) + 1 < nenv := by
          have : nenv = 1024 := rfl
          omega
        have h3 : bootKernel.link ⟨1023 - (n + 1), Nat.lt_of_succ_lt hlt⟩ =
            some ⟨1023 - n, Nat.lt_of_le_of_lt (Nat.sub_le _ _) (by decide)⟩ := by
          change (bootEnv _).envLink = _
          unfold bootEnv
          simp only
          rw [dif_pos hlt]
          congr 2
          omega
        refine ⟨_, .cons (by rw [h3]; exact h1), fun e he => ?_⟩
        by_cases he' : e.val = 1023 - (n + 1)
        · have : e = ⟨1023 - (n + 1), Nat.lt_of_succ_lt hlt⟩ := Fin.ext he'
          rw [this]; exact List.mem_cons_self
        · exact List.mem_cons_of_mem _ (h2 e (by omega))
    obtain ⟨l, h1, h2⟩ := key 1023 le_rfl
    exact ⟨l, h1, fun e => h2 e (by omega)⟩
  · obtain ⟨a, b, c, d⟩ := v
    refine Option.eq_none_iff_forall_ne_some.2 fun x hx => ?_
    obtain ⟨t, ht, -⟩ := view_eq_some.1 hx
    obtain ⟨-, h | h | h | ⟨c', h, hc⟩⟩ := boot_at.1 ht
    · cases h.1
    · cases h.1
    · cases h.1
    · cases h
      have h4 : c.val < 4 := hv.2
      unfold bootTable at hc
      rw [if_neg (by omega), if_neg (by omega), if_neg (by omega), if_neg (by omega)] at hc
      cases hc
  · obtain ⟨a, b, c, d⟩ := v
    obtain ⟨t, ht, rfl, hp⟩ := view_eq_some.1 hx
    obtain ⟨-, h | h | h | ⟨c', h, hc⟩⟩ := boot_at.1 ht
    · cases h.1
    · cases h.1
    · cases h.1
    · have hm : bootKernel.pm.mem t d = bootLeaf t d := congrFun (bootMem_leaf (bootTable_lt hc)) d
      rw [hm] at hp ⊢
      rcases bootLeaf_cases (t := t) (i := d) with h1 | h1
      · rw [h1] at hp; simp at hp
      · exact h1.2

/-- The first program is loaded, and makes a child. -/
def bootRun : List Event := [.create bootBinary .user, .run none 0, .syscall 0 .exofork]

theorem clean_bootRun : ∀ ev ∈ bootRun, ∀ k, Clean k ev := by
  intro ev hev k
  unfold bootRun at hev
  simp only [List.mem_cons, List.not_mem_nil, or_false] at hev
  rcases hev with rfl | rfl | rfl
  · intro s hs a ha
    unfold bootBinary at hs
    simp only [List.mem_singleton] at hs
    subst hs
    have hp : pagesFrom (roundDown 0x800000 pgsize) (roundUp (0x800000 + 0x1000) pgsize) =
        [0x800000] := by decide
    rw [hp, List.mem_singleton] at ha
    subst ha; decide
  · trivial
  · trivial

theorem reach_bootRun {k : Kernel} (h : runs bootKernel bootRun = some k) : Reach Clean bootKernel k :=
  reach_of_runs clean_bootRun h

/-- Any run. -/
theorem reach_any {evs : List Event} (h : runs k₀ evs = some k) : Reach (fun _ _ => True) k₀ k :=
  reach_of_runs (fun _ _ _ => trivial) h

end Jos
